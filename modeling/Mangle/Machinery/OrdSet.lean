import Mathlib.Data.Set.Basic
import Mathlib.Data.List.Induction
import Mathlib.Data.List.Nodup

/-!
# Machinery/OrdSet — sets kept in the order of a comparison

A set as the list of its elements in ascending order, searched from the front: a search stops at the
first element that compares greater or equal.  The comparison is any function.  Where it is linear
on the elements in question (`LinearOn`) the operations are those of sets.

* `mem_insert`, `sorted_insert`; `remove_fst`, `mem_remove`, `sorted_remove`; `mem_ofList`;
* `LinearOn.prod`, `LinearOn.byKey`, `LinearOn.compareLex` — linear comparisons from linear ones.
-/

namespace Machinery

open List

namespace OrdSet

variable {α : Type} (cmp : α → α → Ordering)

/-- Enter an element, unless one that compares equal is there. -/
def insert (a : α) : List α → List α
  | [] => [a]
  | b :: l =>
      match cmp a b with
      | .lt => a :: b :: l
      | .eq => b :: l
      | .gt => b :: insert a l

/-- Remove the element that compares equal, and say whether there was one. -/
def remove (a : α) : List α → Bool × List α
  | [] => (false, [])
  | b :: l =>
      match cmp a b with
      | .lt => (false, b :: l)
      | .eq => (true, l)
      | .gt => ((remove a l).1, b :: (remove a l).2)

/-- The elements of a list. -/
def ofList (l : List α) : List α := l.foldl (fun set a => insert cmp a set) []

/-- The comparison is a linear order on the elements of `S`. -/
structure LinearOn (S : Set α) : Prop where
  eq_iff : ∀ a ∈ S, ∀ b ∈ S, cmp a b = .eq ↔ a = b
  gt_iff : ∀ a ∈ S, ∀ b ∈ S, cmp a b = .gt ↔ cmp b a = .lt
  trans : ∀ a ∈ S, ∀ b ∈ S, ∀ c ∈ S, cmp a b = .lt → cmp b c = .lt → cmp a c = .lt

/-- In strictly ascending order. -/
def Sorted (l : List α) : Prop := l.Pairwise fun a b => cmp a b = .lt

variable {cmp} {S : Set α} {a b : α} {l : List α}

theorem LinearOn.mono {T : Set α} (h : LinearOn cmp S) (hT : T ⊆ S) : LinearOn cmp T where
  eq_iff a ha b hb := h.eq_iff a (hT ha) b (hT hb)
  gt_iff a ha b hb := h.gt_iff a (hT ha) b (hT hb)
  trans a ha b hb c hc := h.trans a (hT ha) b (hT hb) c (hT hc)

theorem LinearOn.irrefl (h : LinearOn cmp S) (ha : a ∈ S) : cmp a a ≠ .lt := by
  rw [(h.eq_iff a ha a ha).mpr rfl]
  exact Ordering.noConfusion

/-- What is less than the first of a sorted list is less than all. -/
theorem Sorted.lt_of_lt_head (h : LinearOn cmp S) (ha : a ∈ S) (hl : ∀ x ∈ b :: l, x ∈ S)
    (hs : Sorted cmp (b :: l)) (hab : cmp a b = .lt) : ∀ x ∈ b :: l, cmp a x = .lt := by
  intro x hx
  obtain rfl | hx' := mem_cons.mp hx
  · exact hab
  · exact h.trans a ha b (hl b (mem_cons_self ..)) x (hl x hx) hab
      ((pairwise_cons.mp hs).1 x hx')

theorem mem_insert (h : LinearOn cmp S) (ha : a ∈ S) (hl : ∀ x ∈ l, x ∈ S) (x : α) :
    x ∈ insert cmp a l ↔ x = a ∨ x ∈ l := by
  induction l with
  | nil => simp [insert]
  | cons b l ih =>
    have ih := ih fun y hy => hl y (mem_cons_of_mem _ hy)
    rw [insert]
    cases hc : cmp a b with
    | lt => simp
    | eq =>
      obtain rfl := (h.eq_iff a ha b (hl b (mem_cons_self ..))).mp hc
      simp
    | gt =>
      simp only [mem_cons, ih]
      tauto

theorem sorted_insert (h : LinearOn cmp S) (ha : a ∈ S) (hl : ∀ x ∈ l, x ∈ S)
    (hs : Sorted cmp l) : Sorted cmp (insert cmp a l) := by
  induction l with
  | nil => exact pairwise_singleton _ _
  | cons b l ih =>
    have hb := hl b (mem_cons_self ..)
    have htail : ∀ x ∈ l, x ∈ S := fun x hx => hl x (mem_cons_of_mem _ hx)
    obtain ⟨hhead, hs'⟩ := pairwise_cons.mp hs
    rw [insert]
    cases hc : cmp a b with
    | lt => exact pairwise_cons.mpr ⟨hs.lt_of_lt_head h ha hl hc, hs⟩
    | eq => exact hs
    | gt =>
      refine pairwise_cons.mpr ⟨fun x hx => ?_, ih htail hs'⟩
      obtain rfl | hx := (mem_insert h ha htail x).mp hx
      · exact (h.gt_iff x ha b hb).mp hc
      · exact hhead x hx

theorem notMem_of_lt_head (h : LinearOn cmp S) (ha : a ∈ S) (hl : ∀ x ∈ b :: l, x ∈ S)
    (hs : Sorted cmp (b :: l)) (hab : cmp a b = .lt) : a ∉ b :: l := fun hmem =>
  h.irrefl ha (hs.lt_of_lt_head h ha hl hab a hmem)

/-- **A search finds what is there.** -/
theorem remove_fst (h : LinearOn cmp S) (ha : a ∈ S) (hl : ∀ x ∈ l, x ∈ S) (hs : Sorted cmp l) :
    (remove cmp a l).1 = true ↔ a ∈ l := by
  induction l with
  | nil => simp [remove]
  | cons b l ih =>
    have hb := hl b (mem_cons_self ..)
    have ih := ih (fun x hx => hl x (mem_cons_of_mem _ hx)) (pairwise_cons.mp hs).2
    rw [remove]
    cases hc : cmp a b with
    | lt => simpa using notMem_of_lt_head h ha hl hs hc
    | eq => simp [(h.eq_iff a ha b hb).mp hc]
    | gt =>
      have hne : a ≠ b := fun heq => by
        rw [(h.eq_iff a ha b hb).mpr heq] at hc
        cases hc
      simpa [hne] using ih

theorem mem_remove (h : LinearOn cmp S) (ha : a ∈ S) (hl : ∀ x ∈ l, x ∈ S) (hs : Sorted cmp l)
    (x : α) : x ∈ (remove cmp a l).2 ↔ x ∈ l ∧ x ≠ a := by
  induction l with
  | nil => simp [remove]
  | cons b l ih =>
    have hb := hl b (mem_cons_self ..)
    obtain ⟨hhead, hs'⟩ := pairwise_cons.mp hs
    have ih := ih (fun x hx => hl x (mem_cons_of_mem _ hx)) hs'
    rw [remove]
    cases hc : cmp a b with
    | lt =>
      have hno := notMem_of_lt_head h ha hl hs hc
      refine (and_iff_left_of_imp fun hx => ?_).symm
      rintro rfl
      exact hno hx
    | eq =>
      obtain rfl := (h.eq_iff a ha b hb).mp hc
      have hno : a ∉ l := fun hmem => h.irrefl ha (hhead a hmem)
      simp only [mem_cons]
      constructor
      · exact fun hx => ⟨.inr hx, fun heq => hno (heq ▸ hx)⟩
      · exact fun ⟨hx, hne⟩ => hx.resolve_left hne
    | gt =>
      have hne : b ≠ a := fun heq => by
        rw [(h.eq_iff a ha b hb).mpr heq.symm] at hc
        cases hc
      simp only [mem_cons, ih]
      constructor
      · rintro (rfl | ⟨hx, hxa⟩)
        · exact ⟨.inl rfl, hne⟩
        · exact ⟨.inr hx, hxa⟩
      · rintro ⟨rfl | hx, hxa⟩
        · exact .inl rfl
        · exact .inr ⟨hx, hxa⟩

theorem remove_sublist : (remove cmp a l).2.Sublist l := by
  induction l with
  | nil => exact .slnil
  | cons b l ih =>
    rw [remove]
    cases cmp a b with
    | lt => exact .refl _
    | eq => exact sublist_cons_self ..
    | gt => exact ih.cons_cons b

theorem sorted_remove (hs : Sorted cmp l) : Sorted cmp (remove cmp a l).2 :=
  List.Pairwise.sublist remove_sublist hs

/-! ## The set of a list -/

theorem mem_ofList (h : LinearOn cmp S) (hl : ∀ x ∈ l, x ∈ S) :
    (∀ x, x ∈ ofList cmp l ↔ x ∈ l) ∧ Sorted cmp (ofList cmp l) := by
  induction l using List.reverseRecOn with
  | nil => exact ⟨fun _ => Iff.rfl, .nil⟩
  | append_singleton l a ih =>
    obtain ⟨hmem, hs⟩ := ih fun x hx => hl x (mem_append_left _ hx)
    have ha : a ∈ S := hl a (by simp)
    have hset : ∀ x ∈ ofList cmp l, x ∈ S := fun x hx =>
      hl x (mem_append_left _ ((hmem x).mp hx))
    have heq : ofList cmp (l ++ [a]) = insert cmp a (ofList cmp l) := by simp [ofList]
    rw [heq]
    refine ⟨fun x => ?_, sorted_insert h ha hset hs⟩
    rw [mem_insert h ha hset, hmem, mem_append, mem_singleton, or_comm]

/-! ## Linear comparisons from linear ones -/

theorem LinearOn.ofLawful (cmp : α → α → Ordering) [Std.TransCmp cmp] [Std.LawfulEqCmp cmp]
    (S : Set α) : LinearOn cmp S where
  eq_iff _ _ _ _ := Std.LawfulEqCmp.compare_eq_iff_eq
  gt_iff _ _ _ _ := Std.OrientedCmp.gt_iff_lt
  trans _ _ _ _ _ _ := Std.TransCmp.lt_trans

/-- **Compare pairs by their first parts, then by their second ones.** -/
theorem LinearOn.prod {β γ : Type} {cmpβ : β → β → Ordering} {cmpγ : γ → γ → Ordering}
    {T : Set β} {U : Set γ} (hβ : LinearOn cmpβ T) (hγ : LinearOn cmpγ U) :
    LinearOn (fun x y : β × γ => (cmpβ x.1 y.1).then (cmpγ x.2 y.2))
      {x | x.1 ∈ T ∧ x.2 ∈ U} where
  eq_iff a ha b hb := by
    rw [Ordering.then_eq_eq, hβ.eq_iff _ ha.1 _ hb.1, hγ.eq_iff _ ha.2 _ hb.2, Prod.ext_iff]
  gt_iff a ha b hb := by
    rw [Ordering.then_eq_gt, Ordering.then_eq_lt, hβ.gt_iff _ ha.1 _ hb.1,
      hγ.gt_iff _ ha.2 _ hb.2, hβ.eq_iff _ ha.1 _ hb.1, hβ.eq_iff _ hb.1 _ ha.1,
      eq_comm (a := a.1)]
  trans a ha b hb c hc := by
    simp only [Ordering.then_eq_lt, hβ.eq_iff _ ha.1 _ hb.1, hβ.eq_iff _ hb.1 _ hc.1,
      hβ.eq_iff _ ha.1 _ hc.1]
    rintro (hab | ⟨hab, hab'⟩) (hbc | ⟨hbc, hbc'⟩)
    · exact .inl (hβ.trans _ ha.1 _ hb.1 _ hc.1 hab hbc)
    · exact .inl (hbc ▸ hab)
    · exact .inl (hab ▸ hbc)
    · exact .inr ⟨hab.trans hbc, hγ.trans _ ha.2 _ hb.2 _ hc.2 hab' hbc'⟩

/-- **Compare by a key** that tells the elements of `S` apart. -/
theorem LinearOn.byKey {β : Type} {cmpβ : β → β → Ordering} {T : Set β} (hβ : LinearOn cmpβ T)
    {f : α → β} (hf : ∀ a ∈ S, f a ∈ T) (hinj : ∀ a ∈ S, ∀ b ∈ S, f a = f b → a = b)
    (hcmp : ∀ a ∈ S, ∀ b ∈ S, cmp a b = cmpβ (f a) (f b)) : LinearOn cmp S where
  eq_iff a ha b hb := by
    rw [hcmp a ha b hb, hβ.eq_iff _ (hf a ha) _ (hf b hb)]
    exact ⟨hinj a ha b hb, congrArg f⟩
  gt_iff a ha b hb := by
    rw [hcmp a ha b hb, hcmp b hb a ha, hβ.gt_iff _ (hf a ha) _ (hf b hb)]
  trans a ha b hb c hc := by
    rw [hcmp a ha b hb, hcmp b hb c hc, hcmp a ha c hc]
    exact hβ.trans _ (hf a ha) _ (hf b hb) _ (hf c hc)

/-- **The lexicographic comparison of lists** over `S`. -/
theorem LinearOn.compareLex (h : LinearOn cmp S) :
    LinearOn (List.compareLex cmp) {l | ∀ a ∈ l, a ∈ S} where
  eq_iff l hl m hm := by
    induction l generalizing m with
    | nil => cases m <;> simp [List.compareLex]
    | cons a l ih =>
      cases m with
      | nil => simp [List.compareLex]
      | cons b m =>
        obtain ⟨ha, hl⟩ := forall_mem_cons.mp hl
        obtain ⟨hb, hm⟩ := forall_mem_cons.mp hm
        rw [List.compareLex_cons_cons, Ordering.then_eq_eq, h.eq_iff a ha b hb, ih hl m hm,
          List.cons.injEq]
  gt_iff l hl m hm := by
    induction l generalizing m with
    | nil => cases m <;> simp [List.compareLex]
    | cons a l ih =>
      cases m with
      | nil => simp [List.compareLex]
      | cons b m =>
        obtain ⟨ha, hl⟩ := forall_mem_cons.mp hl
        obtain ⟨hb, hm⟩ := forall_mem_cons.mp hm
        rw [List.compareLex_cons_cons, List.compareLex_cons_cons, Ordering.then_eq_gt,
          Ordering.then_eq_lt, h.gt_iff a ha b hb, ih hl m hm, h.eq_iff a ha b hb,
          h.eq_iff b hb a ha, eq_comm (a := a)]
  trans l hl m hm n hn := by
    induction l generalizing m n with
    | nil => cases m <;> cases n <;> simp [List.compareLex]
    | cons a l ih =>
      cases m with
      | nil => simp [List.compareLex]
      | cons b m =>
        cases n with
        | nil => simp [List.compareLex]
        | cons c n =>
          obtain ⟨ha, hl'⟩ := forall_mem_cons.mp hl
          obtain ⟨hb, hm'⟩ := forall_mem_cons.mp hm
          obtain ⟨hc, hn'⟩ := forall_mem_cons.mp hn
          simp only [List.compareLex_cons_cons, Ordering.then_eq_lt, h.eq_iff a ha b hb,
            h.eq_iff b hb c hc, h.eq_iff a ha c hc]
          rintro (hab | ⟨rfl, hlm⟩) (hbc | ⟨rfl, hmn⟩)
          · exact .inl (h.trans a ha b hb c hc hab hbc)
          · exact .inl hab
          · exact .inl hbc
          · exact .inr ⟨rfl, ih hl' m hm' n hn' hlm hmn⟩

end OrdSet

end Machinery

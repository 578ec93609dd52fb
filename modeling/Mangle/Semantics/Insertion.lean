import Mangle.Semantics.Simulation

/-!
# Semantics/Insertion — what a list of insertions leaves

The tiers after the insertions of a plan, `Tiers.insertAll`: the tuples of fitting arity arrive in
the rows being collected, everything else stays as it was.
-/

namespace Mangle

open List

variable {rel r : Name} {t : Tuple} {es : List Emit} {n : Nat}

namespace Tiers

variable {c : Tiers}

/-! ## What stays -/

theorem insertAll_cons (e : Emit) (es : List Emit) (c : Tiers) :
    c.insertAll (e :: es) = (c.insert e.1 e.2).insertAll es := rfl

theorem insertAll_append (es es' : List Emit) (c : Tiers) :
    c.insertAll (es ++ es') = (c.insertAll es).insertAll es' := foldl_append

theorem insert_stable (rel : Name) (t : Tuple) : (c.insert rel t).stable = c.stable := by
  unfold insert
  split <;> rfl

theorem insert_delta (rel : Name) (t : Tuple) : (c.insert rel t).delta = c.delta := by
  unfold insert
  split <;> rfl

@[simp] theorem insertAll_stable (es : List Emit) : (c.insertAll es).stable = c.stable := by
  induction es generalizing c with
  | nil => rfl
  | cons e es ih => rw [insertAll_cons, ih, insert_stable]

@[simp] theorem insertAll_delta (es : List Emit) : (c.insertAll es).delta = c.delta := by
  induction es generalizing c with
  | nil => rfl
  | cons e es ih => rw [insertAll_cons, ih, insert_delta]

@[simp] theorem insertAll_visible (es : List Emit) : (c.insertAll es).visible = c.visible := by
  funext rel
  simp [visible]

private theorem mem_next_insert {u : Tuple} (h : u ∈ (c.insert rel t).next r) :
    u ∈ c.next r ∨ (r, u) = (rel, t) := by
  unfold insert at h
  split at h
  · rcases eq_or_ne r rel with rfl | hne
    · simp only [push, Function.update_self, mem_append, mem_singleton] at h
      exact h.imp_right (congrArg _)
    · simp only [push, Function.update_of_ne hne] at h
      exact Or.inl h
  · exact Or.inl h

/-- A collected tuple was there or is one of those inserted. -/
theorem mem_next_insertAll {u : Tuple} (h : u ∈ (c.insertAll es).next r) :
    u ∈ c.next r ∨ (r, u) ∈ es := by
  induction es generalizing c with
  | nil => exact Or.inl h
  | cons e es ih =>
    rcases ih h with hu | hu
    · exact (mem_next_insert hu).imp_right fun heq => mem_cons.mpr (Or.inl heq)
    · exact Or.inr (mem_cons_of_mem _ hu)

/-- A registered arity was registered or is that of an inserted tuple. -/
theorem arity_insertAll (h : n ∈ (c.insertAll es).arity r) :
    n ∈ c.arity r ∨ ∃ u, (r, u) ∈ es ∧ u.length = n := by
  induction es generalizing c with
  | nil => exact Or.inl h
  | cons e es ih =>
    rcases ih h with hn | ⟨u, hu, hlen⟩
    · exact (arity_insert hn).imp_right fun ⟨heq, hlen⟩ => ⟨e.2, heq ▸ mem_cons_self, hlen⟩
    · exact Or.inr ⟨u, mem_cons_of_mem _ hu, hlen⟩

/-- A registered arity stays. -/
theorem arity_insert_of_some (h : c.arity r = some n) : (c.insert rel t).arity r = some n := by
  unfold insert
  split
  · next ha =>
    by_cases hr : r = rel
    · subst hr
      simp [push, ha.2 n h]
    · simp [push, hr, h]
  · exact h

theorem arity_insertAll_of_some (h : c.arity r = some n) : (c.insertAll es).arity r = some n := by
  induction es generalizing c with
  | nil => exact h
  | cons e es ih => exact ih (arity_insert_of_some h)

theorem nodup_all_insertAll (h : ∀ r, (c.all r).Nodup) (es : List Emit) (r : Name) :
    ((c.insertAll es).all r).Nodup := by
  induction es generalizing c with
  | nil => exact h r
  | cons e es ih =>
    rw [insertAll_cons]
    refine ih fun r => ?_
    unfold insert
    split
    · next ha => exact nodup_push h ha r
    · exact h r

/-! ## What arrives -/

theorem mem_all_insert (har : ∀ n ∈ c.arity rel, n = t.length) (r : Name) (u : Tuple) :
    u ∈ (c.insert rel t).all r ↔ u ∈ c.all r ∨ (r, u) = (rel, t) := by
  unfold insert
  split
  · rcases eq_or_ne r rel with rfl | hne
    · simp [all, visible, push, or_assoc]
    · simp [all, visible, push, hne]
  · rename_i hacc
    have hmem : t ∈ c.all rel := by
      by_contra hno
      exact hacc ⟨hno, har⟩
    refine (or_iff_left_of_imp ?_).symm
    rintro heq
    obtain ⟨rfl, rfl⟩ := Prod.mk.inj heq
    exact hmem

theorem all_insert_of_ne (hne : rel ≠ r) :
    (c.insert rel t).all r = c.all r ∧ (c.insert rel t).arity r = c.arity r := by
  unfold insert
  split
  · simp [push, all, visible, Function.update_of_ne hne.symm]
  · exact ⟨rfl, rfl⟩

/-- **Insertions of one arity** arrive unless another one is registered. -/
theorem mem_all_insertAll_of_length {m : Nat}
    (h : ∀ e ∈ es, e.1 = r → e.2.length = m) (u : Tuple) : u ∈ (c.insertAll es).all r ↔
      u ∈ c.all r ∨ (r, u) ∈ es ∧ ∀ n ∈ c.arity r, n = u.length := by
  induction es generalizing c with
  | nil => simp [insertAll]
  | cons e es ih =>
    obtain ⟨rel, t⟩ := e
    have hrest := @ih (c.insert rel t) fun e' he' => h e' (mem_cons_of_mem _ he')
    rw [insertAll_cons, hrest, mem_cons]
    rcases eq_or_ne rel r with rfl | hne
    · have hlen : ∀ u, (rel, u) = (rel, t) ∨ (rel, u) ∈ es → u.length = m := fun u hu =>
        h (rel, u) (mem_cons.mpr hu) rfl
      by_cases hfits : ∀ n ∈ c.arity rel, n = t.length
      · -- The tuple arrives, so from here on its arity is registered.
        have harity : ∀ n ∈ (c.insert rel t).arity rel, n = m := by
          intro n hn
          obtain hn | ⟨-, hn⟩ := arity_insert hn
          · exact (hfits n hn).trans (hlen t (.inl rfl))
          · exact hn.symm.trans (hlen t (.inl rfl))
        have hbefore (hu : (rel, u) = (rel, t) ∨ (rel, u) ∈ es) : ∀ n ∈ c.arity rel, n = u.length :=
          fun n hn => (hfits n hn).trans ((hlen t (.inl rfl)).trans (hlen u hu).symm)
        rw [mem_all_insert hfits]
        constructor
        · rintro ((hu | hu) | ⟨hu, -⟩)
          · exact .inl hu
          · exact .inr ⟨.inl hu, hbefore (.inl hu)⟩
          · exact .inr ⟨.inr hu, hbefore (.inr hu)⟩
        · rintro (hu | ⟨hu | hu, -⟩)
          · exact .inl (.inl hu)
          · exact .inl (.inr hu)
          · exact .inr ⟨hu, fun n hn => (harity n hn).trans (hlen u (.inr hu)).symm⟩
      · have hno : ¬ c.Accepts rel t := fun ha => hfits ha.2
        rw [insert, if_neg hno]
        refine or_congr_right (and_congr_left fun har => (or_iff_right ?_).symm)
        rintro heq
        cases heq
        exact hfits har
    · rw [(all_insert_of_ne hne).1, (all_insert_of_ne hne).2]
      simp [hne.symm]

/-- **Insertions into a registered relation** arrive if they have its arity. -/
theorem mem_all_insertAll_of_some (h : c.arity r = some n) (u : Tuple) :
    u ∈ (c.insertAll es).all r ↔ u ∈ c.all r ∨ (r, u) ∈ es ∧ u.length = n := by
  induction es generalizing c with
  | nil => simp [insertAll]
  | cons e es ih =>
    obtain ⟨rel, t⟩ := e
    rw [insertAll_cons, ih (arity_insert_of_some h), mem_cons]
    by_cases hfits : ∀ n ∈ c.arity rel, n = t.length
    · rw [mem_all_insert hfits]
      have hlen (heq : (r, u) = (rel, t)) : u.length = n := by
        obtain ⟨rfl, rfl⟩ := Prod.mk.inj heq
        exact (hfits n h).symm
      tauto
    · rw [insert, if_neg fun ha => hfits ha.2]
      have hne (heq : (r, u) = (rel, t)) : u.length ≠ n := by
        obtain ⟨rfl, rfl⟩ := Prod.mk.inj heq
        rintro rfl
        exact hfits fun k hk => Option.some.inj (hk.symm.trans h)
      tauto

/-- The first insertion into an unregistered relation arrives. -/
theorem exists_mem_insertAll (hall : c.all r = []) (harity : c.arity r = none) {t : Tuple}
    (ht : (r, t) ∈ es) : ∃ u, u ∈ (c.insertAll es).all r := by
  induction es generalizing c with
  | nil => cases ht
  | cons e es ih =>
    obtain ⟨rel, v⟩ := e
    rw [insertAll_cons]
    rcases eq_or_ne rel r with rfl | hne
    · have ha : c.Accepts rel v := ⟨by simp [hall], by simp [harity]⟩
      have hreg : (c.insert rel v).arity rel = some v.length := by simp [insert, ha, push]
      refine ⟨v, (mem_all_insertAll_of_some hreg v).mpr (.inl ?_)⟩
      rw [mem_all_insert ha.2]
      exact .inr rfl
    · obtain ⟨hall', harity'⟩ := @all_insert_of_ne rel r v c hne
      have hrest : (r, t) ∈ es := (mem_cons.mp ht).resolve_left fun heq =>
        hne (Prod.mk.inj heq).1.symm
      exact ih (hall'.trans hall) (harity'.trans harity) hrest

/-- **Insertions into a relation without rows** make up its rows. -/
theorem next_insertAll_of_unused (hvalid : c.Valid) {m : Nat} (hall : c.all r = [])
    (harity : ∀ n ∈ c.arity r, n = m) (h : ∀ e ∈ es, e.1 = r → e.2.length = m) :
    (c.insertAll es).visible r = [] ∧ ((c.insertAll es).next r).Nodup ∧
      ∀ u, u ∈ (c.insertAll es).next r ↔ (r, u) ∈ es := by
  have hvisible : (c.insertAll es).visible r = [] := by
    rw [insertAll_visible]
    exact (append_eq_nil_iff.mp hall).1
  have hnext : (c.insertAll es).all r = (c.insertAll es).next r := by
    rw [all, hvisible, nil_append]
  refine ⟨hvisible, hnext ▸ nodup_all_insertAll hvalid.nodup es r, fun u => ?_⟩
  rw [← hnext, mem_all_insertAll_of_length h, hall]
  simp only [not_mem_nil, false_or, and_iff_left_iff_imp]
  exact fun hu n hn => (harity n hn).trans (h (r, u) hu rfl).symm

/-- The insertions fit the registered arities, and each other. -/
def Fits (c : Tiers) (es : List Emit) : Prop :=
  ∀ e ∈ es, (∀ n ∈ c.arity e.1, n = e.2.length) ∧
    ∀ e' ∈ es, e'.1 = e.1 → e'.2.length = e.2.length

/-- **Insertions of fitting arity all arrive.** -/
theorem mem_all_insertAll (h : c.Fits es) (r : Name) (u : Tuple) :
    u ∈ (c.insertAll es).all r ↔ u ∈ c.all r ∨ (r, u) ∈ es := by
  have hlen : ∃ m, ∀ e ∈ es, e.1 = r → e.2.length = m := by
    by_cases hex : ∃ e ∈ es, e.1 = r
    · obtain ⟨e, he, rfl⟩ := hex
      exact ⟨_, fun e' he' heq => (h e he).2 e' he' heq⟩
    · exact ⟨0, fun e he heq => absurd ⟨e, he, heq⟩ hex⟩
  obtain ⟨m, hm⟩ := hlen
  rw [mem_all_insertAll_of_length hm, and_iff_left_of_imp fun hu => (h _ hu).1]

end Tiers

/-! ## One arity for each relation -/

/-- The arities of named relations. -/
def namedArity (arity : String → Nat) : Name → Option Nat
  | .named rel => some (arity rel)
  | .fresh .. => none

/-- The registered arities are the given ones. -/
def Tiers.OneArity (arity : String → Nat) (c : Tiers) : Prop :=
  ∀ rel n, c.arity rel = some n → namedArity arity rel = some n

namespace Tiers.OneArity

variable {c : Tiers} {arity : String → Nat}

theorem eq (h : c.OneArity arity) {rel : String} (hn : c.arity rel = some n) : n = arity rel :=
  (Option.some.inj (h rel n hn)).symm

theorem empty : Tiers.empty.OneArity arity := fun _ _ hn => (by cases hn)

theorem insertAll (h : c.OneArity arity) (hnamed : ∀ e ∈ es, ∃ rel : String, e.1 = rel)
    (hes : ∀ (rel : String) t, ((rel : Name), t) ∈ es → t.length = arity rel) :
    (c.insertAll es).OneArity arity := by
  intro r n hn
  obtain hn | ⟨t, ht, rfl⟩ := Tiers.arity_insertAll hn
  · exact h r n hn
  · obtain ⟨rel, rfl⟩ := hnamed _ ht
    rw [hes rel t ht]
    rfl

/-- Rows of one arity all arrive. -/
theorem fits (h : c.OneArity arity) (hnamed : ∀ e ∈ es, ∃ rel : String, e.1 = rel)
    (hes : ∀ (rel : String) t, ((rel : Name), t) ∈ es → t.length = arity rel) : c.Fits es := by
  rintro ⟨_, t⟩ he
  obtain ⟨rel, rfl⟩ := hnamed _ he
  refine ⟨fun n hn => (h.eq hn).trans (hes rel t he).symm, ?_⟩
  rintro ⟨_, t'⟩ he' rfl
  exact (hes rel t' he').trans (hes rel t he).symm

end Tiers.OneArity

/-- The head's relation has the arity of the head, or none yet. -/
def FitsHead (c : Tiers) (rule : Rule) : Prop :=
  ∀ n ∈ c.arity (rule.pred : Name), n = rule.args.length

/-- **Insertions for the head of a rule** arrive, next to those into generated relations. -/
theorem Tiers.mem_all_insertAll_head {c : Tiers} {rule : Rule} {es₀ es₁ : List Emit}
    (hfit : FitsHead c rule) (h₀ : ∀ e ∈ es₀, ∀ rel : String, e.1 ≠ rel)
    (h₁ : ∀ e ∈ es₁, e.1 = rule.pred ∧ e.2.length = rule.args.length) (rel : String) (t : Tuple) :
    t ∈ (c.insertAll (es₀ ++ es₁)).all rel ↔ t ∈ c.all rel ∨ ((rel : Name), t) ∈ es₁ := by
  have hlen : ∀ e ∈ es₀ ++ es₁, e.1 = rel → e.2.length = rule.args.length := by
    intro e he hrel
    rcases mem_append.mp he with he | he
    · exact absurd hrel (h₀ e he rel)
    · exact (h₁ e he).2
  rw [mem_all_insertAll_of_length hlen, mem_append]
  refine or_congr_right ⟨fun ⟨he, _⟩ => he.resolve_left fun he => h₀ _ he rel rfl, fun he => ?_⟩
  obtain ⟨hrel, ht⟩ := h₁ _ he
  exact ⟨Or.inr he, fun n hn => (hfit n (hrel ▸ hn)).trans ht.symm⟩

/-- **A count of zero: nothing was inserted.** -/
theorem Rep.insertAll_eq_self {s : MemStore} {c : Tiers} (h : Rep s c)
    (hn : (MemStore.insertAll es s).1 = 0) : c.insertAll es = c := by
  induction es generalizing s c with
  | nil => rfl
  | cons e es ih =>
    simp only [MemStore.insertAll, Nat.add_eq_zero_iff] at hn
    have hacc : ¬ c.Accepts e.1 e.2 := by
      intro ha
      have := h.insert_fst e.1 e.2
      simp_all
    have hins : c.insert e.1 e.2 = c := if_neg hacc
    have hrest := ih (h.insert e.1 e.2) hn.2
    rw [Tiers.insertAll_cons, hins] at *
    exact hrest

end Mangle

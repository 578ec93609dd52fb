import Mathlib.Data.List.Lattice
import Mathlib.Data.List.Perm.Subperm
import Mathlib.Logic.Relation

/-!
# Machinery/Search — depth-first search and strongly connected components

A depth-first search over a graph given by its successor lists, with a list that is extended when a
node is entered or left.

* `search_rule` — how to prove something about a search: what a call may assume (`P`), and a
  reflexive and transitive relation between the states before and after it (`Q`);
* `finishing_roots` — in the order of leaving, last first, the edges that go to a node left later
  come from below that node;
* `mem_search_iff` — a search enters what it can reach;
* `components_spec` — searching backwards in the order of leaving finds the components.
-/

namespace Machinery

open List

variable {α : Type} {l seen : List α} {x y : α} {fuel : Nat}

/-! ## Paths -/

/-- There is a path. -/
abbrev Reach (succ : α → List α) : α → α → Prop := Relation.ReflTransGen fun u w => w ∈ succ u

/-- There is a path that stays out of `avoid` after its first node. -/
abbrev ReachOff (succ : α → List α) (avoid : List α) : α → α → Prop :=
  Relation.ReflTransGen fun u w => w ∈ succ u ∧ w ∉ avoid

/-- The nodes on a common cycle, or equal. -/
def Mutual (succ : α → List α) (u w : α) : Prop := Reach succ u w ∧ Reach succ w u

/-- **In the order of leaving, last first**: an edge out of the nodes left up to `x` goes to a node
from which `x` was reached. -/
def Finishing (succ : α → List α) (out : List α) : Prop :=
  ∀ pre x l, out = pre ++ x :: l → ∀ u ∈ x :: l, ∀ w ∈ succ u, w ∈ x :: l ∨ Reach succ w x

section Paths

variable {succ pred : α → List α}

theorem Mutual.symm {u w : α} (h : Mutual succ u w) : Mutual succ w u := ⟨h.2, h.1⟩

theorem Mutual.trans {u v w : α} (h : Mutual succ u v) (h' : Mutual succ v w) : Mutual succ u w :=
  ⟨h.1.trans h'.1, h'.2.trans h.2⟩

theorem finishing_cons (h : Finishing succ l)
    (hx : ∀ u ∈ x :: l, ∀ w ∈ succ u, w ∈ x :: l ∨ Reach succ w x) : Finishing succ (x :: l) := by
  intro pre y l' heq
  rcases cons_eq_append_iff.mp heq with ⟨-, hhead⟩ | ⟨pre', -, htail⟩
  · obtain ⟨rfl, rfl⟩ := List.cons.inj hhead
    exact hx
  · exact h pre' y l' htail

variable (hdual : ∀ u w, u ∈ pred w ↔ w ∈ succ u)

include hdual

/-- A path backwards is a path. -/
theorem reach_of_reachOff {avoid : List α} (h : ReachOff pred avoid x y) : Reach succ y x := by
  induction h with
  | refl => exact .refl
  | tail _ hstep ih => exact ih.head ((hdual _ _).mp hstep.1)

/-- **Searching backwards in finishing order does not leave the component.** -/
theorem reach_of_finishing {avoid : List α}
    (hfin : Finishing succ (x :: l)) (hnodup : (x :: l).Nodup)
    (hnodes : ∀ u w, u ∈ pred w → u ∉ avoid → u ∈ x :: l) (h : ReachOff pred avoid x y) :
    Reach succ x y := by
  -- for a part of the list that `x` is not in, `x` reaches its head once the path has come into it
  have key : Reach succ x y ∧ ∀ pre z l', x :: l = pre ++ z :: l' → x ∉ z :: l' → y ∈ z :: l' →
      Reach succ x z := by
    induction h with
    | refl => exact ⟨.refl, fun _ _ _ _ hx hy => absurd hy hx⟩
    | @tail u y _ hstep ih =>
      have hedge : u ∈ succ y := (hdual _ _).mp hstep.1
      have hinto : ∀ pre z l', x :: l = pre ++ z :: l' → x ∉ z :: l' → y ∈ z :: l' →
          Reach succ x z := by
        intro pre z l' heq hx hy
        by_cases hu : u ∈ z :: l'
        · exact ih.2 pre z l' heq hx hu
        · exact ih.1.trans ((hfin pre z l' heq y hy u hedge).resolve_left hu)
      refine ⟨?_, hinto⟩
      by_cases hyx : y = x
      · exact hyx ▸ .refl
      · obtain ⟨pre, l', heq⟩ := append_of_mem (hnodes y u hstep.1 hstep.2)
        refine hinto pre y l' heq (fun hx => ?_) mem_cons_self
        cases pre with
        | nil => exact hyx (List.cons.inj heq).1.symm
        | cons a pre =>
          obtain ⟨rfl, rfl⟩ := List.cons.inj heq
          exact (nodup_cons.mp hnodup).1 (mem_append_right _ hx)
  exact key.1

/-- A path inside a component can be searched backwards, if nothing of the component was entered. -/
theorem reachOff_of_mutual (hx : x ∉ seen)
    (hseen : ∀ v ∈ seen, ∀ w, Mutual succ v w → w ∈ seen) (h : Mutual succ x y) :
    ReachOff pred seen x y := by
  obtain ⟨hxy, hyx⟩ := h
  induction hyx using Relation.ReflTransGen.head_induction_on with
  | refl => exact .refl
  | head hedge hrest ih =>
    refine (ih (hxy.tail hedge)).tail ⟨(hdual _ _).mpr hedge, fun hmem => hx ?_⟩
    exact hseen _ hmem x ⟨hrest.head hedge, hxy⟩

end Paths

/-! ## The search -/

/-- The nodes entered so far, and the list that is extended. -/
structure SearchState (α : Type) where
  seen : List α
  out : List α

/-- A call from `x` may assume `P x`, and leaves a state related by `Q`. -/
structure SearchRule (succ : α → List α) (enter leave : α → List α → List α)
    (P : α → SearchState α → Prop) (Q : SearchState α → SearchState α → Prop) : Prop where
  refl : ∀ st, Q st st
  trans : ∀ {a b c}, Q a b → Q b c → Q a c
  seen : ∀ {a b}, Q a b → a.seen ⊆ b.seen
  /-- Calls from the roots of a list, one after the other. -/
  next : ∀ {x a b}, Q a b → P x a → P x b
  /-- Calls from the successors of a node that has been entered. -/
  call : ∀ {x st y}, P x st → x ∉ st.seen → y ∈ succ x → P y ⟨x :: st.seen, enter x st.out⟩
  /-- All successors have been searched. -/
  step : ∀ {x st st'}, P x st → x ∉ st.seen → Q ⟨x :: st.seen, enter x st.out⟩ st' →
    (∀ y ∈ succ x, y ∈ st'.seen) → Q st ⟨st'.seen, leave x st'.out⟩

variable {succ : α → List α} {enter leave : α → List α → List α} {P : α → SearchState α → Prop}
  {Q : SearchState α → SearchState α → Prop} {V : List α}

/-- Searches from a list, when each search keeps to the rule. -/
theorem SearchRule.foldl (h : SearchRule succ enter leave P Q)
    (f : α → SearchState α → SearchState α) {xs : List α} {st : SearchState α}
    (hf : ∀ x ∈ xs, ∀ st', Q st st' → P x st' → Q st' (f x st') ∧ x ∈ (f x st').seen)
    (hP : ∀ x ∈ xs, P x st) :
    Q st (xs.foldl (fun st x => f x st) st) ∧
      ∀ x ∈ xs, x ∈ (xs.foldl (fun st x => f x st) st).seen := by
  induction xs generalizing st with
  | nil => exact ⟨h.refl st, by simp⟩
  | cons x xs ih =>
    obtain ⟨hq, hx⟩ := hf x mem_cons_self st (h.refl st) (hP x mem_cons_self)
    obtain ⟨hq', hxs⟩ := ih (fun y hy st' hst' => hf y (mem_cons_of_mem _ hy) st'
      (h.trans hq hst')) (fun y hy => h.next hq (hP y (mem_cons_of_mem _ hy)))
    refine ⟨h.trans hq hq', fun y hy => ?_⟩
    rcases mem_cons.mp hy with rfl | hy
    · exact h.seen hq' hx
    · exact hxs y hy

theorem length_filter_lt {p q : α → Bool} (h : ∀ v, p v = true → q v = true) (hx : x ∈ l)
    (hp : p x = false) (hq : q x = true) : (l.filter p).length < (l.filter q).length := by
  have hsub : (l.filter p).Sublist (l.filter q) := monotone_filter_right l h
  refine Nat.lt_of_le_of_ne hsub.length_le fun heq => ?_
  have hmem : x ∈ l.filter q := mem_filter.mpr ⟨hx, hq⟩
  rw [← hsub.eq_of_length heq] at hmem
  simp [hp] at hmem

variable [DecidableEq α]

/-- A depth-first search from `x`; `enter` and `leave` extend the list before and after the
successors of a node are searched. -/
def search (succ : α → List α) (enter leave : α → List α → List α) :
    Nat → α → SearchState α → SearchState α
  | 0, _, st => st
  | fuel + 1, x, st =>
      if x ∈ st.seen then st else
        let st := (succ x).foldl (fun st y => search succ enter leave fuel y st)
          ⟨x :: st.seen, enter x st.out⟩
        ⟨st.seen, leave x st.out⟩

/-- Searches from a list of nodes, one after the other. -/
def searchAll (succ : α → List α) (enter leave : α → List α → List α) (fuel : Nat) (xs : List α)
    (st : SearchState α) : SearchState α :=
  xs.foldl (fun st x => search succ enter leave fuel x st) st

/-! ## The rule -/

/-- The nodes of `V` that have not been entered. -/
def unseen (V seen : List α) : Nat := (V.filter (· ∉ seen)).length

theorem unseen_mono {V seen' : List α} (h : seen ⊆ seen') : unseen V seen' ≤ unseen V seen := by
  refine List.Sublist.length_le (monotone_filter_right V fun v hv => ?_)
  simp only [decide_eq_true_eq] at hv ⊢
  exact fun hmem => hv (h hmem)

theorem unseen_cons_lt {V : List α} (hx : x ∈ V) (hseen : x ∉ seen) :
    unseen V (x :: seen) < unseen V seen := by
  refine length_filter_lt (fun v hv => ?_) hx (by simp) (by simpa using hseen)
  simp only [decide_eq_true_eq, mem_cons, not_or] at hv ⊢
  exact hv.2

/-- **The rule of search**, with enough fuel for the nodes not yet entered. -/
theorem search_rule (h : SearchRule succ enter leave P Q) (hV : ∀ u ∈ V, ∀ w ∈ succ u, w ∈ V)
    {fuel : Nat} {x : α} {st : SearchState α} (hx : x ∈ V) (hfuel : unseen V st.seen < fuel)
    (hP : P x st) :
    Q st (search succ enter leave fuel x st) ∧ x ∈ (search succ enter leave fuel x st).seen := by
  induction fuel generalizing x st with
  | zero => omega
  | succ fuel ih =>
    rw [search]
    split
    · exact ⟨h.refl st, ‹_›⟩
    · rename_i hnew
      have hlt := unseen_cons_lt hx hnew
      obtain ⟨hq, hall⟩ := h.foldl (search succ enter leave fuel)
        (fun y hy st' hst' hPy => ih (hV x hx y hy)
          (Nat.lt_of_le_of_lt (unseen_mono (h.seen hst')) (by simp only; omega)) hPy)
        (fun y hy => h.call hP hnew hy)
      exact ⟨h.step hP hnew hq hall, h.seen hq mem_cons_self⟩

/-- The rule for searches from a list of roots. -/
theorem searchAll_rule (h : SearchRule succ enter leave P Q) (hV : ∀ u ∈ V, ∀ w ∈ succ u, w ∈ V)
    {xs : List α} {st : SearchState α} (hxs : ∀ x ∈ xs, x ∈ V) (hfuel : unseen V st.seen < fuel)
    (hP : ∀ x ∈ xs, P x st) :
    Q st (searchAll succ enter leave fuel xs st) ∧
      ∀ x ∈ xs, x ∈ (searchAll succ enter leave fuel xs st).seen :=
  h.foldl (search succ enter leave fuel) (fun x hx _ hst' hPx => search_rule h hV (hxs x hx)
    (Nat.lt_of_le_of_lt (unseen_mono (h.seen hst')) hfuel) hPx) hP

/-! ## The order of leaving -/

/-- What holds between two calls of a search that lists the nodes it leaves. -/
structure Leaving (succ : α → List α) (V : List α) (st : SearchState α) : Prop where
  nodes : ∀ v ∈ st.seen, v ∈ V
  left : ∀ v ∈ st.out, v ∈ st.seen
  closed : ∀ v ∈ st.out, ∀ w ∈ succ v, w ∈ st.seen
  nodup : st.out.Nodup
  finishing : Finishing succ st.out

omit [DecidableEq α] in
theorem Leaving.entered {st : SearchState α} (h : Leaving succ V st) (hx : x ∈ V) :
    Leaving succ V ⟨x :: st.seen, st.out⟩ where
  nodes := forall_mem_cons.mpr ⟨hx, h.nodes⟩
  left v hv := mem_cons_of_mem _ (h.left v hv)
  closed v hv w hw := mem_cons_of_mem _ (h.closed v hv w hw)
  nodup := h.nodup
  finishing := h.finishing

/-- The nodes entered and not left. -/
def SearchState.Open (st : SearchState α) (v : α) : Prop := v ∈ st.seen ∧ v ∉ st.out

/-- The rule for searches that list the nodes they leave. -/
theorem leaving_rule (hV : ∀ u ∈ V, ∀ w ∈ succ u, w ∈ V) :
    SearchRule succ (fun _ l => l) List.cons
      (fun x st => x ∈ V ∧ Leaving succ V st ∧ ∀ v, st.Open v → Reach succ v x)
      (fun a b => a.seen ⊆ b.seen ∧ (Leaving succ V a → Leaving succ V b) ∧
        ∀ v, b.Open v ↔ a.Open v) where
  refl st := ⟨fun _ h => h, id, fun _ => Iff.rfl⟩
  trans h h' := ⟨List.Subset.trans h.1 h'.1, h'.2.1 ∘ h.2.1, fun v => (h'.2.2 v).trans (h.2.2 v)⟩
  seen h := h.1
  next hq hp := ⟨hp.1, hq.2.1 hp.2.1, fun v hv => hp.2.2 v ((hq.2.2 v).mp hv)⟩
  call := by
    rintro x st y ⟨hx, hst, hopen⟩ hnew hy
    refine ⟨hV x hx y hy, hst.entered hx, ?_⟩
    rintro v ⟨hv, hout⟩
    rcases mem_cons.mp hv with rfl | hv
    · exact .single hy
    · exact (hopen v ⟨hv, hout⟩).tail hy
  step := by
    rintro x st st' ⟨hx, hst, hopen⟩ hnew ⟨hseen, hinv, hsame⟩ hsucc
    have hst' := hinv (hst.entered hx)
    have hxopen : st'.Open x :=
      (hsame x).mpr ⟨mem_cons_self, fun hmem => hnew (hst.left x hmem)⟩
    have hclosed : ∀ v ∈ x :: st'.out, ∀ w ∈ succ v, w ∈ st'.seen :=
      forall_mem_cons.mpr ⟨hsucc, hst'.closed⟩
    refine ⟨fun v hv => hseen (mem_cons_of_mem _ hv), fun _ => ⟨hst'.nodes, ?_, hclosed, ?_, ?_⟩,
      fun v => ?_⟩
    · exact forall_mem_cons.mpr ⟨hxopen.1, hst'.left⟩
    · exact nodup_cons.mpr ⟨hxopen.2, hst'.nodup⟩
    · refine finishing_cons hst'.finishing fun u hu w hw => ?_
      by_cases hwout : w ∈ st'.out
      · exact Or.inl (mem_cons_of_mem _ hwout)
      · -- `w` is still open: it is `x`, or `x` was reached from it
        obtain ⟨hmem, hout⟩ := (hsame w).mp ⟨hclosed u hu w hw, hwout⟩
        rcases mem_cons.mp hmem with rfl | hmem
        · exact Or.inl mem_cons_self
        · exact Or.inr (hopen w ⟨hmem, hout⟩)
    · have := hsame v
      simp only [SearchState.Open, mem_cons, not_or] at this ⊢
      constructor
      · rintro ⟨hv, hne, hout⟩
        obtain ⟨hmem, hout⟩ := this.mp ⟨hv, hout⟩
        exact ⟨hmem.resolve_left hne, hout⟩
      · rintro ⟨hv, hout⟩
        obtain ⟨hmem, hout⟩ := this.mpr ⟨Or.inr hv, hout⟩
        exact ⟨hmem, fun heq => hnew (heq ▸ hv), hout⟩

/-- **A search from all nodes** leaves every node once, in finishing order. -/
theorem finishing_roots {fuel : Nat} {xs : List α} (hV : ∀ u ∈ xs, ∀ w ∈ succ u, w ∈ xs)
    (hfuel : xs.length < fuel) :
    Finishing succ (searchAll succ (fun _ l => l) List.cons fuel xs ⟨[], []⟩).out ∧
      (searchAll succ (fun _ l => l) List.cons fuel xs ⟨[], []⟩).out.Nodup ∧
      ∀ v, v ∈ (searchAll succ (fun _ l => l) List.cons fuel xs ⟨[], []⟩).out ↔ v ∈ xs := by
  have hempty : Leaving succ xs ⟨[], []⟩ :=
    ⟨by simp, by simp, by simp, nodup_nil, fun pre x l h => by simp at h⟩
  obtain ⟨⟨-, hinv, hsame⟩, hall⟩ := searchAll_rule (leaving_rule hV) hV
    (fun x hx => hx) (Nat.lt_of_le_of_lt (length_filter_le _ _) hfuel)
    (fun x hx => ⟨hx, hempty, fun v hv => by simp [SearchState.Open] at hv⟩)
  have hst := hinv hempty
  refine ⟨hst.finishing, hst.nodup, fun v => ⟨fun hv => hst.nodes v (hst.left v hv), fun hv => ?_⟩⟩
  by_contra hout
  have := (hsame v).mp ⟨hall v hv, hout⟩
  simp [SearchState.Open] at this

/-! ## What a search enters -/

/-- The rule for searches from `r` that list the nodes they enter. -/
theorem entering_rule (avoid : List α) (r : α) :
    SearchRule succ List.cons (fun _ l => l)
      (fun x st => avoid ⊆ st.seen ∧ (x ∈ avoid ∨ ReachOff succ avoid r x))
      (fun a b => a.seen ⊆ b.seen ∧ (avoid ⊆ a.seen →
        (∀ v, v ∈ b.out ↔ v ∈ a.out ∨ v ∈ b.seen ∧ v ∉ a.seen) ∧
        ∀ v ∈ b.seen, v ∉ a.seen → ReachOff succ avoid r v ∧ ∀ w ∈ succ v, w ∈ b.seen)) where
  refl st := ⟨fun _ h => h, fun _ => ⟨fun v => by simp, fun v hv hnew => absurd hv hnew⟩⟩
  trans := by
    rintro a b c ⟨hab, hb⟩ ⟨hbc, hc⟩
    refine ⟨List.Subset.trans hab hbc, fun havoid => ?_⟩
    obtain ⟨hbout, hbnew⟩ := hb havoid
    obtain ⟨hcout, hcnew⟩ := hc (List.Subset.trans havoid hab)
    refine ⟨fun v => ?_, fun v hv hnew => ?_⟩
    · rw [hcout, hbout]
      constructor
      · rintro ((h | ⟨h, hn⟩) | ⟨h, hn⟩)
        · exact Or.inl h
        · exact Or.inr ⟨hbc h, hn⟩
        · exact Or.inr ⟨h, fun ha => hn (hab ha)⟩
      · rintro (h | ⟨h, hn⟩)
        · exact Or.inl (Or.inl h)
        · by_cases hvb : v ∈ b.seen
          · exact Or.inl (Or.inr ⟨hvb, hn⟩)
          · exact Or.inr ⟨h, hvb⟩
    · by_cases hvb : v ∈ b.seen
      · exact ⟨(hbnew v hvb hnew).1, fun w hw => hbc ((hbnew v hvb hnew).2 w hw)⟩
      · exact hcnew v hv hvb
  seen h := h.1
  next hq hp := ⟨List.Subset.trans hp.1 hq.1, hp.2⟩
  call := by
    rintro x st y ⟨havoid, hx⟩ hnew hy
    refine ⟨fun v hv => mem_cons_of_mem _ (havoid hv), ?_⟩
    by_cases hya : y ∈ avoid
    · exact Or.inl hya
    · exact Or.inr ((hx.resolve_left fun h => hnew (havoid h)).tail ⟨hy, hya⟩)
  step := by
    rintro x st st' ⟨havoid, hx⟩ hnew ⟨hseen, hq⟩ hsucc
    obtain ⟨hout, hent⟩ := hq fun v hv => mem_cons_of_mem _ (havoid hv)
    refine ⟨fun v hv => hseen (mem_cons_of_mem _ hv), fun _ => ⟨fun v => ?_, fun v hv hv' => ?_⟩⟩
    · rw [hout, mem_cons, mem_cons, not_or]
      constructor
      · rintro ((rfl | h) | ⟨h, -, hn⟩)
        · exact Or.inr ⟨hseen mem_cons_self, hnew⟩
        · exact Or.inl h
        · exact Or.inr ⟨h, hn⟩
      · rintro (h | ⟨h, hn⟩)
        · exact Or.inl (Or.inr h)
        · by_cases hvx : v = x
          · exact Or.inl (Or.inl hvx)
          · exact Or.inr ⟨h, hvx, hn⟩
    · by_cases hvx : v = x
      · subst hvx
        exact ⟨hx.resolve_left fun h => hnew (havoid h), hsucc⟩
      · exact hent v hv (by simp [hvx, hv'])

/-- **A search enters what it reaches** outside of the nodes entered before. -/
theorem mem_search_iff (hV : ∀ u ∈ V, ∀ w ∈ succ u, w ∈ V) (hx : x ∈ V) (hnew : x ∉ seen)
    (hfuel : V.length < fuel) (v : α) :
    let st := search succ List.cons (fun _ l => l) fuel x ⟨seen, []⟩
    (v ∈ st.out ↔ ReachOff succ seen x v) ∧ (v ∈ st.seen ↔ v ∈ seen ∨ v ∈ st.out) := by
  intro st
  obtain ⟨⟨hseen, hq⟩, hroot⟩ := @search_rule _ succ List.cons (fun _ l => l) _ _ V _
    (entering_rule seen x) hV fuel x ⟨seen, []⟩ hx
    (Nat.lt_of_le_of_lt (length_filter_le _ _) hfuel) ⟨fun v hv => hv, Or.inr .refl⟩
  obtain ⟨hout, hent⟩ := hq fun v hv => hv
  have hout' : ∀ v, v ∈ st.out ↔ v ∈ st.seen ∧ v ∉ seen := by
    intro v
    exact (hout v).trans (or_iff_right (not_mem_nil))
  refine ⟨⟨fun hv => ?_, fun hv => ?_⟩, ?_⟩
  · obtain ⟨hmem, hn⟩ := (hout' v).mp hv
    exact (hent v hmem hn).1
  · rw [hout']
    induction hv with
    | refl => exact ⟨hroot, hnew⟩
    | tail _ hstep ih => exact ⟨(hent _ ih.1 ih.2).2 _ hstep.1, hstep.2⟩
  · rw [hout']
    constructor
    · intro h
      by_cases hs : v ∈ seen
      · exact Or.inl hs
      · exact Or.inr ⟨h, hs⟩
    · rintro (h | h)
      · exact hseen h
      · exact h.1

/-! ## Components -/

/-- Search backwards from each node of a list that has not been entered before. -/
def components (pred : α → List α) (fuel : Nat) : List α → List α → List (List α)
  | [], _ => []
  | x :: l, seen =>
      if x ∈ seen then components pred fuel l seen else
        let st := search pred List.cons (fun _ l => l) fuel x ⟨seen, []⟩
        st.out :: components pred fuel l st.seen

section Components

variable {pred : α → List α} (hdual : ∀ u w, u ∈ pred w ↔ w ∈ succ u)

include hdual

/-- **One search backwards finds one component.** -/
theorem mem_component_iff (hV : ∀ u w, u ∈ pred w → u ∈ V) (hfuel : V.length < fuel) (hxV : x ∈ V)
    (hx : x ∉ seen) (hfin : Finishing succ (x :: l)) (hnodup : (x :: l).Nodup)
    (hrest : ∀ v ∈ V, v ∉ seen → v ∈ x :: l) (hseen : ∀ v ∈ seen, ∀ w, Mutual succ v w → w ∈ seen)
    (v : α) : let st := search pred List.cons (fun _ l => l) fuel x ⟨seen, []⟩
    (v ∈ st.out ↔ Mutual succ x v) ∧ (v ∈ st.seen ↔ v ∈ seen ∨ v ∈ st.out) := by
  have hclosed : ∀ u ∈ V, ∀ w ∈ pred u, w ∈ V := fun u _ w hw => hV w u hw
  obtain ⟨hout, hst⟩ := mem_search_iff hclosed hxV hx hfuel v
  refine ⟨hout.trans ⟨fun h => ⟨?_, reach_of_reachOff hdual h⟩,
    reachOff_of_mutual hdual hx hseen⟩, hst⟩
  exact reach_of_finishing hdual hfin hnodup (fun u w hu hn => hrest u (hV u w hu) hn) h

/-- **The components are the classes of mutual reachability**, each found once. -/
theorem components_spec (hV : ∀ u w, u ∈ pred w → u ∈ V) (hfuel : V.length < fuel)
    (hl : ∀ v ∈ l, v ∈ V) (hfin : Finishing succ l) (hnodup : l.Nodup)
    (hrest : ∀ v ∈ V, v ∉ seen → v ∈ l)
    (hseen : ∀ v ∈ seen, ∀ w, Mutual succ v w → w ∈ seen) :
    (∀ c ∈ components pred fuel l seen, (∃ v ∈ c, v ∈ V) ∧
      ∀ v ∈ c, v ∉ seen ∧ ∀ w, w ∈ c ↔ Mutual succ v w) ∧
    (components pred fuel l seen).Pairwise (fun c d => ∀ v ∈ c, v ∉ d) ∧
    ∀ v ∈ V, v ∉ seen → ∃ c ∈ components pred fuel l seen, v ∈ c := by
  induction l generalizing seen with
  | nil => exact ⟨by simp [components], .nil, fun v hv hn => absurd (hrest v hv hn) not_mem_nil⟩
  | cons x l ih =>
    have hfin' : Finishing succ l := fun pre y l' heq => hfin (x :: pre) y l' (by rw [heq]; rfl)
    have hl' : ∀ v ∈ l, v ∈ V := fun v hv => hl v (mem_cons_of_mem _ hv)
    have hnodup' := (nodup_cons.mp hnodup).2
    rw [components]
    split
    · rename_i hx
      exact ih hl' hfin' hnodup' (fun v hv hn => (mem_cons.mp
        (hrest v hv hn)).resolve_left fun heq => hn (heq ▸ hx)) hseen
    · rename_i hx
      have hst := mem_component_iff hdual hV hfuel (hl x mem_cons_self) hx hfin hnodup hrest hseen
      dsimp only at hst ⊢
      generalize search pred List.cons (fun _ l => l) fuel x ⟨seen, []⟩ = st at hst ⊢
      have hxout : x ∈ st.out := (hst x).1.mpr ⟨.refl, .refl⟩
      obtain ⟨h₁, h₂, h₃⟩ := @ih st.seen hl' hfin' hnodup'
        (fun v hv hn => by
          have := hrest v hv fun h => hn ((hst v).2.mpr (Or.inl h))
          exact (mem_cons.mp this).resolve_left fun heq =>
            hn ((hst v).2.mpr (Or.inr (heq ▸ hxout))))
        (fun v hv w hw => by
          rcases (hst v).2.mp hv with h | h
          · exact (hst w).2.mpr (Or.inl (hseen v h w hw))
          · exact (hst w).2.mpr (Or.inr ((hst w).1.mpr (((hst v).1.mp h).trans hw))))
      refine ⟨?_, ?_, ?_⟩
      · refine forall_mem_cons.mpr
          ⟨⟨⟨x, hxout, hl x mem_cons_self⟩, fun v hv => ⟨fun h => ?_, fun w => ?_⟩⟩, ?_⟩
        · exact hx (hseen v h x ((hst v).1.mp hv).symm)
        · rw [(hst w).1]
          exact ⟨((hst v).1.mp hv).symm.trans, ((hst v).1.mp hv).trans⟩
        · intro c hc
          obtain ⟨hne, hclass⟩ := h₁ c hc
          exact ⟨hne, fun v hv =>
            ⟨fun h => (hclass v hv).1 ((hst v).2.mpr (Or.inl h)), (hclass v hv).2⟩⟩
      · refine pairwise_cons.mpr ⟨fun c hc v hv hvc => ?_, h₂⟩
        exact ((h₁ c hc).2 v hvc).1 ((hst v).2.mpr (Or.inr hv))
      · intro v hv hn
        by_cases hvout : v ∈ st.out
        · exact ⟨_, mem_cons_self, hvout⟩
        · obtain ⟨c, hc, hvc⟩ := h₃ v hv fun h => ((hst v).2.mp h).elim hn hvout
          exact ⟨c, mem_cons_of_mem _ hc, hvc⟩

end Components

end Machinery

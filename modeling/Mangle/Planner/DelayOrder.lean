import Mathlib.Data.List.Induction
import Mangle.Planner.Delay

/-!
# Planner/DelayOrder — moving the premises that are not ready is a safe reordering

`delay_unbound_premises` does three things only: it places a ready premise, lets one wait, or places
one that has waited and has become ready (`Delays`).  The invariants are inductions over these
steps; that the passes of `place_premise` end with no ready premise waiting is `settle_spec`.

* `delayUnboundPremises_safe` — the result is a permutation whose atoms keep their order and whose
  premises are ready at their places, up to a final segment; which premises end in that segment does
  not depend on the order of the input, for what has been placed is the least set of bindings that
  is closed under readiness (`Delays.bound_subset`).
-/

namespace Mangle

open List

variable {t : Term} {x : String} {p : Premise} {st : DelayState} {bound : List String}
  {done : List Premise}

/-! ## Readiness -/

theorem mem_vars : x ∈ t.vars ↔ x ∈ t.allVars ∧ x ≠ "_" := by
  simp [Term.vars]

theorem eq_of_mem_vars_var {y : String} (h : y ∈ (Term.var x).vars) : y = x :=
  mem_singleton.mp (mem_vars.mp h).1

theorem termFullyBound_iff : termFullyBound bound t = true ↔ ∀ y ∈ t.vars, y ∈ bound := by
  simp [termFullyBound]

/-- An equality with a variable on one side is ready once the other side is bound. -/
theorem ready_of_vars (h : ∀ y ∈ t.vars, y ∈ bound) :
    premiseReady bound (.eq (.var x) t) = true ∧ premiseReady bound (.eq t (.var x)) = true := by
  have ht := termFullyBound_iff.mpr h
  by_cases hx : x ∈ bound
  · have hfull : termFullyBound bound (.var x) = true :=
      termFullyBound_iff.mpr fun y hy => eq_of_mem_vars_var hy ▸ hx
    simp [premiseReady, ht, hfull]
  · simp [premiseReady, ht, eqAsBindingReady, hx]

/-- What is ready stays ready when more variables are bound. -/
theorem premiseReady_mono {B : List String} (hs : ∀ x ∈ bound, x ∈ B)
    (h : premiseReady bound p = true) : premiseReady B p = true := by
  have hfull {t : Term} (ht : termFullyBound bound t = true) : termFullyBound B t = true :=
    termFullyBound_iff.mpr fun y hy => hs y (termFullyBound_iff.mp ht y hy)
  have hbind {l r : Term} (h : eqAsBindingReady bound l r = true) :
      premiseReady B (.eq l r) = true ∧ premiseReady B (.eq r l) = true := by
    cases l with
    | var x =>
      have hr := hfull (Bool.and_eq_true_iff.mp h).2
      exact ready_of_vars (termFullyBound_iff.mp hr)
    | _ => cases h
  cases p with
  | atom pred args => rfl
  | negAtom pred args => exact all_eq_true.mpr fun t ht => hfull (all_eq_true.mp h t ht)
  | ineq l r =>
    obtain ⟨hl, hr⟩ := Bool.and_eq_true_iff.mp h
    exact Bool.and_eq_true_iff.mpr ⟨hfull hl, hfull hr⟩
  | eq l r =>
    simp only [premiseReady, Bool.or_eq_true, Bool.and_eq_true] at h
    rcases h with (⟨hl, hr⟩ | h) | h
    · simp [premiseReady, hfull hl, hfull hr]
    · exact (hbind h).1
    · exact (hbind h).2

theorem delayable_of_not_ready (h : premiseReady bound p = false) : p.delayable = true := by
  cases p with
  | atom pred args => cases h
  | _ => rfl

/-! ## The steps -/

/-- **The states the planner goes through**, with the premises it has come past. -/
inductive Delays : List Premise → DelayState → Prop
  | nil : Delays [] ⟨[], [], []⟩
  | place {done : List Premise} {st : DelayState} {p : Premise} (h : Delays done st)
      (hr : premiseReady st.bound p = true) : Delays (done ++ [p]) (st.push p)
  | wait {done : List Premise} {st : DelayState} {p : Premise} (h : Delays done st)
      (hr : premiseReady st.bound p = false) :
      Delays (done ++ [p]) { st with waiting := st.waiting ++ [p] }
  | resume {done ws ws' : List Premise} {st : DelayState} {p : Premise} (h : Delays done st)
      (hst : st.waiting = ws ++ p :: ws') (hr : premiseReady st.bound p = true) :
      Delays done { st.push p with waiting := ws ++ ws' }

namespace Delays

variable (h : Delays done st)

include h

theorem perm : (st.ordered ++ st.waiting).Perm done := by
  induction h with
  | nil => exact Perm.refl _
  | @place _ st p _ _ ih =>
    refine Perm.trans ?_ (ih.append_right [p])
    simpa [DelayState.push] using (@perm_append_comm _ [p] _).append_left st.ordered
  | @wait _ _ p _ _ ih => simpa using ih.append_right [p]
  | @resume _ _ _ st _ _ hst _ ih =>
    refine Perm.trans ?_ ih
    simpa [DelayState.push, hst] using perm_middle.symm.append_left st.ordered

theorem mem : p ∈ done ↔ p ∈ st.ordered ∨ p ∈ st.waiting := by
  rw [← h.perm.mem_iff, mem_append]

theorem bound_eq : st.bound = st.ordered.flatMap premiseBindings := by
  induction h with
  | nil => rfl
  | place h hr ih => simp [DelayState.push, ih]
  | wait h hr ih => exact ih
  | resume h hst hr ih => simp [DelayState.push, ih]

theorem bindings (hp : p ∈ st.ordered) (hx : x ∈ premiseBindings p) : x ∈ st.bound := by
  rw [h.bound_eq]
  exact mem_flatMap_of_mem hp hx

theorem waiting_sublist : st.waiting.Sublist done := by
  induction h with
  | nil => exact Sublist.refl _
  | place h hr ih => exact ih.trans (sublist_append_left _ _)
  | wait h hr ih => exact ih.append (Sublist.refl _)
  | resume h hst hr ih =>
    refine Sublist.trans ?_ ih
    rw [hst]
    exact (Sublist.refl _).append (sublist_cons_self _ _)

theorem waiting_delayable : ∀ p ∈ st.waiting, p.delayable = true := by
  induction h with
  | nil => simp
  | place h hr ih => exact ih
  | wait h hr ih => exact forall_mem_append.mpr ⟨ih, by simpa using delayable_of_not_ready hr⟩
  | resume h hst hr ih =>
    rw [hst, forall_mem_append, forall_mem_cons] at ih
    exact forall_mem_append.mpr ⟨ih.1, ih.2.2⟩

/-- The atoms are placed as they come. -/
theorem atoms : st.ordered.filter (!·.delayable) = done.filter (!·.delayable) := by
  induction h with
  | nil => rfl
  | place h hr ih => simp [DelayState.push, filter_append, ih]
  | wait h hr ih => simp [filter_append, ih, delayable_of_not_ready hr]
  | resume h hst hr ih =>
    have hd := h.waiting_delayable _ (hst ▸ mem_append_right _ mem_cons_self)
    simp [DelayState.push, filter_append, ih, hd]

/-- Every placed premise is ready at its place. -/
theorem ready {pre post : List Premise} (hp : st.ordered = pre ++ p :: post) :
    premiseReady (pre.flatMap premiseBindings) p = true := by
  have hpush {st : DelayState} {q : Premise} {pre post : List Premise}
      (hb : st.bound = st.ordered.flatMap premiseBindings) (hr : premiseReady st.bound q = true)
      (ih : ∀ {post}, st.ordered = pre ++ p :: post →
        premiseReady (pre.flatMap premiseBindings) p = true)
      (hp : st.ordered ++ [q] = pre ++ p :: post) :
      premiseReady (pre.flatMap premiseBindings) p = true := by
    rcases eq_nil_or_concat post with rfl | ⟨post, r, rfl⟩
    · obtain ⟨rfl, hq⟩ := append_inj' hp rfl
      rw [← hb, ← (cons.inj hq).1]
      exact hr
    · rw [concat_eq_append, ← cons_append, ← append_assoc] at hp
      exact ih (append_inj' hp rfl).1
  induction h generalizing post with
  | nil => simp at hp
  | place h hr ih => exact hpush h.bound_eq hr ih hp
  | wait h hr ih => exact ih hp
  | resume h hst hr ih => exact hpush h.bound_eq hr ih hp

/-- **What has been bound is in every set of variables closed under readiness.** -/
theorem bound_subset {B : List String}
    (hB : ∀ p ∈ done, premiseReady B p = true → ∀ x ∈ premiseBindings p, x ∈ B) :
    ∀ x ∈ st.bound, x ∈ B := by
  induction h with
  | nil => simp
  | place h hr ih =>
    obtain ⟨hdone, hp⟩ := forall_mem_append.mp hB
    have hsub := ih hdone
    exact forall_mem_append.mpr ⟨hsub, hp _ (mem_singleton_self _) (premiseReady_mono hsub hr)⟩
  | wait h hr ih => exact ih (forall_mem_append.mp hB).1
  | resume h hst hr ih =>
    have hsub := ih hB
    have hp := h.mem.mpr (Or.inr (hst ▸ mem_append_right _ mem_cons_self))
    exact forall_mem_append.mpr ⟨hsub, hB _ hp (premiseReady_mono hsub hr)⟩

end Delays

/-! ## The passes -/

open DelayState (sweepStep) in
theorem foldl_sweepStep (st : DelayState) {ws : List Premise}
    (h : Delays done { st with waiting := st.waiting ++ ws }) :
    Delays done (ws.foldl sweepStep st) ∧ st.ordered <+: (ws.foldl sweepStep st).ordered ∧
      (ws.foldl sweepStep st).waiting.Sublist (st.waiting ++ ws) ∧
      ((ws.foldl sweepStep st).waiting.length = (st.waiting ++ ws).length →
        (ws.foldl sweepStep st).bound = st.bound ∧
          ∀ p ∈ ws, premiseReady st.bound p = false) := by
  induction ws generalizing st with
  | nil => simpa using h
  | cons w ws ih =>
    simp only [foldl_cons]
    cases hr : premiseReady st.bound w with
    | true =>
      have hstep : st.sweepStep w = st.push w := by simp [sweepStep, hr]
      rw [hstep]
      obtain ⟨hd, hpre, hsub, -⟩ := ih (st.push w) (h.resume rfl hr)
      have hlt := hsub.length_le
      refine ⟨hd, (prefix_append _ _).trans hpre, hsub.trans ?_, fun heq => ?_⟩
      · exact (Sublist.refl _).append (sublist_cons_self _ _)
      · simp only [DelayState.push, length_append, length_cons] at hlt heq
        omega
    | false =>
      have hstep : st.sweepStep w = { st with waiting := st.waiting ++ [w] } := by
        simp [sweepStep, hr]
      rw [hstep]
      obtain ⟨hd, hpre, hsub, hquiet⟩ :=
        ih { st with waiting := st.waiting ++ [w] } (by simpa using h)
      simp only [append_assoc, singleton_append] at hsub hquiet
      refine ⟨hd, hpre, hsub, fun heq => ⟨(hquiet heq).1, ?_⟩⟩
      exact forall_mem_cons.mpr ⟨hr, (hquiet heq).2⟩

/-- No waiting premise is ready. -/
def Quiet (st : DelayState) : Prop := ∀ p ∈ st.waiting, premiseReady st.bound p = false

/-- **Settling places every waiting premise that becomes ready.** -/
theorem settle_spec {fuel : Nat} (h : Delays done st) (hfuel : st.waiting.length < fuel) :
    Delays done (st.settle fuel) ∧ st.ordered <+: (st.settle fuel).ordered ∧
      Quiet (st.settle fuel) := by
  induction fuel generalizing st with
  | zero => omega
  | succ fuel ih =>
    obtain ⟨hd, hpre, hsub, hquiet⟩ := foldl_sweepStep { st with waiting := [] } h
    rw [← DelayState.sweep] at hd hpre hsub hquiet
    simp only [nil_append] at hsub hquiet
    simp only [DelayState.settle]
    split
    · rename_i heq
      obtain ⟨hb, hq⟩ := hquiet heq
      refine ⟨hd, hpre, fun p hp => ?_⟩
      rw [hb]
      exact hq p (hsub.subset hp)
    · rename_i hne
      have hlt : st.sweep.waiting.length < st.waiting.length :=
        Nat.lt_of_le_of_ne hsub.length_le hne
      obtain ⟨hd', hpre', hq'⟩ := ih hd (by omega)
      exact ⟨hd', hpre.trans hpre', hq'⟩

/-- **One step of the planner's order.**  A premise that is ready is placed. -/
theorem step_spec (h : Delays done st) (hq : Quiet st) (p : Premise) :
    Delays (done ++ [p]) (st.step p) ∧ Quiet (st.step p) ∧
      st.ordered <+: (st.step p).ordered ∧
      (premiseReady st.bound p = true → p ∈ (st.step p).ordered) := by
  unfold DelayState.step
  cases hr : premiseReady st.bound p with
  | false =>
    simp only [delayable_of_not_ready hr, Bool.not_false, Bool.and_self, if_true]
    refine ⟨h.wait hr, ?_, prefix_refl _, fun hr' => by cases hr'⟩
    exact forall_mem_append.mpr ⟨hq, by simpa using hr⟩
  | true =>
    simp only [Bool.not_true, Bool.and_false, Bool.false_eq_true, if_false]
    obtain ⟨hd, hpre, hquiet⟩ := settle_spec (h.place hr) (Nat.lt_succ_self _)
    refine ⟨hd, hquiet, (prefix_append _ _).trans hpre, fun _ => hpre.subset ?_⟩
    exact mem_append_right _ (mem_singleton_self p)

/-- **All premises.** -/
theorem delays_foldl (premises : List Premise) :
    Delays premises (premises.foldl DelayState.step ⟨[], [], []⟩) ∧
      Quiet (premises.foldl DelayState.step ⟨[], [], []⟩) := by
  induction premises using List.reverseRecOn with
  | nil => exact ⟨Delays.nil, by simp [Quiet]⟩
  | append_singleton ps p ih =>
    rw [foldl_append]
    obtain ⟨hd, hq, -⟩ := step_spec ih.1 ih.2 p
    exact ⟨hd, hq⟩

theorem mem_delayUnboundPremises {premises : List Premise} :
    p ∈ delayUnboundPremises premises ↔ p ∈ premises :=
  (delays_foldl premises).1.perm.mem_iff

/-! ## The final segment -/

/-- What waits in the end waits in the end of every order of the same premises. -/
theorem Delays.waiting_subset {done' : List Premise} {st' : DelayState} (h : Delays done st)
    (h' : Delays done' st') (hq : Quiet st') (hperm : done'.Perm done)
    (hp : p ∈ st'.waiting) : p ∈ st.waiting := by
  have hB : ∀ q ∈ done, premiseReady st'.bound q = true →
      ∀ x ∈ premiseBindings q, x ∈ st'.bound := by
    intro q hmem hr x hx
    rcases h'.mem.mp (hperm.mem_iff.mpr hmem) with hin | hw
    · exact h'.bindings hin hx
    · rw [hq q hw] at hr
      cases hr
  rcases h.mem.mp (hperm.mem_iff.mp (h'.mem.mpr (Or.inr hp))) with hin | hw
  · -- a placed premise is ready for the variables bound before it, so for all of the other order
    obtain ⟨pre, post, hsplit⟩ := append_of_mem hin
    have hready := h.ready hsplit
    have hsub : ∀ x ∈ pre.flatMap premiseBindings, x ∈ st'.bound := by
      intro x hx
      refine h.bound_subset hB x ?_
      rw [h.bound_eq, hsplit, flatMap_append]
      exact mem_append_left _ hx
    have := premiseReady_mono hsub hready
    rw [hq p hp] at this
    cases this
  · exact hw

/-- The premises that still wait at the end. -/
def finalSegment (premises : List Premise) : List Premise :=
  (premises.foldl DelayState.step ⟨[], [], []⟩).waiting

/-- **Delaying premises is a safe reordering.** -/
theorem delayUnboundPremises_safe (premises : List Premise) :
    ∃ placed, delayUnboundPremises premises = placed ++ finalSegment premises ∧
      (delayUnboundPremises premises).Perm premises ∧
      (delayUnboundPremises premises).filter (!·.delayable) = premises.filter (!·.delayable) ∧
      (∀ pre p post, delayUnboundPremises premises = pre ++ p :: post →
        premiseReady (pre.flatMap premiseBindings) p = false → placed <+: pre) ∧
      (finalSegment premises).Sublist premises ∧
      (∀ p ∈ finalSegment premises, premiseReady (placed.flatMap premiseBindings) p = false) ∧
      ∀ premises', premises'.Perm premises →
        ∀ p, p ∈ finalSegment premises' ↔ p ∈ finalSegment premises := by
  obtain ⟨h, hq⟩ := delays_foldl premises
  refine ⟨_, rfl, h.perm, ?_, fun pre p post heq hr => ?_, h.waiting_sublist, ?_, ?_⟩
  · rw [← h.atoms, delayUnboundPremises, filter_append, append_right_eq_self, filter_eq_nil_iff]
    exact fun p hp => by simp [h.waiting_delayable p hp]
  · rcases append_eq_append_iff.mp heq with ⟨pre', hpre, -⟩ | ⟨rest, hord, hrest⟩
    · exact ⟨pre', hpre.symm⟩
    · cases rest with
      | nil =>
        rw [append_nil] at hord
        exact hord ▸ prefix_refl _
      | cons q rest =>
        obtain ⟨rfl, -⟩ := cons.inj hrest
        rw [h.ready hord] at hr
        cases hr
  · rw [← h.bound_eq]
    exact hq
  · intro premises' hperm p
    obtain ⟨h', hq'⟩ := delays_foldl premises'
    exact ⟨h.waiting_subset h' hq' hperm, h'.waiting_subset h hq hperm.symm⟩

end Mangle

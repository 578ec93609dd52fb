import Mangle.Driver.Execute
import Mangle.Planner.Correct
import Mangle.Planner.DelayOrder
import Mangle.Semantics.Insertion
import Mangle.Semantics.LeastModel

/-!
# Driver/Batch — plans of positive rules, run one after the other

Insertions are not visible before the next merge, so every plan of a batch reads the same facts.

* `planRule_inserts` — what the plan of one positive rule inserts;
* `runPlans_inserts` — a batch inserts what its plans insert.
-/

namespace Mangle

open Machinery List

variable {cfg : PlanConfig} {ps : List Premise}

/-! ## Registering relations -/

theorem Rep.createRelations {s : MemStore} {c : Tiers} (h : Rep s c) (preds : List String) :
    Rep (createRelations preds s) c := by
  induction preds generalizing s with
  | nil => exact h
  | cons pred preds ih => exact ih (h.createRelation pred)

theorem Indexed.createRelations {s : MemStore} (h : Indexed s) (preds : List String) :
    Indexed (createRelations preds s) := by
  induction preds generalizing s with
  | nil => exact h
  | cons pred preds ih => exact ih (h.createRelation pred)

/-! ## What a plan inserts -/

/-- Over every store that reads as `c` does, the plan inserts exactly the facts `E`. -/
def Inserts (rt : Runtime) (c : Tiers) (op : Op) (E : Emit → Prop) : Prop :=
  ∀ c' s n s', c'.stable = c.stable → c'.delta = c.delta → Rep s c' → Indexed s →
    execute rt op s = .ok (n, s') → ∃ es, (n, s') = MemStore.insertAll es s ∧ ∀ e, e ∈ es ↔ E e

section

variable {rt : Runtime} {c c' : Tiers} {s s' : MemStore} {n : Nat}

/-- **A batch inserts what its plans insert.** -/
theorem runPlans_inserts {α : Type} {xs : List α} {ops : List Op} {E : α → Emit → Prop}
    (h : List.Forall₂ (fun a op => Inserts rt c op (E a)) xs ops) (hs : c'.stable = c.stable)
    (hd : c'.delta = c.delta) (hrep : Rep s c') (hidx : Indexed s)
    (hrun : runPlans rt ops s = .ok (n, s')) :
    ∃ es, (n, s') = MemStore.insertAll es s ∧ ∀ e, e ∈ es ↔ ∃ a ∈ xs, E a e := by
  induction h generalizing c' s n s' with
  | nil =>
    obtain ⟨rfl, rfl⟩ := Prod.mk.inj (Except.ok.inj hrun)
    exact ⟨[], rfl, by simp⟩
  | cons hop _ ih =>
    obtain ⟨⟨n₁, s₁⟩, hexec, hrun⟩ := bind_eq_ok.mp hrun
    obtain ⟨⟨n₂, s₂⟩, hrest, heq⟩ := bind_eq_ok.mp hrun
    obtain ⟨es, hes, hmem⟩ := hop c' s n₁ s₁ hs hd hrep hidx hexec
    obtain ⟨-, rfl⟩ := Prod.mk.inj hes
    obtain ⟨es', hes', hmem'⟩ := ih ((Tiers.insertAll_stable es).trans hs)
      ((Tiers.insertAll_delta es).trans hd) (hrep.insertAll es) (hidx.insertAll hrep es) hrest
    refine ⟨es ++ es', ?_, fun e => ?_⟩
    · rw [MemStore.insertAll_append, ← hes', ← hes]
      exact (Except.ok.inj heq).symm
    · simp only [mem_append, hmem, hmem', mem_cons, exists_eq_or_imp]

/-! ## Positive rules -/

/-- Satisfaction reads the visible facts and the new ones. -/
theorem satSeq_congr {σ : Subst} (hs : c'.stable = c.stable) (hd : c'.delta = c.delta)
    {X : Set String} : SatSeq rt c' σ cfg X ps ↔ SatSeq rt c σ cfg X ps := by
  have hv : c'.visible = c.visible := by funext rel; rw [Tiers.visible, Tiers.visible, hs, hd]
  have hsat (p : Premise) : Sat rt c' σ p ↔ Sat rt c σ p := by
    cases p <;> simp only [Sat, Holds, Fails, hv]
  induction ps generalizing X with
  | nil => exact Iff.rfl
  | cons p ps ih => simp only [SatSeq, SatAt, hsat, ih, hd]

/-- Atoms keep their place. -/
theorem delayUnboundPremises_atoms (h : ∀ p ∈ ps, ∃ pred args, p = .atom pred args) :
    delayUnboundPremises ps = ps := by
  obtain ⟨hd, -⟩ := delays_foldl ps
  have hatom : ∀ p ∈ ps, p.delayable = false := by
    rintro p hp
    obtain ⟨pred, args, rfl⟩ := h p hp
    rfl
  have hwait : (ps.foldl DelayState.step ⟨[], [], []⟩).waiting = [] := by
    refine eq_nil_iff_forall_not_mem.mpr fun p hp => ?_
    have := hd.waiting_delayable p hp
    simp [hatom p (hd.mem.mpr (Or.inr hp))] at this
  have hord := hd.atoms
  rw [filter_eq_self.mpr fun p hp => by simp [hatom p (hd.mem.mpr (Or.inl hp))],
    filter_eq_self.mpr fun p hp => by simp [hatom p hp]] at hord
  rw [delayUnboundPremises, hord, hwait, append_nil]

/-- The only variable of a flat term is the term. -/
theorem Term.Flat.eq_var {x : String} : ∀ {t : Term}, t.Flat → x ∈ t.allVars → t = .var x
  | .var _, _, hx => congrArg _ (mem_singleton.mp hx).symm
  | .app .., h, _ => h.elim

/-- Atoms over variables and constants bind all their variables. -/
theorem evaluableSeq_flat (X : Set String) (h : ∀ p ∈ ps, p.FlatAtom) : EvaluableSeq X ps := by
  induction ps generalizing X with
  | nil => trivial
  | cons p ps ih =>
    obtain ⟨pred, args, rfl, hkind, hflat⟩ := (h _ mem_cons_self).exists_atom
    refine ⟨?_, ih _ fun p hp => h p (mem_cons_of_mem _ hp)⟩
    simp only [Evaluable, hkind]
    intro x hx
    obtain ⟨t, ht, hxt⟩ := mem_allVarsList.mp hx
    exact Or.inr ((hflat t ht).eq_var hxt ▸ ht)

variable {rule : Rule}

/-- **What the plan of a positive rule inserts**: its head for the substitutions that satisfy the
body by facts the plan reads. -/
theorem planRule_inserts {ruleId : Nat} {op : Op} (hpos : rule.Positive)
    (h : planRule cfg ruleId rule = .ok op) :
    Inserts rt c op fun e => ∃ τ, SatSeq rt c τ cfg ∅ rule.premises ∧ HeadEmits rt rule τ e := by
  intro c' s n s' hs hd hrep hidx hexec
  have hatoms : delayUnboundPremises rule.premises = rule.premises :=
    delayUnboundPremises_atoms fun p hp => by
      obtain ⟨pred, args, rfl, -⟩ := (hpos.body p hp).exists_atom
      exact ⟨pred, args, rfl⟩
  have hrun := @planRule_execute op rt c' cfg rule ruleId s h hpos.noTransform
  rw [hatoms] at hrun
  obtain ⟨es, heq, hmem⟩ := (hrun
    (fun _ => joinsStored_of_all fun pred args hp => (hpos.body _ hp).1)
    (evaluableSeq_flat _ hpos.body) hpos.safe hrep hidx).2 n s' hexec
  refine ⟨es, heq, fun e => ?_⟩
  simp only [hmem, satSeq_congr hs hd]

/-- Satisfaction of a positive body over the visible facts. -/
theorem Rule.Positive.sat_iff (hpos : rule.Positive) {σ : Subst} :
    (∀ p ∈ rule.premises, Sat rt c σ p) ↔ rule.BodyHolds rt c.facts σ := by
  constructor
  · intro h pred args hp
    obtain ⟨vs, hvs, hh⟩ := h _ hp
    simp only [Holds, (hpos.body _ hp).1] at hh
    exact ⟨vs, hvs, hh⟩
  · intro h p hp
    obtain ⟨pred, args, rfl, hkind, -⟩ := (hpos.body p hp).exists_atom
    obtain ⟨vs, hvs, hmem⟩ := h pred args hp
    refine ⟨vs, hvs, ?_⟩
    simp only [Holds, hkind]
    exact hmem

/-- A fact is a consequence of the rule. -/
def Rule.Emits (rt : Runtime) (rule : Rule) (M : Facts) (e : Emit) : Prop :=
  ∃ t ∈ rule.consequences rt M, e = ((rule.pred : Name), t)

/-- What satisfies the body by facts the plan reads is derived from the visible facts. -/
theorem Rule.Positive.emits_of_satSeq (hpos : rule.Positive) {X : Set String} {τ : Subst} {e : Emit}
    (h : SatSeq rt c τ cfg X rule.premises) (he : HeadEmits rt rule τ e) :
    rule.Emits rt c.facts e := by
  have hall : ∀ ps (X : Set String), SatSeq rt c τ cfg X ps → ∀ p ∈ ps, Sat rt c τ p := by
    intro ps
    induction ps with
    | nil => simp
    | cons p ps ih =>
      rintro X ⟨hp, hps⟩ q hq
      rcases mem_cons.mp hq with rfl | hq
      · exact hp.1
      · exact ih _ hps q hq
  obtain ⟨vs, hvs, heq⟩ := he
  exact ⟨vs, ⟨τ, hpos.sat_iff.mp (hall _ X h), hvs⟩, heq⟩

/-- **The initial plan of a positive rule** inserts its consequences. -/
theorem initialPlan_inserts {cfg : RunConfig} {r : Rule × Nat} {op : Op} (hpos : r.1.Positive)
    (h : Program.initialPlan cfg r = .ok op) : Inserts rt c op (r.1.Emits rt c.facts) := by
  intro c' s n s' hs hd hrep hidx hexec
  obtain ⟨es, heq, hmem⟩ := planRule_inserts hpos h c' s n s' hs hd hrep hidx hexec
  refine ⟨es, heq, fun e => ?_⟩
  rw [hmem]
  constructor
  · rintro ⟨τ, hsat, he⟩
    exact hpos.emits_of_satSeq hsat he
  · rintro ⟨t, ⟨τ, hbody, ht⟩, he⟩
    exact ⟨τ, (satSeq_iff rfl).mpr (hpos.sat_iff.mpr hbody), t, ht, he⟩

end

end Mangle

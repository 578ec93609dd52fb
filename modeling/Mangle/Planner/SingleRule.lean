import Mangle.Analysis.BindingsSound
import Mangle.Planner.Correct
import Mangle.Semantics.Insertion

/-!
# Planner/SingleRule — planning and executing one rule

* `planRule_inserts_derived` — the plan of an accepted rule inserts exactly the tuples the rule
  derives from the scan-visible facts, so that the order of the premises does not matter, as long as
  the premises find the variables they evaluate bound where the planner puts them;
* `planRule_nested_variable` — a rule the check accepts whose plan fails because they are not;
* `hashJoin_agrees` — hash joins insert what nested loops insert.
-/

namespace Mangle

open Machinery List

/-! ## Derivation -/

/-- The rule derives the tuple from the scan-visible facts. -/
def Derives (rt : Runtime) (c : Tiers) (rule : Rule) (t : Tuple) : Prop :=
  ∃ σ : Subst, (∀ p ∈ rule.premises, Sat rt c σ p) ∧ evalTerms rt σ rule.args = .ok t

/-- A rule without transforms that the binding check accepts, and whose premises find the variables
they evaluate bound where the planner puts them. -/
structure Plannable (rule : Rule) : Prop where
  accepted : ∃ order, checkBindings order [rule] = .ok ()
  noTransform : rule.transform = []
  noWild : "_" ∉ Term.allVarsList rule.args
  evaluable : EvaluableSeq ∅ (delayUnboundPremises rule.premises)

/-- The head of a plannable rule has variables of its premises only. -/
theorem Plannable.known_head {rule : Rule} (h : Plannable rule) :
    Known {x | x ∈ premiseVars (delayUnboundPremises rule.premises)}
      (Term.allVarsList rule.args) := by
  obtain ⟨order, hok⟩ := h.accepted
  obtain ⟨_, hfacts, hrules⟩ := bind_eq_ok.mp hok
  intro x hx
  rw [Set.mem_ofPred_eq, mem_premiseVars_congr fun p => mem_delayUnboundPremises]
  cases hps : rule.premises with
  | nil =>
    simp only [hps, h.noTransform, filter_cons, isEmpty_nil, Bool.and_self, if_true,
      filter_nil] at hfacts
    obtain ⟨_, hground, _⟩ := bind_eq_ok.mp hfacts
    have := requireBound_eq_ok.mp hground x
      (mem_varsList.mpr ⟨hx, ne_of_mem_of_not_mem hx h.noWild⟩)
    simp at this
  | cons p ps =>
    simp only [hps, filter_cons, isEmpty_cons, Bool.false_and, Bool.not_false, if_true,
      filter_nil] at hrules
    obtain ⟨_, hcheck, _⟩ := bind_eq_ok.mp hrules
    exact hps ▸ known_of_accepted hcheck h.noTransform h.noWild x hx

section

variable (rt : Runtime) {s : MemStore} {c : Tiers} {rule : Rule} {ruleId : Nat} {op : Op}

/-- What executing the plan of a plannable rule does to the store. -/
theorem Plannable.execute (hr : Plannable rule)
    (hplan : planRule ⟨none, false⟩ ruleId rule = .ok op) (hrep : Rep s c) (hidx : Indexed s)
    (hfit : FitsHead c rule) :
    (∀ err, execute rt op s = .error err → err.FromBuiltin) ∧
      ∀ n s', execute rt op s = .ok (n, s') → ∃ c', Rep s' c' ∧
        ∀ rel t, t ∈ c'.all rel ↔ t ∈ c.all rel ∨ (rel = rule.pred ∧ Derives rt c rule t) := by
  obtain ⟨herr, hok⟩ := @planRule_execute _ rt c _ _ _ _ hplan hr.noTransform nofun hr.evaluable
    hr.known_head hrep hidx
  refine ⟨herr, fun n s' hrun => ?_⟩
  obtain ⟨es, heq, hes⟩ := hok n s' hrun
  have hderived : ∀ rel t, (rel, t) ∈ es ↔ rel = rule.pred ∧ Derives rt c rule t := by
    intro rel t
    simp only [hes, satSeq_iff, mem_delayUnboundPremises, HeadEmits, Derives, Prod.mk.injEq]
    constructor
    · rintro ⟨τ, hsat, vs, hvs, rfl, rfl⟩
      exact ⟨rfl, τ, hsat, hvs⟩
    · rintro ⟨rfl, τ, hsat, hvs⟩
      exact ⟨τ, hsat, t, hvs, rfl, rfl⟩
  refine ⟨c.insertAll es, ?_, fun rel t => ?_⟩
  · rw [(Prod.mk.inj heq).2]
    exact hrep.insertAll es
  · have hlen : ∀ e ∈ es, e.1 = rule.pred ∧ e.2.length = rule.args.length := by
      rintro ⟨rel, t⟩ he
      obtain ⟨hrel, τ, -, hvs⟩ := (hderived rel t).mp he
      exact ⟨hrel, length_evalTerms hvs⟩
    rw [Tiers.mem_all_insertAll (fun e he => ⟨fun n hn => ?_, fun e' he' _ => ?_⟩), hderived]
    · rw [(hlen e he).1] at hn
      rw [hfit n hn, (hlen e he).2]
    · rw [(hlen e' he').2, (hlen e he).2]

/-- **A plan inserts exactly what its rule derives** from the scan-visible facts, unless a built-in
fails; so two orders of the premises insert the same facts. -/
theorem planRule_inserts_derived (hr : Plannable rule)
    (hplan : planRule ⟨none, false⟩ ruleId rule = .ok op) (hrep : Rep s c) (hidx : Indexed s)
    (hfit : FitsHead c rule) :
    (∀ err, execute rt op s = .error err → err.FromBuiltin) ∧
      (∀ n s', execute rt op s = .ok (n, s') → ∃ c', Rep s' c' ∧
        ∀ rel t, t ∈ c'.all rel ↔ t ∈ c.all rel ∨ (rel = rule.pred ∧ Derives rt c rule t)) ∧
      ∀ premises ruleId' op', premises.Perm rule.premises →
        Plannable { rule with premises := premises } →
        planRule ⟨none, false⟩ ruleId' { rule with premises := premises } = .ok op' →
        ∀ n s₁ m s₂, execute rt op s = .ok (n, s₁) → execute rt op' s = .ok (m, s₂) →
          ∃ c₁ c₂, Rep s₁ c₁ ∧ Rep s₂ c₂ ∧ ∀ rel t, t ∈ c₁.all rel ↔ t ∈ c₂.all rel := by
  obtain ⟨herr, hok⟩ := hr.execute rt hplan hrep hidx hfit
  refine ⟨herr, hok, fun premises ruleId' op' hperm hr' hplan' n s₁ m s₂ h₁ h₂ => ?_⟩
  obtain ⟨c₁, hrep₁, hc₁⟩ := hok n s₁ h₁
  obtain ⟨c₂, hrep₂, hc₂⟩ := (hr'.execute rt hplan' hrep hidx hfit).2 m s₂ h₂
  refine ⟨c₁, c₂, hrep₁, hrep₂, fun rel t => ?_⟩
  rw [hc₁, hc₂]
  simp only [Derives, hperm.mem_iff]

/-- **Hash joins insert what nested loops insert**, unless they read a built-in as a relation. -/
theorem hashJoin_agrees {s₁ s₂ : MemStore} {n m : Nat} {d : Option String} {op' : Op}
    (hr : Plannable rule)
    (hjoin : JoinsStored ∅ (delayUnboundPremises rule.premises))
    (hplan : planRule ⟨d, false⟩ ruleId rule = .ok op)
    (hplan' : planRule ⟨d, true⟩ ruleId rule = .ok op') (hrep : Rep s c) (hidx : Indexed s)
    (h₁ : execute rt op s = .ok (n, s₁)) (h₂ : execute rt op' s = .ok (m, s₂)) :
    ∃ es es', (n, s₁) = MemStore.insertAll es s ∧ (m, s₂) = MemStore.insertAll es' s ∧
      ∀ e, e ∈ es ↔ e ∈ es' := by
  have hhead := hr.known_head
  obtain ⟨es, hes, hmem⟩ :=
    (planRule_execute hplan hr.noTransform nofun hr.evaluable hhead hrep hidx).2 n s₁ h₁
  obtain ⟨es', hes', hmem'⟩ := (planRule_execute hplan' hr.noTransform (fun _ => hjoin)
    hr.evaluable hhead hrep hidx).2 m s₂ h₂
  have hsame (X : Set String) (ps : List Premise) (τ : Subst) :
      SatSeq rt c τ ⟨d, false⟩ X ps ↔ SatSeq rt c τ ⟨d, true⟩ X ps := by
    induction ps generalizing X with
    | nil => rfl
    | cons p ps ih => exact and_congr Iff.rfl (ih _)
  refine ⟨es, es', hes, hes', fun e => ?_⟩
  simp only [hmem, hmem', hsame]

end

/-! ## A nested variable that nothing else binds -/

/-- `q(Y) :- p(fn:plus(Y, 1)), r(Y).` -/
def nestedRule : Rule where
  pred := "q"
  args := [.var "Y"]
  premises := [.atom "p" [.app (.fn "fn:plus") [.var "Y", .number 1]], .atom "r" [.var "Y"]]
  transform := []

/-- A store with `p(2)` and `r(1)`. -/
def nestedStore : MemStore :=
  ((MemStore.new.insert "p" [.number 2]).2.insert "r" [.number 1]).2.mergeDeltas

/-- What it holds. -/
def nestedTiers : Tiers :=
  ((Tiers.empty.insert "p" [.number 2]).insert "r" [.number 1]).merge

theorem rep_nestedStore : Rep nestedStore nestedTiers :=
  ((Rep.new.insert "p" [.number 2]).insert "r" [.number 1]).mergeDeltas

theorem indexed_nestedStore : Indexed nestedStore :=
  ((Indexed.new.insert Rep.new "p" [.number 2]).insert (Rep.new.insert "p" [.number 2]) "r"
    [.number 1]).mergeDeltas ((Rep.new.insert "p" [.number 2]).insert "r" [.number 1])

/-- **The check accepts a rule whose plan fails**: it takes `Y` for bound by the atom that has to
evaluate it.  With the atoms the other way round the rule derives `q(1)`. -/
theorem planRule_nested_variable :
    checkBindings .insertion [nestedRule] = .ok () ∧ FitsHead nestedTiers nestedRule ∧
      (∃ op, planRule ⟨none, false⟩ 0 nestedRule = .ok op ∧
        execute .bare op nestedStore = .error .variableNotFound) ∧
      ∃ op s', planRule ⟨none, false⟩ 0
          { nestedRule with premises := nestedRule.premises.reverse } = .ok op ∧
        execute .bare op nestedStore = .ok (1, s') ∧ s'.scanNextDelta "q" = some [[.number 1]] := by
  refine ⟨rfl, ?_, ⟨_, rfl, rfl⟩, ⟨_, _, rfl, rfl, rfl⟩⟩
  intro n hn
  cases hn

/-- The rule with its atoms the other way round is plannable, and its plan inserts `q(1)`. -/
theorem planRule_inserts_derived_reversed : ∃ op s' c',
    planRule ⟨none, false⟩ 0 { nestedRule with premises := nestedRule.premises.reverse } = .ok op ∧
      execute .bare op nestedStore = .ok (1, s') ∧ Rep s' c' ∧ [.number 1] ∈ c'.all "q" := by
  have hr : Plannable { nestedRule with premises := nestedRule.premises.reverse } := by
    refine ⟨⟨.insertion, rfl⟩, rfl, by decide, fun x hx => Or.inr ?_,
      fun x hx => Or.inl (Or.inr hx), trivial⟩
    obtain rfl : x = "Y" := mem_singleton.mp hx
    exact mem_cons_self
  have hmain := @planRule_inserts_derived .bare _ _ _ 0 _ hr rfl rep_nestedStore
    indexed_nestedStore (fun n hn => by cases hn)
  obtain ⟨c', hrep, hc'⟩ := hmain.2.1 _ _ rfl
  refine ⟨_, _, c', rfl, rfl, hrep, (hc' _ _).mpr (Or.inr ⟨rfl, fun _ => .number 1, ?_, rfl⟩)⟩
  intro p hp
  rcases mem_cons.mp hp with rfl | hp
  · exact ⟨_, rfl, mem_cons_self⟩
  · obtain rfl := mem_singleton.mp hp
    exact ⟨_, rfl, mem_cons_self⟩

/-! ## A join -/

/-- `q(X) :- p(X), r(X).` -/
def joinRule : Rule := ⟨"q", [.var "X"], [.atom "p" [.var "X"], .atom "r" [.var "X"]], []⟩

/-- A store with `p(1)` and `r(1)`. -/
def joinStore : MemStore :=
  ((MemStore.new.insert "p" [.number 1]).2.insert "r" [.number 1]).2.mergeDeltas

/-- Both plans insert `q(1)`. -/
theorem hashJoin_agrees_join : ∃ op op' n m s₁ s₂ es es',
    planRule ⟨none, false⟩ 0 joinRule = .ok op ∧ planRule ⟨none, true⟩ 0 joinRule = .ok op' ∧
      execute .bare op joinStore = .ok (n, s₁) ∧ execute .bare op' joinStore = .ok (m, s₂) ∧
      s₁.scanNextDelta "q" = some [[.number 1]] ∧ s₂.scanNextDelta "q" = some [[.number 1]] ∧
      (n, s₁) = MemStore.insertAll es joinStore ∧ (m, s₂) = MemStore.insertAll es' joinStore ∧
      ∀ e, e ∈ es ↔ e ∈ es' := by
  have hr : Plannable joinRule := by
    refine ⟨⟨.insertion, rfl⟩, rfl, by decide, fun x hx => .inr ?_,
      fun x hx => .inl (.inr hx), trivial⟩
    obtain rfl := mem_singleton.mp hx
    exact mem_cons_self
  have hjoin : JoinsStored ∅ joinRule.premises := by
    refine joinsStored_of_all fun pred args hp => ?_
    obtain ⟨rfl, -⟩ | ⟨rfl, -⟩ := by simpa [joinRule] using hp
    all_goals rfl
  have hrep := (Rep.new.insert "p" [.number 1]).insert "r" [.number 1]
  have hidx := (Indexed.new.insert Rep.new "p" [.number 1]).insert
    (Rep.new.insert "p" [.number 1]) "r" [.number 1]
  obtain ⟨es, es', h⟩ := @hashJoin_agrees .bare joinStore _ _ 0 _ _ _ _ _ none _ hr hjoin rfl rfl
    hrep.mergeDeltas (hidx.mergeDeltas hrep) rfl rfl
  exact ⟨_, _, _, _, _, _, es, es', rfl, rfl, rfl, rfl, rfl, rfl, h⟩

end Mangle

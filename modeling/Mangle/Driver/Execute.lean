import Mangle.Interpreter.Exec
import Mangle.Machinery.Collect
import Mangle.Planner.Plan

/-!
# Driver/Execute — running a stratified program

`execute_with_options`: every stratum is planned first; then the strata run one after the other.  A
stratum none of whose rules reads one of its own predicates runs once.  Any other runs its initial
plans once and then its delta plans, one for each occurrence of a predicate of the stratum in a
body, until a round inserts nothing.

The loop of the source has no bound.  Here it has `rounds`, past which the run is `unfinished`.
Provenance is not recorded.
-/

namespace Mangle

open Machinery

/-- What `execute` reads of a compiled program: the rules in the order of their instructions, the
extensional predicates, the strata in order, and the temporal predicates. -/
structure Program where
  rules : List Rule
  extensional : List String
  strata : List (List String)
  temporal : List String

/-- The options of a run: whether the planner may use hash joins (`MANGLE_HASHJOIN`), and how many
rounds a stratum gets. -/
structure RunConfig where
  hashJoin : Bool
  rounds : Nat

/-- `StratumPlan`. -/
inductive StratumPlan where
  | nonRecursive (ops : List Op)
  | recursive (initialOps deltaPlans : List Op)

/-! ## Planning -/

/-- The predicates of a stratum a rule reads in its atoms, one for each occurrence. -/
def recursiveAtoms (stratum : List String) (rule : Rule) : List String :=
  rule.premises.filterMap fun p => match p with
    | .atom pred _ => if pred ∈ stratum then some pred else none
    | .negAtom .. | .eq .. | .ineq .. => none

namespace Program

variable (prog : Program)

/-- The rules of a stratum with their ids.  The id stands for the rule's instruction number, which
tells the temporary relations of one rule from those of another. -/
def stratumRules (stratum : List String) : List (Rule × Nat) :=
  prog.rules.zipIdx.filter fun r => r.1.pred ∈ stratum

/-- The plan of a rule without delta predicate. -/
def initialPlan (cfg : RunConfig) (r : Rule × Nat) : Except String Op :=
  planRule ⟨none, cfg.hashJoin⟩ r.2 r.1

/-- The delta plans of a rule. -/
def ruleDeltaPlans (cfg : RunConfig) (stratum : List String) (r : Rule × Nat) :
    Except String (List Op) :=
  (recursiveAtoms stratum r.1).mapM fun pred => planRule ⟨some pred, cfg.hashJoin⟩ r.2 r.1

/-- The plan of a stratum; `none` if it has no rules. -/
def planStratum (cfg : RunConfig) (stratum : List String) : Except String (Option StratumPlan) :=
  let rules := prog.stratumRules stratum
  if rules.isEmpty then pure none
  else if rules.any fun r => !(recursiveAtoms stratum r.1).isEmpty then do
    let initialOps ← rules.mapM (initialPlan cfg)
    let deltaPlans ← rules.mapM (ruleDeltaPlans cfg stratum)
    pure (some (.recursive initialOps deltaPlans.flatten))
  else do
    pure (some (.nonRecursive (← rules.mapM (initialPlan cfg))))

end Program

/-! ## Running -/

/-- Execute plans one after the other, adding up what they insert. -/
def runPlans (rt : Runtime) : List Op → MemStore → Result (Nat × MemStore)
  | [], s => .ok (0, s)
  | op :: ops, s => do
      let (n, s) ← execute rt op s
      let (m, s) ← runPlans rt ops s
      pure (n + m, s)

/-- The delta plans, round after round, until one inserts nothing. -/
def fixpoint (rt : Runtime) (deltaPlans : List Op) : Nat → MemStore → Result MemStore
  | 0, _ => .error .unfinished
  | rounds + 1, s => do
      let (changes, s) ← runPlans rt deltaPlans s
      if changes = 0 then pure s else fixpoint rt deltaPlans rounds s.mergeDeltas

/-- Coalesce the intervals of the temporal predicates. -/
def coalesceAll (order : HashOrder) (temporal : List String) (s : MemStore) : Result MemStore :=
  (order.perm temporal).foldlM (fun s pred => orPanic (s.coalesceTemporal order (pred : Name))) s

/-- The execution of one stratum's plan. -/
def StratumPlan.run (rt : Runtime) (rounds : Nat) (temporal : List String) (s : MemStore) :
    StratumPlan → Result MemStore
  | nonRecursive ops => do
      let (_, s) ← runPlans rt ops s
      pure s
  | recursive initialOps deltaPlans => do
      let (_, s) ← runPlans rt initialOps s
      let s ← fixpoint rt deltaPlans rounds s.mergeDeltas
      coalesceAll rt.order temporal s

/-- The execution of a stratum that may have no plan. -/
def runPlan (rt : Runtime) (rounds : Nat) (temporal : List String) (s : MemStore) :
    Option StratumPlan → Result MemStore
  | some plan => plan.run rt rounds temporal s
  | none => .ok s

/-- One stratum, with the merge that ends it. -/
def runStratum (rt : Runtime) (rounds : Nat) (temporal : List String) (s : MemStore)
    (plan : Option StratumPlan) : Result MemStore := do
  let s ← runPlan rt rounds temporal s plan
  coalesceAll rt.order temporal s.mergeDeltas

/-- A planner error as one of the run. -/
def ofPlan {α : Type} : Except String α → Result α
  | .ok a => .ok a
  | .error msg => .error (.plan msg)

theorem ofPlan_eq_ok {α : Type} {x : Except String α} {a : α} : ofPlan x = .ok a ↔ x = .ok a := by
  cases x <;> simp [ofPlan]

/-- `create_relation` for a list of predicates. -/
def createRelations (preds : List String) (s : MemStore) : MemStore :=
  preds.foldl (fun s pred => s.createRelation (pred : Name)) s

/-- `execute_with_options`. -/
def Program.execute (rt : Runtime) (cfg : RunConfig) (prog : Program) (s : MemStore) :
    Result MemStore := do
  let plans ← ofPlan (prog.strata.mapM (prog.planStratum cfg))
  plans.foldlM (runStratum rt cfg.rounds prog.temporal) (createRelations prog.extensional s)

/-- Without temporal predicates there is nothing to coalesce. -/
theorem coalesceAll_nil (order : HashOrder) (s : MemStore) : coalesceAll order [] s = .ok s := by
  rw [coalesceAll, (order.perm_perm []).eq_nil]
  rfl

/-- How a stratum is planned. -/
theorem planStratum_cases {prog : Program} {cfg : RunConfig} {stratum : List String}
    {plan : Option StratumPlan}
    (h : prog.planStratum cfg stratum = .ok plan) :
    (plan = none ∧ prog.stratumRules stratum = []) ∨
    (∃ ops, plan = some (.nonRecursive ops) ∧
      (prog.stratumRules stratum).mapM (Program.initialPlan cfg) = .ok ops ∧
      ∀ r ∈ prog.stratumRules stratum, recursiveAtoms stratum r.1 = []) ∨
    ∃ ops plans, plan = some (.recursive ops plans.flatten) ∧
      (prog.stratumRules stratum).mapM (Program.initialPlan cfg) = .ok ops ∧
      (prog.stratumRules stratum).mapM (Program.ruleDeltaPlans cfg stratum) = .ok plans := by
  simp only [Program.planStratum] at h
  split_ifs at h with hempty hrec
  · exact Or.inl ⟨(Except.ok.inj h).symm, List.isEmpty_iff.mp hempty⟩
  · obtain ⟨ops, hops, h⟩ := bind_eq_ok.mp h
    obtain ⟨plans, hplans, h⟩ := bind_eq_ok.mp h
    exact Or.inr (Or.inr ⟨ops, plans, (Except.ok.inj h).symm, hops, hplans⟩)
  · obtain ⟨ops, hops, h⟩ := bind_eq_ok.mp h
    refine Or.inr (Or.inl ⟨ops, (Except.ok.inj h).symm, hops, fun r hr => ?_⟩)
    simp only [List.any_eq_true, Bool.not_eq_true', List.isEmpty_eq_false_iff, not_exists,
      not_and, not_not] at hrec
    exact hrec r hr

end Mangle

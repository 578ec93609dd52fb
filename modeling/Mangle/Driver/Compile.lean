import Mathlib.Data.List.Dedup
import Mangle.Analysis.StratificationSound
import Mangle.Driver.Execute

/-!
# Driver/Compile — from clauses to a program

`compile_source`: the extensional predicates are those that bodies read and no head defines; the
clauses are stratified and checked.  Of `BoundsChecker::check` the check of arities is modelled;
what else it rejects is left open (`Engine.check`).  Parsing and package renaming come before, so
that a source is a list of clauses.  It has no temporal atoms, heads or declarations: a predicate
that only temporal atoms name would get a stratum of its own (`Driver/Agree`).

* `compileSource_ok` — what is known of a program that compiles.
-/

namespace Mangle

open Machinery List

variable {p : String} {unit : List Rule}

/-! ## Predicates -/

/-- What the stratification sees of a premise. -/
def Premise.literal : Premise → Literal String
  | .atom pred _ => .atom pred
  | .negAtom pred _ => .negAtom pred
  | .eq .. | .ineq .. => .other

/-- What the stratification sees of a rule. -/
def Rule.clause (r : Rule) : Clause String :=
  ⟨r.pred, r.premises.map Premise.literal, r.transform.map (·.var.isSome)⟩

/-- The predicate of an atom or a negated atom. -/
def Premise.pred? : Premise → Option String
  | .atom pred _ | .negAtom pred _ => some pred
  | .eq .. | .ineq .. => none

/-- The predicates of a rule. -/
def Rule.preds (r : Rule) : List String := r.pred :: r.premises.filterMap Premise.pred?

/-- The predicates without clauses, in the order of the set of all predicates. -/
def extPreds (order : HashOrder) (rules : List Rule) : List String :=
  (order.perm (rules.flatMap Rule.preds).dedup).filter (· ∉ rules.map Rule.pred)

/-! ## Arities -/

/-- Where a predicate gets its arity. -/
def Rule.location (r : Rule) : String :=
  let kind := if r.premises.isEmpty && r.transform.isEmpty then "fact" else "rule"
  let pred := r.pred
  let n := r.args.length
  s!"{kind} {pred}({n} arg(s))"

/-- The errors of `check_arity_consistency`, given the arities seen so far. -/
def arityErrors : HashMap String (Nat × String) → List Rule → List String
  | _, [] => []
  | seen, r :: rules =>
      match seen.lookup r.pred with
      | some (first, location) =>
          let errors := arityErrors seen rules
          if first = r.args.length then errors else
            let pred := r.pred
            let here := r.location
            s!"predicate '{pred}' used with inconsistent arity: {location} vs {here}" :: errors
      | none => arityErrors (seen.insert r.pred (r.args.length, r.location)) rules

/-- `check_arity_consistency`. -/
def checkArityConsistency (rules : List Rule) : Except String Unit :=
  let errors := arityErrors ∅ rules
  if errors.isEmpty then .ok () else .error ("arity error: " ++ "; ".intercalate errors)

/-- The heads of a predicate have one arity. -/
def SameArity (rules : List Rule) : Prop :=
  ∀ r ∈ rules, ∀ r' ∈ rules, r.pred = r'.pred → r.args.length = r'.args.length

theorem SameArity.cons {r : Rule} {rules : List Rule} (h : SameArity rules)
    (hr : ∀ r' ∈ rules, r.pred = r'.pred → r.args.length = r'.args.length) :
    SameArity (r :: rules) := by
  intro r₁ h₁ r₂ h₂ heq
  rw [mem_cons] at h₁ h₂
  rcases h₁ with rfl | h₁ <;> rcases h₂ with rfl | h₂
  · rfl
  · exact hr r₂ h₂ heq
  · exact (hr r₁ h₁ heq.symm).symm
  · exact h r₁ h₁ r₂ h₂ heq

variable {seen : HashMap String (Nat × String)}

theorem sameArity_of_arityErrors {rules : List Rule}
    (h : arityErrors seen rules = []) :
    (∀ r ∈ rules, ∀ e ∈ seen.lookup r.pred, e.1 = r.args.length) ∧ SameArity rules := by
  induction rules generalizing seen with
  | nil => exact ⟨by simp, by simp [SameArity]⟩
  | cons r rules ih =>
    rw [arityErrors] at h
    cases hseen : seen.lookup r.pred with
    | some e =>
      have hfirst : e.1 = r.args.length := by
        by_contra hne
        simp [hseen, hne] at h
      obtain ⟨hold, hsame⟩ := ih (by simpa [hseen, hfirst] using h)
      refine ⟨fun r' hr' e' he' => ?_, hsame.cons fun r' hr' heq => ?_⟩
      · obtain rfl | hr' := mem_cons.mp hr'
        · exact Option.mem_some_iff.mp (hseen ▸ he') ▸ hfirst
        · exact hold r' hr' e' he'
      · exact hfirst.symm.trans (hold r' hr' e (heq ▸ hseen))
    | none =>
      obtain ⟨hold, hsame⟩ := ih (by simpa [hseen] using h)
      refine ⟨fun r' hr' e' he' => ?_, hsame.cons fun r' hr' heq => ?_⟩
      · have hne : r'.pred ≠ r.pred := fun heq => by
          rw [heq, hseen] at he'
          cases he'
        obtain rfl | hr' := mem_cons.mp hr'
        · exact absurd rfl hne
        · exact hold r' hr' e' (by rwa [AList.lookup_insert_ne hne])
      · exact hold r' hr' (r.args.length, r.location) (by simp [heq])

/-- The check finds nothing where the heads have one arity each. -/
theorem arityErrors_of_sameArity {rules : List Rule}
    (hseen : ∀ r ∈ rules, ∀ e ∈ seen.lookup r.pred, e.1 = r.args.length) (h : SameArity rules) :
    arityErrors seen rules = [] := by
  induction rules generalizing seen with
  | nil => rfl
  | cons r rules ih =>
    have hrest : SameArity rules := fun r₁ h₁ r₂ h₂ =>
      h r₁ (mem_cons_of_mem _ h₁) r₂ (mem_cons_of_mem _ h₂)
    have hold {r' : Rule} (hr' : r' ∈ rules) := hseen r' (mem_cons_of_mem _ hr')
    rw [arityErrors]
    cases hr : seen.lookup r.pred with
    | some e =>
      have hfirst := hseen r mem_cons_self e hr
      simp [hfirst, ih (fun r' hr' => hold hr') hrest]
    | none =>
      refine ih (fun r' hr' e he => ?_) hrest
      by_cases hpred : r'.pred = r.pred
      · rw [hpred, AList.lookup_insert] at he
        rw [← Option.some.inj he]
        exact h r mem_cons_self r' (mem_cons_of_mem _ hr') hpred.symm
      · rw [AList.lookup_insert_ne hpred] at he
        exact hold hr' e he

/-- **One arity a head predicate**, if the check passes. -/
theorem checkArityConsistency_ok {rules : List Rule} (h : checkArityConsistency rules = .ok ()) :
    SameArity rules := by
  refine (@sameArity_of_arityErrors ∅ rules ?_).2
  by_contra hne
  rw [checkArityConsistency, if_neg (by simpa using hne)] at h
  cases h

/-! ## Compilation -/

/-- What a process brings to the compilation and execution of a program: its runtime and options,
the orders of the stratifier's tables, checks beyond that of arities, and the hash of a source. -/
structure Engine where
  rt : Runtime
  cfg : RunConfig
  orders : HashOrders String
  check : List Rule → Except String Unit
  hash : List Rule → List UInt8

/-- An engine that walks its tables in the order of insertion and checks nothing but arities. -/
def Engine.bare : Engine where
  rt := .bare
  cfg := ⟨false, 10⟩
  orders := ⟨.insertion, .insertion, fun _ => .insertion, fun _ => .insertion, fun _ => .insertion⟩
  check _ := .ok ()
  hash _ := []

/-- `compile_source`. -/
def compileSource (en : Engine) (unit : List Rule) : Except String Program := do
  let ext := extPreds en.rt.order unit
  let strata ← stratify en.orders (.ofClauses ext (unit.map Rule.clause))
  checkArityConsistency unit
  en.check unit
  pure ⟨unit, ext, strata, []⟩

theorem mem_extPreds {order : HashOrder} {rules : List Rule} :
    p ∈ extPreds order rules ↔ (∃ r ∈ rules, p ∈ r.preds) ∧ p ∉ rules.map Rule.pred := by
  rw [extPreds, mem_filter, (order.perm_perm _).mem_iff, mem_dedup, mem_flatMap,
    decide_eq_true_iff]

theorem intensional_clause {rules : List Rule} :
    Intensional (rules.map Rule.clause) p ↔ p ∈ rules.map Rule.pred := by
  simp [Intensional, Rule.clause]

/-- No predicate is extensional and has clauses, and each one is either. -/
theorem separated_extPreds (order : HashOrder) (rules : List Rule) :
    Separated (extPreds order rules) (rules.map Rule.clause) where
  notBoth p hp hint := (mem_extPreds.mp hp).2 (intensional_clause.mp hint)
  either c hc q hq := by
    obtain ⟨r, hr, rfl⟩ := mem_map.mp hc
    have hread : q ∈ r.preds := by
      simp only [Clause.Reads, Rule.clause, mem_map] at hq
      refine mem_cons_of_mem _ (mem_filterMap.mpr ?_)
      rcases hq with ⟨p, hp, heq⟩ | ⟨p, hp, heq⟩ | ⟨p, hp, heq⟩ <;>
        cases p <;> cases heq <;> exact ⟨_, hp, rfl⟩
    by_cases hhead : q ∈ rules.map Rule.pred
    · exact .inr (intensional_clause.mpr hhead)
    · exact .inl (mem_extPreds.mpr ⟨⟨r, hr, hread⟩, hhead⟩)

/-- What is known of a compiled program. -/
structure Compiled (unit : List Rule) (prog : Program) : Prop where
  rules : prog.rules = unit
  temporal : prog.temporal = []
  extensional : ∀ p, p ∈ prog.extensional ↔
    (∃ r ∈ unit, p ∈ r.preds) ∧ p ∉ unit.map Rule.pred
  strata : IsStratification (unit.map Rule.clause) prog.strata
  sameArity : SameArity unit

/-- **A program that compiles** is stratified, and its heads have one arity each. -/
theorem compileSource_ok {en : Engine} {prog : Program} (h : compileSource en unit = .ok prog) :
    Compiled unit prog := by
  simp only [compileSource, bind_eq_ok] at h
  obtain ⟨strata, hstrata, ⟨⟩, harity, ⟨⟩, -, heq⟩ := h
  cases heq
  exact
    { rules := rfl
      temporal := rfl
      extensional := fun p => mem_extPreds
      strata := isStratification_of_stratify en.orders (separated_extPreds _ _) hstrata
      sameArity := checkArityConsistency_ok harity }

/-- **A program compiles** if no cycle has a negated dependency, its heads have one arity each, and
the other checks pass. -/
theorem exists_compile {en : Engine}
    (hneg : ¬ ∃ p q, DependsNegated (unit.map Rule.clause) p q ∧
      DependsStar (unit.map Rule.clause) q p) (harity : SameArity unit)
    (hcheck : en.check unit = .ok ()) : ∃ prog, compileSource en unit = .ok prog := by
  obtain ⟨strata, hstrata⟩ :=
    (exists_stratify_iff en.orders (separated_extPreds en.rt.order unit)).mpr hneg
  have hok : checkArityConsistency unit = .ok () := by
    rw [checkArityConsistency, arityErrors_of_sameArity (fun r _ e he => (by cases he)) harity]
    rfl
  refine ⟨⟨unit, extPreds en.rt.order unit, strata, []⟩, ?_⟩
  rw [compileSource]
  simp only [hstrata, hok, hcheck, ok_bind]
  rfl

/-- The intensional predicates of a program, as its strata list them. -/
def Program.intensional (prog : Program) : List String := prog.strata.flatten

theorem Compiled.mem_intensional {prog : Program} (h : Compiled unit prog) :
    p ∈ prog.intensional ↔ p ∈ unit.map Rule.pred := by
  rw [Program.intensional, mem_flatten, ← h.strata.cover, intensional_clause]

end Mangle

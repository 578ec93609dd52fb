import Mangle.Planner.Emit

/-!
# Semantics/Satisfaction — when a substitution satisfies a rule's body

The meaning of a rule, apart from how it is planned.  A substitution satisfies a premise over the
scan-visible facts when the premise's terms have values and these are in the relation, or are
related by the built-in predicate (`Sat`).

`Evaluable X p` says that a premise can be evaluated where the variables `X` have values.  A plan
with a delta predicate reads the new facts only, at the atoms it scans (`SatAt`); without one it
asks for `Sat` of every premise (`satSeq_iff`).
-/

namespace Mangle

open Machinery

variable {X : Set String}

/-- A value for every variable. -/
abbrev Subst := String → Value

/-- Every variable of a premise. -/
def Premise.allVars : Premise → List String
  | .atom _ args | .negAtom _ args => Term.allVarsList args
  | .eq l r | .ineq l r => l.allVars ++ r.allVars

/-- Every variable of a list of premises. -/
def premiseVars (ps : List Premise) : List String := ps.flatMap Premise.allVars

theorem mem_allVarsList {ts : List Term} {x : String} :
    x ∈ Term.allVarsList ts ↔ ∃ t ∈ ts, x ∈ t.allVars := by
  induction ts with
  | nil => simp [Term.allVarsList]
  | cons t ts ih => simp [Term.allVarsList, ih]

/-! ## Satisfaction -/

section Satisfaction

variable (rt : Runtime) (c : Tiers) (σ : Subst)

/-- The values are in the relation, or related by the built-in predicate. -/
def Holds (pred : String) (vs : Tuple) : Prop :=
  match atomKind pred with
  | .comparison op => ∃ x y, vs = [x, y] ∧ evalCmp op x y = true
  | .call => vs.length = 2 ∧ evalBuiltinPredicate pred vs = .ok true
  | .matchField => ∃ s field v, vs = [s, .name field, v] ∧ structField field s = some v
  | .listMember => ∃ x l, vs = [x, l] ∧ x ∈ listElems l
  | .stored => vs ∈ c.visible pred

/-- The values are not in the relation, or not related by the built-in predicate. -/
def Fails (pred : String) (vs : Tuple) : Prop :=
  match atomKind pred with
  | .comparison op => ∃ x y, vs = [x, y] ∧ evalCmp op x y = false
  | .call | .matchField | .listMember => evalBuiltinPredicate pred vs = .ok false
  | .stored => vs ∉ c.visible pred

/-- The substitution satisfies the premise. -/
def Sat : Premise → Prop
  | .atom pred args => ∃ vs, evalTerms rt σ args = .ok vs ∧ Holds c pred vs
  | .negAtom pred args => ∃ vs, evalTerms rt σ args = .ok vs ∧ Fails c pred vs
  | .eq l r => ∃ v, evalTerm rt σ l = .ok v ∧ evalTerm rt σ r = .ok v
  | .ineq l r => ∃ x y, evalTerm rt σ l = .ok x ∧ evalTerm rt σ r = .ok y ∧ x ≠ y

/-! ## The facts a plan reads -/

/-- The atom is planned as a scan of the new facts: it has the delta predicate, and no column is
known. -/
def ScansDelta (cfg : PlanConfig) (X : Set String) (pred : String) (args : List Term) : Prop :=
  atomKind pred = .stored ∧ cfg.deltaPred = some pred ∧
    ∀ t ∈ args, t.const? = none ∧ ∀ x, t = .var x → x ∉ X

/-- The premise is satisfied by facts the plan reads, where the variables `X` have values. -/
def SatAt (cfg : PlanConfig) (X : Set String) (p : Premise) : Prop :=
  Sat rt c σ p ∧ ∀ pred args, p = .atom pred args → ScansDelta cfg X pred args →
    ∃ vs, evalTerms rt σ args = .ok vs ∧ vs ∈ c.delta pred

/-- The premises are satisfied by facts the plan reads, in planning order. -/
def SatSeq (cfg : PlanConfig) : Set String → List Premise → Prop
  | _, [] => True
  | X, p :: ps => SatAt rt c σ cfg X p ∧ SatSeq cfg (X ∪ {x | x ∈ p.allVars}) ps

end Satisfaction

/-- **Without a delta predicate every visible fact is read.** -/
theorem satSeq_iff {rt : Runtime} {c : Tiers} {σ : Subst} {cfg : PlanConfig}
    (hcfg : cfg.deltaPred = none) {ps : List Premise} :
    SatSeq rt c σ cfg X ps ↔ ∀ p ∈ ps, Sat rt c σ p := by
  induction ps generalizing X with
  | nil => simp [SatSeq]
  | cons p ps ih =>
    have hat : SatAt rt c σ cfg X p ↔ Sat rt c σ p := by
      refine and_iff_left fun pred args _ hscan => ?_
      have := hscan.2.1
      simp [hcfg] at this
    rw [SatSeq, hat, ih, List.forall_mem_cons]

/-! ## Evaluability -/

/-- The variables are among `X`. -/
def Known (X : Set String) (xs : List String) : Prop := ∀ x ∈ xs, x ∈ X

theorem Known.mono {Y : Set String} {xs : List String} (h : Known X xs) (hs : X ⊆ Y) :
    Known Y xs := fun x hx => hs (h x hx)

theorem known_append {xs ys : List String} :
    Known X (xs ++ ys) ↔ Known X xs ∧ Known X ys := List.forall_mem_append

/-- A premise that binds its term or checks it. -/
def TermReady (X : Set String) (t : Term) : Prop := (∃ x, t = .var x) ∨ Known X t.allVars

/-- The premise can be evaluated where the variables `X` have values. -/
def Evaluable (X : Set String) : Premise → Prop
  | .atom pred args =>
      match atomKind pred with
      | .comparison _ | .call => Known X (Term.allVarsList args)
      | .matchField => ∀ s field out, args = [s, field, out] → Known X s.allVars ∧ TermReady X out
      | .listMember => ∀ elem list, args = [elem, list] → Known X list.allVars ∧ TermReady X elem
      | .stored => ∀ x ∈ Term.allVarsList args, x ∈ X ∨ .var x ∈ args
  | .eq l r =>
      (∃ x, l = .var x ∧ x ∉ X ∧ Known X r.allVars) ∨
        (∃ x, r = .var x ∧ x ∉ X ∧ Known X l.allVars) ∨ Known X (l.allVars ++ r.allVars)
  | .ineq l r => Known X (l.allVars ++ r.allVars)
  | .negAtom _ args => Known X (Term.allVarsList args)

/-- Each premise can be evaluated once those before it have been. -/
def EvaluableSeq : Set String → List Premise → Prop
  | _, [] => True
  | X, p :: ps => Evaluable X p ∧ EvaluableSeq (X ∪ {x | x ∈ p.allVars}) ps

end Mangle

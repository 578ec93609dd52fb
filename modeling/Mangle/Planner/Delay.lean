import Mangle.Ir

/-!
# Planner/Delay — the order in which premises are planned

Negations, inequalities and equalities whose variables have no value yet wait until a premise
binds them (`delay_unbound_premises`).  Every other premise keeps its place.
-/

namespace Mangle

/-- What the planner makes of an atom, by its predicate. -/
inductive AtomKind where
  | comparison (op : CmpOp)
  | call
  | matchField
  | listMember
  | stored
  deriving DecidableEq

/-- The built-in predicates the planner knows. -/
def atomKind (pred : String) : AtomKind :=
  match pred with
  | ":lt" | ":time:lt" | ":duration:lt" => .comparison .lt
  | ":le" | ":time:le" | ":duration:le" => .comparison .le
  | ":gt" | ":time:gt" | ":duration:gt" => .comparison .gt
  | ":ge" | ":time:ge" | ":duration:ge" => .comparison .ge
  | ":string:starts_with" | ":string:ends_with" | ":string:contains" | ":match_prefix" => .call
  | ":match_field" => .matchField
  | ":list:member" => .listMember
  | _ => .stored

/-- `term_fully_bound`. -/
def termFullyBound (bound : List String) (t : Term) : Bool := t.vars.all (· ∈ bound)

/-- `eq_as_binding_ready`: the left side is a variable without value, the right side has one. -/
def eqAsBindingReady (bound : List String) (lhs rhs : Term) : Bool :=
  match lhs with
  | .var x => decide (x ∉ bound) && termFullyBound bound rhs
  | _ => false

/-- `premise_ready`. -/
def premiseReady (bound : List String) : Premise → Bool
  | .ineq l r => termFullyBound bound l && termFullyBound bound r
  | .eq l r =>
      termFullyBound bound l && termFullyBound bound r
        || eqAsBindingReady bound l r || eqAsBindingReady bound r l
  | .negAtom _ args => args.all (termFullyBound bound)
  | .atom .. => true

/-- The variables a premise binds once it is planned (`premise_bindings`). -/
def premiseBindings : Premise → List String
  | .atom pred args =>
      match atomKind pred with
      | .comparison _ | .call => []
      | .matchField => (args[2]?.bind Term.var?).toList
      | .listMember => (args.head?.bind Term.var?).toList
      | .stored => Term.varsList args
  | .eq l r => l.vars ++ r.vars
  | .ineq .. | .negAtom .. => []

/-- Whether a premise may have to wait. -/
def Premise.delayable : Premise → Bool
  | .negAtom .. | .ineq .. | .eq .. => true
  | .atom .. => false

/-- The premises placed so far, the variables they bind, and those that wait. -/
structure DelayState where
  ordered : List Premise
  bound : List String
  waiting : List Premise

namespace DelayState

/-- Append a premise to the placed ones. -/
def push (st : DelayState) (p : Premise) : DelayState :=
  { st with ordered := st.ordered ++ [p], bound := st.bound ++ premiseBindings p }

/-- A waiting premise is placed if it has become ready, and waits on otherwise. -/
def sweepStep (st : DelayState) (w : Premise) : DelayState :=
  if premiseReady st.bound w then st.push w else { st with waiting := st.waiting ++ [w] }

/-- One pass over the waiting premises. -/
def sweep (st : DelayState) : DelayState := st.waiting.foldl sweepStep { st with waiting := [] }

/-- Passes until one places nothing; each of the others shortens the waiting list. -/
def settle : Nat → DelayState → DelayState
  | 0, st => st
  | fuel + 1, st =>
      let st' := st.sweep
      if st'.waiting.length = st.waiting.length then st' else settle fuel st'

/-- `place_premise`. -/
def place (st : DelayState) (p : Premise) : DelayState :=
  let st := st.push p
  settle (st.waiting.length + 1) st

/-- The step of `delay_unbound_premises` for one premise. -/
def step (st : DelayState) (p : Premise) : DelayState :=
  if p.delayable && !premiseReady st.bound p then { st with waiting := st.waiting ++ [p] }
  else st.place p

end DelayState

/-- `delay_unbound_premises`: what still waits at the end comes last. -/
def delayUnboundPremises (premises : List Premise) : List Premise :=
  let st := premises.foldl DelayState.step ⟨[], [], []⟩
  st.ordered ++ st.waiting

end Mangle

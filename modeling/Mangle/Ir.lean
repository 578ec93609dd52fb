import Mangle.Value

/-!
# Ir — rules and physical operations

The rules the planner reads (`Term`, `Premise`, `Transform`, `Rule`) and the operations it produces
(`Op`).  The instruction table of the source is unfolded: an instruction id is the tree it points
to.  A map or struct term holds its keys and values interleaved, as the planner passes them on.
-/

namespace Mangle

/-! ## Rules -/

/-- What an applied term applies: a named function, or one of the compound constructors. -/
inductive Head where
  | fn (name : String)
  | list
  | map
  | struct
  deriving DecidableEq, Repr

/-- A base term. -/
inductive Term where
  | var (name : String)
  | number (n : Int64)
  | float (bits : UInt64)
  | string (s : String)
  | name (s : String)
  | time (nanos : Int64)
  | duration (nanos : Int64)
  | bool (b : Bool)
  | bytes (b : List UInt8)
  | app (head : Head) (args : List Term)
  deriving Inhabited

/-- A premise of a rule. -/
inductive Premise where
  | atom (pred : String) (args : List Term)
  | negAtom (pred : String) (args : List Term)
  | eq (l r : Term)
  | ineq (l r : Term)
  deriving Inhabited

/-- A statement of a transform: `let var = app`, or `do app` without a variable. -/
structure Transform where
  var : Option String
  app : Term

/-- A rule, or a fact when it has neither premises nor transform. -/
structure Rule where
  pred : String
  args : List Term
  premises : List Premise
  transform : List Transform

/-! ## Physical operations -/

/-- A constant operand. -/
inductive Constant where
  | number (n : Int64)
  | float (bits : UInt64)
  | string (s : String)
  | name (s : String)
  | time (nanos : Int64)
  | duration (nanos : Int64)
  deriving DecidableEq

/-- The value of a constant. -/
def Constant.value : Constant → Value
  | .number n => .number n
  | .float b => .float b
  | .string s => .string s
  | .name s => .name s
  | .time t => .time t
  | .duration d => .duration d

/-- An operand. -/
inductive Operand where
  | var (v : Name)
  | const (c : Constant)
  deriving DecidableEq

/-- An expression of a `let`. -/
inductive Expr where
  | value (op : Operand)
  | call (function : String) (args : List Operand)

/-- A comparison operator. -/
inductive CmpOp where
  | eq | neq | lt | le | gt | ge
  deriving DecidableEq

/-- A condition. -/
inductive Condition where
  | cmp (op : CmpOp) (left right : Operand)
  | negation (relation : Name) (args : List Operand)
  | call (function : String) (args : List Operand)
  | not (inner : Condition)

/-- A source of tuples and the variables they bind. -/
inductive DataSource where
  | scan (relation : Name) (vars : List Name)
  | scanDelta (relation : Name) (vars : List Name)
  | indexLookup (relation : Name) (col : Nat) (key : Operand) (vars : List Name)

namespace DataSource

/-- The variables a source binds. -/
def vars : DataSource → List Name
  | scan _ vars | scanDelta _ vars | indexLookup _ _ _ vars => vars

/-- The relation a source reads. -/
def relation : DataSource → Name
  | scan rel _ | scanDelta rel _ | indexLookup rel _ _ _ => rel

end DataSource

/-- A reducer over a group. -/
structure Aggregate where
  var : Name
  func : String
  args : List Operand

/-- A physical operation. -/
inductive Op where
  | nop
  | seq (ops : List Op)
  | iterate (source : DataSource) (body : Op)
  | filter (cond : Condition) (body : Op)
  | insert (relation : Name) (args : List Operand)
  | bind (var : Name) (expr : Expr) (body : Op)
  | groupBy (source : Name) (vars keys : List Name) (aggregates : List Aggregate) (body : Op)
  | hashJoin (build probe : DataSource) (joinKeys : List Name) (body : Op)
  | matchField (structOp : Operand) (field : String) (var : Name) (body : Op)
  | iterateList (source : Operand) (var : Name) (body : Op)

/-! ## Constants and variables of terms -/

namespace Term

/-- A scalar constant as an operand's constant. -/
def const? : Term → Option Constant
  | number n => some (.number n)
  | float b => some (.float b)
  | string s => some (.string s)
  | name s => some (.name s)
  | time t => some (.time t)
  | duration d => some (.duration d)
  | var _ | bool _ | bytes _ | app .. => none

/-- The variable a term is. -/
def var? : Term → Option String
  | var x => some x
  | _ => none

mutual

/-- Every variable of a term. -/
def allVars : Term → List String
  | var x => [x]
  | app _ args => allVarsList args
  | number _ | float _ | string _ | name _ | time _ | duration _ | bool _ | bytes _ => []

/-- Every variable of a list of terms. -/
def allVarsList : List Term → List String
  | [] => []
  | t :: ts => allVars t ++ allVarsList ts

end

mutual

/-- Equality of terms is decidable. -/
protected def decEq (a b : Term) : Decidable (a = b) :=
  if hc : a.ctorIdx = b.ctorIdx then
    match a, b, hc with
    | var a, var b, _ => decidable_of_iff (a = b) (by simp)
    | number a, number b, _ => decidable_of_iff (a = b) (by simp)
    | float a, float b, _ => decidable_of_iff (a = b) (by simp)
    | string a, string b, _ => decidable_of_iff (a = b) (by simp)
    | name a, name b, _ => decidable_of_iff (a = b) (by simp)
    | time a, time b, _ => decidable_of_iff (a = b) (by simp)
    | duration a, duration b, _ => decidable_of_iff (a = b) (by simp)
    | bool a, bool b, _ => decidable_of_iff (a = b) (by simp)
    | bytes a, bytes b, _ => decidable_of_iff (a = b) (by simp)
    | app h a, app h' b, _ =>
        match instDecidableEqHead h h', Term.decEqList a b with
        | isTrue hh, isTrue ha => isTrue (by rw [hh, ha])
        | isFalse hh, _ => isFalse (by simp [hh])
        | _, isFalse ha => isFalse (by simp [ha])
  else isFalse fun h => hc (h ▸ rfl)

/-- Equality of lists of terms. -/
protected def decEqList : (a b : List Term) → Decidable (a = b)
  | [], [] => isTrue rfl
  | [], _ :: _ | _ :: _, [] => isFalse (by simp)
  | x :: xs, y :: ys =>
      match Term.decEq x y, Term.decEqList xs ys with
      | isTrue h, isTrue h' => isTrue (by rw [h, h'])
      | isFalse h, _ => isFalse (by simp [h])
      | _, isFalse h => isFalse (by simp [h])

end

instance : DecidableEq Term := Term.decEq

/-- The variables of a term, wildcards apart (`collect_vars`, `term_vars`). -/
def vars (t : Term) : List String := t.allVars.filter (· ≠ "_")

/-- The variables of a list of terms, wildcards apart. -/
def varsList (ts : List Term) : List String := (allVarsList ts).filter (· ≠ "_")

end Term

end Mangle

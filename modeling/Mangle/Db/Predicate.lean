import Mangle.Interpreter.Exec

/-!
# Db/Predicate — predicates pushed down to the sources

`extract_predicates`: comparisons of a scanned column with a constant, found right below a scan of
an extensional relation, and the keys of index lookups.  What is found for one relation, in whatever
rule, ends up in one list; a source may leave out a row that fails any of it.
-/

namespace Mangle

/-- `ColumnPredicate`. -/
structure ColumnPredicate where
  colIdx : Nat
  op : CmpOp
  value : Value
  deriving DecidableEq

/-- `ColumnPredicate::eval`. -/
def ColumnPredicate.eval (p : ColumnPredicate) (row : Tuple) : Bool :=
  match row[p.colIdx]? with
  | some v => evalCmp p.op v p.value
  | none => false

/-- `flip_cmp`. -/
def flipCmp : CmpOp → CmpOp
  | .eq => .eq
  | .neq => .neq
  | .lt => .gt
  | .le => .ge
  | .gt => .lt
  | .ge => .le

/-- `operand_to_value`. -/
def operandToValue : Operand → Option Value
  | .const c => some c.value
  | .var _ => none

/-- The column of a variable; of two columns with one variable, the later. -/
def varToCol (vars : List Name) (v : Name) : Option Nat :=
  ((vars.zipIdx.filter (·.1 = v)).getLast?).map Prod.snd

/-- `try_var_const`. -/
def tryVarConst (op : CmpOp) (left right : Operand) (vars : List Name) : Option ColumnPredicate :=
  match left with
  | .var v => do
      let col ← varToCol vars v
      let value ← operandToValue right
      pure ⟨col, op, value⟩
  | .const _ => none

/-- `condition_to_predicate`. -/
def conditionToPredicate (vars : List Name) : Condition → Option ColumnPredicate
  | .cmp op left right =>
      (tryVarConst op left right vars).or (tryVarConst (flipCmp op) right left vars)
  | .negation .. | .call .. | .not _ => none

/-- `collect_filters`. -/
def collectFilters (vars : List Name) : Op → List ColumnPredicate
  | .filter cond body => (conditionToPredicate vars cond).toList ++ collectFilters vars body
  | _ => []

/-- `extract_from_iterate`. -/
def extractFromIterate (edb : List String) (source : DataSource) (body : Op) :
    List (String × ColumnPredicate) :=
  let rel := source.relation.text
  if rel ∈ edb then
    match source with
    | .scan _ vars => (collectFilters vars body).map (rel, ·)
    | .scanDelta .. => []
    | .indexLookup _ col key _ =>
        (operandToValue key).toList.map fun v => (rel, ⟨col, .eq, v⟩)
  else []

mutual

/-- `extract_from_op`. -/
def extractFromOp (edb : List String) : Op → List (String × ColumnPredicate)
  | .nop | .insert .. => []
  | .seq ops => extractFromOps edb ops
  | .iterate source body => extractFromIterate edb source body ++ extractFromOp edb body
  | .filter _ body | .bind _ _ body | .groupBy _ _ _ _ body | .hashJoin _ _ _ body
  | .matchField _ _ _ body | .iterateList _ _ body => extractFromOp edb body

/-- The same, for a list of operations. -/
def extractFromOps (edb : List String) : List Op → List (String × ColumnPredicate)
  | [] => []
  | op :: ops => extractFromOp edb op ++ extractFromOps edb ops

end

/-- `extract_predicates`: the predicates of each relation. -/
def extractPredicates (ops : List Op) (edb : List String) (rel : String) : List ColumnPredicate :=
  ((extractFromOps edb ops).filter (·.1 = rel)).map Prod.snd

section

variable {edb : List String} {e : String × ColumnPredicate}

theorem mem_extractFromIterate {source : DataSource} {body : Op}
    (h : e ∈ extractFromIterate edb source body) : e.1 ∈ edb := by
  by_cases hrel : source.relation.text ∈ edb
  · simp only [extractFromIterate, hrel, if_true] at h
    cases source with
    | scan | indexLookup =>
      obtain ⟨_, -, rfl⟩ := List.mem_map.mp h
      exact hrel
    | scanDelta => cases h
  · simp [extractFromIterate, hrel] at h

mutual

theorem mem_extractFromOp : ∀ op : Op, e ∈ extractFromOp edb op → e.1 ∈ edb
  | .nop, h | .insert .., h => by cases h
  | .seq ops, h => mem_extractFromOps ops h
  | .iterate _ body, h =>
    (List.mem_append.mp h).elim mem_extractFromIterate (mem_extractFromOp body)
  | .filter _ body, h | .bind _ _ body, h | .groupBy _ _ _ _ body, h | .hashJoin _ _ _ body, h
  | .matchField _ _ _ body, h | .iterateList _ _ body, h => mem_extractFromOp body h

theorem mem_extractFromOps : ∀ ops : List Op, e ∈ extractFromOps edb ops → e.1 ∈ edb
  | [], h => by cases h
  | op :: ops, h => (List.mem_append.mp h).elim (mem_extractFromOp op) (mem_extractFromOps ops)

end

end

/-- Predicates are found for extensional relations only. -/
theorem extractPredicates_of_notMem {ops : List Op} {edb : List String} {rel : String}
    (hrel : rel ∉ edb) : extractPredicates ops edb rel = [] := by
  rw [extractPredicates, List.map_eq_nil_iff, List.filter_eq_nil_iff]
  intro e he heq
  exact hrel (of_decide_eq_true heq ▸ mem_extractFromOps ops he)

end Mangle

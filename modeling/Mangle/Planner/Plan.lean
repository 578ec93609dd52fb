import Mangle.Planner.Delay

/-!
# Planner/Plan — from a rule to an operation

`plan_rule` and what it calls, in the continuation-passing style of the source.  Where the source
sorts the captured variables by name id, the columns of a temporary relation come here in the order
in which the variables were bound: only this rule's plan reads them, by the same list.
-/

namespace Mangle

/-- The options of a planner. -/
structure PlanConfig where
  deltaPred : Option String
  hashJoin : Bool

/-- The counter of `fresh_var`, and the variables the last continuation captured. -/
structure PlanState where
  fresh : Nat
  captured : List Name

/-- A planning step. -/
abbrev PlanM := StateT PlanState (Except String)

/-- `fresh_var`. -/
def freshVar (pre : String) : PlanM Name := fun st =>
  .ok (.fresh pre st.fresh, { st with fresh := st.fresh + 1 })

/-- Remember the variables of a temporary relation. -/
def capture (vars : List Name) : PlanM Unit := fun st => .ok ((), { st with captured := vars })

/-- The error of a planning step. -/
def planError {α : Type} (msg : String) : PlanM α := fun _ => .error msg

/-! ## Terms -/

namespace Head

/-- The function that evaluates an applied term. -/
def function : Head → String
  | fn name => name
  | list => "fn:list"
  | map => "fn:map"
  | struct => "fn:struct"

/-- What the name of its temporary variable starts with. -/
def freshPrefix : Head → String
  | fn _ => "call"
  | list => "list"
  | map => "map"
  | struct => "struct"

end Head

mutual

/-- `with_eval`: plan `k` under the lets that give the term's value to an operand. -/
def withEval : Term → (Operand → PlanM Op) → PlanM Op
  | .var x, k => k (.var x)
  | .number n, k => k (.const (.number n))
  | .float b, k => k (.const (.float b))
  | .string s, k => k (.const (.string s))
  | .name s, k => k (.const (.name s))
  | .time t, k => k (.const (.time t))
  | .duration d, k => k (.const (.duration d))
  | .app head args, k =>
      withEvalArgs args [] fun ops => do
        let tmp ← freshVar head.freshPrefix
        let inner ← k (.var tmp)
        pure (.bind tmp (.call head.function ops) inner)
  | .bool _, _ | .bytes _, _ => planError "Unsupported expression in evaluation"

/-- `with_eval_args`. -/
def withEvalArgs : List Term → List Operand → (List Operand → PlanM Op) → PlanM Op
  | [], acc, k => k acc
  | t :: ts, acc, k => withEval t fun op => withEvalArgs ts (acc ++ [op]) k

end

/-- `inst_to_expr`: a function application is not evaluated into a variable first. -/
def instToExpr (t : Term) (k : Expr → PlanM Op) : PlanM Op :=
  match t with
  | .app (.fn name) args => withEvalArgs args [] fun ops => k (.call name ops)
  | t => withEval t fun op => k (.value op)

/-! ## Atoms -/

/-- The variable a term is, when it has no value yet. -/
def unboundVar (bound : List Name) : Term → Option String
  | .var x => if (x : Name) ∈ bound then none else some x
  | _ => none

/-- `eq_as_binding`. -/
def eqAsBinding (bound : List Name) (lhs rhs : Term) : Option (String × Term) :=
  (unboundVar bound lhs).map (·, rhs)

/-- The first column with a variable that has a value or with a scalar constant. -/
def indexLookup (bound : List Name) (col : Nat) : List Term → Option (Nat × Operand)
  | [] => none
  | .var x :: ts =>
      if (x : Name) ∈ bound then some (col, .var x) else indexLookup bound (col + 1) ts
  | t :: ts => match t.const? with
      | some c => some (col, .const c)
      | none => indexLookup bound (col + 1) ts

/-- The scan variables of an atom: the first occurrence of a variable without value binds it, and
every other argument gets a fresh variable. -/
def scanVars (bound : List Name) : List Name → List Term → PlanM (List Name)
  | _, [] => pure []
  | direct, t :: ts =>
      match unboundVar (direct ++ bound) t with
      | some x => do pure ((x : Name) :: (← scanVars bound ((x : Name) :: direct) ts))
      | none => do
          let tmp ← freshVar "scan"
          pure (tmp :: (← scanVars bound direct ts))

/-- A filter for the equality of two operands. -/
def eqFilter (l r : Operand) (body : Op) : Op := .filter (.cmp .eq l r) body

/-- `apply_constraints`: the checks of the later arguments are the inner ones. -/
def applyConstraints : List Term → List Name → Op → PlanM Op
  | t :: ts, v :: vs, body => do
      let body ← applyConstraints ts vs body
      match t with
      | .var x =>
          if (x : Name) = v then pure body else pure (eqFilter (.var v) (.var x) body)
      | t => withEval t fun op => pure (eqFilter (.var v) op body)
  | _, _, body => pure body

/-- The source of an atom. -/
def atomSource (cfg : PlanConfig) (pred : String) (lookup : Option (Nat × Operand))
    (vars : List Name) : DataSource :=
  match lookup with
  | some (col, key) => .indexLookup pred col key vars
  | none => if cfg.deltaPred = some pred then .scanDelta pred vars else .scan pred vars

/-- `require_bound_args`. -/
def requireBoundArgs (args : List Term) (bound : List Name) (context : String) : PlanM Unit :=
  if args.any fun t => (unboundVar bound t).isSome then
    planError s!"{context}: all arguments must be bound by earlier premises"
  else pure ()

/-- The operand of an argument of a negated atom. -/
def negArg : Term → PlanM Operand
  | .var x => pure (.var x)
  | t => match t.const? with
      | some c => pure (.const c)
      | none => planError "Complex expression in negated atom"

/-- `all_fresh_distinct_vars`. -/
def allFreshDistinctVars (bound : List Name) : List Name → List Term → Option (List Name)
  | out, [] => some out.reverse
  | out, t :: ts => match unboundVar (out ++ bound) t with
      | some x => allFreshDistinctVars bound ((x : Name) :: out) ts
      | none => none

/-- `try_plan_hash_join`: the two sources and the join keys. -/
def tryPlanHashJoin (cfg : PlanConfig) (pred : String) (args : List Term) (next : Premise)
    (bound : List Name) : Option (DataSource × DataSource × List Name) :=
  match next with
  | .atom nextPred nextArgs => do
      let build ← allFreshDistinctVars bound [] args
      if cfg.deltaPred = some nextPred then none else do
        let probe ← allFreshDistinctVars bound [] nextArgs
        let keys := build.filter (· ∈ probe)
        if keys.isEmpty then none else some (.scan pred build, .scan nextPred probe, keys)
  | _ => none

/-! ## Premises -/

/-- The plan of an atom that filters by a condition on the values of two terms. -/
def withEval2 (l r : Term) (k : Operand → Operand → PlanM Op) : PlanM Op :=
  withEval l fun lo => withEval r fun ro => k lo ro

/-- `plan_join_sequence`. -/
def planJoinSequence (cfg : PlanConfig) (k : List Name → PlanM Op) :
    List Premise → List Name → PlanM Op
  | [], bound => k bound
  | .atom pred args :: premises, bound =>
      match atomKind pred with
      | .comparison op => match args with
          | [l, r] => do
              let body ← planJoinSequence cfg k premises bound
              withEval2 l r fun lo ro => pure (.filter (.cmp op lo ro) body)
          | _ => planError "Comparison predicate requires exactly 2 arguments"
      | .call => match args with
          | [l, r] => do
              let body ← planJoinSequence cfg k premises bound
              withEval2 l r fun lo ro => pure (.filter (.call pred [lo, ro]) body)
          | _ => planError "Built-in predicate requires exactly 2 arguments"
      | .matchField => match args with
          | [struct, .name field, out] =>
              match unboundVar bound out with
              | some x => do
                  let body ← planJoinSequence cfg k premises ((x : Name) :: bound)
                  withEval struct fun so => pure (.matchField so field x body)
              | none => do
                  let fresh ← freshVar "mf"
                  let body ← planJoinSequence cfg k premises bound
                  withEval2 struct out fun so eo =>
                    pure (.matchField so field fresh (eqFilter (.var fresh) eo body))
          | [_, _, _] => planError ":match_field second argument must be a name constant"
          | _ => planError ":match_field requires exactly 3 arguments"
      | .listMember => match args with
          | [elem, list] =>
              match unboundVar bound elem with
              | some x => do
                  let body ← planJoinSequence cfg k premises ((x : Name) :: bound)
                  withEval list fun lo => pure (.iterateList lo x body)
              | none => do
                  let fresh ← freshVar "listmem"
                  let body ← planJoinSequence cfg k premises bound
                  withEval2 list elem fun lo eo =>
                    pure (.iterateList lo fresh (eqFilter (.var fresh) eo body))
          | _ => planError ":list:member requires exactly 2 arguments"
      | .stored =>
          let nested : PlanM Op := do
            let vars ← scanVars bound [] args
            let body ← planJoinSequence cfg k premises (vars ++ bound)
            let body ← applyConstraints args vars body
            pure (.iterate (atomSource cfg pred (indexLookup bound 0 args) vars) body)
          match premises with
          | next :: rest =>
              match if cfg.hashJoin && cfg.deltaPred.isNone
                  then tryPlanHashJoin cfg pred args next bound else none with
              | some (build, probe, keys) => do
                  let body ← planJoinSequence cfg k rest (build.vars ++ probe.vars ++ bound)
                  pure (.hashJoin build probe keys body)
              | none => nested
          | [] => nested
  | .eq l r :: premises, bound =>
      match (eqAsBinding bound l r).or (eqAsBinding bound r l) with
      | some (x, e) => instToExpr e fun expr => do
          let body ← planJoinSequence cfg k premises ((x : Name) :: bound)
          pure (.bind x expr body)
      | none => do
          let body ← planJoinSequence cfg k premises bound
          withEval2 l r fun lo ro => pure (eqFilter lo ro body)
  | .ineq l r :: premises, bound => do
      let body ← planJoinSequence cfg k premises bound
      withEval2 l r fun lo ro => pure (.filter (.cmp .neq lo ro) body)
  | .negAtom pred args :: premises, bound =>
      match atomKind pred with
      | .listMember => match args with
          | [elem, list] => do
              requireBoundArgs args bound "!:list:member"
              let body ← planJoinSequence cfg k premises bound
              withEval2 elem list fun eo lo => pure (.filter (.not (.call pred [eo, lo])) body)
          | _ => planError ":list:member requires exactly 2 arguments"
      | .matchField => match args with
          | [struct, .name field, value] => do
              requireBoundArgs args bound "!:match_field"
              let body ← planJoinSequence cfg k premises bound
              withEval2 struct value fun so vo =>
                pure (.filter (.not (.call pred [so, .const (.name field), vo])) body)
          | [_, _, _] => planError ":match_field second argument must be a name constant"
          | _ => planError ":match_field requires exactly 3 arguments"
      | .call => match args with
          | [l, r] => do
              requireBoundArgs args bound s!"!{pred}"
              let body ← planJoinSequence cfg k premises bound
              withEval2 l r fun lo ro => pure (.filter (.not (.call pred [lo, ro])) body)
          | _ => planError "Built-in predicate requires exactly 2 arguments"
      | .comparison op => match args with
          | [l, r] => do
              requireBoundArgs args bound s!"!{pred}"
              let body ← planJoinSequence cfg k premises bound
              withEval2 l r fun lo ro => pure (.filter (.not (.cmp op lo ro)) body)
          | _ => planError "Comparison predicate requires exactly 2 arguments"
      | .stored =>
          if pred.toList.head? = some ':' then
            planError s!"negation of built-in predicate '{pred}' is not supported"
          else do
            let body ← planJoinSequence cfg k premises bound
            let ops ← args.mapM negArg
            pure (.filter (.negation pred ops) body)

/-- `plan_head_insert`. -/
def planHeadInsert (rule : Rule) : PlanM Op :=
  withEvalArgs rule.args [] fun ops => pure (.insert rule.pred ops)

/-! ## Transforms -/

/-- `split_transforms`: a `do` statement starts a new block. -/
def splitTransforms : List Transform → List Transform → List (List Transform)
  | current, [] => [current]
  | current, t :: ts =>
      if t.var.isNone then current :: splitTransforms [t] ts
      else splitTransforms (current ++ [t]) ts

/-- `plan_transforms_sequence`. -/
def planTransformsSequence (k : List Name → PlanM Op) :
    List Transform → List Name → PlanM Op
  | [], bound => k bound
  | t :: ts, bound =>
      match t.var with
      | some x => instToExpr t.app fun expr => do
          let body ← planTransformsSequence k ts ((x : Name) :: bound)
          pure (.bind x expr body)
      | none => planError "Unexpected transform in sequence"

/-- The reducers `try_parse_aggregate` knows. -/
def reducers : List String :=
  ["fn:sum", "fn:count", "fn:max", "fn:min", "fn:collect", "fn:collect_distinct", "fn:float:sum",
    "fn:float:max", "fn:float:min"]

/-- The operand of a reducer's argument. -/
def aggregateArg : Term → PlanM Operand
  | .var x => pure (.var x)
  | .number n => pure (.const (.number n))
  | .float b => pure (.const (.float b))
  | _ => planError "Complex expressions in aggregates not supported yet"

/-- `try_parse_aggregate`. -/
def tryParseAggregate (t : Transform) : PlanM (Option Aggregate) :=
  match t.var, t.app with
  | some x, .app (.fn func) args =>
      if func ∈ reducers then do pure (some ⟨x, func, ← args.mapM aggregateArg⟩)
      else pure none
  | _, _ => pure none

/-- The reducers and the other lets of a block. -/
def splitAggregates : List Transform → PlanM (List Aggregate × List Transform)
  | [] => pure ([], [])
  | t :: ts => do
      let agg ← tryParseAggregate t
      let (aggs, lets) ← splitAggregates ts
      match agg with
      | some a => pure (a :: aggs, lets)
      | none => pure (aggs, t :: lets)

/-- A group key has to be a variable. -/
def groupKey : Term → PlanM Name
  | .var x => pure x
  | _ => planError "GroupBy keys must be variables"

/-- `plan_block_k`. -/
def planBlockK (source : Name) (vars : List Name) (block : List Transform)
    (k : List Name → PlanM Op) : PlanM Op :=
  match block with
  | ⟨_, .app (.fn _) args⟩ :: rest => do
      let keys ← args.mapM groupKey
      let (aggs, lets) ← splitAggregates rest
      let body ← planTransformsSequence k lets ((aggs.map Aggregate.var).reverse ++ keys.reverse)
      pure (.groupBy source vars keys aggs body)
  | _ => planError "Invalid transform structure"

/-- The continuation that materializes the variables into a temporary relation. -/
def captureInto (temp : Name) (bound : List Name) : PlanM Op := do
  let vars := bound.dedup
  capture vars
  pure (.insert temp (vars.map .var))

/-- The plans of the blocks after the first, each reading the relation of the one before. -/
def planBlocks (rule : Rule) (tempPrefix : String) : List (List Transform) → Name → PlanM (List Op)
  | [], _ => pure []
  | [block], source => do
      let vars := (← get).captured
      pure [← planBlockK source vars block fun _ => planHeadInsert rule]
  | block :: blocks, source => do
      let vars := (← get).captured
      let temp ← freshVar tempPrefix
      let op ← planBlockK source vars block (captureInto temp)
      pure (op :: (← planBlocks rule tempPrefix blocks temp))

/-- The plan of a rule whose premises are in planning order. -/
def planOrdered (cfg : PlanConfig) (ruleId : Nat) (rule : Rule) (premises : List Premise) :
    PlanM Op :=
  match splitTransforms [] rule.transform with
  | [] => pure (.seq [])
  | [block] =>
      planJoinSequence cfg (planTransformsSequence (fun _ => planHeadInsert rule) block) premises []
  | block :: blocks => do
      let tempPrefix := s!"temp_grp_r{ruleId}"
      let temp ← freshVar tempPrefix
      let op ← planJoinSequence cfg (planTransformsSequence (captureInto temp) block) premises []
      pure (.seq (op :: (← planBlocks rule tempPrefix blocks temp)))

/-- `plan_rule`. -/
def planRule (cfg : PlanConfig) (ruleId : Nat) (rule : Rule) : Except String Op := do
  let (op, _) ← planOrdered cfg ruleId rule (delayUnboundPremises rule.premises) ⟨0, []⟩
  pure op

end Mangle

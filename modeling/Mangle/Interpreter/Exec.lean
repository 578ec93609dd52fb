import Mangle.Ir
import Mangle.Interpreter.Function

/-!
# Interpreter/Exec — executing physical operations

`exec_op` over an explicit environment and store.  The environment is one mutable map threaded
through all loops: a binding stays until it is overwritten, or removed after `MatchField` and
`IterateList`.
-/

namespace Mangle

/-- Why a step of the interpreter fails. -/
inductive Error where
  /-- `eval_operand` found no value for a variable. -/
  | variableNotFound
  /-- A built-in function, predicate or reducer failed. -/
  | builtin (e : BuiltinError)
  /-- The plan itself is malformed. -/
  | plan (msg : String)
  /-- An index out of bounds: a panic. -/
  | panic
  /-- The evaluation was given up while it still inserted facts. -/
  | unfinished
  deriving DecidableEq, Repr

/-- Whether the failure is that of a built-in. -/
def Error.FromBuiltin : Error → Prop
  | builtin _ => True
  | variableNotFound | plan _ | panic | unfinished => False

/-- The outcome of a step of the interpreter. -/
abbrev Result := Except Error

/-- `none` as a panic. -/
def orPanic {α : Type} : Option α → Result α
  | some a => .ok a
  | none => .error .panic

@[simp] theorem orPanic_some {α : Type} (a : α) : orPanic (some a) = .ok a := rfl

/-- The outcome of a built-in as one of the interpreter. -/
def ofBuiltin {α : Type} : Builtin α → Result α
  | .ok a => .ok a
  | .error e => .error (.builtin e)

/-- The variables that have a value. -/
abbrev Env := Name → Option Value

namespace Env

/-- No variable has a value. -/
def new : Env := fun _ => none

/-- `env.vars.insert`. -/
def set (env : Env) (v : Name) (x : Value) : Env := Function.update env v (some x)

/-- `env.vars.remove`. -/
def remove (env : Env) (v : Name) : Env := Function.update env v none

/-- Bind the variables of a source to the columns of a tuple. -/
def bindVars (env : Env) : List Name → Tuple → Env
  | v :: vs, x :: xs => bindVars (env.set v x) vs xs
  | _, _ => env

end Env

/-- What an operation leaves: how many facts it inserted, the environment and the store. -/
abbrev Outcome := Result (Nat × Env × MemStore)

/-- Run a body for each element of a list, adding up the counts. -/
def runEach {α : Type} (f : α → Env → MemStore → Outcome) : List α → Env → MemStore → Outcome
  | [], env, s => .ok (0, env, s)
  | a :: as, env, s => do
      let (n, env, s) ← f a env s
      let (m, env, s) ← runEach f as env s
      pure (n + m, env, s)

/-! ## Reading the store -/

/-- The reads of a store that operations make. -/
structure Reader where
  scan : Name → Result (List Tuple)
  scanDelta : Name → Result (List Tuple)
  scanNextDelta : Name → Result (List Tuple)
  scanIndex : Name → Nat → Value → Result (List Tuple)

/-- The reads of a `MemStore`. -/
def MemStore.reader (s : MemStore) : Reader where
  scan rel := orPanic (s.scan rel)
  scanDelta rel := orPanic (s.scanDelta rel)
  scanNextDelta rel := orPanic (s.scanNextDelta rel)
  scanIndex rel col key := orPanic (s.scanIndex rel col key)

/-! ## Operands, conditions and expressions -/

/-- `eval_operand`. -/
def evalOperand (env : Env) : Operand → Result Value
  | .var v => match env v with
      | some x => .ok x
      | none => .error .variableNotFound
  | .const c => .ok c.value

/-- The values of a list of operands. -/
def evalOperands (env : Env) (args : List Operand) : Result (List Value) :=
  args.mapM (evalOperand env)

/-- `eval_expr`. -/
def evalExpr (rt : Runtime) (env : Env) : Expr → Result Value
  | .value op => evalOperand env op
  | .call fn args => do ofBuiltin (evalFunction rt fn (← evalOperands env args))

/-- The comparison of two values by an operator. -/
def evalCmp : CmpOp → Value → Value → Bool
  | .eq, l, r => l = r
  | .neq, l, r => l ≠ r
  | .lt, l, r => l.cmp r = .lt
  | .le, l, r => l.cmp r ≠ .gt
  | .gt, l, r => l.cmp r = .gt
  | .ge, l, r => l.cmp r ≠ .lt

/-- The value of a field of a struct: that of the first pair with its name. -/
def structField (field : String) : Value → Option Value
  | .compound .struct pairs => lookupKey (.name field) pairs
  | _ => none

/-- The elements of a list value. -/
def listElems : Value → List Value
  | .compound .list elems => elems
  | _ => []

/-- The arguments of a built-in predicate are rejected. -/
def reject {α : Type} (msg : String) : Result α := ofBuiltin (fail msg)

/-- `eval_builtin_predicate`: a missing argument is an index out of bounds. -/
def evalBuiltinPredicate (name : String) (vals : List Value) : Result Bool :=
  match name with
  | ":string:starts_with" => match vals with
      | .string s :: .string p :: _ => .ok (p.toList.isPrefixOf s.toList)
      | _ :: _ :: _ => reject ":string:starts_with: expected string arguments"
      | _ => .error .panic
  | ":string:ends_with" => match vals with
      | .string s :: .string p :: _ => .ok (p.toList.isSuffixOf s.toList)
      | _ :: _ :: _ => reject ":string:ends_with: expected string arguments"
      | _ => .error .panic
  | ":string:contains" => match vals with
      | .string s :: .string p :: _ => .ok (s.toList.tails.any p.toList.isPrefixOf)
      | _ :: _ :: _ => reject ":string:contains: expected string arguments"
      | _ => .error .panic
  | ":match_prefix" => match vals with
      | .name s :: .name p :: _ =>
          .ok (p.toList.isPrefixOf s.toList && decide (p.toList.length < s.toList.length))
      | _ :: _ :: _ => reject ":match_prefix: expected name arguments"
      | _ => .error .panic
  | ":list:member" => match vals with
      | elem :: list :: _ => .ok ((listElems list).contains elem)
      | _ => .error .panic
  | ":match_field" => match vals with
      | .compound .struct pairs :: .name field :: v :: _ =>
          .ok ((chunks2 pairs).any fun p => p.1 = .name field ∧ p.2 = v)
      | _ :: _ :: _ :: _ => .ok false
      | _ => .error .panic
  | _ => reject s!"Unknown built-in predicate: {name}"

/-- How many arguments a built-in predicate reads. -/
def builtinArgs (name : String) : Nat := if name = ":match_field" then 3 else 2

/-- Whether a tuple equals the operands, compared from the left. -/
def matchArgs (env : Env) : List Operand → Tuple → Result Bool
  | arg :: args, x :: xs => do
      let v ← evalOperand env arg
      if x = v then matchArgs env args xs else .ok false
  | _, _ => .ok true

/-- Whether no tuple equals the operands. -/
def noMatch (env : Env) (args : List Operand) : List Tuple → Result Bool
  | [] => .ok true
  | t :: ts =>
      if t.length ≠ args.length then noMatch env args ts else do
        if ← matchArgs env args t then pure false else noMatch env args ts

/-- `eval_cond`. -/
def evalCond (r : Reader) (env : Env) : Condition → Result Bool
  | .cmp op left right => do
      let x ← evalOperand env left
      let y ← evalOperand env right
      pure (evalCmp op x y)
  | .negation rel args => do noMatch env args (← r.scan rel)
  | .not inner => do pure (!(← evalCond r env inner))
  | .call fn args => do evalBuiltinPredicate fn (← evalOperands env args)

/-! ## Sources and groups -/

/-- The tuples of a source (`collect_data_source`). -/
def collectDataSource (r : Reader) (env : Env) : DataSource → Result (List Tuple)
  | .scan rel _ => r.scan rel
  | .scanDelta rel _ => r.scanDelta rel
  | .indexLookup rel col key _ => do r.scanIndex rel col (← evalOperand env key)

/-- A group: the values of its keys and its tuples. -/
abbrev Group := Tuple × List Tuple

/-- Enter a tuple in the group of its key. -/
def addToGroups (key t : Tuple) : List Group → List Group
  | [] => [(key, [t])]
  | (k, ts) :: rest => if k = key then (k, ts ++ [t]) :: rest else (k, ts) :: addToGroups key t rest

/-- The value of a group key; a variable without a value counts as null. -/
def keyValue (env : Env) (k : Name) : Value := (env k).getD .null

/-- Group the tuples that have a column for each variable. -/
def groupTuples (vars keys : List Name) : List Tuple → Env → List Group → Env × List Group
  | [], env, groups => (env, groups)
  | t :: ts, env, groups =>
      if t.length ≠ vars.length then groupTuples vars keys ts env groups else
        let env := env.bindVars vars t
        groupTuples vars keys ts env (addToGroups (keys.map (keyValue env)) t groups)

/-- The argument of a reducer for each tuple of a group. -/
def reducerArgs (arg : Operand) (vars : List Name) : List Tuple → Env → Result (List Value × Env)
  | [], env => .ok ([], env)
  | t :: ts, env => do
      let env := env.bindVars vars t
      let v ← evalOperand env arg
      let (vs, env) ← reducerArgs arg vars ts env
      pure (v :: vs, env)

/-- The value a reducer gives to the arguments of a group. -/
def reduce (h : Host) (func : String) (vals : List Value) : Builtin Value :=
  match func with
  | "fn:sum" => do
      let sum ← vals.foldlM (fun acc v => match v with
        | .number n => pure (acc + n)
        | v => fail s!"fn:sum: expected integer, got {h.display v}") (0 : Int64)
      pure (.number sum)
  | "fn:float:sum" => do pure (.float ((← vals.mapM (valueAsFloat h)).foldl h.floatAdd floatZero))
  | "fn:max" => match vals with
      | [] => fail "fn:max on empty group"
      | v :: vs => .ok (vs.foldl (fun m v => if v.cmp m = .gt then v else m) v)
  | "fn:min" => match vals with
      | [] => fail "fn:min on empty group"
      | v :: vs => .ok (vs.foldl (fun m v => if v.cmp m = .lt then v else m) v)
  | "fn:float:max" => do match ← vals.mapM (valueAsFloat h) with
      | [] => fail "fn:float:max on empty group"
      | f :: fs => pure (.float (fs.foldl (fun m f => h.floatMax f m) f))
  | "fn:float:min" => do match ← vals.mapM (valueAsFloat h) with
      | [] => fail "fn:float:min on empty group"
      | f :: fs => pure (.float (fs.foldl (fun m f => h.floatMin f m) f))
  | "fn:collect" => .ok (.compound .list vals)
  | "fn:collect_distinct" =>
      .ok (.compound .list
        (vals.foldl (fun out v => if out.contains v then out else out ++ [v]) []))
  | _ => fail s!"Unknown aggregation function: {func}"

/-- The text of the error for a reducer without an argument. -/
def reducerArity (func : String) : String :=
  if func = "fn:collect" ∨ func = "fn:collect_distinct" then s!"{func}: requires 1 argument"
  else s!"{func} requires 1 argument"

/-- `eval_aggregate`: it leaves the source variables bound to the last tuple. -/
def evalAggregate (h : Host) (agg : Aggregate) (group : List Tuple) (vars : List Name) (env : Env) :
    Result (Value × Env) :=
  if agg.func = "fn:count" then .ok (.number (.ofNat group.length), env) else
    match agg.args with
    | [] =>
        if agg.func ∈ ["fn:sum", "fn:float:sum", "fn:max", "fn:min", "fn:float:max",
            "fn:float:min", "fn:collect", "fn:collect_distinct"] then
          reject (reducerArity agg.func)
        else reject s!"Unknown aggregation function: {agg.func}"
    | arg :: _ => do
        let (vals, env) ← reducerArgs arg vars group env
        pure (← ofBuiltin (reduce h agg.func vals), env)

/-- The environment in which the body runs for a group. -/
def bindGroup (h : Host) (vars keys : List Name) (aggs : List Aggregate) (g : Group) (env : Env) :
    Result Env :=
  aggs.foldlM (fun env agg => do
    let (v, env) ← evalAggregate h agg g.2 vars env
    pure (env.set agg.var v)) (env.bindVars keys g.1)

/-! ## Operations -/

/-- The columns of a tuple at the join keys. -/
def joinKey (vars keys : List Name) (t : Tuple) : Option Tuple :=
  keys.mapM fun k => (vars.idxOf? k).bind (t[·]?)

/-- The build tuples in the bucket of a probe tuple. -/
def joinPartners (build probe : DataSource) (keys : List Name) (buildTuples : List Tuple)
    (p : Tuple) : List Tuple :=
  buildTuples.filter fun b =>
    b.length = build.vars.length ∧ joinKey build.vars keys b = joinKey probe.vars keys p

mutual

/-- `exec_op`. -/
def execOp (rt : Runtime) : Op → Env → MemStore → Outcome
  | .nop, env, s => .ok (0, env, s)
  | .seq ops, env, s => execSeq rt ops env s
  | .iterate source body, env, s => do
      let tuples ← collectDataSource s.reader env source
      runEach (fun t env s =>
        if t.length ≠ source.vars.length then .ok (0, env, s)
        else execOp rt body (env.bindVars source.vars t) s) tuples env s
  | .filter cond body, env, s => do
      if ← evalCond s.reader env cond then execOp rt body env s else pure (0, env, s)
  | .insert rel args, env, s => do
      let tuple ← evalOperands env args
      let (isNew, s) := s.insert rel tuple
      pure (if isNew then 1 else 0, env, s)
  | .bind var expr body, env, s => do
      let v ← evalExpr rt env expr
      execOp rt body (env.set var v) s
  | .groupBy source vars keys aggs body, env, s => do
      let visible ← s.reader.scan source
      let collected ← s.reader.scanNextDelta source
      let (env, groups) := groupTuples vars keys (visible ++ collected) env []
      runEach (fun g env s => do
        let env ← bindGroup rt.host vars keys aggs g env
        execOp rt body env s) (rt.order.perm groups) env s
  | .hashJoin build probe joinKeys body, env, s => do
      let buildTuples ← collectDataSource s.reader env build
      if joinKeys.any (· ∉ build.vars) then
        .error (.plan "HashJoin: join key not in build_source vars")
      else do
        let probeTuples ← collectDataSource s.reader env probe
        if joinKeys.any (· ∉ probe.vars) then
          .error (.plan "HashJoin: join key not in probe_source vars")
        else
          runEach (fun p env s =>
            let partners := joinPartners build probe joinKeys buildTuples p
            -- a probe tuple without partner binds nothing
            let env := if partners.isEmpty then env else env.bindVars probe.vars p
            runEach (fun b env s => execOp rt body (env.bindVars build.vars b) s) partners env s)
            (probeTuples.filter (·.length = probe.vars.length)) env s
  | .matchField structOp field var body, env, s => do
      match structField field (← evalOperand env structOp) with
      | some v => do
          let (n, env, s) ← execOp rt body (env.set var v) s
          pure (n, env.remove var, s)
      | none => pure (0, env, s)
  | .iterateList source var body, env, s => do
      match ← evalOperand env source with
      | .compound .list elems => do
          let (n, env, s) ← runEach (fun x env s => execOp rt body (env.set var x) s) elems env s
          pure (n, env.remove var, s)
      | _ => pure (0, env, s)

/-- A sequence of operations, one after the other. -/
def execSeq (rt : Runtime) : List Op → Env → MemStore → Outcome
  | [], env, s => .ok (0, env, s)
  | op :: ops, env, s => do
      let (n, env, s) ← execOp rt op env s
      let (m, env, s) ← execSeq rt ops env s
      pure (n + m, env, s)

end

/-- `Interpreter::execute`. -/
def execute (rt : Runtime) (op : Op) (s : MemStore) : Result (Nat × MemStore) := do
  let (n, _, s) ← execOp rt op .new s
  pure (n, s)

end Mangle

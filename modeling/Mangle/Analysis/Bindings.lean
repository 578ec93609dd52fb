import Mangle.Planner.Plan
import Mangle.Store.MemStore

/-!
# Analysis/Bindings — the binding check

`check_bindings`: every variable of a rule has to be bound by a positive atom, an equality with
bound terms, the output of a built-in predicate, or a `let` of the transform.  Sets of variables are
lists of which only the members count; which variable an error names follows the order in which a
hash set is walked.
-/

namespace Mangle

/-- Built-in predicates all of whose arguments are inputs. -/
def filterPreds : List String :=
  [":lt", ":le", ":gt", ":ge", ":time:lt", ":time:le", ":time:gt", ":time:ge", ":duration:lt",
    ":duration:le", ":duration:gt", ":duration:ge", ":string:starts_with", ":string:ends_with",
    ":string:contains", ":match_prefix"]

/-- Reducer functions. -/
def reducerFns : List String :=
  ["fn:sum", "fn:count", "fn:max", "fn:min", "fn:collect", "fn:collect_distinct", "fn:float:sum",
    "fn:float:max", "fn:float:min"]

/-- Every variable of the set has to be bound; the error names the first that is not. -/
def requireBound (order : HashOrder) (vars bound : List String) (msg : String → String) :
    Except String Unit :=
  match (order.perm vars.dedup).find? (· ∉ bound) with
  | some v => .error (msg v)
  | none => .ok ()

/-! ## Premises -/

/-- The variables bound after a premise, from left to right. -/
def boundAfter (bound : List String) : Premise → List String
  | .atom pred args =>
      if pred ∈ filterPreds then bound
      else if pred = ":match_field" ∨ pred = ":match_entry" then
        match args with
        | [s, field, out] => out.var?.toList ++ (s.vars ++ field.vars ++ bound)
        | _ => bound
      else if pred = ":list:member" then
        match args with
        | [elem, list] => elem.var?.toList ++ (list.vars ++ bound)
        | _ => bound
      else Term.varsList args ++ bound
  | .eq (.var l) (.var r) =>
      if l ∈ bound then r :: bound else if r ∈ bound then l :: bound else bound
  | .eq (.var l) r => if r.vars.all (· ∈ bound) then l :: bound else bound
  | .eq l (.var r) => if l.vars.all (· ∈ bound) then r :: bound else bound
  | .eq _ _ | .negAtom .. | .ineq .. => bound

/-- The inputs of an atom, which have to be bound at its place. -/
def atomInputs (pred : String) (args : List Term) : List String :=
  if pred ∈ filterPreds then Term.varsList args
  else if pred = ":match_field" ∨ pred = ":match_entry" then
    match args with
    | [s, field, _] => s.vars ++ field.vars
    | _ => []
  else if pred = ":list:member" then
    match args with
    | [_, list] => list.vars
    | _ => []
  else []

/-- Variable equalities none of whose sides is bound yet. -/
def pendingEq (bound : List String) : Premise → Option (String × String)
  | .eq (.var l) (.var r) => if l ∈ bound ∨ r ∈ bound then none else some (l, r)
  | _ => none

/-- A variable to be bound by an expression whose variables are not all bound yet. -/
def pendingBind (bound : List String) : Premise → Option (String × List String)
  | .eq (.var _) (.var _) => none
  | .eq (.var l) r => if r.vars.all (· ∈ bound) then none else some (l, r.vars)
  | .eq l (.var r) => if l.vars.all (· ∈ bound) then none else some (r, l.vars)
  | _ => none

/-- The variables of a premise that filters, which some premise has to bind. -/
def filterVars : Premise → List String
  | .negAtom _ args => args.filterMap fun t => t.var?.filter (· ≠ "_")
  | .ineq l r => l.vars ++ r.vars
  | .atom .. | .eq .. => []

/-- The variables of a premise, wildcards apart. -/
def Premise.vars : Premise → List String
  | .atom _ args | .negAtom _ args => Term.varsList args
  | .eq l r | .ineq l r => l.vars ++ r.vars

/-- What the scan of the premises has collected. -/
structure BodyScan where
  bound : List String
  seen : List String
  pendingEqs : List (String × String)
  pendingBinds : List (String × List String)
  filters : List String

/-- The inputs of an atom have to be bound by the premises before it. -/
def checkInputs (order : HashOrder) (head : String) (bound : List String) :
    Premise → Except String Unit
  | .atom pred args =>
      requireBound order (atomInputs pred args) bound fun v =>
        s!"variable {v} in {pred}(...) of rule for {head} will not have a value yet; " ++
          "move the subgoal to the right"
  | .negAtom .. | .eq .. | .ineq .. => pure ()

/-- The step of the scan for one premise. -/
def scanPremise (order : HashOrder) (head : String) (st : BodyScan) (p : Premise) :
    Except String BodyScan := do
  checkInputs order head st.bound p
  pure
    { bound := boundAfter st.bound p
      seen := st.seen ++ p.vars
      pendingEqs := st.pendingEqs ++ (pendingEq st.bound p).toList
      pendingBinds := st.pendingBinds ++ (pendingBind st.bound p).toList
      filters := st.filters ++ filterVars p }

/-- One pass over the pending equalities. -/
def resolvePass (eqs : List (String × String)) (binds : List (String × List String))
    (bound : List String) : List String :=
  let bound := eqs.foldl (fun bound (l, r) =>
    if l ∈ bound ∧ r ∉ bound then r :: bound
    else if r ∈ bound ∧ l ∉ bound then l :: bound
    else bound) bound
  binds.foldl (fun bound (target, deps) =>
    if target ∉ bound ∧ deps.all (· ∈ bound) then target :: bound else bound) bound

/-- Passes until one binds nothing; each of the others binds a variable that was not bound. -/
def resolvePending (eqs : List (String × String)) (binds : List (String × List String)) :
    Nat → List String → List String
  | 0, bound => bound
  | fuel + 1, bound =>
      let bound' := resolvePass eqs binds bound
      if bound'.length = bound.length then bound else resolvePending eqs binds fuel bound'

/-- The scan of the body, with the variables it binds in the end. -/
def checkBody (order : HashOrder) (head : String) (headVars : List String)
    (premises : List Premise) : Except String BodyScan := do
  let st ← premises.foldlM (scanPremise order head) ⟨[], headVars, [], [], []⟩
  let fuel := 2 * st.pendingEqs.length + st.pendingBinds.length + 1
  let bound := resolvePending st.pendingEqs st.pendingBinds fuel st.bound
  st.pendingBinds.forM fun (target, deps) =>
    if target ∈ bound then pure () else
      requireBound order deps bound fun v =>
        s!"variable {v} in equality expression of rule for {head} is not bound"
  st.filters.forM fun v =>
    if v ∈ bound then pure () else
      throw (s!"variable {v} in negation or inequality of rule for {head} " ++
        "is not bound by the rule body")
  pure { st with bound := bound }

/-! ## Transforms -/

/-- What the transforms define and use; `lastBlock` holds the keys and the definitions of the last
`group_by` block. -/
structure TransformScan where
  defs : List String
  uses : List String
  available : List String
  lastBlock : Option (List String × List String)

/-- The error of a `let` that redefines a variable of the body. -/
def redefines (head v : String) : String :=
  s!"the transform of rule for {head} redefines variable {v} from rule body"

/-- A `let` of the first block. -/
def scanLet (head : String) (bound : List String) (st : TransformScan) (t : Transform) :
    Except String TransformScan :=
  match t.var with
  | none => pure st
  | some v =>
      let uses := st.uses ++ t.app.vars
      if v = "_" then pure { st with uses := uses }
      else if v ∈ bound then throw (redefines head v)
      else pure { st with uses := uses, defs := v :: st.defs, available := v :: st.available }

/-- The keys of a `group_by`: distinct variables in scope. -/
def scanGroupKeys (head : String) (available : List String) (args : List Term) :
    Except String (List String) :=
  args.foldlM (fun keys arg => match arg with
    | .var v =>
        if v ∈ keys then
          throw s!"each argument of group_by must be a distinct variable in rule for {head}"
        else if v ∉ available then throw s!"group_by key {v} is not bound in rule for {head}"
        else pure (v :: keys)
    | _ => throw s!"each argument of group_by must be a variable in rule for {head}") []

/-- The error of a `let` after `group_by` that uses a variable of the body. -/
def outsideBlock (head fv : String) : String :=
  s!"variable {fv} in transform of rule for {head} must be either part of group_by " ++
    "or defined in the transform"

/-- A `let` after `group_by`, given the definitions of its block so far. -/
def scanBlockLet (order : HashOrder) (head : String) (bound available keys blockDefs : List String)
    (t : Transform) : Except String (List String) :=
  match t.var with
  | none =>
      throw s!"all statements following group_by have to be let-statements in rule for {head}"
  | some v =>
      if v = "_" then pure blockDefs
      else if v ∈ bound then throw (redefines head v)
      else do
        match t.app with
        | .app (.fn function) _ =>
            if function ∈ reducerFns then
              requireBound order t.app.vars available fun fv =>
                s!"variable {fv} used in transform of rule for {head} is not in scope"
            else requireBound order t.app.vars (keys ++ blockDefs) (outsideBlock head)
        | _ => requireBound order t.app.vars (keys ++ blockDefs) (outsideBlock head)
        pure (v :: blockDefs)

/-- A block that starts with `do`. -/
def scanBlock (order : HashOrder) (head : String) (bound : List String) (st : TransformScan)
    (block : List Transform) : Except String TransformScan :=
  match block with
  | [] => pure st
  | stmt :: lets =>
      match stmt.app with
      | .app (.fn function) args =>
          if function ≠ "fn:group_by" then
            throw (s!"unsupported do-transform fn {function} in rule for {head} " ++
              "(only fn:group_by is supported)")
          else do
            let keys ← scanGroupKeys head st.available args
            let blockDefs ← lets.foldlM (scanBlockLet order head bound st.available keys) []
            pure
              { st with
                defs := blockDefs ++ st.defs
                available := keys ++ blockDefs
                lastBlock := some (keys, blockDefs) }
      | _ => throw s!"do-transform of rule for {head} must apply a function"

/-- The scan of the transforms, block by block. -/
def checkTransforms (order : HashOrder) (head : String) (bound : List String)
    (transform : List Transform) : Except String TransformScan := do
  let init : TransformScan := ⟨[], [], bound, none⟩
  match splitTransforms [] transform with
  | [] => pure init
  | first :: blocks => do
      let st ← first.foldlM (scanLet head bound) init
      blocks.foldlM (scanBlock order head bound) st

/-! ## Rules -/

/-- `check_rule_bindings`. -/
def checkRuleBindings (order : HashOrder) (rule : Rule) : Except String Unit := do
  let headVars := Term.varsList rule.args
  let body ← checkBody order rule.pred headVars rule.premises
  let ts ← checkTransforms order rule.pred body.bound rule.transform
  match ts.lastBlock with
  | some (keys, blockDefs) =>
      requireBound order headVars (keys ++ blockDefs) fun v =>
        s!"head variable {v} of rule for {rule.pred} is neither part of group_by nor aggregated"
  | none =>
      requireBound order headVars (body.bound ++ ts.defs) fun v =>
        s!"variable {v} in head of rule for {rule.pred} is not bound"
  requireBound order body.seen (body.bound ++ ts.defs) fun v =>
    s!"variable {v} in rule for {rule.pred} is not bound"
  requireBound order ts.uses (body.seen ++ ts.defs) fun v =>
    s!"variable {v} used in transform of rule for {rule.pred} does not appear in clause"

/-- `check_bindings`: facts first, then the rules. -/
def checkBindings (order : HashOrder) (rules : List Rule) : Except String Unit := do
  let isFact := fun r : Rule => r.premises.isEmpty && r.transform.isEmpty
  (rules.filter isFact).forM fun r =>
    requireBound order (Term.varsList r.args) [] fun v =>
      s!"variable {v} in fact {r.pred}(...) is not bound: facts must be ground"
  (rules.filter (! isFact ·)).forM (checkRuleBindings order)

end Mangle

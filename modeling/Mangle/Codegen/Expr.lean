import Mangle.Interpreter.Exec
import Mangle.Machinery.Collect

/-!
# Codegen/Expr — function expressions as host calls

`emit_expr` turns a function expression into WASM instructions: the values are references that only
the host looks into, and every function becomes calls of the host.  Here the instructions run on a
machine whose host does what the `Host` trait documents, and the value left on its stack is compared
with that of `eval_function`.

* `emitExpr_agrees_iff` — the expressions for which the two are the same;
* `emitExpr_disagrees` — `fn:minus(5)`, `fn:div(2)`, `fn:plus()` and the size of a map.
-/

namespace Mangle

open Machinery List

variable {fn : String} {args : List Operand} {n : Int64} {ds : List Value}

/-! ## The host -/

/-- The functions of the host that take values to a value. -/
inductive HostFn where
  | valAdd | valSub | valMul | valDiv | valSqrt
  | strConcat | strReplace | valToString
  | compoundGet | compoundLen | pairFirst | pairSecond
  deriving DecidableEq

namespace HostFn

/-- The number of arguments. -/
def arity : HostFn → Nat
  | valAdd | valSub | valMul | valDiv | strConcat | compoundGet => 2
  | valSqrt | valToString | compoundLen | pairFirst | pairSecond => 1
  | strReplace => 4

/-- Integer arithmetic, with integers promoted beside a float. -/
def promoting (ints : Int64 → Int64 → Option Value) (floats : UInt64 → UInt64 → UInt64) :
    Value → Value → Option Value
  | .number a, .number b => ints a b
  | .float a, .float b => some (.float (floats a b))
  | .number a, .float b => some (.float (floats (Value.i64AsF64 a) b))
  | .float a, .number b => some (.float (floats a (Value.i64AsF64 b)))
  | _, _ => none

/-- Truncating division; it traps on a zero divisor and on overflow. -/
def divide (a b : Int64) : Option Value :=
  if b = 0 ∨ b = -1 ∧ a = Int64.minValue then none else some (.number (a / b))

/-- Element by index (list), or value by key (map and struct). -/
def get : Value → Value → Option Value
  | .compound .list elems, .number i => elems[i.toUInt64.toNat]?
  | .compound .map elems, key | .compound .struct elems, key => lookupKey key elems
  | _, _ => none

/-- The number of elements of a list or pair, of entries of a map or struct. -/
def size : CompoundKind → List Value → Nat
  | .list, elems | .pair, elems => elems.length
  | .map, elems | .struct, elems => elems.length / 2

/-- What the `Host` trait documents of a function; it has no value where nothing is documented. -/
def eval (h : Host) : HostFn → List Value → Option Value
  | valAdd, [a, b] => promoting (fun a b => some (.number (a + b))) h.floatAdd a b
  | valSub, [a, b] => promoting (fun a b => some (.number (a - b))) h.floatSub a b
  | valMul, [a, b] => promoting (fun a b => some (.number (a * b))) h.floatMul a b
  | valDiv, [a, b] => promoting divide h.floatDiv a b
  | valSqrt, [v] => (valueAsFloat h v).toOption.map fun bits => .float (h.floatSqrt bits)
  | strConcat, [a, b] => some (.string (valueToString h a ++ valueToString h b))
  | strReplace, [.string s, .string old, .string new, .number count] =>
      let n := if count < 0 then none else some count.toInt.toNat
      some (.string (String.ofList
        (replaceChars old.toList new.toList (s.length + 1) n s.toList)))
  | valToString, [v] => some (.string (valueToString h v))
  | compoundGet, [compound, key] => get compound key
  | compoundLen, [.compound kind elems] => some (.number (.ofNat (size kind elems)))
  | pairFirst, [.compound _ (v :: _)] => some v
  | pairSecond, [.compound _ (_ :: v :: _)] => some v
  | _, _ => none

end HostFn

/-! ## The machine -/

variable {f : HostFn}

/-- The instructions of expressions.  `const` is the number of a constant with the call that makes a
reference of it. -/
inductive Instr where
  | localGet (x : Name)
  | refNull
  | const (c : Constant)
  | call (f : HostFn)
  | compoundBegin (kind : CompoundKind)
  | compoundPush
  | compoundEnd

/-- The references on the stack, of which a null one has no value, and the compound that the host is
building. -/
structure Machine where
  stack : List (Option Value)
  building : CompoundKind × List Value

namespace Machine

/-- Push a reference. -/
def push (m : Machine) (v : Option Value) : Machine := { m with stack := v :: m.stack }

/-- Call a function of the host on the values on top of the stack. -/
def call (h : Host) (f : HostFn) (m : Machine) : Option Machine :=
  ((m.stack.take f.arity).reverse.mapM id).bind fun vals =>
    (f.eval h vals).map fun v => { m with stack := some v :: m.stack.drop f.arity }

/-- One instruction, with the locals `env`. -/
def step (h : Host) (env : Env) (m : Machine) : Instr → Option Machine
  | .localGet x => some (m.push (env x))
  | .refNull => some (m.push none)
  | .const c => some (m.push c.value)
  | .call f => m.call h f
  | .compoundBegin kind => some { m with building := (kind, []) }
  | .compoundPush =>
      match m.stack with
      | some v :: stack => some ⟨stack, m.building.1, m.building.2 ++ [v]⟩
      | _ => none
  | .compoundEnd => some (m.push (some (.compound m.building.1 m.building.2)))

/-- The instructions one after the other. -/
def exec (h : Host) (env : Env) (m : Machine) (code : List Instr) : Option Machine :=
  code.foldlM (step h env) m

end Machine

theorem Machine.exec_cons (h : Host) (env : Env) (m : Machine) (i : Instr) (code : List Instr) :
    m.exec h env (i :: code) = (m.step h env i).bind fun m => m.exec h env code :=
  foldlM_cons

theorem Machine.exec_append (h : Host) (env : Env) (m : Machine) (code code' : List Instr) :
    m.exec h env (code ++ code') = (m.exec h env code).bind fun m => m.exec h env code' :=
  foldlM_append

/-- A call takes the values it finds, the last one on top. -/
theorem Machine.call_values {h : Host} {vals : List Value} (hlen : vals.length = f.arity)
    (stack : List (Option Value)) (building : CompoundKind × List Value) :
    Machine.call h f ⟨vals.reverse.map some ++ stack, building⟩ =
      (f.eval h vals).map fun v => ⟨some v :: stack, building⟩ := by
  have hlen' : (vals.reverse.map some).length = f.arity := by simpa using hlen
  have hmap (vals : List Value) : (vals.map some).mapM id = some vals := by
    induction vals with
    | nil => rfl
    | cons v vals ih => rw [map_cons, mapM_cons, ih]; rfl
  rw [Machine.call]
  dsimp only
  rw [← hlen', take_left, drop_left, ← map_reverse, reverse_reverse, hmap,
    Option.bind_some]

theorem Machine.exec_call {h : Host} {env : Env} {f : HostFn} {vals : List Value}
    (hlen : vals.length = f.arity) (stack : List (Option Value))
    (building : CompoundKind × List Value) :
    Machine.exec h env ⟨vals.reverse.map some ++ stack, building⟩ [.call f] =
      (f.eval h vals).map fun v => ⟨some v :: stack, building⟩ := by
  rw [exec_cons, step, call_values hlen]
  cases f.eval h vals <;> rfl

/-- The value that the instructions of an expression leave. -/
def runExpr (h : Host) (env : Env) (code : List Instr) : Option Value :=
  (Machine.exec h env ⟨[], .list, []⟩ code).bind fun m => m.stack.head?.join

/-! ## Code generation -/

/-- `emit_operand`, with the variables that have a local. -/
def emitOperand (vars : List Name) : Operand → Instr
  | .var x => if x ∈ vars then .localGet x else .refNull
  | .const c => .const c

/-- The ways to emit a call. -/
inductive Lowering where
  | fold (f : HostFn)
  | first (f : HostFn)
  | exactly (f : HostFn)
  | compound (kind : CompoundKind)

/-- How `emit_expr` emits a function; it panics on the others. -/
def lowering : String → Option Lowering
  | "fn:plus" | "fn:float:plus" => some (.fold .valAdd)
  | "fn:minus" | "fn:float:minus" => some (.fold .valSub)
  | "fn:mult" | "fn:float:mult" => some (.fold .valMul)
  | "fn:div" | "fn:float:div" => some (.fold .valDiv)
  | "fn:sqrt" => some (.first .valSqrt)
  | "fn:string:concat" => some (.fold .strConcat)
  | "fn:string:replace" => some (.exactly .strReplace)
  | "fn:number:to_string" | "fn:float64:to_string" | "fn:name:to_string" =>
      some (.first .valToString)
  | "fn:list" => some (.compound .list)
  | "fn:pair" => some (.compound .pair)
  | "fn:map" => some (.compound .map)
  | "fn:struct" => some (.compound .struct)
  | "fn:list:get" | "fn:map:get" | "fn:struct:get" => some (.exactly .compoundGet)
  | "fn:len" | "fn:list:len" | "fn:struct:len" | "fn:map:len" => some (.first .compoundLen)
  | "fn:pair:first" => some (.first .pairFirst)
  | "fn:pair:second" => some (.first .pairSecond)
  | _ => none

namespace Lowering

/-- The instructions of a call. -/
def emit (vars : List Name) (args : List Operand) : Lowering → List Instr
  -- `emit_binary_fold`
  | fold f => match args with
      | [] => [.refNull]
      | a :: rest => emitOperand vars a :: rest.flatMap fun b => [emitOperand vars b, .call f]
  -- the arguments after the first one are dropped
  | first f => match args with
      | [] => [.refNull]
      | a :: _ => [emitOperand vars a, .call f]
  | exactly f =>
      if args.length = f.arity then args.map (emitOperand vars) ++ [.call f] else [.refNull]
  | compound kind =>
      .compoundBegin kind ::
        args.flatMap (fun a => [emitOperand vars a, .compoundPush]) ++ [.compoundEnd]

end Lowering

/-- `emit_expr`. -/
def Codegen.emitExpr (vars : List Name) : Expr → Option (List Instr)
  | .value op => some [emitOperand vars op]
  | .call fn args => (lowering fn).map (Lowering.emit vars args)

/-! ## What the instructions compute -/

variable {l : Lowering}

namespace Lowering

/-- The value of a call, from those of its arguments. -/
def value (h : Host) (vals : List Value) : Lowering → Option Value
  | fold f => match vals with
      | [] => none
      | v :: vs => vs.foldlM (fun a b => f.eval h [a, b]) v
  | first f => match vals with
      | [] => none
      | v :: _ => f.eval h [v]
  | exactly f => if vals.length = f.arity then f.eval h vals else none
  | compound kind => some (.compound kind vals)

/-- The functions that are called take the arguments that are there. -/
def Fits : Lowering → Prop
  | fold f => f.arity = 2
  | first f => f.arity = 1
  | exactly _ | compound _ => True

end Lowering

theorem fits_of_lowering (h : lowering fn = some l) : l.Fits := by
  unfold lowering at h
  split at h <;> first | (cases h; first | rfl | trivial) | cases h

section

variable {h : Host} {env : Env} {vars : List Name} (hvars : ∀ x v, env x = some v → x ∈ vars)
  {vals : List Value}

include hvars

theorem step_emitOperand {op : Operand} {v : Value} (hop : evalOperand env op = .ok v)
    (m : Machine) : m.step h env (emitOperand vars op) = some (m.push (some v)) := by
  cases op with
  | const c =>
    cases hop
    rfl
  | var x =>
    cases hx : env x with
    | none => simp [evalOperand, hx] at hop
    | some w =>
      obtain rfl : w = v := by simpa [evalOperand, hx] using hop
      simp [emitOperand, hvars x w hx, Machine.step, hx]

/-- The operands have the values. -/
def OperandsEvaluate (env : Env) : List Operand → List Value → Prop :=
  List.Forall₂ fun op v => evalOperand env op = .ok v

theorem exec_operands (hargs : OperandsEvaluate env args vals) (m : Machine) :
    m.exec h env (args.map (emitOperand vars)) =
      some { m with stack := vals.reverse.map some ++ m.stack } := by
  induction hargs generalizing m with
  | nil => rfl
  | cons hop _ ih =>
    rw [map_cons, Machine.exec_cons, step_emitOperand hvars hop, Option.bind_some, ih]
    simp [Machine.push]

theorem exec_fold (hf : f.arity = 2) (hargs : OperandsEvaluate env args vals) (acc : Value)
    (stack : List (Option Value)) (building : CompoundKind × List Value) :
    Machine.exec h env ⟨some acc :: stack, building⟩
        (args.flatMap fun b => [emitOperand vars b, .call f]) =
      (vals.foldlM (fun a b => f.eval h [a, b]) acc).map fun v => ⟨some v :: stack, building⟩ := by
  induction hargs generalizing acc with
  | nil => rfl
  | @cons op v args vals hop _ ih =>
    have hcall : Machine.step h env ⟨some v :: some acc :: stack, building⟩ (.call f) =
        (f.eval h [acc, v]).map fun r => ⟨some r :: stack, building⟩ :=
      Machine.call_values (show [acc, v].length = f.arity from hf.symm) stack building
    rw [flatMap_cons, cons_append, cons_append, nil_append, Machine.exec_cons,
      step_emitOperand hvars hop, Option.bind_some, Machine.push, Machine.exec_cons, hcall,
      foldlM_cons]
    cases f.eval h [acc, v] with
    | none => rfl
    | some r => exact ih r

theorem exec_push {args : List Operand} {vals : List Value} (hargs : OperandsEvaluate env args vals)
    (stack : List (Option Value)) (kind : CompoundKind) (elems : List Value) :
    Machine.exec h env ⟨stack, kind, elems⟩
        (args.flatMap fun a => [emitOperand vars a, .compoundPush]) =
      some ⟨stack, kind, elems ++ vals⟩ := by
  induction hargs generalizing elems with
  | nil => simp [Machine.exec]
  | cons hop _ ih =>
    rw [flatMap_cons, cons_append, cons_append, nil_append, Machine.exec_cons,
      step_emitOperand hvars hop, Option.bind_some, Machine.push, Machine.exec_cons]
    exact (ih _).trans (by rw [append_assoc]; rfl)

/-- **The instructions of a call compute its value** from those of the arguments. -/
theorem runExpr_emit (hl : l.Fits) (hargs : OperandsEvaluate env args vals) :
    runExpr h env (l.emit vars args) = l.value h vals := by
  cases l with
  | fold f =>
    cases hargs with
    | nil => rfl
    | @cons op v args vals hop hrest =>
      rw [Lowering.emit, runExpr, Machine.exec_cons, step_emitOperand hvars hop, Option.bind_some,
        Machine.push, exec_fold hvars hl hrest, Option.bind_map]
      exact Option.bind_fun_some _
  | first f =>
    cases hargs with
    | nil => rfl
    | @cons op v args vals hop hrest =>
      have hcall := @Machine.exec_call h env f [v] hl.symm [] (.list, [])
      rw [Lowering.emit, runExpr, Machine.exec_cons, step_emitOperand hvars hop, Option.bind_some,
        Machine.push]
      refine (congrArg (Option.bind · _) hcall).trans ?_
      rw [Option.bind_map]
      exact Option.bind_fun_some _
  | exactly f =>
    have hlen : args.length = vals.length := hargs.length_eq
    rw [Lowering.emit, Lowering.value, hlen]
    split
    · next heq =>
      rw [runExpr, Machine.exec_append, exec_operands hvars hargs, Option.bind_some, 
        Machine.exec_call heq, Option.bind_map]
      exact Option.bind_fun_some _
    · rfl
  | compound kind =>
    have hpush := @exec_push h env vars hvars args vals hargs [] kind []
    rw [Lowering.emit, runExpr, cons_append, Machine.exec_cons, Machine.step, Option.bind_some,
      Machine.exec_append, hpush]
    rfl

end

/-! ## Agreement with the interpreter -/

/-- The value is no float. -/
def Value.NoFloat (v : Value) : Prop := ∀ b, v ≠ .float b

/-- The expression has the same value when it is compiled: not for one argument of `fn:minus` or
`fn:div`, not without arguments, not for the float functions on integers, and not for an accessor of
another kind of compound. -/
def Agrees (fn : String) (vals : List Value) : Prop :=
  match fn with
  | "fn:plus" | "fn:mult" => vals ≠ []
  | "fn:minus" => match vals with
      | [.number n] => -n = n
      | _ => True
  | "fn:div" => match vals with
      | [.number n] => 1 / n = n
      -- the interpreter stops at a quotient of zero, whatever is left to divide by
      | vals => ∀ d ∈ vals.tail, ∃ n, d = .number n ∧ n ≠ 0
  | "fn:float:plus" | "fn:float:minus" | "fn:float:mult" | "fn:float:div" => False
  | "fn:string:concat" => match vals with
      | [] => False
      | [v] => ∃ s, v = .string s
      | _ => True
  | "fn:list:get" => match vals with
      | [.compound kind elems, .number i] => kind = .list ∨
          (kind = .map ∨ kind = .struct) ∧ lookupKey (.number i) elems = elems[i.toUInt64.toNat]?
      | _ => True
  | "fn:map:get" | "fn:struct:get" => match vals with
      | [.compound kind elems, key] => (kind = .map ∨ kind = .struct) ∨
          kind = .list ∧ ∃ i, key = .number i ∧ elems[i.toUInt64.toNat]? = lookupKey key elems
      | _ => True
  | "fn:len" | "fn:list:len" => match vals with
      | [.compound kind elems] => kind = .list ∨ kind = .pair ∨ elems = []
      | _ => True
  | "fn:map:len" | "fn:struct:len" => match vals with
      | [.compound kind elems] => kind = .map ∨ kind = .struct ∨ elems = []
      | _ => True
  | _ => True

section

variable {rt : Runtime} {vals : List Value} {v : Value} {h : Host}

/-- Integers are what the integer functions accept. -/
theorem eq_map_of_integers {ns : List Int64} (hns : integers h fn vals = .ok ns) :
    vals = ns.map .number := by
  induction vals generalizing ns with
  | nil =>
    cases hns
    rfl
  | cons v vals ih =>
    cases v with
    | number n =>
      simp only [integers, bind_eq_ok] at hns
      obtain ⟨ms, hms, hns⟩ := hns
      cases hns
      rw [ih hms, map_cons]
    | _ => cases hns

variable {op : Int64 → Int64 → Int64}

theorem foldlM_numbers
    (hop : ∀ a b, f.eval h [.number a, .number b] = some (.number (op a b))) (ns : List Int64)
    (n : Int64) :
    (ns.map Value.number).foldlM (fun a b => f.eval h [a, b]) (.number n) =
      some (.number (ns.foldl op n)) := by
  induction ns generalizing n with
  | nil => rfl
  | cons m ns ih =>
    rw [map_cons, foldlM_cons, hop]
    exact ih (op n m)

theorem some_number_inj {m : Int64} : some (Value.number n) = some (.number m) ↔ n = m := by
  rw [Option.some.injEq, Value.number.injEq]

/-- A sum or product over at least one argument needs no neutral element. -/
theorem value_fold_integers {e : Int64}
    (hop : ∀ a b, f.eval h [.number a, .number b] = some (.number (op a b))) (he : ∀ n, op e n = n)
    (hv : (integers h fn vals >>= fun ns => .ok (Value.number (ns.foldl op e))) = .ok v) :
    Lowering.value h vals (.fold f) = some v ↔ vals ≠ [] := by
  obtain ⟨ns, hns, hok⟩ := bind_eq_ok.mp hv
  cases hok
  obtain rfl := eq_map_of_integers hns
  cases ns with
  | nil => simp [Lowering.value]
  | cons n ns =>
    refine iff_of_true ?_ (cons_ne_nil _ _)
    rw [foldl_cons, he]
    exact foldlM_numbers hop ns n

theorem agrees_minus (hv : evalFunction rt "fn:minus" vals = .ok v) :
    Lowering.value rt.host vals (.fold .valSub) = some v ↔ Agrees "fn:minus" vals := by
  match vals, hv with
  | [.number n], hv =>
    obtain rfl : .number (-n) = v := Except.ok.inj hv
    exact some_number_inj.trans eq_comm
  | .number n :: w :: ws, hv =>
    obtain ⟨ns, hns, hok⟩ := bind_eq_ok.mp hv
    cases hok
    rw [eq_map_of_integers hns]
    refine iff_of_true (foldlM_numbers (fun a b => rfl) ns n) ?_
    rw [← eq_map_of_integers hns]
    trivial

theorem eval_valDiv {d : Value} (hd : d.NoFloat) :
    HostFn.valDiv.eval h [.number n, d] =
      match d with
      | .number m => HostFn.divide n m
      | _ => none := by
  cases d with
  | float b => exact absurd rfl (hd b)
  | _ => rfl

/-- A quotient of zero stays zero, as long as it can be divided. -/
theorem foldlM_zero (hds : ∀ d ∈ ds, d.NoFloat) :
    ds.foldlM (fun a b => HostFn.valDiv.eval h [a, b]) (.number 0) = some (.number 0) ↔
      ∀ d ∈ ds, ∃ n, d = .number n ∧ n ≠ 0 := by
  induction ds with
  | nil => simp
  | cons d ds ih =>
    have ih := ih fun d hd => hds d (mem_cons_of_mem _ hd)
    rw [foldlM_cons, eval_valDiv (hds d mem_cons_self), forall_mem_cons, ← ih]
    cases d with
    | number m =>
      by_cases hm : m = 0
      · simp [HostFn.divide, hm]
      · have hdiv : HostFn.divide 0 m = some (.number 0) := by
          rw [HostFn.divide, if_neg fun h => h.elim hm fun h => absurd h.2 (by decide),
            Int64.zero_div]
        simp [hdiv, hm]
    | _ => simp

theorem foldlM_divLoop (hds : ∀ d ∈ ds, d.NoFloat) (hv : divLoop h n ds = .ok v) :
    ds.foldlM (fun a b => HostFn.valDiv.eval h [a, b]) (.number n) = some v ↔
      ∀ d ∈ ds, ∃ n, d = .number n ∧ n ≠ 0 := by
  induction ds generalizing n with
  | nil =>
    cases hv
    simp
  | cons d ds ih =>
    have hrest : ∀ d ∈ ds, d.NoFloat := fun d hd => hds d (mem_cons_of_mem _ hd)
    rw [foldlM_cons, eval_valDiv (hds d mem_cons_self), forall_mem_cons]
    cases d with
    | number m =>
      rw [divLoop] at hv
      split at hv
      · cases hv
      · next hm =>
        split at hv
        · cases hv
        · next hov =>
          have hdiv : HostFn.divide n m = some (.number (n / m)) := if_neg (by tauto)
          dsimp only
          rw [hdiv]
          split at hv
          · next hzero =>
            cases hv
            rw [hzero]
            simpa [hm] using foldlM_zero hrest
          · simpa [hm] using ih hrest hv
    | _ => cases hv

theorem agrees_div (hfloat : ∀ w ∈ vals, w.NoFloat)
    (hv : evalFunction rt "fn:div" vals = .ok v) :
    Lowering.value rt.host vals (.fold .valDiv) = some v ↔ Agrees "fn:div" vals := by
  match vals, hv with
  | [.number n], hv =>
    have hif : (if n = 0 then fail "Division by zero in fn:div" else .ok (.number (1 / n))) =
      .ok v := hv
    split at hif
    · cases hif
    · cases hif
      exact some_number_inj.trans eq_comm
  | .number n :: w :: ws, hv =>
    exact foldlM_divLoop (fun d hd => hfloat d (mem_cons_of_mem _ hd)) hv

theorem noFloat_of_promoting {ints : Int64 → Int64 → Option Value}
    {floats : UInt64 → UInt64 → UInt64} (hints : ∀ a b r, ints a b = some r → r.NoFloat)
    {a b r : Value} (ha : a.NoFloat) (hb : b.NoFloat)
    (h : HostFn.promoting ints floats a b = some r) : r.NoFloat := by
  cases a with
  | float x => exact absurd rfl (ha x)
  | number n =>
    cases b with
    | float y => exact absurd rfl (hb y)
    | number m => exact hints n m r h
    | _ => cases h
  | _ => cases h

/-- No arithmetic makes a float of other values. -/
theorem noFloat_of_foldlM (hf : f = .valAdd ∨ f = .valSub ∨ f = .valMul ∨ f = .valDiv)
    (hds : ∀ d ∈ ds, d.NoFloat) {a r : Value} (ha : a.NoFloat)
    (hr : ds.foldlM (fun a b => f.eval h [a, b]) a = some r) : r.NoFloat := by
  have hnumber {x r : Value} {n : Int64} (hx : x = .number n) (h : some x = some r) :
      r.NoFloat := by
    cases h
    rintro b rfl
    cases hx
  induction ds generalizing a with
  | nil =>
    cases hr
    exact ha
  | cons d ds ih =>
    rw [foldlM_cons, Option.bind_eq_bind, Option.bind_eq_some_iff] at hr
    obtain ⟨x, hx, hr⟩ := hr
    refine ih (fun d hd => hds d (mem_cons_of_mem _ hd)) ?_ hr
    have hd := hds d mem_cons_self
    obtain rfl | rfl | rfl | rfl := hf
    · exact noFloat_of_promoting (fun _ _ _ h => hnumber rfl h) ha hd hx
    · exact noFloat_of_promoting (fun _ _ _ h => hnumber rfl h) ha hd hx
    · exact noFloat_of_promoting (fun _ _ _ h => hnumber rfl h) ha hd hx
    · refine noFloat_of_promoting (fun a b r h => ?_) ha hd hx
      rw [HostFn.divide] at h
      split at h
      · cases h
      · exact hnumber rfl h

theorem float_of_floatDivLoop {x : UInt64} (hv : floatDivLoop h x ds = .ok v) :
    ∃ b, v = .float b := by
  induction ds generalizing x with
  | nil =>
    cases hv
    exact ⟨x, rfl⟩
  | cons d ds ih =>
    obtain ⟨y, -, hv⟩ := bind_eq_ok.mp hv
    split at hv
    · cases hv
    · exact ih hv

section

variable (hfn : fn = "fn:float:plus" ∨ fn = "fn:float:minus" ∨ fn = "fn:float:mult" ∨
  fn = "fn:float:div")

include hfn

/-- The float functions have floats as values. -/
theorem float_of_evalFunction (hv : evalFunction rt fn vals = .ok v) : ∃ b, v = .float b := by
  obtain rfl | rfl | rfl | rfl := hfn
  · obtain ⟨fs, -, hok⟩ := bind_eq_ok.mp hv
    cases hok
    exact ⟨_, rfl⟩
  · match vals, hv with
    | [w], hv =>
      obtain ⟨x, -, hok⟩ := bind_eq_ok.mp hv
      cases hok
      exact ⟨_, rfl⟩
    | w :: w' :: ws, hv =>
      obtain ⟨x, -, hv⟩ := bind_eq_ok.mp hv
      obtain ⟨xs, -, hok⟩ := bind_eq_ok.mp hv
      cases hok
      exact ⟨_, rfl⟩
  · obtain ⟨fs, -, hok⟩ := bind_eq_ok.mp hv
    cases hok
    exact ⟨_, rfl⟩
  · match vals, hv with
    | [w], hv =>
      obtain ⟨x, -, hv⟩ := bind_eq_ok.mp hv
      split at hv
      · cases hv
      · cases hv
        exact ⟨_, rfl⟩
    | w :: w' :: ws, hv =>
      obtain ⟨x, -, hv⟩ := bind_eq_ok.mp hv
      exact float_of_floatDivLoop hv

theorem agrees_float (hf : f = .valAdd ∨ f = .valSub ∨ f = .valMul ∨ f = .valDiv)
    (hfloat : ∀ w ∈ vals, w.NoFloat) (hv : evalFunction rt fn vals = .ok v) :
    Lowering.value rt.host vals (.fold f) = some v ↔ Agrees fn vals := by
  obtain ⟨b, rfl⟩ := float_of_evalFunction hfn hv
  refine iff_of_false (fun heq => ?_) (by obtain rfl | rfl | rfl | rfl := hfn <;> exact id)
  cases vals with
  | nil => cases heq
  | cons w vals =>
    exact noFloat_of_foldlM hf (fun d hd => hfloat d (mem_cons_of_mem _ hd))
      (hfloat w mem_cons_self) heq b rfl

end

/-- Concatenation goes on with the text it has. -/
theorem foldlM_strConcat (s : String) (vs : List Value) :
    vs.foldlM (fun a b => HostFn.strConcat.eval h [a, b]) (.string s) =
      some (.string (s ++ String.join (vs.map (valueToString h)))) := by
  induction vs generalizing s with
  | nil => simp
  | cons v vs ih =>
    rw [foldlM_cons]
    refine (ih _).trans ?_
    simp [valueToString, String.join_cons, String.append_assoc]

theorem agrees_concat (hv : evalFunction rt "fn:string:concat" vals = .ok v) :
    Lowering.value rt.host vals (.fold .strConcat) = some v ↔ Agrees "fn:string:concat" vals := by
  obtain rfl := Except.ok.inj hv
  match vals with
  | [] => exact iff_of_false (fun h => (by cases h)) id
  | [w] =>
    refine Option.some_inj.trans ⟨fun h => ⟨_, h⟩, ?_⟩
    rintro ⟨s, rfl⟩
    simp [valueToString, String.join_cons]
  | w :: w' :: ws =>
    refine iff_of_true ((foldlM_strConcat _ ws).trans ?_) trivial
    simp [String.join_cons, String.append_assoc]

theorem value_sqrt (hv : evalFunction rt "fn:sqrt" vals = .ok v) :
    Lowering.value rt.host vals (.first .valSqrt) = some v := by
  match vals, hv with
  | [w], hv =>
    obtain ⟨x, hx, hok⟩ := bind_eq_ok.mp hv
    cases hok
    simp [Lowering.value, HostFn.eval, hx, Except.toOption]

/-- What the string functions other than `fn:string:concat` do. -/
theorem value_of_evalString (htext : ∀ n, rt.host.display (.number n) = toString n)
    (hfn : fn ≠ "fn:string:concat") (hl : lowering fn = some l)
    (hv : evalString rt.host fn vals = some (.ok v)) : l.value rt.host vals = some v := by
  unfold evalString at hv
  split at hv
  case h_1 => exact absurd rfl hfn
  case h_6 => cases hv
  all_goals
    cases hl
    rw [Option.some.injEq] at hv
    split at hv
    · cases hv
      simp [Lowering.value, HostFn.eval, HostFn.arity, valueToString, htext]
    all_goals cases hv

variable {kind : CompoundKind} {elems : List Value}

theorem get_eq_some_iff {key : Value} :
    HostFn.get (.compound kind elems) key = some v ↔
      ((kind = .map ∨ kind = .struct) ∧ lookupKey key elems = some v) ∨
        kind = .list ∧ ∃ i, key = .number i ∧ elems[i.toUInt64.toNat]? = some v := by
  cases kind with
  | list => cases key <;> simp [HostFn.get]
  | pair => simp [HostFn.get]
  | map => simp [HostFn.get]
  | struct => simp [HostFn.get]

theorem int64_ofNat_inj {a b : Nat} (ha : a < 2 ^ 63) (hb : b < 2 ^ 63) :
    Int64.ofNat a = .ofNat b ↔ a = b := by
  refine ⟨fun h => ?_, fun h => h ▸ rfl⟩
  have hint := congrArg Int64.toInt h
  rw [Int64.toInt_ofNat_of_lt ha, Int64.toInt_ofNat_of_lt hb] at hint
  exact Int.ofNat_inj.mp hint

/-- The host counts the elements of a list or pair. -/
theorem compoundLen_eq_length_iff (h : Host)
    (hsize : elems.length < 2 ^ 63) :
    HostFn.compoundLen.eval h [.compound kind elems] = some (.number (.ofNat elems.length)) ↔
      kind = .list ∨ kind = .pair ∨ elems = [] := by
  rw [HostFn.eval, some_number_inj]
  cases kind with
  | list | pair => simp [HostFn.size]
  | map | struct =>
    rw [HostFn.size, int64_ofNat_inj (by omega) hsize, ← length_eq_zero_iff]
    simp only [reduceCtorEq, false_or]
    omega

/-- The host counts the entries of a map or struct. -/
theorem compoundLen_eq_entries_iff (h : Host)
    (hsize : elems.length < 2 ^ 63) :
    HostFn.compoundLen.eval h [.compound kind elems] = some (.number (.ofNat (elems.length / 2))) ↔
      kind = .map ∨ kind = .struct ∨ elems = [] := by
  rw [HostFn.eval, some_number_inj]
  cases kind with
  | list | pair =>
    rw [HostFn.size, int64_ofNat_inj hsize (by omega), ← length_eq_zero_iff]
    simp only [reduceCtorEq, false_or]
    omega
  | map | struct => simp [HostFn.size]

/-- What the functions on compounds do. -/
theorem agrees_of_evalCompound
    (hsize : ∀ kind elems, .compound kind elems ∈ vals → elems.length < 2 ^ 63)
    (hl : lowering fn = some l) (hv : evalCompound fn vals = some (.ok v)) :
    l.value rt.host vals = some v ↔ Agrees fn vals := by
  unfold evalCompound at hv
  split at hv
  all_goals first | cases hl | cases hv
  case h_1 =>
    cases hv
    exact iff_of_true rfl trivial
  case h_2 | h_3 | h_4 =>
    rw [Option.some.injEq] at hv
    split at hv
    · cases hv
      exact iff_of_true rfl trivial
    · cases hv
  case h_5 =>
    rw [Option.some.injEq] at hv
    split at hv
    · next kind elems i =>
      dsimp only at hv
      split at hv
      · next w hw =>
        cases hv
        refine get_eq_some_iff.trans (?_ : _ ↔ kind = .list ∨ _ ∧ lookupKey _ elems = _)
        simp [hw, or_comm]
      · cases hv
    all_goals cases hv
  case h_7 | h_8 =>
    rw [Option.some.injEq] at hv
    split at hv
    · next kind elems =>
      cases hv
      exact compoundLen_eq_length_iff rt.host (hsize kind elems mem_cons_self)
    all_goals cases hv
  case h_9 | h_10 =>
    rw [Option.some.injEq] at hv
    split at hv
    · cases hv
      exact iff_of_true rfl trivial
    all_goals cases hv
  case h_11 | h_12 =>
    rw [Option.some.injEq] at hv
    split at hv
    · next kind elems key =>
      split at hv
      · next w hw =>
        cases hv
        refine get_eq_some_iff.trans
          (?_ : _ ↔ _ ∨ kind = .list ∧ ∃ i, key = _ ∧ _ = lookupKey key _)
        simp [hw]
      · cases hv
    all_goals cases hv
  case h_13 | h_14 =>
    rw [Option.some.injEq] at hv
    split at hv
    · next kind elems =>
      cases hv
      exact compoundLen_eq_entries_iff rt.host (hsize kind elems mem_cons_self)
    all_goals cases hv

/-- **A compiled call has the value that the interpreter gives it**, just when it `Agrees`. -/
theorem emitExpr_agrees_iff {env : Env} {vars : List Name} {fn : String} {args : List Operand}
    {code : List Instr} (htext : ∀ n, rt.host.display (.number n) = toString n)
    (hvars : ∀ x w, env x = some w → x ∈ vars) (hargs : evalOperands env args = .ok vals)
    (hfloat : ∀ w ∈ vals, w.NoFloat)
    (hsize : ∀ kind elems, .compound kind elems ∈ vals → elems.length < 2 ^ 63)
    (hcode : Codegen.emitExpr vars (.call fn args) = some code)
    (hv : evalFunction rt fn vals = .ok v) :
    runExpr rt.host env code = some v ↔ Agrees fn vals := by
  obtain ⟨l, hl, rfl⟩ := Option.map_eq_some_iff.mp hcode
  rw [runExpr_emit hvars (fits_of_lowering hl) (forall₂_of_mapM hargs)]
  have hl' := hl
  unfold lowering at hl'
  split at hl'
  all_goals cases hl'
  case h_1 => exact value_fold_integers (fun _ _ => rfl) Int64.zero_add hv
  case h_3 => exact agrees_minus hv
  case h_5 => exact value_fold_integers (fun _ _ => rfl) Int64.one_mul hv
  case h_7 => exact agrees_div hfloat hv
  case h_2 | h_4 | h_6 | h_8 => exact agrees_float (by simp) (by simp) hfloat hv
  case h_9 => exact iff_of_true (value_sqrt hv) trivial
  case h_10 => exact agrees_concat hv
  case h_11 | h_12 | h_13 | h_14 =>
    exact iff_of_true (value_of_evalString htext (by simp) hl (congrArg some hv)) trivial
  all_goals exact agrees_of_evalCompound hsize hl (congrArg some hv)

end

/-- A host that writes integers in decimal. -/
def Runtime.decimal : Runtime :=
  { Runtime.bare with
    host := { Host.bare with
      display := fun
        | .number n => toString n
        | _ => "" } }

/-- The constant operands `n`. -/
def numbers (ns : List Int64) : List Operand := ns.map fun n => .const (.number n)

/-- `fn:minus(7, 2)` is five, compiled and interpreted. -/
theorem emitExpr_agrees_minus : ∃ code,
    Codegen.emitExpr [] (.call "fn:minus" (numbers [7, 2])) = some code ∧
    runExpr Runtime.decimal.host .new code = some (.number 5) :=
  ⟨_, rfl, (@emitExpr_agrees_iff .decimal [.number 7, .number 2] (.number 5) .new [] "fn:minus"
    (numbers [7, 2]) _ (fun _ => rfl) (fun _ _ h => (by cases h)) rfl (by simp [Value.NoFloat])
    (by simp) rfl rfl).mpr trivial⟩

/-- **Compiled expressions with other values**: `fn:minus(5)` is 5 and not -5, `fn:div(2)` is 2 and
not 0, `fn:plus()` has none, and the length of a map counts its entries. -/
theorem emitExpr_disagrees :
    (evalFunction .decimal "fn:minus" [.number 5] = .ok (.number (-5)) ∧
      (Codegen.emitExpr [] (.call "fn:minus" (numbers [5]))).bind
        (runExpr Runtime.decimal.host .new) = some (.number 5)) ∧
    (evalFunction .decimal "fn:div" [.number 2] = .ok (.number 0) ∧
      (Codegen.emitExpr [] (.call "fn:div" (numbers [2]))).bind
        (runExpr Runtime.decimal.host .new) = some (.number 2)) ∧
    (evalFunction .decimal "fn:plus" [] = .ok (.number 0) ∧
      (Codegen.emitExpr [] (.call "fn:plus" [])).bind (runExpr Runtime.decimal.host .new) = none) ∧
    (evalFunction .decimal "fn:len" [.compound .map [.number 1, .number 2]] = .ok (.number 2) ∧
      (Codegen.emitExpr ["M"] (.call "fn:len" [.var "M"])).bind
        (runExpr Runtime.decimal.host (Env.new.set "M" (.compound .map [.number 1, .number 2]))) =
        some (.number 1)) :=
  ⟨⟨rfl, rfl⟩, ⟨rfl, rfl⟩, ⟨rfl, rfl⟩, rfl, rfl⟩

end Mangle

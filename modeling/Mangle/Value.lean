import Mathlib.Algebra.Group.Int.Defs
import Mathlib.Algebra.GroupWithZero.Nat
import Mathlib.Data.List.Basic
import Mathlib.Data.Ordering.Basic

/-!
# Value — names, runtime values and their order

The value type of the store and the interpreter.  A compound holds a flat list of values under a
kind tag; maps and structs interleave keys and values.  Floats are kept as their 64 bits: equality
and `total_cmp` only look at those.

A `NameId` is modelled by the name it resolves to.  Names made by `fresh_var` start with `$`, which
no identifier of the source text does, so they are a constructor of their own.
-/

namespace Mangle

/-- An interned name: one written in the source text, or the `id`-th one `fresh_var` made. -/
inductive Name where
  | named (s : String)
  | fresh (pre : String) (id : Nat)
  deriving DecidableEq, Repr, Inhabited

instance : Coe String Name := ⟨Name.named⟩

/-- The text a name resolves to. -/
def Name.text : Name → String
  | .named s => s
  | .fresh pre id => s!"${pre}_{id}"

/-- The interpretation of a compound value's elements. -/
inductive CompoundKind where
  | list
  | pair
  | map
  | struct
  deriving DecidableEq, Repr, Inhabited

namespace CompoundKind

/-- The declaration order of the kinds, which the derived order compares by. -/
def index : CompoundKind → Nat
  | list => 0
  | pair => 1
  | map => 2
  | struct => 3

end CompoundKind

/-- A runtime value. -/
inductive Value where
  | number (n : Int64)
  | float (bits : UInt64)
  | string (s : String)
  | name (s : String)
  | time (nanos : Int64)
  | duration (nanos : Int64)
  | compound (kind : CompoundKind) (elems : List Value)
  | null
  deriving Inhabited

/-- A row of a relation. -/
abbrev Tuple := List Value

namespace Value

mutual

/-- Equality of values is decidable; floats compare by their bits. -/
protected def decEq (a b : Value) : Decidable (a = b) :=
  if hc : a.ctorIdx = b.ctorIdx then
    match a, b, hc with
    | number a, number b, _ => decidable_of_iff (a = b) (by simp)
    | float a, float b, _ => decidable_of_iff (a = b) (by simp)
    | string a, string b, _ => decidable_of_iff (a = b) (by simp)
    | name a, name b, _ => decidable_of_iff (a = b) (by simp)
    | time a, time b, _ => decidable_of_iff (a = b) (by simp)
    | duration a, duration b, _ => decidable_of_iff (a = b) (by simp)
    | compound k a, compound k' b, _ =>
        match instDecidableEqCompoundKind k k', Value.decEqList a b with
        | isTrue h, isTrue h' => isTrue (by rw [h, h'])
        | isFalse h, _ => isFalse (by simp [h])
        | _, isFalse h => isFalse (by simp [h])
    | null, null, _ => isTrue rfl
  else isFalse fun h => hc (h ▸ rfl)

/-- Equality of lists of values. -/
protected def decEqList : (a b : List Value) → Decidable (a = b)
  | [], [] => isTrue rfl
  | [], _ :: _ | _ :: _, [] => isFalse (by simp)
  | x :: xs, y :: ys =>
      match Value.decEq x y, Value.decEqList xs ys with
      | isTrue h, isTrue h' => isTrue (by rw [h, h'])
      | isFalse h, _ => isFalse (by simp [h])
      | _, isFalse h => isFalse (by simp [h])

end

instance : DecidableEq Value := Value.decEq

instance : LawfulBEq Tuple := inferInstance

/-! ## The order

`Value::cmp` compares numbers with floats, times and durations across variants, and everything else
by variant.  It is the code's own order, not a lawful one: `number 1` and `time 1` compare equal. -/

/-- The key `f64::total_cmp` compares: the bits as a signed integer, with the other bits of a
negative number flipped. -/
def totalKey (bits : UInt64) : Int :=
  if bits.toNat < 2 ^ 63 then bits.toNat else -1 - ((bits.toNat : Int) - 2 ^ 63)

/-- The bits of `n as f64`: rounded to the nearest, ties to even. -/
def i64AsF64 (n : Int64) : UInt64 :=
  let m := n.toInt.natAbs
  if m = 0 then 0 else
    let e := Nat.log2 m
    let shift := e - 52
    let q := if e ≤ 52 then m * 2 ^ (52 - e) else m / 2 ^ shift
    let r := if e ≤ 52 then 0 else m % 2 ^ shift
    let half := 2 ^ (shift - 1)
    let q := if e ≤ 52 then q else if r > half ∨ (r = half ∧ q % 2 = 1) then q + 1 else q
    -- a carry out of the mantissa moves to the next exponent
    let (e, q) := if q = 2 ^ 53 then (e + 1, 2 ^ 52) else (e, q)
    let sign := if n.toInt < 0 then 2 ^ 63 else 0
    UInt64.ofNat (sign + (e + 1023) * 2 ^ 52 + (q - 2 ^ 52))

/-- The comparison of two integers as an `Ordering`. -/
def cmpInt (a b : Int) : Ordering := compare a b

/-- The lexicographic comparison of two strings by code points, as Rust compares their bytes. -/
def cmpString (a b : String) : Ordering :=
  if a < b then .lt else if a = b then .eq else .gt

/-- The rank of a variant in the cross-variant order: numbers and floats share the least one. -/
def rank : Value → Nat
  | number _ | float _ => 0
  | string _ => 1
  | name _ => 2
  | time _ => 3
  | duration _ => 4
  | compound .. => 5
  | null => 6

mutual

/-- `Value::cmp`. -/
def cmp : Value → Value → Ordering
  | number a, number b => cmpInt a.toInt b.toInt
  | float a, float b => cmpInt (totalKey a) (totalKey b)
  | number a, float b => cmpInt (totalKey (i64AsF64 a)) (totalKey b)
  | float a, number b => cmpInt (totalKey a) (totalKey (i64AsF64 b))
  | string a, string b => cmpString a b
  | name a, name b => cmpString a b
  | time a, time b => cmpInt a.toInt b.toInt
  | duration a, duration b => cmpInt a.toInt b.toInt
  | duration a, number b => cmpInt a.toInt b.toInt
  | number a, duration b => cmpInt a.toInt b.toInt
  | time a, number b => cmpInt a.toInt b.toInt
  | number a, time b => cmpInt a.toInt b.toInt
  | compound ka a, compound kb b => (compare ka.index kb.index).then (cmpList a b)
  | null, null => .eq
  | a, b => compare a.rank b.rank

/-- The lexicographic comparison of two rows. -/
def cmpList : List Value → List Value → Ordering
  | [], [] => .eq
  | [], _ :: _ => .lt
  | _ :: _, [] => .gt
  | x :: xs, y :: ys => (cmp x y).then (cmpList xs ys)

end

end Value

end Mangle

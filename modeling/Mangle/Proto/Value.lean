import Mangle.Machinery.Collect
import Mangle.Value

/-!
# Proto/Value — values on the wire

The message `Value` and the conversions `value_to_proto` and `value_from_proto`.  An unset message
field reads as the default message, whose kind is unset, so it is the same as that message here.

A compound that is not well formed is carried all the same: a pair without two elements as a list, a
map or struct without its odd last element, a struct key that is no name as a name.  What is well
formed comes back as it was (`fromProto_toProto`), and whatever message is accepted, its value is
well formed (`wellFormed_of_fromProto`).
-/

namespace Mangle

open Machinery

/-- The message `Value`, by the kind that is set. -/
inductive PValue where
  | unset
  | number (n : Int64)
  | float (bits : UInt64)
  | string (s : String)
  | name (s : String)
  | time (nanos : Int64)
  | duration (nanos : Int64)
  | bytes (b : List UInt8)
  | bool (b : Bool)
  | list (elems : List PValue)
  | pair (first second : PValue)
  | map (entries : List (PValue × PValue))
  | struct (fields : List (String × PValue))

namespace Value

/-- `struct_key_name`: anything but a name or a string falls back to its text. -/
def structKeyName (display : Value → String) : Value → String
  | name s | string s => s
  | v => display v

section

variable (display : Value → String)

mutual

/-- `value_to_proto`. -/
def toProto : Value → PValue
  | number n => .number n
  | float b => .float b
  | string s => .string s
  | name s => .name s
  | time t => .time t
  | duration d => .duration d
  | null => .unset
  | compound .list elems => .list (toProtoList elems)
  | compound .pair [a, b] => .pair (toProto a) (toProto b)
  | compound .pair elems => .list (toProtoList elems)
  | compound .map elems => .map (toProtoEntries elems)
  | compound .struct elems => .struct (toProtoFields elems)

/-- The messages of a list of values. -/
def toProtoList : List Value → List PValue
  | [] => []
  | v :: vs => toProto v :: toProtoList vs

/-- The entries of a map, two elements each. -/
def toProtoEntries : List Value → List (PValue × PValue)
  | k :: v :: rest => (toProto k, toProto v) :: toProtoEntries rest
  | _ => []

/-- The fields of a struct, two elements each. -/
def toProtoFields : List Value → List (String × PValue)
  | k :: v :: rest => (structKeyName display k, toProto v) :: toProtoFields rest
  | _ => []

end

end

mutual

/-- Pairs have two elements, maps and structs an even number, struct keys are names. -/
def wellFormed : Value → Bool
  | compound .list elems => wellFormedList elems
  | compound .pair [a, b] => wellFormed a && wellFormed b
  | compound .pair _ => false
  | compound .map elems => wellFormedEntries elems
  | compound .struct elems => wellFormedFields elems
  | number _ | float _ | string _ | name _ | time _ | duration _ | null => true

/-- Every value of the list is well formed. -/
def wellFormedList : List Value → Bool
  | [] => true
  | v :: vs => wellFormed v && wellFormedList vs

/-- The elements are the well-formed keys and values of a map. -/
def wellFormedEntries : List Value → Bool
  | [] => true
  | [_] => false
  | k :: v :: rest => wellFormed k && wellFormed v && wellFormedEntries rest

/-- The elements are the names and well-formed values of a struct. -/
def wellFormedFields : List Value → Bool
  | [] => true
  | name _ :: v :: rest => wellFormed v && wellFormedFields rest
  | _ => false

end

end Value

namespace PValue

mutual

/-- `value_from_proto`. -/
def fromProto : PValue → Except String Value
  | unset => .ok .null
  | number n => .ok (.number n)
  | float b => .ok (.float b)
  | string s => .ok (.string s)
  | name s => .ok (.name s)
  | time t => .ok (.time t)
  | duration d => .ok (.duration d)
  | bytes _ => .error "bytes values are not yet supported by the internal Value type"
  | bool _ => .error "bool values are not yet supported by the internal Value type"
  | list elems => do
      let vs ← fromProtoList elems
      pure (.compound .list vs)
  | pair first second => do
      let a ← fromProto first
      let b ← fromProto second
      pure (.compound .pair [a, b])
  | map entries => do
      let vs ← fromProtoEntries entries
      pure (.compound .map vs)
  | struct fields => do
      let vs ← fromProtoFields fields
      pure (.compound .struct vs)

/-- The values of a list of messages. -/
def fromProtoList : List PValue → Except String (List Value)
  | [] => .ok []
  | p :: ps => do
      let v ← fromProto p
      let vs ← fromProtoList ps
      pure (v :: vs)

/-- The elements of a map, one entry after the other. -/
def fromProtoEntries : List (PValue × PValue) → Except String (List Value)
  | [] => .ok []
  | (key, value) :: rest => do
      let k ← fromProto key
      let v ← fromProto value
      let vs ← fromProtoEntries rest
      pure (k :: v :: vs)

/-- The elements of a struct, one field after the other. -/
def fromProtoFields : List (String × PValue) → Except String (List Value)
  | [] => .ok []
  | (key, value) :: rest => do
      let v ← fromProto value
      let vs ← fromProtoFields rest
      pure (.name key :: v :: vs)

end

end PValue

/-! ## Round trips -/

section

open PValue Value

variable (display : Value → String)

mutual

/-- **A well-formed value comes back from the wire as it was.** -/
theorem fromProto_toProto : (v : Value) → v.wellFormed = true →
    fromProto (toProto display v) = .ok v
  | .number _, _ | .float _, _ | .string _, _ | .name _, _ | .time _, _ | .duration _, _
  | .null, _ => by simp only [toProto, fromProto]
  | .compound .list elems, h => by
      have hl := fromProtoList_toProtoList elems (by simpa only [wellFormed] using h)
      simp only [toProto, fromProto, hl, ok_bind]
      rfl
  | .compound .pair [a, b], h => by
      simp only [wellFormed, Bool.and_eq_true] at h
      simp only [toProto, fromProto, fromProto_toProto a h.1, fromProto_toProto b h.2, ok_bind]
      rfl
  | .compound .pair [], h | .compound .pair [_], h | .compound .pair (_ :: _ :: _ :: _), h => by
      simp [wellFormed] at h
  | .compound .map elems, h => by
      have hl := fromProtoEntries_toProtoEntries elems (by simpa only [wellFormed] using h)
      simp only [toProto, fromProto, hl, ok_bind]
      rfl
  | .compound .struct elems, h => by
      have hl := fromProtoFields_toProtoFields elems (by simpa only [wellFormed] using h)
      simp only [toProto, fromProto, hl, ok_bind]
      rfl

/-- A list of well-formed values comes back. -/
theorem fromProtoList_toProtoList : (vs : List Value) → wellFormedList vs = true →
    fromProtoList (toProtoList display vs) = .ok vs
  | [], _ => by simp only [toProtoList, fromProtoList]
  | v :: vs, h => by
      simp only [wellFormedList, Bool.and_eq_true] at h
      simp only [toProtoList, fromProtoList, fromProto_toProto v h.1,
        fromProtoList_toProtoList vs h.2, ok_bind]
      rfl

/-- The elements of a well-formed map come back. -/
theorem fromProtoEntries_toProtoEntries : (vs : List Value) → wellFormedEntries vs = true →
    fromProtoEntries (toProtoEntries display vs) = .ok vs
  | [], _ => by simp only [toProtoEntries, fromProtoEntries]
  | [_], h => by simp [wellFormedEntries] at h
  | k :: v :: rest, h => by
      simp only [wellFormedEntries, Bool.and_eq_true] at h
      simp only [toProtoEntries, fromProtoEntries, fromProto_toProto k h.1.1,
        fromProto_toProto v h.1.2, fromProtoEntries_toProtoEntries rest h.2, ok_bind]
      rfl

/-- The elements of a well-formed struct come back. -/
theorem fromProtoFields_toProtoFields : (vs : List Value) → wellFormedFields vs = true →
    fromProtoFields (toProtoFields display vs) = .ok vs
  | [], _ => by simp only [toProtoFields, fromProtoFields]
  | .name k :: v :: rest, h => by
      simp only [wellFormedFields, Bool.and_eq_true] at h
      simp only [toProtoFields, fromProtoFields, structKeyName, fromProto_toProto v h.1,
        fromProtoFields_toProtoFields rest h.2, ok_bind]
      rfl
  | [_], h => by simp [wellFormedFields] at h
  | .number _ :: _ :: _, h | .float _ :: _ :: _, h | .string _ :: _ :: _, h
  | .time _ :: _ :: _, h | .duration _ :: _ :: _, h | .compound .. :: _ :: _, h
  | .null :: _ :: _, h => by simp [wellFormedFields] at h

end

end

section

open PValue Value

mutual

/-- **Only well-formed values come from the wire.** -/
theorem wellFormed_of_fromProto : (p : PValue) → (v : Value) → fromProto p = .ok v →
    v.wellFormed = true
  | .unset, _, h | .number _, _, h | .float _, _, h | .string _, _, h | .name _, _, h
  | .time _, _, h | .duration _, _, h => by
      simp only [fromProto, Except.ok.injEq] at h
      simp only [← h, wellFormed]
  | .bytes _, _, h | .bool _, _, h => by simp [fromProto] at h
  | .list ps, v, h => by
      rw [fromProto] at h
      obtain ⟨vs, hvs, rfl⟩ := bind_eq_pure.mp h
      rw [wellFormed, wellFormedList_of_fromProtoList ps vs hvs]
  | .pair p q, v, h => by
      rw [fromProto] at h
      obtain ⟨a, ha, h⟩ := bind_eq_ok.mp h
      obtain ⟨b, hb, rfl⟩ := bind_eq_pure.mp h
      rw [wellFormed, wellFormed_of_fromProto p a ha, wellFormed_of_fromProto q b hb, Bool.and_self]
  | .map entries, v, h => by
      rw [fromProto] at h
      obtain ⟨vs, hvs, rfl⟩ := bind_eq_pure.mp h
      rw [wellFormed, wellFormedEntries_of_fromProtoEntries entries vs hvs]
  | .struct fields, v, h => by
      rw [fromProto] at h
      obtain ⟨vs, hvs, rfl⟩ := bind_eq_pure.mp h
      rw [wellFormed, wellFormedFields_of_fromProtoFields fields vs hvs]

theorem wellFormedList_of_fromProtoList : (ps : List PValue) → (vs : List Value) →
    fromProtoList ps = .ok vs → wellFormedList vs = true
  | [], _, h => by
      simp only [fromProtoList, Except.ok.injEq] at h
      simp only [← h, wellFormedList]
  | p :: ps, _, h => by
      rw [fromProtoList] at h
      obtain ⟨v, hv, h⟩ := bind_eq_ok.mp h
      obtain ⟨vs, hvs, rfl⟩ := bind_eq_pure.mp h
      rw [wellFormedList, wellFormed_of_fromProto p v hv, wellFormedList_of_fromProtoList ps vs hvs,
        Bool.and_self]

theorem wellFormedEntries_of_fromProtoEntries : (entries : List (PValue × PValue)) →
    (vs : List Value) → fromProtoEntries entries = .ok vs → wellFormedEntries vs = true
  | [], _, h => by
      simp only [fromProtoEntries, Except.ok.injEq] at h
      simp only [← h, wellFormedEntries]
  | (key, value) :: rest, _, h => by
      rw [fromProtoEntries] at h
      obtain ⟨k, hk, h⟩ := bind_eq_ok.mp h
      obtain ⟨v, hv, h⟩ := bind_eq_ok.mp h
      obtain ⟨vs, hvs, rfl⟩ := bind_eq_pure.mp h
      rw [wellFormedEntries, wellFormed_of_fromProto key k hk, wellFormed_of_fromProto value v hv,
        wellFormedEntries_of_fromProtoEntries rest vs hvs, Bool.and_self, Bool.and_self]

theorem wellFormedFields_of_fromProtoFields : (fields : List (String × PValue)) →
    (vs : List Value) → fromProtoFields fields = .ok vs → wellFormedFields vs = true
  | [], _, h => by
      simp only [fromProtoFields, Except.ok.injEq] at h
      simp only [← h, wellFormedFields]
  | (key, value) :: rest, _, h => by
      rw [fromProtoFields] at h
      obtain ⟨v, hv, h⟩ := bind_eq_ok.mp h
      obtain ⟨vs, hvs, rfl⟩ := bind_eq_pure.mp h
      rw [wellFormedFields, wellFormed_of_fromProto value v hv,
        wellFormedFields_of_fromProtoFields rest vs hvs, Bool.and_self]

end

end

end Mangle

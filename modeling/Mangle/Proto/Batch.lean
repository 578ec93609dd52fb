import Mangle.Proto.Command

/-!
# Proto/Batch — facts by row, batches by column

The messages `Fact` and `FactBatch`, over the type of the messages of their values.  They are read
by two decoders, from owned messages and from views that borrow the request buffer.  A view is read
as the owned message is (`view_decoding_eq`).
-/

namespace Mangle

open Machinery

/-- `ColumnType`. -/
inductive ColumnType where
  | number
  | float
  | string
  | name
  | time
  | duration
  | bytes
  | bool
  | any
  deriving DecidableEq

/-- `to_i32`: the number of a type in the open enumeration. -/
def ColumnType.toI32 : ColumnType → Int
  | number => 0
  | float => 1
  | string => 2
  | name => 3
  | time => 4
  | duration => 5
  | bytes => 6
  | bool => 7
  | any => 8

/-- The message `Column`, over the messages of its values. -/
structure Column (V : Type) where
  type : Int
  numbers : List Int64 := []
  floats : List UInt64 := []
  strings : List String := []
  names : List String := []
  times : List Int64 := []
  durations : List Int64 := []
  values : List V := []

/-- The message `FactBatch`. -/
structure FactBatch (V : Type) where
  relation : String
  numRows : UInt32
  columns : List (Column V)

/-- The message `Fact`. -/
structure Fact (V : Type) where
  relation : String
  args : List V

/-! ## Owned messages -/

/-- `column_len_err`. -/
def columnLenErr (j : Nat) : String := s!"column {j} has fewer elements than num_rows"

/-- `ok_or_else`. -/
def okOr {α : Type} (e : String) : Option α → Except String α
  | some a => .ok a
  | none => .error e

/-- The element of column `j` for row `i`. -/
def Column.element (col : Column PValue) (j i : Nat) : Except String Value :=
  if col.type = ColumnType.number.toI32 then okOr (columnLenErr j) (col.numbers[i]?.map .number)
  else if col.type = ColumnType.float.toI32 then okOr (columnLenErr j) (col.floats[i]?.map .float)
  else if col.type = ColumnType.string.toI32 then
    okOr (columnLenErr j) (col.strings[i]?.map .string)
  else if col.type = ColumnType.name.toI32 then okOr (columnLenErr j) (col.names[i]?.map .name)
  else if col.type = ColumnType.time.toI32 then okOr (columnLenErr j) (col.times[i]?.map .time)
  else if col.type = ColumnType.duration.toI32 then
    okOr (columnLenErr j) (col.durations[i]?.map .duration)
  -- any, and also bytes and bool, which no internal value stands for
  else do okOr (columnLenErr j) (← col.values[i]?.mapM PValue.fromProto)

/-- `rows_from_batch`. -/
def rowsFromBatch (batch : FactBatch PValue) : Except String (List Tuple) :=
  batch.columns.zipIdx.foldlM (fun rows (col, j) =>
    rows.zipIdx.mapM fun (row, i) => do pure (row ++ [← col.element j i]))
    (List.replicate batch.numRows.toNat [])

/-- `fact_from_row`. -/
def factFromRow (fact : Fact PValue) : Except String (String × Tuple) := do
  let tuple ← fact.args.mapM PValue.fromProto
  pure (fact.relation, tuple)

/-! ## Views -/

/-- An encoded `Value`, by the fields its view exposes: a message field may be unset. -/
inductive ValueView where
  | unset
  | number (n : Int64)
  | float (bits : UInt64)
  | string (s : String)
  | name (s : String)
  | time (nanos : Int64)
  | duration (nanos : Int64)
  | bytes (b : List UInt8)
  | bool (b : Bool)
  | list (elems : List ValueView)
  | pair (first second : Option ValueView)
  | map (entries : List (Option ValueView × Option ValueView))
  | struct (fields : List (String × Option ValueView))

namespace ValueView

mutual

/-- `value_from_view`. -/
def fromView : ValueView → Except String Value
  | unset => .ok .null
  | number n => .ok (.number n)
  | float b => .ok (.float b)
  | string s => .ok (.string s)
  | name s => .ok (.name s)
  | time t => .ok (.time t)
  | duration d => .ok (.duration d)
  | bytes _ => .error "bytes values are not yet supported by the internal Value type"
  | bool _ => .error "bool values are not yet supported by the internal Value type"
  | list elems => do
      let vs ← fromViewList elems
      pure (.compound .list vs)
  | pair first second => do
      let a ← fromField first
      let b ← fromField second
      pure (.compound .pair [a, b])
  | map entries => do
      let vs ← fromViewEntries entries
      pure (.compound .map vs)
  | struct fields => do
      let vs ← fromViewFields fields
      pure (.compound .struct vs)

/-- A message field: null if it is unset. -/
def fromField : Option ValueView → Except String Value
  | some v => fromView v
  | none => .ok .null

/-- The values of a list of views. -/
def fromViewList : List ValueView → Except String (List Value)
  | [] => .ok []
  | v :: vs => do
      let v ← fromView v
      let vs ← fromViewList vs
      pure (v :: vs)

/-- The elements of a map, one entry after the other. -/
def fromViewEntries : List (Option ValueView × Option ValueView) → Except String (List Value)
  | [] => .ok []
  | (key, value) :: rest => do
      let k ← fromField key
      let v ← fromField value
      let vs ← fromViewEntries rest
      pure (k :: v :: vs)

/-- The elements of a struct, one field after the other. -/
def fromViewFields : List (String × Option ValueView) → Except String (List Value)
  | [] => .ok []
  | (key, value) :: rest => do
      let v ← fromField value
      let vs ← fromViewFields rest
      pure (.name key :: v :: vs)

end

mutual

/-- The owned message of the same encoding, whose unset fields read as the default message. -/
def owned : ValueView → PValue
  | unset => .unset
  | number n => .number n
  | float b => .float b
  | string s => .string s
  | name s => .name s
  | time t => .time t
  | duration d => .duration d
  | bytes b => .bytes b
  | bool b => .bool b
  | list elems => .list (ownedList elems)
  | pair first second => .pair (ownedField first) (ownedField second)
  | map entries => .map (ownedEntries entries)
  | struct fields => .struct (ownedFields fields)

/-- The owned message of a field. -/
def ownedField : Option ValueView → PValue
  | some v => owned v
  | none => .unset

/-- The owned messages of a list. -/
def ownedList : List ValueView → List PValue
  | [] => []
  | v :: vs => owned v :: ownedList vs

/-- The owned entries of a map. -/
def ownedEntries : List (Option ValueView × Option ValueView) → List (PValue × PValue)
  | [] => []
  | (key, value) :: rest => (ownedField key, ownedField value) :: ownedEntries rest

/-- The owned fields of a struct. -/
def ownedFields : List (String × Option ValueView) → List (String × PValue)
  | [] => []
  | (key, value) :: rest => (key, ownedField value) :: ownedFields rest

end

open PValue

mutual

/-- **A view is read as the owned message is.** -/
theorem fromView_eq : (v : ValueView) → fromView v = fromProto (owned v)
  | .unset | .number _ | .float _ | .string _ | .name _ | .time _ | .duration _ | .bytes _
  | .bool _ => by simp only [fromView, owned, fromProto]
  | .list elems => by rw [fromView, owned, fromProto, fromViewList_eq elems]
  | .pair a b => by rw [fromView, owned, fromProto, fromField_eq a, fromField_eq b]
  | .map entries => by rw [fromView, owned, fromProto, fromViewEntries_eq entries]
  | .struct fields => by rw [fromView, owned, fromProto, fromViewFields_eq fields]

theorem fromField_eq : (v : Option ValueView) → fromField v = fromProto (ownedField v)
  | none => by rw [fromField, ownedField, fromProto]
  | some v => by rw [fromField, ownedField, fromView_eq v]

theorem fromViewList_eq : (vs : List ValueView) → fromViewList vs = fromProtoList (ownedList vs)
  | [] => by rw [fromViewList, ownedList, fromProtoList]
  | v :: vs => by rw [fromViewList, ownedList, fromProtoList, fromView_eq v, fromViewList_eq vs]

theorem fromViewEntries_eq : (entries : List (Option ValueView × Option ValueView)) →
    fromViewEntries entries = fromProtoEntries (ownedEntries entries)
  | [] => by rw [fromViewEntries, ownedEntries, fromProtoEntries]
  | (key, value) :: rest => by
      rw [fromViewEntries, ownedEntries, fromProtoEntries, fromField_eq key, fromField_eq value,
        fromViewEntries_eq rest]

theorem fromViewFields_eq : (fields : List (String × Option ValueView)) →
    fromViewFields fields = fromProtoFields (ownedFields fields)
  | [] => by rw [fromViewFields, ownedFields, fromProtoFields]
  | (key, value) :: rest => by
      rw [fromViewFields, ownedFields, fromProtoFields, fromField_eq value, fromViewFields_eq rest]

end

end ValueView

/-- `fact_from_view`. -/
def factFromView (fact : Fact ValueView) : Except String (String × Tuple) := do
  let tuple ← fact.args.mapM ValueView.fromView
  pure (fact.relation, tuple)

/-- `column_len_err`, of the views. -/
def viewLenErr (j : Nat) : String := s!"column {j} has fewer elements than num_rows"

/-- `iter().nth(i)` of a repeated field. -/
def nth {α : Type} (l : List α) (i : Nat) : Option α := (l.drop i).head?

/-- The element of column `j` for row `i`, off the input buffer. -/
def Column.elementView (col : Column ValueView) (j i : Nat) : Except String Value :=
  if col.type = ColumnType.number.toI32 then okOr (viewLenErr j) ((nth col.numbers i).map .number)
  else if col.type = ColumnType.float.toI32 then okOr (viewLenErr j) ((nth col.floats i).map .float)
  else if col.type = ColumnType.string.toI32 then
    okOr (viewLenErr j) ((nth col.strings i).map .string)
  else if col.type = ColumnType.name.toI32 then okOr (viewLenErr j) ((nth col.names i).map .name)
  else if col.type = ColumnType.time.toI32 then okOr (viewLenErr j) ((nth col.times i).map .time)
  else if col.type = ColumnType.duration.toI32 then
    okOr (viewLenErr j) ((nth col.durations i).map .duration)
  else do okOr (viewLenErr j) (← (nth col.values i).mapM ValueView.fromView)

/-- `rows_from_batch_view`. -/
def rowsFromBatchView (batch : FactBatch ValueView) : Except String (List Tuple) :=
  batch.columns.zipIdx.foldlM (fun rows (col, j) =>
    rows.zipIdx.mapM fun (row, i) => do pure (row ++ [← col.elementView j i]))
    (List.replicate batch.numRows.toNat [])

section

variable {V W : Type}

/-- The fact of the same encoding, with other messages for its values. -/
def Fact.mapValues (f : V → W) (fact : Fact V) : Fact W := ⟨fact.relation, fact.args.map f⟩

/-- The column of the same encoding, with other messages for its values. -/
def Column.mapValues (f : V → W) (col : Column V) : Column W :=
  { col with values := col.values.map f }

/-- The batch of the same encoding, with other messages for its values. -/
def FactBatch.mapValues (f : V → W) (b : FactBatch V) : FactBatch W :=
  { b with columns := b.columns.map (Column.mapValues f) }

end

theorem nth_eq {α : Type} (l : List α) (i : Nat) : nth l i = l[i]? := List.head?_drop

/-- **An element off the buffer** is that of the owned column. -/
theorem elementView_eq (col : Column ValueView) (j i : Nat) :
    col.elementView j i = (col.mapValues ValueView.owned).element j i := by
  have hlen : viewLenErr j = columnLenErr j := rfl
  have hvalues : (nth col.values i).mapM ValueView.fromView =
      ((col.values.map ValueView.owned)[i]?).mapM PValue.fromProto := by
    rw [nth_eq, List.getElem?_map]
    cases col.values[i]? with
    | none => rfl
    | some v => simp [ValueView.fromView_eq]
  simp only [Column.elementView, Column.element, Column.mapValues, hlen, nth_eq, ← hvalues]

/-- **Decoding from views is decoding from owned messages**: the same values, the same errors. -/
theorem view_decoding_eq :
    (∀ v : ValueView, v.fromView = v.owned.fromProto) ∧
    (∀ f : Fact ValueView, factFromView f = factFromRow (f.mapValues ValueView.owned)) ∧
    ∀ b : FactBatch ValueView,
      rowsFromBatchView b = rowsFromBatch (b.mapValues ValueView.owned) := by
  refine ⟨ValueView.fromView_eq, fun f => ?_, fun b => ?_⟩
  · have hdecode : ValueView.fromView = PValue.fromProto ∘ ValueView.owned :=
      funext ValueView.fromView_eq
    simp only [factFromView, factFromRow, Fact.mapValues, hdecode, List.mapM_map]
  · simp only [rowsFromBatchView, rowsFromBatch, FactBatch.mapValues, List.zipIdx_map,
      List.foldlM_map, elementView_eq]
    rfl

end Mangle

import Mathlib.Data.List.Sort
import Mangle.Machinery.HashMap
import Mangle.Store.Cell

/-!
# Store/MemStore — the in-memory store

The three tiers of semi-naive evaluation (`stable`, `delta`, `nextDelta`), the registered arities
and the column indexes, with the operations of the `Store` trait.  `none` is an index panic: a row
shorter than the registered arity, or an index entry past the end of its table.

A hash map is walked in an order of its own; where that order can be seen, an operation takes it
as a `HashOrder`.
-/

namespace Mangle

open Machinery

/-- The order in which hash maps and hash sets are walked: any permutation of the entries. -/
structure HashOrder where
  perm : {α : Type} → List α → List α
  perm_perm : ∀ {α : Type} (l : List α), (perm l).Perm l

/-- The order of insertion. -/
def HashOrder.insertion : HashOrder := ⟨fun l => l, fun l => .refl l⟩

/-- The order of insertion, backwards. -/
def HashOrder.backwards : HashOrder := ⟨List.reverse, List.reverse_perm⟩

/-! ## Column indexes -/

/-- The index of one relation: column and first cell to row numbers. -/
abbrev RelIndex := Nat → Cell → List Nat

namespace RelIndex

/-- The index of an empty table. -/
def empty : RelIndex := fun _ _ => []

/-- Enter a row under the key of each of its columns. -/
def push (ix : RelIndex) (keys : List Cell) (row : Nat) : RelIndex :=
  fun col key => if keys[col]? = some key then ix col key ++ [row] else ix col key

end RelIndex

/-- Enter rows numbered from `i` on; a row without keys is passed over. -/
def indexRows (keys : Row → Option (List Cell)) : RelIndex → Nat → List Row → RelIndex
  | ix, _, [] => ix
  | ix, i, cells :: rows =>
      let ix := match keys cells with
        | some ks => ix.push ks i
        | none => ix
      indexRows keys ix (i + 1) rows

/-- `Vec::swap_remove`: the last element takes the place of the removed one. -/
def swapRemove {α : Type} (l : List α) (i : Nat) : List α :=
  match l.getLast? with
  | some last => (l.set i last).dropLast
  | none => []

/-- Remove the first element equal to `a`, if there is one. -/
def removeRow {α : Type} [DecidableEq α] (a : α) (rows : List α) : List α :=
  match rows.idxOf? a with
  | some i => swapRemove rows i
  | none => rows

/-! ## The store -/

/-- `MemStore`. -/
structure MemStore where
  stable : HashMap Name (List Row)
  delta : HashMap Name (List Row)
  nextDelta : HashMap Name (List Row)
  /-- The number of columns of a relation, set by its first row and never changed. -/
  arity : HashMap Name Nat
  stableIndexes : Name → RelIndex
  deltaIndexes : Name → RelIndex

namespace MemStore

/-- `MemStore::new`. -/
def new : MemStore := ⟨∅, ∅, ∅, ∅, fun _ => .empty, fun _ => .empty⟩

/-- The registered arity of a relation, or 0. -/
def nCols (s : MemStore) (rel : Name) : Nat := (s.arity.lookup rel).getD 0

/-- `arity.entry(rel).or_insert(n)`. -/
def registerArity (s : MemStore) (rel : Name) (n : Nat) : MemStore :=
  { s with arity := s.arity.orInsert rel n }

/-- `create_relation`. -/
def createRelation (s : MemStore) (rel : Name) : MemStore :=
  { s with stable := s.stable.modify rel id }

/-- The index keys of a row whose column count is the registered one. -/
def fittingKeys (n : Nat) (cells : Row) : Option (List Cell) :=
  if countLogicalValues cells = some n then columnKeys n cells else none

/-- `add_fact`. -/
def addFact (s : MemStore) (rel : Name) (args : Tuple) : MemStore :=
  let cells := flattenTuple args
  let table := s.stable.get rel
  if cells ∈ table then s.createRelation rel else
    let s := s.registerArity rel args.length
    { s with
      stable := s.stable.modify rel (· ++ [cells])
      stableIndexes := Function.update s.stableIndexes rel
        (indexRows (columnKeys args.length) (s.stableIndexes rel) table.length [cells]) }

/-- `unflatten_tuple` over the rows of a table. -/
def readRows (s : MemStore) (rel : Name) (rows : List Row) : Option (List Tuple) :=
  rows.mapM (unflattenTuple · (s.nCols rel))

/-- `scan`: the stable rows, then those of the current delta. -/
def scan (s : MemStore) (rel : Name) : Option (List Tuple) :=
  s.readRows rel (s.stable.get rel ++ s.delta.get rel)

/-- `scan_delta`. -/
def scanDelta (s : MemStore) (rel : Name) : Option (List Tuple) :=
  s.readRows rel (s.delta.get rel)

/-- `scan_next_delta`. -/
def scanNextDelta (s : MemStore) (rel : Name) : Option (List Tuple) :=
  s.readRows rel (s.nextDelta.get rel)

/-- The rows of a table an index lists. -/
def lookupRows (table : List Row) (rowIndices : List Nat) : Option (List Row) :=
  rowIndices.mapM (table[·]?)

/-- `scan_index`: the rows whose column `col` starts with the cell of `key`. -/
def scanIndex (s : MemStore) (rel : Name) (col : Nat) (key : Value) : Option (List Tuple) := do
  let cellKey := valueToIndexKey key
  let stableRows ← lookupRows (s.stable.get rel) (s.stableIndexes rel col cellKey)
  let deltaRows ← lookupRows (s.delta.get rel) (s.deltaIndexes rel col cellKey)
  s.readRows rel (stableRows ++ deltaRows)

/-- `scan_delta_index`. -/
def scanDeltaIndex (s : MemStore) (rel : Name) (col : Nat) (key : Value) : Option (List Tuple) := do
  s.readRows rel (← lookupRows (s.delta.get rel) (s.deltaIndexes rel col (valueToIndexKey key)))

/-- Whether one of the three tiers holds the row. -/
def hasRow (s : MemStore) (rel : Name) (cells : Row) : Bool :=
  (s.stable.get rel).contains cells || (s.delta.get rel).contains cells
    || (s.nextDelta.get rel).contains cells

/-- Register the arity and add a row to the collected ones. -/
def pushNext (s : MemStore) (rel : Name) (n : Nat) (cells : Row) : MemStore :=
  { s.registerArity rel n with nextDelta := s.nextDelta.modify rel (· ++ [cells]) }

/-- `insert`: a row some tier holds, or of another arity than the registered one, is skipped. -/
def insert (s : MemStore) (rel : Name) (tuple : Tuple) : Bool × MemStore :=
  let cells := flattenTuple tuple
  if s.hasRow rel cells then (false, s) else
    match s.arity.lookup rel with
    | some reg =>
        if reg ≠ tuple.length then (false, s) else (true, s.pushNext rel tuple.length cells)
    | none => (true, s.pushNext rel tuple.length cells)

/-- `merge_deltas`: the delta joins the stable rows, and the collected rows become the delta. -/
def mergeDeltas (s : MemStore) : MemStore :=
  let fits (rel : Name) (rows : List Row) : List Row :=
    rows.filter fun cells => countLogicalValues cells = some (s.nCols rel)
  { s with
    stable := s.stable.appendAll s.delta fits
    stableIndexes := fun rel =>
      indexRows (fittingKeys (s.nCols rel)) (s.stableIndexes rel) (s.stable.get rel).length
        (fits rel (s.delta.get rel))
    delta := s.nextDelta
    deltaIndexes := fun rel =>
      indexRows (fittingKeys (s.nCols rel)) .empty 0 (s.nextDelta.get rel)
    nextDelta := ∅ }

/-- `rebuild_indexes_for`: a row shorter than the registered arity panics. -/
def rebuildIndexesFor (s : MemStore) (rel : Name) : Option MemStore :=
  let keys := columnKeys (s.nCols rel)
  let stable := s.stable.get rel
  let delta := s.delta.get rel
  if (stable ++ delta).all fun cells => (keys cells).isSome then
    some { s with
      stableIndexes := Function.update s.stableIndexes rel (indexRows keys .empty 0 stable)
      deltaIndexes := Function.update s.deltaIndexes rel (indexRows keys .empty 0 delta) }
  else none

/-- `retract`: only a row found among the stable ones counts as removed. -/
def retract (s : MemStore) (rel : Name) (tuple : Tuple) : Option (Bool × MemStore) :=
  let cells := flattenTuple tuple
  let removed := (s.stable.get rel).contains cells
  let s' := { s with
    stable := s.stable.update rel (removeRow cells)
    delta := s.delta.update rel (removeRow cells)
    nextDelta := s.nextDelta.update rel (removeRow cells) }
  if removed then (s'.rebuildIndexesFor rel).map (true, ·) else some (false, s')

/-- `clear`: the rows and indexes go, the key and the registered arity stay. -/
def clear (s : MemStore) (rel : Name) : MemStore :=
  { s with
    stable := s.stable.update rel fun _ => []
    delta := s.delta.update rel fun _ => []
    nextDelta := s.nextDelta.update rel fun _ => []
    stableIndexes := Function.update s.stableIndexes rel .empty
    deltaIndexes := Function.update s.deltaIndexes rel .empty }

/-- `relation_names`: the keys of the stable tier, then the other ones of the delta. -/
def relationNames (order : HashOrder) (s : MemStore) : List Name :=
  order.perm s.stable.keys ++ (order.perm s.delta.keys).filter (· ∉ s.stable.keys)

/-! ## Coalescing intervals -/

/-- The nanoseconds of an interval bound. -/
def boundNanos : Value → Option Int64
  | .time t => some t
  | .number n => some n
  | _ => none

/-- `i64::saturating_add(1)`. -/
def saturatingSucc (n : Int64) : Int64 := if n = Int64.maxValue then n else n + 1

/-- Merge overlapping or adjacent intervals, given in the order of their starts. -/
def mergeIntervals (last : Int64 × Int64) : List (Int64 × Int64) → List (Int64 × Int64)
  | [] => [last]
  | (s, e) :: rest =>
      if s ≤ saturatingSucc last.2 then mergeIntervals (last.1, max last.2 e) rest
      else last :: mergeIntervals (s, e) rest

/-- Enter an interval in the group of its key. -/
def addToGroup (key : Tuple) (i : Int64 × Int64) :
    List (Tuple × List (Int64 × Int64)) → List (Tuple × List (Int64 × Int64))
  | [] => [(key, [i])]
  | (k, is) :: rest => if k = key then (k, is ++ [i]) :: rest else (k, is) :: addToGroup key i rest

/-- The facts of one group after coalescing. -/
def coalesceGroup : Tuple × List (Int64 × Int64) → List Tuple
  | (key, intervals) =>
      match intervals.insertionSort fun a b => a.1 ≤ b.1 with
      | [] => []
      | first :: rest =>
          (mergeIntervals first rest).map fun i => key ++ [.time i.1, .time i.2]

/-- `coalesce_temporal`: group by all but the last two columns and merge the intervals of each
group.  A fact without two interval bounds is dropped. -/
def coalesceTemporal (order : HashOrder) (s : MemStore) (rel : Name) : Option MemStore :=
  match s.arity.lookup rel with
  | none => some s
  | some n =>
      if n < 2 then some s else do
        let rows := (s.stable.get rel ++ s.delta.get rel).filter
          fun cells => countLogicalValues cells = some n
        let facts ← s.readRows rel rows
        if facts.isEmpty then pure s else
          let groups := facts.foldl (fun groups fact =>
            match fact.drop (n - 2) with
            | start :: stop :: _ =>
                match boundNanos start, boundNanos stop with
                | some a, some b => addToGroup (fact.take (n - 2)) (a, b) groups
                | _, _ => groups
            | _ => groups) []
          let coalesced := (order.perm groups).flatMap coalesceGroup
          { s with
            stable := s.stable.insert rel (coalesced.map flattenTuple)
            delta := s.delta.erase rel
            nextDelta := s.nextDelta.erase rel : MemStore }.rebuildIndexesFor rel

end MemStore

end Mangle

import Mangle.Machinery.Table
import Mangle.Store.MemStore

/-!
# Store/DiskStore — the store on disk

`DiskStore`: for each tier of a relation a table of rows by number, and for each column an index
table of the row numbers of each value; a table of the next row number of each relation; and, in the
memory of the process, the relations that are known and their next row numbers.

A step here is one transaction, which the file has whole or not at all.  The encoding of tuples and
values is one-to-one, so the tables hold the tuples and values themselves.  Tables are dropped by
the start of their name, hence the names are modelled too.

* `row_addRow`, `row_removeRow`, `row_addRows`, `row_dropTierTables` — the rows after a transaction;
* `Db.Exact` — the index tables list the rows that are there; every transaction keeps it, as long as
  no relation name extends another one by a colon (`Apart`).
-/

namespace Mangle

open Machinery List
open Std (ExtTreeSet)

/-! ## Tables -/

/-- A tier of a relation. -/
inductive Tier where
  | stable
  | delta
  | nextDelta
  deriving DecidableEq

/-- What the table names of a tier contain. -/
def Tier.text : Tier → String
  | stable => "stable"
  | delta => "delta"
  | nextDelta => "next_delta"

/-- What the names of the index tables of a relation start with. -/
def indexPrefix (tier : Tier) (rel : String) : List Char :=
  "idx_".toList ++ (tier.text.toList ++ ':' :: (rel.toList ++ [':']))

/-- `index_table`: the name of an index table. -/
def indexTable (tier : Tier) (rel : String) (col : Nat) : List Char :=
  indexPrefix tier rel ++ (toString col).toList

/-- The file: rows by number, row numbers by column and value, the saved next row numbers. -/
structure Db where
  primary : Tier → String → Table Nat Tuple
  index : Tier → String → Nat → Value → ExtTreeSet Nat
  savedIds : HashMap String Nat

namespace Db

/-- A row. -/
def row (db : Db) (tier : Tier) (rel : String) (id : Nat) : Option Tuple :=
  (db.primary tier rel)[id]?

/-- `read_table_tuples`. -/
def rows (db : Db) (tier : Tier) (rel : String) : List (Nat × Tuple) := (db.primary tier rel).toList

/-- Put a row under a number, and the number in the indexes of its columns. -/
def addRow (db : Db) (tier : Tier) (rel : String) (id : Nat) (t : Tuple) : Db :=
  { db with
    primary := fun tier' rel' => if tier' = tier ∧ rel' = rel
      then (db.primary tier rel).insert id t else db.primary tier' rel'
    index := fun tier' rel' col v => if tier' = tier ∧ rel' = rel ∧ t[col]? = some v
      then (db.index tier rel col v).insert id else db.index tier' rel' col v }

/-- Take a row away, and its number from the indexes of its columns. -/
def removeRow (db : Db) (tier : Tier) (rel : String) (id : Nat) (t : Tuple) : Db :=
  { db with
    primary := fun tier' rel' => if tier' = tier ∧ rel' = rel
      then (db.primary tier rel).erase id else db.primary tier' rel'
    index := fun tier' rel' col v => if tier' = tier ∧ rel' = rel ∧ t[col]? = some v
      then (db.index tier rel col v).erase id else db.index tier' rel' col v }

/-- The first row that holds the tuple: by the index of the first column, or among all rows for the
tuple without columns. -/
def findRow (db : Db) (tier : Tier) (rel : String) (t : Tuple) : Option Nat :=
  match t with
  | [] => ((db.rows tier rel).find? fun r => r.2 = []).map Prod.fst
  | v :: _ => (db.index tier rel 0 v).toList.find? fun id => db.row tier rel id = some t

/-- `drop_tier_tables`: the index tables are found by the start of their name. -/
def dropTierTables (db : Db) (tier : Tier) (rel : String) : Db :=
  { db with
    primary := fun tier' rel' => if tier' = tier ∧ rel' = rel then ∅ else db.primary tier' rel'
    index := fun tier' rel' col v =>
      if (indexPrefix tier rel).isPrefixOf (indexTable tier' rel' col) then ∅
      else db.index tier' rel' col v }

/-- Rows under the numbers from `id` on. -/
def addRows (tier : Tier) (rel : String) : Nat → List Tuple → Db → Db
  | _, [], db => db
  | id, t :: ts, db => addRows tier rel (id + 1) ts (db.addRow tier rel id t)

/-- `fetch_by_index`. -/
def fetchByIndex (db : Db) (tier : Tier) (rel : String) (col : Nat) (v : Value) : List Tuple :=
  (db.index tier rel col v).toList.filterMap (db.row tier rel)

end Db

/-! ## The store -/

/-- `DiskStore`. -/
structure DiskStore where
  db : Db
  relations : List String
  nextIds : HashMap String Nat

namespace DiskStore

/-- The file of a new database. -/
def newDb : Db := ⟨fun _ _ => ∅, fun _ _ _ _ => ∅, ∅⟩

/-- `open`: the known relations are those with a saved row number. -/
def openDb (db : Db) : DiskStore := ⟨db, db.savedIds.keys, db.savedIds⟩

/-- The next row number of a relation. -/
def nextId (d : DiskStore) (rel : String) : Nat := (d.nextIds.lookup rel).getD 0

/-- `alloc_id`, `n` times. -/
def allocIds (d : DiskStore) (rel : String) (n : Nat) : DiskStore :=
  { d with nextIds := d.nextIds.insert rel (d.nextId rel + n) }

/-- `insert`: a tuple some tier holds is skipped; any arity is taken. -/
def insert (d : DiskStore) (rel : String) (t : Tuple) : Bool × DiskStore :=
  if (d.db.findRow .stable rel t).isSome || (d.db.findRow .delta rel t).isSome
      || (d.db.findRow .nextDelta rel t).isSome then (false, d)
  else (true, { d.allocIds rel 1 with db := d.db.addRow .nextDelta rel (d.nextId rel) t })

/-- The first transaction of `promote_tier`: the rows are copied under new numbers. -/
def copyTier (src dst : Tier) (rel : String) (d : DiskStore) : DiskStore :=
  let tuples := (d.db.rows src rel).map Prod.snd
  if tuples.isEmpty then d
  else { d.allocIds rel tuples.length with db := d.db.addRows dst rel (d.nextId rel) tuples }

/-- `drop_tier_tables`, the last transaction of `promote_tier`. -/
def dropTier (tier : Tier) (rel : String) (d : DiskStore) : DiskStore :=
  { d with db := d.db.dropTierTables tier rel }

/-- `save_meta`: the row numbers in memory go over those in the file. -/
def saveMeta (d : DiskStore) : DiskStore :=
  { d with db := { d.db with savedIds := d.nextIds ∪ d.db.savedIds } }

/-- The transactions of `promote_tier`. -/
def promoteTier (src dst : Tier) (rel : String) : List (DiskStore → DiskStore) :=
  [copyTier src dst rel, dropTier src rel]

/-- What `merge_deltas` promotes for one relation. -/
def promotions (rel : String) : List (DiskStore → DiskStore) :=
  promoteTier .delta .stable rel ++ promoteTier .nextDelta .delta rel

/-- The transactions of `merge_deltas`: the known relations in some order, then the row numbers. -/
def mergeSteps (order : HashOrder) (d : DiskStore) : List (DiskStore → DiskStore) :=
  (order.perm d.relations).flatMap promotions ++ [saveMeta]

/-- The first transaction of `create_relation`, with what it does in memory; the empty table it
creates reads as no table does. -/
def register (rel : String) (d : DiskStore) : DiskStore :=
  { d with relations := rel :: d.relations, nextIds := d.nextIds.orInsert rel 0 }

/-- The transactions of `create_relation`, none for a relation that is known. -/
def createSteps (rel : String) (d : DiskStore) : List (DiskStore → DiskStore) :=
  if rel ∈ d.relations then [] else [register rel, saveMeta]

/-- `retract_from_tier`. -/
def retractFromTier (d : DiskStore) (tier : Tier) (rel : String) (t : Tuple) : Option DiskStore :=
  (d.db.findRow tier rel t).map fun id => { d with db := d.db.removeRow tier rel id t }

/-- `retract`: only the first tier that holds the tuple loses it. -/
def retract (d : DiskStore) (rel : String) (t : Tuple) : Bool × DiskStore :=
  match (d.retractFromTier .stable rel t).or ((d.retractFromTier .delta rel t).or
      (d.retractFromTier .nextDelta rel t)) with
  | some d => (true, d)
  | none => (false, d)

/-- The transactions of `clear`. -/
def clearSteps (rel : String) : List (DiskStore → DiskStore) :=
  [dropTier .stable rel, dropTier .delta rel, dropTier .nextDelta rel]

/-- Transactions one after the other. -/
def applySteps (d : DiskStore) (steps : List (DiskStore → DiskStore)) : DiskStore :=
  steps.foldl (fun d step => step d) d

/-- `scan`. -/
def scan (d : DiskStore) (rel : String) : List Tuple :=
  (d.db.rows .stable rel).map Prod.snd ++ (d.db.rows .delta rel).map Prod.snd

/-- `scan_delta`. -/
def scanDelta (d : DiskStore) (rel : String) : List Tuple := (d.db.rows .delta rel).map Prod.snd

/-- `scan_next_delta`. -/
def scanNextDelta (d : DiskStore) (rel : String) : List Tuple :=
  (d.db.rows .nextDelta rel).map Prod.snd

/-- `scan_index`. -/
def scanIndex (d : DiskStore) (rel : String) (col : Nat) (key : Value) : List Tuple :=
  d.db.fetchByIndex .stable rel col key ++ d.db.fetchByIndex .delta rel col key

end DiskStore

/-! ## Calls -/

/-- A call to a store.  The relations are walked in an order that a merge does not control. -/
inductive StoreCall where
  | createRelation (rel : String)
  | insert (rel : String) (t : Tuple)
  | mergeDeltas (order : HashOrder)
  | retract (rel : String) (t : Tuple)
  | clear (rel : String)

/-- The relation a call names. -/
def StoreCall.names : StoreCall → List String
  | createRelation rel | insert rel _ | retract rel _ | clear rel => [rel]
  | mergeDeltas _ => []

namespace DiskStore

/-- The transactions of a call. -/
def callSteps (d : DiskStore) : StoreCall → List (DiskStore → DiskStore)
  | .createRelation rel => createSteps rel d
  | .insert rel t => [fun d => (d.insert rel t).2]
  | .mergeDeltas order => mergeSteps order d
  | .retract rel t => [fun d => (d.retract rel t).2]
  | .clear rel => clearSteps rel

/-- What a call returns; `true` where the source returns nothing. -/
def returned (d : DiskStore) : StoreCall → Bool
  | .insert rel t => (d.insert rel t).1
  | .retract rel t => (d.retract rel t).1
  | _ => true

/-- A call. -/
def call (d : DiskStore) (c : StoreCall) : Bool × DiskStore :=
  (d.returned c, d.applySteps (d.callSteps c))

end DiskStore

/-! ## Table names -/

/-- No name extends another one by a colon. -/
def Apart (names : List String) : Prop :=
  ∀ a ∈ names, ∀ b ∈ names, ¬ (a.toList ++ [':']) <+: b.toList

instance (names : List String) : Decidable (Apart names) := by
  unfold Apart; infer_instance

theorem colon_notMem_digits (n : Nat) : ':' ∉ (toString n).toList := by
  intro h
  rw [Nat.toString_eq_repr, Nat.toList_repr] at h
  exact absurd (Nat.isDigit_of_mem_toDigits (by omega) (by omega) h) (by decide)

/-- A tier's text and a colon start the text of no other tier. -/
theorem Tier.text_prefix {tier tier' : Tier} {l l' : List Char}
    (h : tier.text.toList ++ ':' :: l <+: tier'.text.toList ++ ':' :: l') :
    tier = tier' ∧ l <+: l' := by
  cases tier <;> cases tier' <;> simp [Tier.text] at h ⊢ <;> exact h

/-- **The index tables dropped with a relation** are its own, or those of a name that extends it by
a colon. -/
theorem indexPrefix_isPrefixOf {tier tier' : Tier} {rel rel' : String} {col : Nat}
    (h : (indexPrefix tier rel).isPrefixOf (indexTable tier' rel' col) = true) :
    tier = tier' ∧ (rel = rel' ∨ (rel.toList ++ [':']) <+: rel'.toList) := by
  rw [ isPrefixOf_iff_prefix, indexTable, indexPrefix, indexPrefix, append_assoc,
    prefix_append_right_inj, append_assoc, cons_append] at h
  obtain ⟨htier, h⟩ := Tier.text_prefix h
  refine ⟨htier, ?_⟩
  obtain hlt | heq | hgt := Nat.lt_trichotomy rel.toList.length rel'.toList.length
  · refine .inr (prefix_of_prefix_length_le h ?_ (by simpa using Nat.succ_le_of_lt hlt))
    rw [append_assoc]
    exact prefix_append _ _
  · refine .inl (String.toList_inj.mp ?_)
    have hpre : rel.toList <+: rel'.toList ++ [':'] ++ (toString col).toList :=
      (prefix_append _ _).trans h
    rw [append_assoc] at hpre
    exact (prefix_of_prefix_length_le hpre (prefix_append _ _) heq.le).eq_of_length heq
  · -- The colon behind `rel` would be one of the digits.
    exfalso
    obtain ⟨rest, h⟩ := h
    have hat := congrArg (fun l => l[rel.toList.length]?) h
    rw [append_assoc, append_assoc, List.getElem?_append_right (Nat.le_refl _),
      List.getElem?_append_right (Nat.le_of_lt hgt)] at hat
    obtain ⟨k, hk⟩ : ∃ k, rel.toList.length - rel'.toList.length = k + 1 :=
      ⟨rel.toList.length - rel'.toList.length - 1, by omega⟩
    rw [hk] at hat
    simp only [Nat.sub_self, cons_append, nil_append, List.getElem?_cons_zero,
      List.getElem?_cons_succ] at hat
    exact colon_notMem_digits col (mem_of_getElem? hat.symm)

theorem indexPrefix_isPrefixOf_self (tier : Tier) (rel : String) (col : Nat) :
    (indexPrefix tier rel).isPrefixOf (indexTable tier rel col) = true :=
  isPrefixOf_iff_prefix.mpr (prefix_append _ _)

/-! ## The rows after a transaction -/

namespace Db

variable {db : Db} {tier tier' : Tier} {rel rel' : String} {id id' col : Nat} {t : Tuple}
  {v : Value}

/-- A tier holds a tuple of a relation. -/
def Holds (db : Db) (tier : Tier) (rel : String) (t : Tuple) : Prop :=
  ∃ id, db.row tier rel id = some t

theorem mem_rows : (id, t) ∈ db.rows tier rel ↔ db.row tier rel id = some t :=
  Std.ExtTreeMap.mem_toList_iff_getElem?_eq_some

theorem mem_tuples : t ∈ (db.rows tier rel).map Prod.snd ↔ db.Holds tier rel t := by
  simp [Holds, mem_rows]

theorem row_addRow : (db.addRow tier rel id t).row tier' rel' id' =
    if tier' = tier ∧ rel' = rel ∧ id' = id then some t else db.row tier' rel' id' := by
  by_cases h : tier' = tier ∧ rel' = rel
  · obtain ⟨rfl, rfl⟩ := h
    simp only [row, addRow, true_and, and_self, if_true, Std.ExtTreeMap.getElem?_insert,
      Std.compare_eq_iff_eq, @eq_comm _ id' id]
  · have h' : ¬ (tier' = tier ∧ rel' = rel ∧ id' = id) := fun ⟨h₁, h₂, _⟩ => h ⟨h₁, h₂⟩
    simp only [row, addRow, if_neg h, if_neg h']

theorem row_removeRow : (db.removeRow tier rel id t).row tier' rel' id' =
    if tier' = tier ∧ rel' = rel ∧ id' = id then none else db.row tier' rel' id' := by
  by_cases h : tier' = tier ∧ rel' = rel
  · obtain ⟨rfl, rfl⟩ := h
    simp only [row, removeRow, true_and, and_self, if_true, Std.ExtTreeMap.getElem?_erase,
      Std.compare_eq_iff_eq, @eq_comm _ id' id]
  · have h' : ¬ (tier' = tier ∧ rel' = rel ∧ id' = id) := fun ⟨h₁, h₂, _⟩ => h ⟨h₁, h₂⟩
    simp only [row, removeRow, if_neg h, if_neg h']

theorem row_dropTierTables : (db.dropTierTables tier rel).row tier' rel' id =
    if tier' = tier ∧ rel' = rel then none else db.row tier' rel' id := by
  by_cases h : tier' = tier ∧ rel' = rel <;> simp [row, dropTierTables, h]

theorem row_addRows {ts : List Tuple} : (addRows tier rel id ts db).row tier' rel' id' =
    if tier' = tier ∧ rel' = rel ∧ id ≤ id' ∧ id' < id + ts.length then ts[id' - id]?
    else db.row tier' rel' id' := by
  induction ts generalizing id db with
  | nil =>
    have h : ¬ (tier' = tier ∧ rel' = rel ∧ id ≤ id' ∧ id' < id + ([] : List Tuple).length) :=
      fun h => by simp only [length_nil] at h; omega
    rw [if_neg h, addRows]
  | cons t ts ih =>
    rw [addRows, ih, row_addRow, length_cons]
    by_cases h : tier' = tier ∧ rel' = rel
    · obtain ⟨rfl, rfl⟩ := h
      simp only [true_and]
      obtain hlt | rfl | hgt := Nat.lt_trichotomy id' id
      · rw [if_neg (by omega), if_neg (by omega), if_neg (by omega)]
      · rw [if_neg (by omega), if_pos rfl, if_pos (by omega)]
        simp
      · obtain ⟨k, rfl⟩ : ∃ k, id' = id + 1 + k := ⟨id' - (id + 1), by omega⟩
        have hk : id + 1 + k - id = k + 1 := by omega
        rw [if_neg (c := id + 1 + k = id) (by omega), hk, List.getElem?_cons_succ,
          Nat.add_sub_cancel_left]
        by_cases hlen : k < ts.length
        · rw [if_pos (by omega), if_pos (by omega)]
        · rw [if_neg (by omega), if_neg (by omega)]
    · have h₁ (p : Prop) : ¬ (tier' = tier ∧ rel' = rel ∧ p) := fun ⟨a, b, _⟩ => h ⟨a, b⟩
      rw [if_neg (h₁ _), if_neg (h₁ _), if_neg (h₁ _)]

/-! ## Exact indexes -/

/-- The index tables list the rows that are there. -/
def Exact (db : Db) : Prop := ∀ tier rel col v id,
  id ∈ db.index tier rel col v ↔ ∃ t, db.row tier rel id = some t ∧ t[col]? = some v

/-- Only relations of the list have rows. -/
def Within (db : Db) (names : List String) : Prop := ∀ tier rel t, db.Holds tier rel t → rel ∈ names

theorem mem_index_addRow : id' ∈ (db.addRow tier rel id t).index tier' rel' col v ↔
    (tier' = tier ∧ rel' = rel ∧ t[col]? = some v ∧ id' = id) ∨
      id' ∈ db.index tier' rel' col v := by
  by_cases h : tier' = tier ∧ rel' = rel ∧ t[col]? = some v
  · obtain ⟨rfl, rfl, hv⟩ := h
    simp only [addRow, hv, and_self, if_true, Std.ExtTreeSet.mem_insert, Std.compare_eq_iff_eq,
      true_and, @eq_comm _ id' id]
  · have h' : ¬ (tier' = tier ∧ rel' = rel ∧ t[col]? = some v ∧ id' = id) :=
      fun ⟨h₁, h₂, h₃, _⟩ => h ⟨h₁, h₂, h₃⟩
    simp only [addRow, if_neg h, h', false_or]

theorem mem_index_removeRow : id' ∈ (db.removeRow tier rel id t).index tier' rel' col v ↔
    ¬ (tier' = tier ∧ rel' = rel ∧ t[col]? = some v ∧ id' = id) ∧
      id' ∈ db.index tier' rel' col v := by
  by_cases h : tier' = tier ∧ rel' = rel ∧ t[col]? = some v
  · obtain ⟨rfl, rfl, hv⟩ := h
    simp only [removeRow, hv, and_self, if_true, Std.ExtTreeSet.mem_erase, ne_eq,
      Std.compare_eq_iff_eq, true_and, @eq_comm _ id' id]
  · have h' : ¬ (tier' = tier ∧ rel' = rel ∧ t[col]? = some v ∧ id' = id) :=
      fun ⟨h₁, h₂, h₃, _⟩ => h ⟨h₁, h₂, h₃⟩
    simp only [removeRow, if_neg h, h', not_false_eq_true, true_and]

variable (h : db.Exact)

include h

/-- A row under a number without a row keeps the indexes exact. -/
theorem Exact.addRow (hfree : db.row tier rel id = none) (t : Tuple) :
    (db.addRow tier rel id t).Exact := by
  intro tier' rel' col v id'
  rw [mem_index_addRow, row_addRow, h]
  by_cases hat : tier' = tier ∧ rel' = rel ∧ id' = id
  · obtain ⟨rfl, rfl, rfl⟩ := hat
    simp [hfree]
  · rw [if_neg hat]
    refine or_iff_right fun ⟨h₁, h₂, _, h₃⟩ => hat ⟨h₁, h₂, h₃⟩

theorem Exact.addRows (hfree : ∀ id' ≥ id, db.row tier rel id' = none) (ts : List Tuple) :
    (addRows tier rel id ts db).Exact := by
  induction ts generalizing id db with
  | nil => exact h
  | cons t ts ih =>
    refine ih (h.addRow (hfree id (Nat.le_refl _)) t) fun id' hid => ?_
    rw [row_addRow, if_neg (by omega)]
    exact hfree id' (by omega)

/-- Taking a row away keeps the indexes exact. -/
theorem Exact.removeRow (hrow : db.row tier rel id = some t) :
    (db.removeRow tier rel id t).Exact := by
  intro tier' rel' col v id'
  rw [mem_index_removeRow, row_removeRow, h]
  by_cases hat : tier' = tier ∧ rel' = rel ∧ id' = id
  · obtain ⟨rfl, rfl, rfl⟩ := hat
    simp [hrow]
  · rw [if_neg hat]
    refine and_iff_right fun ⟨h₁, h₂, _, h₃⟩ => hat ⟨h₁, h₂, h₃⟩

/-- **Dropping the tables of a relation** keeps the indexes of the others, whose names do not extend
it by a colon. -/
theorem Exact.dropTierTables {names : List String} (hw : db.Within names) (hn : Apart names)
    (hrel : rel ∈ names) : (db.dropTierTables tier rel).Exact := by
  intro tier' rel' col v id
  rw [row_dropTierTables]
  by_cases hpre : (indexPrefix tier rel).isPrefixOf (indexTable tier' rel' col) = true
  · have hnone : ¬ ∃ t, (if tier' = tier ∧ rel' = rel then none else db.row tier' rel' id) =
        some t ∧ t[col]? = some v := by
      rintro ⟨t, ht, -⟩
      split at ht
      · cases ht
      · next hne =>
        obtain ⟨rfl, rfl | hclash⟩ := indexPrefix_isPrefixOf hpre
        · exact hne ⟨rfl, rfl⟩
        · exact hn rel hrel rel' (hw _ _ t ⟨id, ht⟩) hclash
    simp only [Db.dropTierTables, if_pos hpre, hnone, iff_false]
    exact Std.ExtTreeSet.not_mem_empty
  · have hne : ¬ (tier' = tier ∧ rel' = rel) := by
      rintro ⟨rfl, rfl⟩
      exact hpre (indexPrefix_isPrefixOf_self _ _ _)
    simp only [Db.dropTierTables, hpre, if_neg hne]
    exact h tier' rel' col v id

omit h in
/-- A row that was found holds the tuple. -/
theorem row_of_findRow (h : db.findRow tier rel t = some id) : db.row tier rel id = some t := by
  cases t with
  | nil =>
    obtain ⟨⟨i, u⟩, hfind, rfl⟩ := Option.map_eq_some_iff.mp h
    have hu : u = [] := by simpa using List.find?_some hfind
    exact hu ▸ mem_rows.mp (mem_of_find?_eq_some hfind)
  | cons v t => simpa using List.find?_some h

/-- **A row that is there is found**, by an exact index. -/
theorem Exact.findRow_isSome : (db.findRow tier rel t).isSome = true ↔ db.Holds tier rel t := by
  refine ⟨fun hs => ?_, fun ⟨id, hid⟩ => ?_⟩
  · obtain ⟨id, hid⟩ := Option.isSome_iff_exists.mp hs
    exact ⟨id, row_of_findRow hid⟩
  · cases t with
    | nil => simpa [findRow] using ⟨id, mem_rows.mpr hid⟩
    | cons v t =>
      have hix : id ∈ db.index tier rel 0 v := (h tier rel 0 v id).mpr ⟨v :: t, hid, rfl⟩
      simpa [findRow] using ⟨id, hix, hid⟩

/-- **An index lookup yields the rows with the value in the column.** -/
theorem Exact.mem_fetchByIndex :
    t ∈ db.fetchByIndex tier rel col v ↔ db.Holds tier rel t ∧ t[col]? = some v := by
  simp only [fetchByIndex, mem_filterMap, Std.ExtTreeSet.mem_toList, h tier rel col v]
  constructor
  · rintro ⟨id, ⟨u, hu, hcol⟩, ht⟩
    obtain rfl : u = t := Option.some_inj.mp (hu.symm.trans ht)
    exact ⟨⟨id, ht⟩, hcol⟩
  · rintro ⟨⟨id, hid⟩, hcol⟩
    exact ⟨id, ⟨t, hid, hcol⟩, hid⟩

end Db

end Mangle

import Mathlib.Data.List.Perm.Basic
import Mangle.Store.MemStore

/-!
# Store/Tiers — what a store holds

The store seen as three lists of tuples for each relation, without cells and indexes.  `Rep s c`
says that the store `s` holds the tiers `c`; every operation of `MemStore` has its counterpart on
tiers and keeps `Rep`, and every read is a read of the tiers:

* `Laid.scan`, `Laid.scanDelta`, `Laid.scanNextDelta`, `Laid.scanIndex` — no read panics;
* `Rep.insert`, `Rep.mergeDeltas`, `Rep.retract`, `Rep.clear` — the writes.

`Indexed s` adds that the column indexes are in step with the rows.  A retraction that finds its
tuple in the delta alone does not keep it.
-/

namespace Mangle

open Machinery List

variable {s' : MemStore}

/-- The contents of a store: the tuples of each tier and the registered arities. -/
structure Tiers where
  stable : Name → List Tuple
  delta : Name → List Tuple
  next : Name → List Tuple
  arity : Name → Option Nat

namespace Tiers

/-- The scan-visible tuples. -/
def visible (c : Tiers) (rel : Name) : List Tuple := c.stable rel ++ c.delta rel

/-- Every tuple held, in order of arrival. -/
def all (c : Tiers) (rel : Name) : List Tuple := c.visible rel ++ c.next rel

variable {c : Tiers} {rel : Name} {t : Tuple}

theorem mem_all_of_stable (h : t ∈ c.stable rel) : t ∈ c.all rel :=
  mem_append_left _ (mem_append_left _ h)

theorem mem_all_of_delta (h : t ∈ c.delta rel) : t ∈ c.all rel :=
  mem_append_left _ (mem_append_right _ h)

theorem mem_all_of_visible (h : t ∈ c.visible rel) : t ∈ c.all rel := mem_append_left _ h

theorem mem_all_of_next (h : t ∈ c.next rel) : t ∈ c.all rel := mem_append_right _ h

/-- The contents of a new store. -/
def empty : Tiers := ⟨fun _ => [], fun _ => [], fun _ => [], fun _ => none⟩

/-- Whether an insertion of `t` adds it. -/
def Accepts (c : Tiers) (rel : Name) (t : Tuple) : Prop :=
  t ∉ c.all rel ∧ ∀ n ∈ c.arity rel, n = t.length

instance (c : Tiers) (rel : Name) (t : Tuple) : Decidable (c.Accepts rel t) := by
  unfold Accepts; infer_instance

/-- Add a tuple to the rows being collected. -/
def push (c : Tiers) (rel : Name) (t : Tuple) : Tiers :=
  { c with
    next := Function.update c.next rel (c.next rel ++ [t])
    arity := Function.update c.arity rel (some t.length) }

/-- `insert` on tiers. -/
def insert (c : Tiers) (rel : Name) (t : Tuple) : Tiers :=
  if c.Accepts rel t then c.push rel t else c

/-- `merge_deltas` on tiers. -/
def merge (c : Tiers) : Tiers :=
  { c with stable := c.visible, delta := c.next, next := fun _ => [] }

/-- `retract` on tiers. -/
def retract (c : Tiers) (rel : Name) (t : Tuple) : Tiers :=
  { c with
    stable := Function.update c.stable rel (removeRow t (c.stable rel))
    delta := Function.update c.delta rel (removeRow t (c.delta rel))
    next := Function.update c.next rel (removeRow t (c.next rel)) }

/-- `clear` on tiers. -/
def clear (c : Tiers) (rel : Name) : Tiers :=
  { c with
    stable := Function.update c.stable rel []
    delta := Function.update c.delta rel []
    next := Function.update c.next rel [] }

/-- The invariant of the contents: one arity a relation, and no tuple held twice. -/
structure Valid (c : Tiers) : Prop where
  fits : ∀ rel, ∀ t ∈ c.all rel, c.arity rel = some t.length
  nodup : ∀ rel, (c.all rel).Nodup

end Tiers

/-- The rows of the store `s` are the tuples of the tiers `c`, of one arity a relation. -/
structure Laid (s : MemStore) (c : Tiers) : Prop where
  fits : ∀ rel, ∀ t ∈ c.all rel, c.arity rel = some t.length
  stable : ∀ rel, s.stable.get rel = (c.stable rel).map flattenTuple
  delta : ∀ rel, s.delta.get rel = (c.delta rel).map flattenTuple
  next : ∀ rel, s.nextDelta.get rel = (c.next rel).map flattenTuple
  arity : ∀ rel, s.arity.lookup rel = c.arity rel

/-- The store `s` holds exactly the tiers `c`, and no tuple twice. -/
structure Rep (s : MemStore) (c : Tiers) : Prop extends Laid s c where
  nodup : ∀ rel, (c.all rel).Nodup

theorem Rep.toValid {s : MemStore} {c : Tiers} (h : Rep s c) : c.Valid := ⟨h.fits, h.nodup⟩

/-- The column indexes list the rows that are there. -/
structure Indexed (s : MemStore) : Prop where
  stable : ∀ rel, s.stableIndexes rel =
    indexRows (columnKeys (s.nCols rel)) .empty 0 (s.stable.get rel)
  delta : ∀ rel, s.deltaIndexes rel =
    indexRows (columnKeys (s.nCols rel)) .empty 0 (s.delta.get rel)

theorem Rep.new : Rep .new .empty where
  fits := by simp [Tiers.empty, Tiers.all, Tiers.visible]
  nodup := by simp [Tiers.empty, Tiers.all, Tiers.visible]
  stable _ := rfl
  delta _ := rfl
  next _ := rfl
  arity _ := rfl

theorem Indexed.new : Indexed .new := ⟨fun _ => rfl, fun _ => rfl⟩

/-! ## Removal -/

variable {c' : Tiers}

section Removal

variable {α : Type} {a : α} {l : List α}

theorem swapRemove_perm (l : List α) (i : Nat) (h : i < l.length) :
    l.Perm (l[i] :: swapRemove l i) := by
  obtain ⟨l, last, rfl⟩ : ∃ l' last, l = l' ++ [last] :=
    ⟨l.dropLast, l.getLast (ne_nil_of_length_pos (by omega)),
      (dropLast_append_getLast _).symm⟩
  simp only [swapRemove, List.getLast?_append, List.getLast?_singleton, Option.some_or]
  simp only [length_append, length_singleton] at h
  by_cases hi : i < l.length
  · rw [set_append_left _ _ hi, dropLast_concat, getElem_append_left hi]
    calc (l ++ [last]).Perm (last :: l) := perm_append_singleton last l
      _ |>.Perm (last :: l[i] :: l.eraseIdx i) :=
          (getElem_cons_eraseIdx_perm hi).symm.cons last
      _ |>.Perm (l[i] :: last :: l.eraseIdx i) := .swap ..
      _ |>.Perm (l[i] :: l.set i last) := ((set_perm_cons_eraseIdx hi last).symm).cons _
  · have : i = l.length := by omega
    subst this
    simp

variable [DecidableEq α]

/-- **Removal takes out the first occurrence**, and may move the last row into its place. -/
theorem removeRow_perm (a : α) (l : List α) : (removeRow a l).Perm (l.erase a) := by
  unfold removeRow
  cases h : l.idxOf? a with
  | none =>
    rw [erase_of_not_mem (List.idxOf?_eq_none_iff.mp h)]
  | some i =>
    obtain ⟨hi, ha, -⟩ := List.findIdx?_eq_some_iff_getElem.mp h
    have ha : l[i] = a := by simpa using ha
    have hmem : a ∈ l := ha ▸ getElem_mem hi
    have h1 := swapRemove_perm l i hi
    rw [ha] at h1
    exact (h1.symm.trans (perm_cons_erase hmem)).cons_inv

theorem mem_removeRow {b : α} (h : l.Nodup) : b ∈ removeRow a l ↔ b ≠ a ∧ b ∈ l := by
  rw [(removeRow_perm a l).mem_iff, h.mem_erase_iff]

theorem mem_of_mem_removeRow {b : α} (h : b ∈ removeRow a l) : b ∈ l :=
  mem_of_mem_erase ((removeRow_perm a l).mem_iff.mp h)

theorem length_removeRow (h : a ∈ l) : (removeRow a l).length = l.length - 1 :=
  (removeRow_perm a l).length_eq.trans (length_erase_of_mem h)

/-- Up to order, removal leaves a sublist. -/
theorem removeRow_perm_sublist (a : α) (l : List α) :
    ∃ l', l'.Sublist l ∧ (removeRow a l).Perm l' :=
  ⟨l.erase a, erase_sublist, removeRow_perm a l⟩

@[simp] theorem removeRow_nil (a : α) : removeRow a [] = [] := rfl

theorem removeRow_of_notMem (h : a ∉ l) : removeRow a l = l := by
  simp [removeRow, List.idxOf?_eq_none_iff.mpr h]

theorem removeRow_map {β : Type} [DecidableEq β] {f : α → β} (hf : Function.Injective f) (a : α)
    (l : List α) : removeRow (f a) (l.map f) = (removeRow a l).map f := by
  have hidx : (l.map f).idxOf? (f a) = l.idxOf? a := by
    simp only [List.idxOf?, List.findIdx?_map]
    congr 1
    funext b
    simp [hf.eq_iff]
  unfold removeRow
  rw [hidx]
  cases l.idxOf? a with
  | none => rfl
  | some i =>
    cases hl : l.getLast? <;> simp [swapRemove, hl, map_set, map_dropLast]

end Removal

/-! ## Index lookups -/

/-- The numbers of the rows that meet `p`, counting from `i`. -/
def positions (p : Row → Bool) : Nat → List Row → List Nat
  | _, [] => []
  | i, cells :: rows => if p cells then i :: positions p (i + 1) rows else positions p (i + 1) rows

/-- Whether a row has `key` in column `col`. -/
def hasKey (keys : Row → Option (List Cell)) (col : Nat) (key : Cell) (cells : Row) : Bool :=
  (keys cells).bind (·[col]?) = some key

/-- An index lists the rows it was built from. -/
theorem indexRows_apply (keys : Row → Option (List Cell)) (ix : RelIndex) (i : Nat)
    (rows : List Row) (col : Nat) (key : Cell) :
    indexRows keys ix i rows col key = ix col key ++ positions (hasKey keys col key) i rows := by
  induction rows generalizing ix i with
  | nil => simp [indexRows, positions]
  | cons cells rows ih =>
    rw [indexRows, ih]
    cases hk : keys cells with
    | none => simp [positions, hasKey, hk]
    | some ks =>
      by_cases h : ks[col]? = some key <;> simp [RelIndex.push, positions, hasKey, hk, h]

theorem indexRows_append (keys : Row → Option (List Cell)) (ix : RelIndex) (i : Nat)
    (rows rows' : List Row) : indexRows keys ix i (rows ++ rows') =
      indexRows keys (indexRows keys ix i rows) (i + rows.length) rows' := by
  induction rows generalizing ix i with
  | nil => simp [indexRows]
  | cons cells rows ih =>
    simp only [cons_append, indexRows, ih, length_cons]
    congr 1
    omega

theorem indexRows_congr {keys keys' : Row → Option (List Cell)} (ix : RelIndex) (i : Nat)
    {rows : List Row} (h : ∀ cells ∈ rows, keys cells = keys' cells) :
    indexRows keys ix i rows = indexRows keys' ix i rows := by
  induction rows generalizing ix i with
  | nil => rfl
  | cons cells rows ih =>
    simp only [indexRows, h cells (by simp)]
    exact ih _ _ fun c hc => h c (mem_cons_of_mem cells hc)

/-- The listed rows are found where the index says, behind any rows `pre`. -/
theorem lookupRows_positions (p : Row → Bool) (pre rows : List Row) :
    MemStore.lookupRows (pre ++ rows) (positions p pre.length rows) = some (rows.filter p) := by
  induction rows generalizing pre with
  | nil => simp [positions, MemStore.lookupRows]
  | cons cells rows ih =>
    have hrest := ih (pre ++ [cells])
    rw [append_assoc, length_append, length_singleton, singleton_append]
      at hrest
    by_cases h : p cells
    · simp only [MemStore.lookupRows] at hrest ⊢
      simp [positions, h, hrest]
    · simpa [positions, h] using hrest

/-- Whether column `col` of a tuple has the index key of `key`. -/
def Tuple.hasKey (col : Nat) (key : Value) (t : Tuple) : Bool :=
  t[col]?.map valueToIndexKey = some (valueToIndexKey key)

/-! ## Reads -/

theorem MemStore.readRows_flattenTuple {s : MemStore} {rel : Name} {ts : List Tuple}
    (hts : ∀ t ∈ ts, t.length = s.nCols rel) : s.readRows rel (ts.map flattenTuple) = some ts := by
  unfold MemStore.readRows
  induction ts with
  | nil => rfl
  | cons t ts ih =>
    obtain ⟨ht, hts⟩ := forall_mem_cons.mp hts
    simp only [map_cons, mapM_cons, ← ht, unflattenTuple_flattenTuple]
    rw [ht, ih hts]
    rfl

namespace Laid

variable {s : MemStore} {c : Tiers} {rel : Name}

variable (h : Laid s c)

include h

theorem nCols_of_mem {t : Tuple} (ht : t ∈ c.all rel) : s.nCols rel = t.length := by
  simp [MemStore.nCols, h.arity, h.fits rel t ht]

theorem readRows (ts : List Tuple) (hts : ∀ t ∈ ts, t ∈ c.all rel) :
    s.readRows rel (ts.map flattenTuple) = some ts :=
  MemStore.readRows_flattenTuple fun t ht => (h.nCols_of_mem (hts t ht)).symm

/-- **A scan yields the stable tuples, then those of the delta.** -/
theorem scan (rel : Name) : s.scan rel = some (c.visible rel) := by
  rw [MemStore.scan, h.stable, h.delta, ← map_append]
  exact h.readRows _ fun _ => Tiers.mem_all_of_visible

theorem scanDelta (rel : Name) : s.scanDelta rel = some (c.delta rel) := by
  rw [MemStore.scanDelta, h.delta]
  exact h.readRows _ fun _ => Tiers.mem_all_of_delta

theorem scanNextDelta (rel : Name) : s.scanNextDelta rel = some (c.next rel) := by
  rw [MemStore.scanNextDelta, h.next]
  exact h.readRows _ fun _ => Tiers.mem_all_of_next

/-- The rows of a tier that an index yields. -/
theorem lookupRows (ts : List Tuple) (hts : ∀ t ∈ ts, t ∈ c.all rel) (col : Nat)
    (key : Value) :
    MemStore.lookupRows (ts.map flattenTuple)
      (indexRows (columnKeys (s.nCols rel)) .empty 0 (ts.map flattenTuple) col
        (valueToIndexKey key)) = some ((ts.filter (Tuple.hasKey col key)).map flattenTuple) := by
  have hlook := lookupRows_positions
    (Mangle.hasKey (columnKeys (s.nCols rel)) col (valueToIndexKey key)) [] (ts.map flattenTuple)
  rw [nil_append, length_nil] at hlook
  rw [indexRows_apply, RelIndex.empty, nil_append, hlook, filter_map]
  refine congrArg (fun l => some (l.map flattenTuple)) (filter_congr fun t ht => ?_)
  simp [Mangle.hasKey, Tuple.hasKey, h.nCols_of_mem (hts t ht)]

/-- **An index lookup yields the visible tuples with the key in the column.** -/
theorem scanIndex (hi : Indexed s) (rel : Name) (col : Nat) (key : Value) :
    s.scanIndex rel col key = some ((c.visible rel).filter (Tuple.hasKey col key)) := by
  have hs := h.lookupRows (c.stable rel) (fun _ => Tiers.mem_all_of_stable) col key
  have hd := h.lookupRows (c.delta rel) (fun _ => Tiers.mem_all_of_delta) col key
  have hread := h.readRows ((c.visible rel).filter (Tuple.hasKey col key))
    (fun _ ht => Tiers.mem_all_of_visible (mem_of_mem_filter ht))
  rw [Tiers.visible, filter_append, map_append] at hread
  simp only [MemStore.scanIndex, hi.stable, hi.delta, h.stable, h.delta, hs, hd]
  simpa [Tiers.visible] using hread

theorem scanDeltaIndex (hi : Indexed s) (rel : Name) (col : Nat) (key : Value) :
    s.scanDeltaIndex rel col key = some ((c.delta rel).filter (Tuple.hasKey col key)) := by
  have hd := h.lookupRows (c.delta rel) (fun _ => Tiers.mem_all_of_delta) col key
  have hread := h.readRows ((c.delta rel).filter (Tuple.hasKey col key))
    (fun _ ht => Tiers.mem_all_of_delta (mem_of_mem_filter ht))
  simp only [MemStore.scanDeltaIndex, hi.delta, h.delta, hd]
  exact hread

/-- A tier of the store holds a row exactly when the tiers hold its tuple. -/
theorem hasRow_iff (rel : Name) (t : Tuple) :
    s.hasRow rel (flattenTuple t) = true ↔ t ∈ c.all rel := by
  simp [MemStore.hasRow, h.stable, h.delta, h.next, Tiers.all, Tiers.visible, or_assoc]

end Laid

/-! ## Writes -/

section Writes

variable {s : MemStore} {c : Tiers} {rel : Name} {t : Tuple}

theorem Tiers.all_push (c : Tiers) (rel r : Name) (t : Tuple) :
    (c.push rel t).all r = if r = rel then c.all rel ++ [t] else c.all r := by
  by_cases hr : r = rel <;> simp [Tiers.push, Tiers.all, Tiers.visible, hr]

/-- Insertion registers the arity of its tuple, or leaves the one that is registered. -/
theorem Tiers.arity_insert {r : Name} {n : Nat} (h : n ∈ (c.insert rel t).arity r) :
    n ∈ c.arity r ∨ r = rel ∧ t.length = n := by
  unfold insert at h
  split at h
  · rcases eq_or_ne r rel with rfl | hne
    · simp only [push, Function.update_self, Option.mem_some_iff] at h
      exact Or.inr ⟨rfl, h⟩
    · simp only [push, Function.update_of_ne hne] at h
      exact Or.inl h
  · exact Or.inl h

theorem Tiers.nodup_push (h : ∀ r, (c.all r).Nodup) (ha : c.Accepts rel t) (r : Name) :
    ((c.push rel t).all r).Nodup := by
  rw [Tiers.all_push]
  split
  · exact concat_eq_append ▸ (h rel).concat ha.1
  · exact h r

/-- Insertion of a tuple the contents accept, and of one they do not. -/
theorem MemStore.insert_eq (h : Laid s c) (rel : Name) (t : Tuple) :
    s.insert rel t = if c.Accepts rel t then (true, s.pushNext rel t.length (flattenTuple t))
      else (false, s) := by
  unfold MemStore.insert
  by_cases hrow : t ∈ c.all rel
  · have := (h.hasRow_iff rel t).mpr hrow
    simp [this, Tiers.Accepts, hrow]
  · have : s.hasRow rel (flattenTuple t) = false := by
      simpa using (h.hasRow_iff rel t).not.mpr hrow
    simp only [this, h.arity, Tiers.Accepts, hrow, not_false_eq_true, true_and]
    cases ha : c.arity rel with
    | none => simp
    | some n => by_cases hn : n = t.length <;> simp [hn]

/-- Registering the arity of an accepted tuple. -/
theorem Laid.registerArity (h : Laid s c) (harity : ∀ n ∈ c.arity rel, n = t.length) (r : Name) :
    (s.registerArity rel t.length).arity.lookup r =
      Function.update c.arity rel (some t.length) r := by
  by_cases hr : r = rel
  · subst hr
    cases hn : c.arity r with
    | none => simp [MemStore.registerArity, HashMap.lookup_orInsert, h.arity, hn]
    | some n => simp [MemStore.registerArity, HashMap.lookup_orInsert, h.arity, hn, harity n hn]
  · simp [MemStore.registerArity, HashMap.lookup_orInsert, h.arity, hr]

theorem Laid.pushNext (h : Laid s c) (ha : c.Accepts rel t) :
    Laid (s.pushNext rel t.length (flattenTuple t)) (c.push rel t) where
  fits r u hu := by
    rw [Tiers.all_push] at hu
    by_cases hr : r = rel
    · subst hr
      rw [if_pos rfl, mem_append, mem_singleton] at hu
      simp only [Tiers.push, Function.update_self]
      obtain hu | rfl := hu
      · rw [ha.2 _ (h.fits r u hu)]
      · rfl
    · rw [if_neg hr] at hu
      simp only [Tiers.push, Function.update_of_ne hr]
      exact h.fits r u hu
  stable := h.stable
  delta := h.delta
  next r := by
    by_cases hr : r = rel <;> simp [MemStore.pushNext, Tiers.push, HashMap.get_modify, h.next, hr]
  arity := h.registerArity ha.2

/-- **Insertion** adds an accepted tuple to the collected ones, and reports whether it did. -/
theorem Laid.insert (h : Laid s c) (rel : Name) (t : Tuple) :
    Laid (s.insert rel t).2 (c.insert rel t) := by
  rw [MemStore.insert_eq h, Tiers.insert]
  by_cases ha : c.Accepts rel t
  · simpa [ha] using h.pushNext ha
  · simpa [ha] using h

theorem Rep.insert (h : Rep s c) (rel : Name) (t : Tuple) :
    Rep (s.insert rel t).2 (c.insert rel t) := by
  refine ⟨h.toLaid.insert rel t, fun r => ?_⟩
  rw [Tiers.insert]
  split
  · exact Tiers.nodup_push h.nodup ‹_› r
  · exact h.nodup r

theorem Rep.insert_fst (h : Rep s c) (rel : Name) (t : Tuple) :
    (s.insert rel t).1 = decide (c.Accepts rel t) := by
  rw [MemStore.insert_eq h.toLaid]
  by_cases ha : c.Accepts rel t <;> simp [ha]

/-- Rows that two stores hold have the same index in both. -/
theorem Laid.indexRows_eq (h : Laid s c) (h' : Laid s' c') (rel : Name) (ts : List Tuple)
    (hts : ∀ t ∈ ts, t ∈ c.all rel ∧ t ∈ c'.all rel) :
    indexRows (columnKeys (s.nCols rel)) .empty 0 (ts.map flattenTuple) =
      indexRows (columnKeys (s'.nCols rel)) .empty 0 (ts.map flattenTuple) := by
  cases ts with
  | nil => rfl
  | cons t ts =>
    obtain ⟨ht, ht'⟩ := hts t mem_cons_self
    rw [h.nCols_of_mem ht, h'.nCols_of_mem ht']

theorem Laid.indexed_insert (h : Laid s c) (hi : Indexed s) (rel : Name) (t : Tuple) :
    Indexed (s.insert rel t).2 := by
  rw [MemStore.insert_eq h]
  by_cases ha : c.Accepts rel t
  · simp only [ha, if_true]
    have hall {r : Name} {u : Tuple} (hu : u ∈ c.all r) : u ∈ (c.push rel t).all r := by
      rw [Tiers.all_push]
      split
      · rename_i heq
        exact mem_append_left _ (heq ▸ hu)
      · exact hu
    constructor <;> intro r
    · have heq := h.indexRows_eq (h.pushNext ha) r (c.stable r) fun _ hu =>
        ⟨Tiers.mem_all_of_stable hu, hall (Tiers.mem_all_of_stable hu)⟩
      rw [← h.stable] at heq
      exact (hi.stable r).trans heq
    · have heq := h.indexRows_eq (h.pushNext ha) r (c.delta r) fun _ hu =>
        ⟨Tiers.mem_all_of_delta hu, hall (Tiers.mem_all_of_delta hu)⟩
      rw [← h.delta] at heq
      exact (hi.delta r).trans heq
  · simpa [ha] using hi

theorem Indexed.insert (hi : Indexed s) (h : Rep s c) (rel : Name) (t : Tuple) :
    Indexed (s.insert rel t).2 := h.toLaid.indexed_insert hi rel t

/-- Every row of a tier has the registered number of columns. -/
theorem Laid.filter_fits (h : Laid s c) (rel : Name) (ts : List Tuple)
    (hts : ∀ t ∈ ts, t ∈ c.all rel) :
    ((ts.map flattenTuple).filter fun cells => countLogicalValues cells = some (s.nCols rel)) =
      ts.map flattenTuple := by
  refine filter_eq_self.mpr fun cells hc => ?_
  obtain ⟨t, ht, rfl⟩ := mem_map.mp hc
  simp [h.nCols_of_mem (hts t ht)]

theorem Laid.fittingKeys_eq (h : Laid s c) {ts : List Tuple} (hts : ∀ t ∈ ts, t ∈ c.all rel) :
    ∀ cells ∈ ts.map flattenTuple,
      MemStore.fittingKeys (s.nCols rel) cells = columnKeys (s.nCols rel) cells := by
  intro cells hc
  obtain ⟨t, ht, rfl⟩ := mem_map.mp hc
  simp [MemStore.fittingKeys, h.nCols_of_mem (hts t ht)]

theorem Tiers.all_merge (c : Tiers) (rel : Name) : c.merge.all rel = c.all rel := by
  simp [Tiers.merge, Tiers.all, Tiers.visible]

theorem Tiers.visible_merge (c : Tiers) (rel : Name) : c.merge.visible rel = c.all rel := rfl

/-- **Merging** makes the collected tuples visible, behind those that were. -/
theorem Laid.mergeDeltas (h : Laid s c) : Laid s.mergeDeltas c.merge where
  fits rel t ht := h.fits rel t (c.all_merge rel ▸ ht)
  stable rel := by
    have hfit := h.filter_fits rel (c.delta rel) fun _ => Tiers.mem_all_of_delta
    simp only [MemStore.mergeDeltas]
    rw [HashMap.get_appendAll _ _ _ _ (by simp), h.delta, hfit, h.stable]
    simp [Tiers.merge, Tiers.visible]
  delta := h.next
  next _ := rfl
  arity := h.arity

theorem Rep.mergeDeltas (h : Rep s c) : Rep s.mergeDeltas c.merge :=
  ⟨h.toLaid.mergeDeltas, fun rel => c.all_merge rel ▸ h.nodup rel⟩

theorem Laid.indexed_mergeDeltas (h : Laid s c) (hi : Indexed s) : Indexed s.mergeDeltas where
  stable rel := by
    have hd : ∀ t ∈ c.delta rel, t ∈ c.all rel := fun _ => Tiers.mem_all_of_delta
    have hstable := h.mergeDeltas.stable rel
    have hkeys := indexRows_congr (s.stableIndexes rel) (s.stable.get rel).length
      (h.fittingKeys_eq hd)
    rw [hstable]
    simp only [MemStore.mergeDeltas, h.delta, h.filter_fits rel (c.delta rel) hd]
    rw [hkeys, hi.stable]
    simp [Tiers.merge, Tiers.visible, indexRows_append, h.stable, MemStore.nCols]
  delta rel := by
    have hn : ∀ t ∈ c.next rel, t ∈ c.all rel := fun _ => Tiers.mem_all_of_next
    have hkeys := indexRows_congr .empty 0 (h.fittingKeys_eq hn)
    simp only [MemStore.mergeDeltas, h.next]
    exact hkeys

theorem Indexed.mergeDeltas (hi : Indexed s) (h : Rep s c) : Indexed s.mergeDeltas :=
  h.toLaid.indexed_mergeDeltas hi

/-- The tuples of each relation of `c'` are some of those of `c`. -/
def Tiers.Within (c' c : Tiers) : Prop :=
  ∀ rel, ∃ l, l.Sublist (c.all rel) ∧ (c'.all rel).Perm l

theorem Tiers.Within.mem (h : c'.Within c) (ht : t ∈ c'.all rel) : t ∈ c.all rel := by
  obtain ⟨l, hl, hp⟩ := h rel
  exact hl.subset (hp.mem_iff.mp ht)

theorem Tiers.Within.nodup (h : c'.Within c) (hc : ∀ rel, (c.all rel).Nodup) (rel : Name) :
    (c'.all rel).Nodup := by
  obtain ⟨l, hl, hp⟩ := h rel
  exact hp.nodup_iff.mpr ((hc rel).sublist hl)

theorem Tiers.within_retract (c : Tiers) (rel : Name) (t : Tuple) :
    (c.retract rel t).Within c := by
  intro r
  by_cases hr : r = rel
  · subst hr
    obtain ⟨l, hl, hlp⟩ := removeRow_perm_sublist t (c.stable r)
    obtain ⟨m, hm, hmp⟩ := removeRow_perm_sublist t (c.delta r)
    obtain ⟨n, hn, hnp⟩ := removeRow_perm_sublist t (c.next r)
    refine ⟨l ++ m ++ n, (hl.append hm).append hn, ?_⟩
    simp only [Tiers.all, Tiers.visible, Tiers.retract, Function.update_self]
    exact (hlp.append hmp).append hnp
  · refine ⟨c.all r, .refl _, ?_⟩
    simp [Tiers.all, Tiers.visible, Tiers.retract, Function.update_of_ne hr]

theorem Tiers.within_clear (c : Tiers) (rel : Name) : (c.clear rel).Within c := by
  intro r
  by_cases hr : r = rel
  · subst hr
    exact ⟨[], nil_sublist _, by simp [Tiers.all, Tiers.visible, Tiers.clear]⟩
  · refine ⟨c.all r, .refl _, ?_⟩
    simp [Tiers.all, Tiers.visible, Tiers.clear, Function.update_of_ne hr]

/-- A tier after the rows of one relation have been changed as their tuples. -/
private theorem get_update_flatten {m : HashMap Name (List Row)} {f : Name → List Tuple}
    {g : List Row → List Row} {k : List Tuple → List Tuple}
    (h : ∀ r, m.get r = (f r).map flattenTuple) (hnil : g [] = [])
    (hg : ∀ ts : List Tuple, g (ts.map flattenTuple) = (k ts).map flattenTuple) (rel r : Name) :
    (m.update rel g).get r = (Function.update f rel (k (f rel)) r).map flattenTuple := by
  rw [HashMap.get_update _ _ _ hnil]
  by_cases hr : r = rel <;> simp [hr, h, hg]

/-- Rebuilding the indexes of a relation finds every row long enough. -/
theorem Laid.rebuildIndexesFor (h : Laid s c) (rel : Name) :
    ∃ s', s.rebuildIndexesFor rel = some s' ∧ Laid s' c ∧
      s'.stable = s.stable ∧ s'.delta = s.delta ∧ s'.arity = s.arity ∧
      (∀ r, s'.stableIndexes r = if r = rel then
        indexRows (columnKeys (s.nCols r)) .empty 0 (s.stable.get r) else s.stableIndexes r) ∧
      (∀ r, s'.deltaIndexes r = if r = rel then
        indexRows (columnKeys (s.nCols r)) .empty 0 (s.delta.get r) else s.deltaIndexes r) := by
  have hkeys : (s.stable.get rel ++ s.delta.get rel).all
      (fun cells => (columnKeys (s.nCols rel) cells).isSome) = true := by
    rw [h.stable, h.delta, ← map_append]
    simp only [all_eq_true, mem_map, forall_exists_index, and_imp]
    rintro _ t ht rfl
    rw [h.nCols_of_mem (mem_append_left _ ht)]
    simp
  obtain ⟨s', hs'⟩ : ∃ s', s.rebuildIndexesFor rel = some s' := ⟨_, if_pos hkeys⟩
  refine ⟨s', hs', ?_⟩
  rw [MemStore.rebuildIndexesFor, if_pos hkeys, Option.some_inj] at hs'
  subst hs'
  refine ⟨?_, rfl, rfl, rfl, fun r => ?_, fun r => ?_⟩
  · exact { h with stable := h.stable, delta := h.delta, next := h.next, arity := h.arity }
  all_goals
    by_cases hr : r = rel <;> simp [hr]

/-- **Retraction** takes the tuple out of every tier, and reports whether it was a stable one. -/
theorem Laid.retract (h : Laid s c) (rel : Name) (t : Tuple) :
    ∃ s', s.retract rel t = some (decide (t ∈ c.stable rel), s') ∧ Laid s' (c.retract rel t) := by
  have hrep : Laid { s with
      stable := s.stable.update rel (removeRow (flattenTuple t))
      delta := s.delta.update rel (removeRow (flattenTuple t))
      nextDelta := s.nextDelta.update rel (removeRow (flattenTuple t)) } (c.retract rel t) :=
    { fits := fun r u hu => h.fits r u ((c.within_retract rel t).mem hu)
      stable := get_update_flatten h.stable rfl (removeRow_map flattenTuple_injective t) rel
      delta := get_update_flatten h.delta rfl (removeRow_map flattenTuple_injective t) rel
      next := get_update_flatten h.next rfl (removeRow_map flattenTuple_injective t) rel
      arity := h.arity }
  have hmem : (s.stable.get rel).contains (flattenTuple t) = decide (t ∈ c.stable rel) := by
    rw [h.stable]
    simp
  simp only [MemStore.retract, hmem]
  by_cases ht : t ∈ c.stable rel
  · obtain ⟨s', hs', hrep', -⟩ := hrep.rebuildIndexesFor rel
    exact ⟨s', by simp [ht, hs'], hrep'⟩
  · exact ⟨_, by simp [ht], hrep⟩

theorem Rep.retract (h : Rep s c) (rel : Name) (t : Tuple) :
    ∃ s', s.retract rel t = some (decide (t ∈ c.stable rel), s') ∧ Rep s' (c.retract rel t) := by
  obtain ⟨s', hs', hlaid⟩ := h.toLaid.retract rel t
  exact ⟨s', hs', hlaid, (c.within_retract rel t).nodup h.nodup⟩

/-- **Clearing** empties every tier of the relation. -/
theorem Laid.clear (h : Laid s c) (rel : Name) : Laid (s.clear rel) (c.clear rel) where
  fits r u hu := h.fits r u ((c.within_clear rel).mem hu)
  stable := get_update_flatten (k := fun _ => []) h.stable rfl (fun _ => rfl) rel
  delta := get_update_flatten (k := fun _ => []) h.delta rfl (fun _ => rfl) rel
  next := get_update_flatten (k := fun _ => []) h.next rfl (fun _ => rfl) rel
  arity := h.arity

theorem Rep.clear (h : Rep s c) (rel : Name) : Rep (s.clear rel) (c.clear rel) :=
  ⟨h.toLaid.clear rel, (c.within_clear rel).nodup h.nodup⟩

/-- A retraction of what is not in the delta alone keeps the indexes. -/
theorem Laid.indexed_retract (h : Laid s c) (hi : Indexed s)
    (ht : t ∈ c.delta rel → t ∈ c.stable rel) {b : Bool} (hs' : s.retract rel t = some (b, s')) :
    Indexed s' := by
  by_cases hmem : flattenTuple t ∈ s.stable.get rel
  · -- The indexes of the relation are built anew.
    simp only [MemStore.retract, contains_eq_mem, hmem, decide_true, if_true,
      MemStore.rebuildIndexesFor, Option.map_eq_some_iff, Option.ite_none_right_eq_some,
      Option.some_inj, Prod.mk.injEq] at hs'
    obtain ⟨_, ⟨-, rfl⟩, -, rfl⟩ := hs'
    constructor <;> intro r <;> rcases eq_or_ne r rel with rfl | hr
    · simp [MemStore.nCols]
    · simp [HashMap.get_update _ _ _ (removeRow_nil _), hr, hi.stable r, MemStore.nCols]
    · simp [MemStore.nCols]
    · simp [HashMap.get_update _ _ _ (removeRow_nil _), hr, hi.delta r, MemStore.nCols]
  · have hdelta : flattenTuple t ∉ s.delta.get rel := by
      rw [h.stable, mem_map_of_injective flattenTuple_injective] at hmem
      rw [h.delta, mem_map_of_injective flattenTuple_injective]
      exact fun hin => hmem (ht hin)
    simp only [MemStore.retract, contains_eq_mem, hmem, decide_false, Bool.false_eq_true,
      if_false, Option.some_inj, Prod.mk.injEq] at hs'
    obtain ⟨-, rfl⟩ := hs'
    refine ⟨fun r => (hi.stable r).trans ?_, fun r => (hi.delta r).trans ?_⟩
    · simp only [HashMap.get_update _ _ _ (removeRow_nil _), removeRow_of_notMem hmem]
      split <;> simp_all [MemStore.nCols]
    · simp only [HashMap.get_update _ _ _ (removeRow_nil _), removeRow_of_notMem hdelta]
      split <;> simp_all [MemStore.nCols]

theorem Indexed.retract (hi : Indexed s) (h : Rep s c) (ht : t ∉ c.delta rel) {b : Bool}
    (hs' : s.retract rel t = some (b, s')) :
    Indexed s' := h.toLaid.indexed_retract hi (fun hin => absurd hin ht) hs'

theorem Indexed.clear (hi : Indexed s) (rel : Name) : Indexed (s.clear rel) := by
  constructor <;> intro r <;> by_cases hr : r = rel <;>
    simp [MemStore.clear, HashMap.get_update, indexRows, hr, hi.stable r, hi.delta r,
      MemStore.nCols]

/-- Registering a relation adds no tuple. -/
theorem Laid.createRelation (h : Laid s c) (rel : Name) : Laid (s.createRelation rel) c :=
  { h with
    stable := fun r => by
      rw [← h.stable r, MemStore.createRelation, HashMap.get_modify]
      split <;> simp_all
    delta := h.delta
    next := h.next
    arity := h.arity }

theorem Rep.createRelation (h : Rep s c) (rel : Name) : Rep (s.createRelation rel) c :=
  ⟨h.toLaid.createRelation rel, h.nodup⟩

theorem Indexed.createRelation (hi : Indexed s) (rel : Name) : Indexed (s.createRelation rel) where
  stable r := by
    have : (s.createRelation rel).stable.get r = s.stable.get r := by
      rw [MemStore.createRelation, HashMap.get_modify]
      split <;> simp_all
    rw [this]
    exact hi.stable r
  delta := hi.delta

end Writes

end Mangle

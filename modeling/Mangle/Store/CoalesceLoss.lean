import Mangle.Store.Coalesce
import Mangle.Store.SetSemantics

/-!
# Store/CoalesceLoss — the facts that coalescing loses

Coalescing rebuilds a relation from its visible facts with an interval and drops the next delta.
What is lost is a visible fact of another kind or arity, and a pending fact whose interval is not
inside a span of visible ones.

* `coalesce_keeps_iff` — when no fact is lost, in every store that calls can reach;
* `coalesce_drops` — a fact with other ends and a pending fact are gone.
-/

namespace Mangle

open Machinery Intervals List

variable {r : Name}

namespace MemStore

variable {s s' : MemStore} {rel : Name}

/-! ## Every row is a fact -/

/-- Every row of every tier is the row of some tuple. -/
def Flat (s : MemStore) : Prop := ∀ rel, ∀ row ∈ s.rows rel, ∃ t, row = flattenTuple t

theorem mem_rows {row : Row} : row ∈ s.rows rel ↔
    row ∈ s.stable.get rel ∨ row ∈ s.delta.get rel ∨ row ∈ s.nextDelta.get rel := by
  simp [rows]

/-- A tier after a change of one relation that adds no row. -/
theorem mem_of_mem_update {m : HashMap Name (List Row)} {f : List Row → List Row} {row : Row}
    (hf : ∀ l, ∀ x ∈ f l, x ∈ l) (h : row ∈ (m.update r f).get rel) : row ∈ m.get rel := by
  have hnil : f [] = [] := eq_nil_iff_forall_not_mem.mpr fun x hx => not_mem_nil (hf _ x hx)
  rw [HashMap.get_update _ _ _ hnil] at h
  split at h
  · rename_i heq
    exact heq ▸ hf _ row h
  · exact h

/-- A tier after a row of a tuple has been added to one relation. -/
theorem mem_of_mem_push {m : HashMap Name (List Row)} {t : Tuple} {row : Row}
    (h : row ∈ (m.modify r (· ++ [flattenTuple t])).get rel) :
    row ∈ m.get rel ∨ ∃ t, row = flattenTuple t := by
  rw [HashMap.get_modify] at h
  split at h
  · rename_i heq
    obtain h | h := mem_append.mp h
    · exact .inl (heq ▸ h)
    · exact .inr ⟨t, mem_singleton.mp h⟩
  · exact .inl h

theorem rows_createRelation (s : MemStore) (r rel : Name) :
    (s.createRelation r).rows rel = s.rows rel := by
  simp only [rows, createRelation, HashMap.get_modify, id]
  split
  · rename_i heq
    rw [heq]
  · rfl

theorem rows_of_rebuildIndexesFor (h : s.rebuildIndexesFor r = some s') : s'.rows = s.rows := by
  rw [rebuildIndexesFor, Option.ite_none_right_eq_some] at h
  obtain ⟨-, h⟩ := h
  cases h
  rfl

/-- Every row of `s'` is a row of `s` or the row of a tuple. -/
def AddsFacts (s s' : MemStore) : Prop :=
  ∀ rel, ∀ row ∈ s'.rows rel, row ∈ s.rows rel ∨ ∃ t, row = flattenTuple t

theorem AddsFacts.refl (s : MemStore) : s.AddsFacts s := fun _ _ => .inl

theorem addsFacts_createRelation (s : MemStore) (r : Name) : s.AddsFacts (s.createRelation r) :=
  fun rel _ hrow => .inl (rows_createRelation s r rel ▸ hrow)

theorem addsFacts_addFact (s : MemStore) (r : Name) (t : Tuple) : s.AddsFacts (s.addFact r t) := by
  rw [addFact]
  split
  · exact addsFacts_createRelation s r
  · intro rel row hrow
    rw [mem_rows] at hrow ⊢
    obtain hrow | hrow := hrow
    · exact (mem_of_mem_push hrow).imp_left .inl
    · exact .inl (.inr hrow)

theorem addsFacts_pushNext (s : MemStore) (r : Name) (n : Nat) (t : Tuple) :
    s.AddsFacts (s.pushNext r n (flattenTuple t)) := by
  intro rel row hrow
  rw [mem_rows] at hrow ⊢
  obtain hrow | hrow | hrow := hrow
  · exact .inl (.inl hrow)
  · exact .inl (.inr (.inl hrow))
  · exact (mem_of_mem_push hrow).imp_left fun h => .inr (.inr h)

theorem addsFacts_insert (s : MemStore) (r : Name) (t : Tuple) : s.AddsFacts (s.insert r t).2 := by
  rw [insert]
  split
  · exact .refl s
  · split
    · split
      · exact .refl s
      · exact addsFacts_pushNext s r _ t
    · exact addsFacts_pushNext s r _ t

theorem addsFacts_mergeDeltas (s : MemStore) : s.AddsFacts s.mergeDeltas := by
  intro rel row hrow
  refine .inl ?_
  rw [mem_rows] at hrow ⊢
  simp only [mergeDeltas] at hrow
  rw [HashMap.get_appendAll _ _ _ _ (by simp), mem_append, mem_filter] at hrow
  obtain (hrow | hrow) | hrow | hrow := hrow
  · exact .inl hrow
  · exact .inr (.inl hrow.1)
  · exact .inr (.inr hrow)
  · cases hrow

theorem addsFacts_retract {t : Tuple} {b : Bool} (h : s.retract r t = some (b, s')) :
    s.AddsFacts s' := by
  have hsub : s.AddsFacts { s with
      stable := s.stable.update r (removeRow (flattenTuple t))
      delta := s.delta.update r (removeRow (flattenTuple t))
      nextDelta := s.nextDelta.update r (removeRow (flattenTuple t)) } := by
    intro rel row hrow
    rw [mem_rows] at hrow ⊢
    refine .inl (hrow.imp ?_ (Or.imp ?_ ?_)) <;>
      exact mem_of_mem_update fun _ _ => mem_of_mem_removeRow
  simp only [retract] at h
  split at h
  · obtain ⟨s₂, hs₂, heq⟩ := Option.map_eq_some_iff.mp h
    cases heq
    intro rel row hrow
    rw [rows_of_rebuildIndexesFor hs₂] at hrow
    exact hsub rel row hrow
  · cases h
    exact hsub

theorem addsFacts_clear (s : MemStore) (r : Name) : s.AddsFacts (s.clear r) := by
  intro rel row hrow
  rw [mem_rows] at hrow ⊢
  refine .inl (hrow.imp ?_ (Or.imp ?_ ?_)) <;>
    exact mem_of_mem_update fun _ _ hx => absurd hx not_mem_nil

theorem addsFacts_setStable (s : MemStore) (r : Name) (ts : List Tuple) :
    s.AddsFacts (s.setStable r ts) := by
  intro rel row hrow
  rw [mem_rows] at hrow ⊢
  simp only [setStable, HashMap.get_insert, HashMap.get_erase] at hrow
  by_cases hr : rel = r
  · simp only [hr, if_true, not_mem_nil, or_false, mem_map] at hrow
    obtain ⟨t, -, rfl⟩ := hrow
    exact .inr ⟨t, rfl⟩
  · simp only [hr, if_false] at hrow
    exact .inl hrow

theorem addsFacts_coalesceTemporal {order : HashOrder} (h : s.coalesceTemporal order r = some s') :
    s.AddsFacts s' := by
  rw [coalesceTemporal] at h
  split at h
  · cases h
    exact .refl s
  · split at h
    · cases h
      exact .refl s
    · obtain ⟨facts, -, h⟩ := Option.bind_eq_some_iff.mp h
      split at h
      · cases h
        exact .refl s
      · intro rel row hrow
        rw [rows_of_rebuildIndexesFor h] at hrow
        exact addsFacts_setStable s r _ rel row hrow

theorem AddsFacts.serve {call : MemCall} (h : s.serve call = some s') : s.AddsFacts s' := by
  cases call with
  | createRelation r =>
    cases h
    exact addsFacts_createRelation s r
  | addFact r t =>
    cases h
    exact addsFacts_addFact s r t
  | insert r t =>
    cases h
    exact addsFacts_insert s r t
  | mergeDeltas =>
    cases h
    exact addsFacts_mergeDeltas s
  | retract r t =>
    obtain ⟨⟨b, s₁⟩, hs₁, rfl⟩ := Option.map_eq_some_iff.mp h
    exact addsFacts_retract hs₁
  | clear r =>
    cases h
    exact addsFacts_clear s r
  | coalesceTemporal order r => exact addsFacts_coalesceTemporal h

theorem Flat.serve {call : MemCall} (hs : s.Flat) (h : s.serve call = some s') : s'.Flat :=
  fun rel row hrow => (AddsFacts.serve h rel row hrow).elim (hs rel row) id

/-- **A run** leaves facts only. -/
theorem Flat.calls {calls : List MemCall} (hs : s.Flat)
    (h : calls.foldlM MemStore.serve s = some s') :
    s'.Flat := by
  induction calls generalizing s with
  | nil =>
    obtain rfl : s = s' := by simpa using h
    exact hs
  | cons call calls ih =>
    rw [foldlM_cons] at h
    obtain ⟨s₁, hs₁, h⟩ := Option.bind_eq_some_iff.mp h
    exact ih (hs.serve hs₁) h

theorem Flat.new : new.Flat := fun _ _ hrow => absurd hrow not_mem_nil

/-! ## Lost facts -/

/-- Every fact of the relation is still held, or its interval is inside that of a held fact with
the same key. -/
def KeepsFacts (s s' : MemStore) (rel : Name) : Prop :=
  ∀ t, s.Holds rel t → s'.Holds rel t ∨
    ∃ key i u j, IsInterval t key i ∧ IsInterval u key j ∧ s'.Holds rel u ∧ Within (ends i) (ends j)

/-- Nothing is to be lost: all visible facts have the registered arity and an interval, and each
pending fact has an interval inside a span of visible ones with its key. -/
def Coalesces (s : MemStore) (rel : Name) (n : Nat) : Prop :=
  (∀ t, flattenTuple t ∈ s.visibleRows rel → t.length = n ∧ ∃ key i, IsInterval t key i) ∧
    ∀ t, flattenTuple t ∈ s.nextDelta.get rel →
      ∃ key i, IsInterval t key i ∧ ∃ j, Span (s.intervals rel key) j ∧ Within (ends i) j

/-- What is held after the visible facts have been replaced. -/
theorem holds_coalescedTo (s : MemStore) (rel : Name) (n : Nat) (ts : List Tuple) (t : Tuple) :
    (s.coalescedTo rel n ts).Holds rel t ↔ t ∈ ts := by
  have hnext : (s.coalescedTo rel n ts).nextDelta.get rel = [] := by
    simp [coalescedTo, setStable, HashMap.get_erase]
  rw [Holds, rows, ← visibleRows, visibleRows_coalescedTo, hnext, append_nil,
    mem_map_of_injective flattenTuple_injective]

/-- A fact is kept by coalescing just when it has an interval that is inside a span. -/
theorem kept_iff {order : HashOrder} {n : Nat} {facts : List Tuple}
    (hfacts : ∀ t ∈ facts, t.length = n) (t : Tuple) :
    (t ∈ coalesced order n facts ∨ ∃ key i u j, IsInterval t key i ∧ IsInterval u key j ∧
        u ∈ coalesced order n facts ∧ Within (ends i) (ends j)) ↔
      ∃ key i, IsInterval t key i ∧
        ∃ j, Span (intervalsOf {t | t ∈ facts} key) j ∧ Within (ends i) j := by
  have hwithin (key : Tuple) (i : Int64 × Int64) :
      (∃ u j, IsInterval u key j ∧ u ∈ coalesced order n facts ∧ Within (ends i) (ends j)) ↔
        ∃ j, Span (intervalsOf {t | t ∈ facts} key) j ∧ Within (ends i) j := by
    rw [← (merges_coalesced order hfacts key).within_iff]
    constructor
    · rintro ⟨u, j, hj, hu, hij⟩
      exact ⟨ends j, ⟨u, hu, j, hj, rfl⟩, hij⟩
    · rintro ⟨_, ⟨u, hu, j, hj, rfl⟩, hij⟩
      exact ⟨u, j, hj, hu, hij⟩
  constructor
  · rintro (ht | ⟨key, i, u, j, hi, hj, hu, hij⟩)
    · obtain ⟨key, i, rfl⟩ := exists_of_mem_coalesced ht
      exact ⟨key, i, isInterval_times key i,
        (hwithin key i).mp ⟨_, i, isInterval_times key i, ht, le_refl _, le_refl _⟩⟩
    · exact ⟨key, i, hi, (hwithin key i).mp ⟨u, j, hj, hu, hij⟩⟩
  · rintro ⟨key, i, hi, hspan⟩
    obtain ⟨u, j, hj, hu, hij⟩ := (hwithin key i).mpr hspan
    exact .inr ⟨key, i, u, j, hi, hj, hu, hij⟩

theorem holds_iff (s : MemStore) (rel : Name) (t : Tuple) :
    s.Holds rel t ↔ flattenTuple t ∈ s.visibleRows rel ∨ flattenTuple t ∈ s.nextDelta.get rel :=
  mem_append

/-- The facts of a relation that is replaced by its coalesced facts. -/
theorem keepsFacts_coalescedTo_iff {ts : List Tuple} {n : Nat} (order : HashOrder)
    (hts : s.visibleRows rel = ts.map flattenTuple) :
    s.KeepsFacts (s.coalescedTo rel n (coalesced order n (ts.filter (·.length = n)))) rel ↔
      s.Coalesces rel n := by
  have hvisible (t : Tuple) : flattenTuple t ∈ s.visibleRows rel ↔ t ∈ ts := by
    rw [hts, mem_map_of_injective flattenTuple_injective]
  have hlen : ∀ t ∈ ts.filter (·.length = n), t.length = n := fun t ht => by
    simpa using (mem_filter.mp ht).2
  -- Where all visible facts have `n` columns, all of them are coalesced.
  have hall (h : ∀ t ∈ ts, t.length = n) (key : Tuple) :
      intervalsOf {t | t ∈ ts.filter (·.length = n)} key = s.intervals rel key := by
    rw [filter_eq_self.mpr fun t ht => by simpa using h t ht, intervals_eq hts]
  simp only [KeepsFacts, holds_coalescedTo, Coalesces, kept_iff hlen]
  constructor
  · intro hkeep
    have hfits : ∀ t ∈ ts, t.length = n := fun t ht => by
      obtain ⟨key, i, hi, j, hspan, -⟩ :=
        hkeep t ((s.holds_iff rel t).mpr (.inl ((hvisible t).mpr ht)))
      obtain ⟨_, u, hu, k, hk, -⟩ := hspan.exists_mem
      obtain ⟨a, b, rfl, -⟩ := hi
      obtain ⟨a', b', rfl, -⟩ := hk
      simpa using hlen _ hu
    refine ⟨fun t ht => ?_, fun t ht => ?_⟩
    · obtain ⟨key, i, hi, -⟩ := hkeep t ((s.holds_iff rel t).mpr (.inl ht))
      exact ⟨hfits t ((hvisible t).mp ht), key, i, hi⟩
    · obtain ⟨key, i, hi, hspan⟩ := hkeep t ((s.holds_iff rel t).mpr (.inr ht))
      exact ⟨key, i, hi, hall hfits key ▸ hspan⟩
  · rintro ⟨hfacts, hpending⟩ t ht
    have hfits : ∀ t ∈ ts, t.length = n := fun t ht => (hfacts t ((hvisible t).mpr ht)).1
    obtain ht | ht := (s.holds_iff rel t).mp ht
    · obtain ⟨-, key, i, hi⟩ := hfacts t ht
      refine ⟨key, i, hi, ends i, .single ?_, le_refl _, le_refl _⟩
      rw [hall hfits]
      exact ⟨t, ht, i, hi, rfl⟩
    · obtain ⟨key, i, hi, hspan⟩ := hpending t ht
      exact ⟨key, i, hi, (hall hfits key).symm ▸ hspan⟩

end MemStore

/-- **Coalescing loses no fact**, in a store that any calls can reach, just when the relation has
less than two columns, or no visible fact of its arity, or nothing to lose. -/
theorem coalesce_keeps_iff {calls : List MemCall} {s : MemStore}
    (hrun : calls.foldlM MemStore.serve .new = some s) (order : HashOrder) (rel : Name) :
    (∃ s', s.coalesceTemporal order rel = some s' ∧ s.KeepsFacts s' rel) ↔
      ∀ n, s.arity.lookup rel = some n → 2 ≤ n →
        (∃ t, flattenTuple t ∈ s.visibleRows rel ∧ t.length = n) → s.Coalesces rel n := by
  have hflat := MemStore.Flat.new.calls hrun
  have hrows : ∀ row ∈ s.visibleRows rel, ∃ t, row = flattenTuple t ∧ True := fun row hrow =>
    (hflat rel row (mem_append_left _ hrow)).imp fun _ ht => ⟨ht, trivial⟩
  obtain ⟨ts, hts, -⟩ := MemStore.exists_map_flattenTuple hrows
  have hself : s.KeepsFacts s rel := fun t ht => .inl ht
  cases hn : s.arity.lookup rel with
  | none =>
    refine iff_of_true ⟨s, ?_, hself⟩ fun n h => by cases h
    rw [MemStore.coalesceTemporal, hn]
  | some n =>
    simp only [Option.some.injEq, forall_eq']
    by_cases htwo : 2 ≤ n
    · rw [MemStore.coalesceTemporal_eq order hn htwo hts]
      by_cases hnil : ts.filter (·.length = n) = []
      · rw [if_pos hnil]
        refine iff_of_true ⟨s, rfl, hself⟩ ?_
        rintro - ⟨t, ht, hlen⟩
        rw [hts, mem_map_of_injective flattenTuple_injective] at ht
        exact absurd (mem_filter.mpr ⟨ht, by simpa using hlen⟩) (hnil ▸ not_mem_nil)
      · obtain ⟨t, ht⟩ := exists_mem_of_ne_nil _ hnil
        obtain ⟨ht, hlen⟩ := mem_filter.mp ht
        have hvisible : ∃ t, flattenTuple t ∈ s.visibleRows rel ∧ t.length = n :=
          ⟨t, hts ▸ mem_map_of_mem ht, by simpa using hlen⟩
        rw [if_neg hnil]
        simp only [Option.some_inj, exists_eq_left', htwo, hvisible, true_imp_iff]
        exact MemStore.keepsFacts_coalescedTo_iff order hts
    · refine iff_of_true ⟨s, ?_, hself⟩ fun h => absurd h htwo
      rw [MemStore.coalesceTemporal, hn]
      exact if_pos (by omega)

/-- Two facts whose intervals touch. -/
def touchingCalls : List MemCall :=
  [.addFact "p" [.time 1, .time 3], .addFact "p" [.time 4, .time 6]]

theorem coalesce_keeps_touching : ∃ s, touchingCalls.foldlM MemStore.serve .new = some s ∧
    ((∃ s', s.coalesceTemporal .insertion "p" = some s' ∧ s.KeepsFacts s' "p") ↔
      ∀ n, s.arity.lookup ("p" : Name) = some n → 2 ≤ n →
        (∃ t, flattenTuple t ∈ s.visibleRows "p" ∧ t.length = n) → s.Coalesces "p" n) :=
  have hrun : touchingCalls.foldlM MemStore.serve .new = some
      ((MemStore.new.addFact "p" [.time 1, .time 3]).addFact "p" [.time 4, .time 6]) := rfl
  ⟨_, hrun, coalesce_keeps_iff hrun .insertion "p"⟩

/-- A fact with an interval, one with names for ends, and one that is still pending. -/
def mixedCalls : List MemCall :=
  [.insert "p" [.name "/a", .name "/b"], .insert "p" [.time 1, .time 2], .mergeDeltas,
    .insert "p" [.time 5, .time 6]]

/-- **Two of three facts are dropped.** -/
theorem coalesce_drops : ∃ s s', mixedCalls.foldlM MemStore.serve .new = some s ∧
    s.Holds "p" [.name "/a", .name "/b"] ∧ s.Holds "p" [.time 5, .time 6] ∧
    s.coalesceTemporal .insertion "p" = some s' ∧ s'.rows "p" = [flattenTuple [.time 1, .time 2]] ∧
    ¬ s.KeepsFacts s' "p" := by
  refine ⟨_, _, rfl, by decide, by decide, rfl, rfl, fun hkeep => ?_⟩
  obtain hheld | ⟨key, i, -, -, ⟨a, b, heq, -, hb⟩, -⟩ :=
    hkeep [.name "/a", .name "/b"] (by decide)
  · exact absurd hheld (by decide)
  · obtain rfl : .name "/b" = b := by simpa using congrArg List.getLast? heq
    cases hb

end Mangle

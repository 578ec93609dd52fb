import Mangle.Store.Tiers

/-!
# Store/Indexes — the column indexes, over whole runs

An index lookup returns what a scan with a filter would, as long as the indexes list the rows where
they are (`Indexed`).  Every call keeps this but one: a retraction that finds its row in the delta
alone moves rows of the delta, and leaves the index of the delta as it was.

* `indexes_exact` — over every run of calls without such a retraction;
* `index_outlives_row` — an index entry for a row that is gone, and one for another row.
-/

namespace Mangle

open Machinery List

variable {n : Nat}

/-! ## Calls -/

/-- A call of a `MemStore`. -/
inductive MemCall where
  | createRelation (rel : Name)
  | addFact (rel : Name) (t : Tuple)
  | insert (rel : Name) (t : Tuple)
  | mergeDeltas
  | retract (rel : Name) (t : Tuple)
  | clear (rel : Name)
  | coalesceTemporal (order : HashOrder) (rel : Name)

/-- The call adds a tuple of the arity of its relation, if any. -/
def MemCall.Fits (arity : Name → Nat) : MemCall → Prop
  | addFact rel t | insert rel t => t.length = arity rel
  | _ => True

namespace MemStore

/-- The store after a call, unless it panics. -/
def serve (s : MemStore) : MemCall → Option MemStore
  | .createRelation rel => some (s.createRelation rel)
  | .addFact rel t => some (s.addFact rel t)
  | .insert rel t => some (s.insert rel t).2
  | .mergeDeltas => some s.mergeDeltas
  | .retract rel t => (s.retract rel t).map Prod.snd
  | .clear rel => some (s.clear rel)
  | .coalesceTemporal order rel => s.coalesceTemporal order rel

/-- The call does not retract a row that is in the delta alone. -/
def Careful (s : MemStore) : MemCall → Prop
  | .retract rel t => flattenTuple t ∈ s.delta.get rel → flattenTuple t ∈ s.stable.get rel
  | _ => True

/-- Every call of a run is careful in the state it meets. -/
def CarefulAll : MemStore → List MemCall → Prop
  | _, [] => True
  | s, call :: calls => s.Careful call ∧ ∀ s', s.serve call = some s' → s'.CarefulAll calls

end MemStore

/-! ## Adding facts -/

section

variable {s s' : MemStore} {c : Tiers} {arity : Name → Nat} {rel : Name} {t : Tuple}

/-- `add_fact` on tiers, of a tuple that is not stable yet. -/
def Tiers.addStable (c : Tiers) (rel : Name) (t : Tuple) : Tiers :=
  { c with
    stable := Function.update c.stable rel (c.stable rel ++ [t])
    arity := Function.update c.arity rel (some t.length) }

theorem Tiers.mem_all_addStable {r : Name} {u : Tuple} :
    u ∈ (c.addStable rel t).all r ↔ u ∈ c.all r ∨ r = rel ∧ u = t := by
  by_cases hr : r = rel
  · subst hr
    simp only [addStable, all, visible, Function.update_self, mem_append, mem_singleton,
      true_and]
    tauto
  · simp [addStable, all, visible, hr]

theorem Laid.addFact_new (h : Laid s c) (harity : ∀ n ∈ c.arity rel, n = t.length)
    (hnew : t ∉ c.stable rel) : Laid (s.addFact rel t) (c.addStable rel t) := by
  have hrow : flattenTuple t ∉ s.stable.get rel := by
    rwa [h.stable, mem_map_of_injective flattenTuple_injective]
  have heq : s.addFact rel t = { s.registerArity rel t.length with
      stable := (s.registerArity rel t.length).stable.modify rel (· ++ [flattenTuple t])
      stableIndexes := Function.update s.stableIndexes rel
        (indexRows (columnKeys t.length) (s.stableIndexes rel) (s.stable.get rel).length
          [flattenTuple t]) } := by
    rw [MemStore.addFact, if_neg hrow]
    rfl
  rw [heq]
  refine ⟨fun r u hu => ?_, fun r => ?_, h.delta, h.next, h.registerArity harity⟩
  · by_cases hr : r = rel
    · subst hr
      simp only [Tiers.addStable, Function.update_self]
      obtain hu | ⟨-, rfl⟩ := Tiers.mem_all_addStable.mp hu
      · rw [harity _ (h.fits r u hu)]
      · rfl
    · simp only [Tiers.addStable, Function.update_of_ne hr]
      exact h.fits r u ((Tiers.mem_all_addStable.mp hu).resolve_right fun hu => hr hu.1)
  · rw [HashMap.get_modify]
    by_cases hr : r = rel
    · subst hr
      simp [Tiers.addStable, MemStore.registerArity, h.stable]
    · simp [Tiers.addStable, MemStore.registerArity, h.stable, hr]

theorem Laid.indexed_addFact_new (h : Laid s c) (hi : Indexed s)
    (harity : ∀ n ∈ c.arity rel, n = t.length) (hnew : t ∉ c.stable rel) :
    Indexed (s.addFact rel t) := by
  have hlaid := h.addFact_new harity hnew
  have hrow : flattenTuple t ∉ s.stable.get rel := by
    rwa [h.stable, mem_map_of_injective flattenTuple_injective]
  have hall {r : Name} {u : Tuple} (hu : u ∈ c.all r) : u ∈ (c.addStable rel t).all r :=
    Tiers.mem_all_addStable.mpr (.inl hu)
  have hcols : (s.addFact rel t).nCols rel = t.length :=
    hlaid.nCols_of_mem (Tiers.mem_all_addStable.mpr (.inr ⟨rfl, rfl⟩))
  have hold (r : Name) := h.indexRows_eq hlaid r (c.stable r) fun _ hu =>
    ⟨Tiers.mem_all_of_stable hu, hall (Tiers.mem_all_of_stable hu)⟩
  refine ⟨fun r => ?_, fun r => ?_⟩
  · have hix : (s.addFact rel t).stableIndexes = Function.update s.stableIndexes rel
        (indexRows (columnKeys t.length) (s.stableIndexes rel) (s.stable.get rel).length
          [flattenTuple t]) := by
      rw [MemStore.addFact, if_neg hrow]
      rfl
    rw [hix, hlaid.stable]
    by_cases hr : r = rel
    · subst hr
      simp only [Tiers.addStable, Function.update_self, map_append, indexRows_append, hcols,
        hi.stable, h.stable, length_map, Nat.zero_add]
      rw [hold, hcols]
      rfl
    · simp only [Tiers.addStable, Function.update_of_ne hr, hi.stable, h.stable]
      exact hold r
  · have hdelta : (s.addFact rel t).deltaIndexes = s.deltaIndexes := by
      rw [MemStore.addFact, if_neg hrow]
      rfl
    rw [hdelta, hi.delta, hlaid.delta, h.delta]
    exact h.indexRows_eq hlaid r (c.delta r) fun _ hu =>
      ⟨Tiers.mem_all_of_delta hu, hall (Tiers.mem_all_of_delta hu)⟩

end

/-! ## Coalescing -/

variable {g : Tuple × List (Int64 × Int64)}

theorem MemStore.length_coalesceGroup {t : Tuple}
    (ht : t ∈ coalesceGroup g) : t.length = g.1.length + 2 := by
  obtain ⟨key, intervals⟩ := g
  rw [coalesceGroup] at ht
  split at ht
  · cases ht
  · obtain ⟨i, -, rfl⟩ := mem_map.mp ht
    simp

variable {groups : List (Tuple × List (Int64 × Int64))}

theorem MemStore.mem_addToGroup {key : Tuple} {i : Int64 × Int64}
    (hg : g ∈ addToGroup key i groups) : g.1 = key ∨ ∃ g' ∈ groups, g.1 = g'.1 := by
  induction groups with
  | nil =>
    obtain rfl := mem_singleton.mp hg
    exact .inl rfl
  | cons head groups ih =>
    obtain ⟨k, is⟩ := head
    rw [addToGroup] at hg
    split at hg
    · rename_i heq
      obtain rfl | hg := mem_cons.mp hg
      · exact .inl heq
      · exact .inr ⟨g, mem_cons_of_mem _ hg, rfl⟩
    · obtain rfl | hg := mem_cons.mp hg
      · exact .inr ⟨_, mem_cons_self, rfl⟩
      · exact (ih hg).imp_right fun ⟨g', hg', heq⟩ => ⟨g', mem_cons_of_mem _ hg', heq⟩

/-- Enter a fact of `n` columns in the group of its key. -/
def MemStore.enterFact (n : Nat) (groups : List (Tuple × List (Int64 × Int64))) (fact : Tuple) :
    List (Tuple × List (Int64 × Int64)) :=
  match fact.drop (n - 2) with
  | start :: stop :: _ =>
      match boundNanos start, boundNanos stop with
      | some a, some b => addToGroup (fact.take (n - 2)) (a, b) groups
      | _, _ => groups
  | _ => groups

/-- The facts that coalescing leaves. -/
def MemStore.coalesced (order : HashOrder) (n : Nat) (facts : List Tuple) : List Tuple :=
  (order.perm (facts.foldl (enterFact n) [])).flatMap coalesceGroup

theorem MemStore.length_enterFact {fact : Tuple}
    (hfact : fact.length = n) (hgroups : ∀ g ∈ groups, g.1.length = n - 2) :
    ∀ g ∈ enterFact n groups fact, g.1.length = n - 2 := by
  unfold enterFact
  split
  · split
    · intro g hg
      obtain heq | ⟨g', hg', heq⟩ := mem_addToGroup hg
      · rw [heq, length_take]
        omega
      · rw [heq]
        exact hgroups g' hg'
    · exact hgroups
  · exact hgroups

/-- **Coalesced facts keep the arity** of the relation. -/
theorem MemStore.length_coalesced (order : HashOrder) {facts : List Tuple} (hn : 2 ≤ n)
    (hfacts : ∀ t ∈ facts, t.length = n) : ∀ t ∈ coalesced order n facts, t.length = n := by
  have hkeys : ∀ g ∈ facts.foldl (enterFact n) [], g.1.length = n - 2 :=
    List.foldlRecOn facts (enterFact n) (motive := fun groups => ∀ g ∈ groups, g.1.length = n - 2)
      (fun _ h => (by cases h)) fun groups hgroups fact hfact =>
        length_enterFact (hfacts fact hfact) hgroups
  intro t ht
  obtain ⟨g, hg, ht⟩ := mem_flatMap.mp ht
  rw [(order.perm_perm _).mem_iff] at hg
  rw [length_coalesceGroup ht, hkeys g hg]
  omega

section

variable {s s' : MemStore} {c : Tiers} {rel : Name}

/-- `coalesce_temporal` on tiers. -/
def Tiers.setStable (c : Tiers) (rel : Name) (ts : List Tuple) : Tiers :=
  { c with
    stable := Function.update c.stable rel ts
    delta := Function.update c.delta rel []
    next := Function.update c.next rel [] }

/-- The store whose relation holds the stable tuples `ts` alone, before its indexes are built. -/
def MemStore.setStable (s : MemStore) (rel : Name) (ts : List Tuple) : MemStore :=
  { s with
    stable := s.stable.insert rel (ts.map flattenTuple)
    delta := s.delta.erase rel
    nextDelta := s.nextDelta.erase rel }

theorem Laid.setStable (h : Laid s c) {ts : List Tuple} (hn : c.arity rel = some n)
    (hts : ∀ t ∈ ts, t.length = n) : Laid (s.setStable rel ts) (c.setStable rel ts) := by
  refine ⟨fun r u hu => ?_, fun r => ?_, fun r => ?_, fun r => ?_, h.arity⟩
  · by_cases hr : r = rel
    · subst hr
      have hu : u ∈ ts := by simpa [Tiers.setStable, Tiers.all, Tiers.visible] using hu
      rw [hts u hu]
      exact hn
    · refine h.fits r u ?_
      simpa [Tiers.setStable, Tiers.all, Tiers.visible, hr] using hu
  all_goals by_cases hr : r = rel
  · subst hr
    simp [MemStore.setStable, Tiers.setStable, HashMap.get_insert]
  · simp [MemStore.setStable, Tiers.setStable, HashMap.get_insert, hr, h.stable]
  · subst hr
    simp [MemStore.setStable, Tiers.setStable, HashMap.get_erase]
  · simp [MemStore.setStable, Tiers.setStable, HashMap.get_erase, hr, h.delta]
  · subst hr
    simp [MemStore.setStable, Tiers.setStable, HashMap.get_erase]
  · simp [MemStore.setStable, Tiers.setStable, HashMap.get_erase, hr, h.next]

theorem Laid.coalesceTemporal_eq (h : Laid s c) (order : HashOrder) (hn : c.arity rel = some n)
    (hle : ¬ n < 2) :
    s.coalesceTemporal order rel =
      if (c.visible rel).isEmpty then some s
      else (s.setStable rel (MemStore.coalesced order n
        (c.visible rel))).rebuildIndexesFor rel := by
  have hcols : s.nCols rel = n := by rw [MemStore.nCols, h.arity, hn, Option.getD_some]
  have hrows := h.filter_fits rel (c.visible rel) fun _ => Tiers.mem_all_of_visible
  have hread := h.readRows (c.visible rel) fun _ => Tiers.mem_all_of_visible
  rw [hcols, Tiers.visible, map_append] at hrows
  rw [Tiers.visible, map_append] at hread
  unfold MemStore.coalesceTemporal
  simp only [h.arity, hn, if_neg hle, h.stable, h.delta, hrows, hread]
  rfl

/-- **Coalescing** changes nothing, or replaces the facts of the relation and builds its indexes. -/
theorem Laid.coalesceTemporal (h : Laid s c) (hi : Indexed s) (order : HashOrder) (rel : Name) :
    ∃ s' c', s.coalesceTemporal order rel = some s' ∧ Laid s' c' ∧ Indexed s' ∧
      c'.arity = c.arity := by
  cases hn : c.arity rel with
  | none =>
    refine ⟨s, c, ?_, h, hi, rfl⟩
    rw [MemStore.coalesceTemporal, h.arity, hn]
  | some n =>
    by_cases hlt : n < 2
    · refine ⟨s, c, ?_, h, hi, rfl⟩
      rw [MemStore.coalesceTemporal, h.arity, hn]
      exact if_pos hlt
    rw [h.coalesceTemporal_eq order hn hlt]
    by_cases hempty : (c.visible rel).isEmpty = true
    · exact ⟨s, c, if_pos hempty, h, hi, rfl⟩
    rw [if_neg hempty]
    have hlen : ∀ t ∈ c.visible rel, t.length = n := fun t ht =>
      Option.some.inj ((h.fits rel t (Tiers.mem_all_of_visible ht)).symm.trans hn)
    have hlaid := h.setStable hn (MemStore.length_coalesced order (by omega) hlen)
    obtain ⟨s', hs', hlaid', hstable, hdelta, harity, hix, hdix⟩ := hlaid.rebuildIndexesFor rel
    have hcols (r : Name) : s'.nCols r = s.nCols r := by
      rw [MemStore.nCols, harity]
      rfl
    refine ⟨s', _, hs', hlaid', ⟨fun r => ?_, fun r => ?_⟩, rfl⟩
    · rw [hix, hstable, hcols]
      by_cases hr : r = rel
      · rw [if_pos hr]
        rfl
      · rw [if_neg hr, MemStore.setStable, HashMap.get_insert, if_neg hr]
        exact hi.stable r
    · rw [hdix, hdelta, hcols]
      by_cases hr : r = rel
      · rw [if_pos hr]
        rfl
      · rw [if_neg hr, MemStore.setStable, HashMap.get_erase, if_neg hr]
        exact hi.delta r

end

/-! ## Exact indexes -/

/-- The indexes are exact: a lookup under a scalar key yields the scanned tuples with this value in
the column, each as often as the scan does, and no entry is past the end of its table. -/
structure MemStore.IndexesExact (s : MemStore) : Prop where
  lookups : ∀ (rel : Name) (col : Nat) (key : Value), key.isScalar = true →
    ∃ l d, s.scan rel = some l ∧ s.scanDelta rel = some d ∧
      s.scanIndex rel col key = some (l.filter fun t => t[col]? = some key) ∧
      s.scanDeltaIndex rel col key = some (d.filter fun t => t[col]? = some key)
  inBounds : ∀ (rel : Name) (col : Nat) (cell : Cell),
    (∀ i ∈ s.stableIndexes rel col cell, i < (s.stable.get rel).length) ∧
      ∀ i ∈ s.deltaIndexes rel col cell, i < (s.delta.get rel).length

theorem Tuple.hasKey_eq {key : Value} (hkey : key.isScalar = true) (col : Nat) :
    Tuple.hasKey col key = fun t => decide (t[col]? = some key) := by
  funext t
  rw [Tuple.hasKey, decide_eq_decide]
  cases t[col]? with
  | none => simp
  | some v => simp [Value.index_eq_iff hkey]

theorem mem_positions {p : Row → Bool} {i k : Nat} {rows : List Row} :
    k ∈ positions p i rows ↔ ∃ j row, rows[j]? = some row ∧ p row = true ∧ k = i + j := by
  induction rows generalizing i with
  | nil => simp [positions]
  | cons cells rows ih =>
    have hrest : k ∈ positions p (i + 1) rows ↔
        ∃ j row, (cells :: rows)[j + 1]? = some row ∧ p row = true ∧ k = i + (j + 1) := by
      simp only [ih, List.getElem?_cons_succ, Nat.add_assoc, Nat.add_comm 1]
    have hsplit : (∃ j row, (cells :: rows)[j]? = some row ∧ p row = true ∧ k = i + j) ↔
        (p cells = true ∧ k = i) ∨ k ∈ positions p (i + 1) rows := by
      rw [hrest]
      constructor
      · rintro ⟨_ | j, row, hrow, hp, rfl⟩
        · cases hrow
          exact .inl ⟨hp, rfl⟩
        · exact .inr ⟨j, row, hrow, hp, rfl⟩
      · rintro (⟨hp, rfl⟩ | ⟨j, row, hrow, hp, rfl⟩)
        · exact ⟨0, cells, rfl, hp, rfl⟩
        · exact ⟨j + 1, row, hrow, hp, rfl⟩
    rw [hsplit, positions]
    by_cases hp : p cells = true
    · simp [hp]
    · simp [hp]

/-- An entry of the index of a table is the number of one of its rows. -/
theorem lt_of_mem_indexRows {keys : Row → Option (List Cell)} {rows : List Row} {col k : Nat}
    {cell : Cell} (h : k ∈ indexRows keys .empty 0 rows col cell) : k < rows.length := by
  rw [indexRows_apply, RelIndex.empty, nil_append, mem_positions] at h
  obtain ⟨j, row, hrow, -, rfl⟩ := h
  rw [Nat.zero_add]
  exact (List.getElem?_eq_some_iff.mp hrow).1

theorem Laid.indexesExact {s : MemStore} {c : Tiers} (h : Laid s c) (hi : Indexed s) :
    s.IndexesExact where
  lookups rel col key hkey := by
    refine ⟨_, _, h.scan rel, h.scanDelta rel, ?_, ?_⟩
    · rw [h.scanIndex hi, Tuple.hasKey_eq hkey]
    · rw [h.scanDeltaIndex hi, Tuple.hasKey_eq hkey]
  inBounds rel col cell := by
    rw [hi.stable, hi.delta]
    exact ⟨fun _ => lt_of_mem_indexRows, fun _ => lt_of_mem_indexRows⟩

/-! ## Retractions -/

section

variable {s s' : MemStore} {c : Tiers} {rel : Name} {t : Tuple}

/-- A row without columns is in no index. -/
theorem indexRows_columnKeys_zero (i : Nat) (rows : List Row) :
    indexRows (columnKeys 0) .empty i rows = .empty := by
  funext col key
  rw [indexRows_apply]
  have hnone : positions (hasKey (columnKeys 0) col key) i rows = [] := by
    refine eq_nil_iff_forall_not_mem.mpr fun k hk => ?_
    obtain ⟨j, row, -, hkey, -⟩ := mem_positions.mp hk
    simp [hasKey, columnKeys] at hkey
  rw [hnone, append_nil]

/-- What a retraction of a row that is in the delta alone leaves. -/
theorem Laid.retract_delta (h : Laid s c) (hstable : t ∉ c.stable rel) :
    ∃ s', s.retract rel t = some (false, s') ∧ Laid s' (c.retract rel t) ∧ s'.arity = s.arity ∧
      s'.stableIndexes = s.stableIndexes ∧ s'.deltaIndexes = s.deltaIndexes := by
  obtain ⟨s', hs', hlaid⟩ := h.retract rel t
  have hrow : (s.stable.get rel).contains (flattenTuple t) = false := by
    rw [h.stable]
    simpa using hstable
  refine ⟨s', by simpa [hstable] using hs', hlaid, ?_⟩
  simp only [MemStore.retract, hrow, Bool.false_eq_true, if_false, Option.some_inj,
    Prod.mk.injEq] at hs'
  obtain ⟨-, rfl⟩ := hs'
  exact ⟨rfl, rfl, rfl⟩

/-- The index of the delta lists one row more than the delta has after such a retraction. -/
theorem Laid.not_exact_retract (h : Laid s c) (hi : Indexed s) (hdelta : t ∈ c.delta rel)
    (hstable : t ∉ c.stable rel) (hne : t ≠ []) {b : Bool} (hs' : s.retract rel t = some (b, s')) :
    ¬ s'.IndexesExact := by
  obtain ⟨s₁, hs₁, hlaid, -, -, hix⟩ := h.retract_delta hstable
  obtain rfl : s₁ = s' := (Prod.mk.inj (Option.some.inj (hs₁.symm.trans hs'))).2
  have hpos : 0 < (c.delta rel).length := length_pos_of_mem hdelta
  obtain ⟨u, hu⟩ : ∃ u, (c.delta rel)[(c.delta rel).length - 1]? = some u :=
    ⟨_, List.getElem?_eq_getElem (by omega)⟩
  have hmem : u ∈ c.all rel := Tiers.mem_all_of_delta (mem_of_getElem? hu)
  have hlen : u.length = t.length := Option.some.inj ((h.fits rel u hmem).symm.trans
    (h.fits rel t (Tiers.mem_all_of_delta hdelta)))
  cases u with
  | nil => exact absurd (length_eq_zero_iff.mp hlen.symm) hne
  | cons v vs =>
    have hentry : (c.delta rel).length - 1 ∈ s.deltaIndexes rel 0 (valueToIndexKey v) := by
      rw [hi.delta, h.delta, indexRows_apply, RelIndex.empty, nil_append, mem_positions]
      refine ⟨_, flattenTuple (v :: vs), by rw [List.getElem?_map, hu]; rfl, ?_,
        (Nat.zero_add _).symm⟩
      rw [hasKey, h.nCols_of_mem hmem, columnKeys_flattenTuple]
      simp
    intro hexact
    have hlt := (hexact.inBounds rel 0 (valueToIndexKey v)).2 _ (hix ▸ hentry)
    have hshort : (s₁.delta.get rel).length = (c.delta rel).length - 1 := by
      have hrest : (c.retract rel t).delta rel = removeRow t (c.delta rel) :=
        Function.update_self ..
      rw [hlaid.delta, length_map, hrest, length_removeRow hdelta]
    omega

/-- Rows without columns are in no index. -/
theorem Laid.indexed_retract_nil (h : Laid s c) (hi : Indexed s) (hdelta : [] ∈ c.delta rel)
    (hstable : [] ∉ c.stable rel) {b : Bool} (hs' : s.retract rel [] = some (b, s')) :
    Indexed s' := by
  obtain ⟨s₁, hs₁, hlaid, harity, hsix, hix⟩ := h.retract_delta hstable
  obtain rfl : s₁ = s' := (Prod.mk.inj (Option.some.inj (hs₁.symm.trans hs'))).2
  have hzero : s.nCols rel = 0 := h.nCols_of_mem (Tiers.mem_all_of_delta hdelta)
  have hcols (r : Name) : s₁.nCols r = s.nCols r := by
    rw [MemStore.nCols, harity]
    rfl
  refine ⟨fun r => ?_, fun r => ?_⟩ <;> by_cases hr : r = rel
  · subst hr
    rw [hsix, hi.stable, hcols, hzero, indexRows_columnKeys_zero, indexRows_columnKeys_zero]
  · have hsame : (c.retract rel []).stable r = c.stable r := Function.update_of_ne hr ..
    rw [hsix, hi.stable, hcols, hlaid.stable, h.stable, hsame]
  · subst hr
    rw [hix, hi.delta, hcols, hzero, indexRows_columnKeys_zero, indexRows_columnKeys_zero]
  · have hsame : (c.retract rel []).delta r = c.delta r := Function.update_of_ne hr ..
    rw [hix, hi.delta, hcols, hlaid.delta, h.delta, hsame]

/-- **A retraction keeps the indexes exact** just when its row is not in the delta alone, unless it
has no columns. -/
theorem Laid.exact_retract_iff (h : Laid s c) (hi : Indexed s) (rel : Name) (t : Tuple) :
    (∃ s', s.serve (.retract rel t) = some s' ∧ s'.IndexesExact) ↔
      s.Careful (.retract rel t) ∨ t = [] := by
  obtain ⟨s', hs', hlaid⟩ := h.retract rel t
  have hcall : s.serve (.retract rel t) = some s' := by rw [MemStore.serve, hs']; rfl
  have hcareful : s.Careful (.retract rel t) ↔ (t ∈ c.delta rel → t ∈ c.stable rel) := by
    rw [MemStore.Careful, h.delta, h.stable, mem_map_of_injective flattenTuple_injective,
      mem_map_of_injective flattenTuple_injective]
  simp only [hcall, Option.some_inj, exists_eq_left', hcareful]
  by_cases hin : t ∈ c.delta rel → t ∈ c.stable rel
  · exact iff_of_true (hlaid.indexesExact (h.indexed_retract hi hin hs')) (.inl hin)
  · obtain ⟨hdelta, hstable⟩ := Classical.not_imp.mp hin
    by_cases hne : t = []
    · subst hne
      exact iff_of_true (hlaid.indexesExact (h.indexed_retract_nil hi hdelta hstable hs'))
        (.inr rfl)
    · exact iff_of_false (h.not_exact_retract hi hdelta hstable hne hs')
        (not_or.mpr ⟨hin, hne⟩)

end

/-! ## Runs -/

/-- What holds in every state of a run: rows of the arities `arity`, and indexes that list them. -/
structure MemStore.InOrder (arity : Name → Nat) (s : MemStore) : Prop where
  laid : ∃ c, Laid s c ∧ ∀ rel, ∀ n ∈ c.arity rel, n = arity rel
  indexed : Indexed s

theorem MemStore.InOrder.new (arity : Name → Nat) : MemStore.new.InOrder arity :=
  ⟨⟨.empty, Rep.new.toLaid, fun _ _ hn => (by cases hn)⟩, Indexed.new⟩

/-- **A careful call** succeeds and keeps the order. -/
theorem MemStore.InOrder.serve {arity : Name → Nat} {s : MemStore} (h : s.InOrder arity)
    {call : MemCall} (hfits : call.Fits arity) (hcareful : s.Careful call) :
    ∃ s', s.serve call = some s' ∧ s'.InOrder arity := by
  obtain ⟨⟨c, hlaid, harity⟩, hi⟩ := h
  cases call with
  | createRelation rel =>
    exact ⟨_, rfl, ⟨c, hlaid.createRelation rel, harity⟩, hi.createRelation rel⟩
  | addFact rel t =>
    refine ⟨_, rfl, ?_⟩
    have hlen : ∀ n ∈ c.arity rel, n = t.length := fun n hn => (harity rel n hn).trans hfits.symm
    by_cases hmem : t ∈ c.stable rel
    · have hrow : flattenTuple t ∈ s.stable.get rel := by
        rwa [hlaid.stable, mem_map_of_injective flattenTuple_injective]
      rw [MemStore.addFact, if_pos hrow]
      exact ⟨⟨c, hlaid.createRelation rel, harity⟩, hi.createRelation rel⟩
    · refine ⟨⟨_, hlaid.addFact_new hlen hmem, fun r n hn => ?_⟩,
        hlaid.indexed_addFact_new hi hlen hmem⟩
      by_cases hr : r = rel
      · subst hr
        simp only [Tiers.addStable, Function.update_self, Option.mem_some] at hn
        exact hn.symm.trans hfits
      · exact harity r n (by simpa [Tiers.addStable, hr] using hn)
  | insert rel t =>
    refine ⟨_, rfl, ⟨_, hlaid.insert rel t, fun r n hn => ?_⟩, hlaid.indexed_insert hi rel t⟩
    obtain hn | ⟨rfl, rfl⟩ := Tiers.arity_insert hn
    · exact harity r n hn
    · exact hfits
  | mergeDeltas =>
    exact ⟨_, rfl, ⟨_, hlaid.mergeDeltas, harity⟩, hlaid.indexed_mergeDeltas hi⟩
  | retract rel t =>
    obtain ⟨s', hs', hlaid'⟩ := hlaid.retract rel t
    refine ⟨s', by rw [MemStore.serve, hs']; rfl, ⟨_, hlaid', harity⟩,
      hlaid.indexed_retract hi (fun hin => ?_) hs'⟩
    rw [MemStore.Careful, hlaid.delta, hlaid.stable,
      mem_map_of_injective flattenTuple_injective,
      mem_map_of_injective flattenTuple_injective] at hcareful
    exact hcareful hin
  | clear rel => exact ⟨_, rfl, ⟨_, hlaid.clear rel, harity⟩, hi.clear rel⟩
  | coalesceTemporal order rel =>
    obtain ⟨s', c', hs', hlaid', hi', heq⟩ := hlaid.coalesceTemporal hi order rel
    exact ⟨s', hs', ⟨c', hlaid', heq ▸ harity⟩, hi'⟩

/-- **A run** of careful calls. -/
theorem MemStore.InOrder.calls {arity : Name → Nat} {s : MemStore} (h : s.InOrder arity)
    {calls : List MemCall} (hfits : ∀ call ∈ calls, call.Fits arity)
    (hcareful : s.CarefulAll calls) :
    ∃ s', calls.foldlM MemStore.serve s = some s' ∧ s'.InOrder arity := by
  induction calls generalizing s with
  | nil => exact ⟨s, rfl, h⟩
  | cons call calls ih =>
    obtain ⟨s₁, hs₁, h₁⟩ := h.serve (hfits call mem_cons_self) hcareful.1
    obtain ⟨s', hs', h'⟩ := ih h₁ (fun c hc => hfits c (mem_cons_of_mem _ hc))
      (hcareful.2 s₁ hs₁)
    refine ⟨s', ?_, h'⟩
    rw [foldlM_cons, hs₁]
    exact hs'

/-- **The indexes are exact** after every run of calls on a new store whose tuples have one arity a
relation, as long as no call retracts a row that is in the delta alone.  One more call keeps them
exact just when it is no such retraction, unless the row has no columns. -/
theorem indexes_exact {arity : Name → Nat} {calls : List MemCall}
    (hfits : ∀ call ∈ calls, call.Fits arity) (hcareful : MemStore.new.CarefulAll calls) :
    ∃ s, calls.foldlM MemStore.serve .new = some s ∧ s.IndexesExact ∧
      ∀ call : MemCall, call.Fits arity → ((∃ s', s.serve call = some s' ∧ s'.IndexesExact) ↔
        s.Careful call ∨ ∃ rel, call = .retract rel []) := by
  obtain ⟨s, hs, horder⟩ := (MemStore.InOrder.new arity).calls hfits hcareful
  obtain ⟨⟨c, hlaid, harity⟩, hi⟩ := horder
  refine ⟨s, hs, hlaid.indexesExact hi, fun call hfit => ?_⟩
  by_cases hretract : ∃ rel t, call = .retract rel t
  · obtain ⟨rel, t, rfl⟩ := hretract
    rw [hlaid.exact_retract_iff hi]
    simp
  · have hcare : s.Careful call := by
      cases call <;> first | trivial | exact absurd ⟨_, _, rfl⟩ hretract
    obtain ⟨s', hs', ⟨c', hlaid', -⟩, hi'⟩ :=
      MemStore.InOrder.serve ⟨⟨c, hlaid, harity⟩, hi⟩ hfit hcare
    exact iff_of_true ⟨s', hs', hlaid'.indexesExact hi'⟩ (.inl hcare)

/-- Two facts, of which the first is retracted once it is stable. -/
def settledCalls : List MemCall :=
  [.insert "p" [.number 1], .insert "p" [.number 2], .mergeDeltas, .mergeDeltas,
    .retract "p" [.number 1]]

theorem indexes_exact_settled : ∃ s, settledCalls.foldlM MemStore.serve .new = some s ∧
    s.IndexesExact ∧
    ∀ call : MemCall, call.Fits (fun _ => 1) → ((∃ s', s.serve call = some s' ∧ s'.IndexesExact) ↔
      s.Careful call ∨ ∃ rel, call = .retract rel []) := by
  refine indexes_exact ?_ ?_
  · simp [settledCalls, MemCall.Fits]
  · refine ⟨trivial, fun s₁ h₁ => ⟨trivial, fun s₂ h₂ => ⟨trivial, fun s₃ h₃ => ⟨trivial,
      fun s₄ h₄ => ⟨?_, fun _ _ => trivial⟩⟩⟩⟩⟩
    cases h₁
    cases h₂
    cases h₃
    cases h₄
    exact fun _ => by decide

/-- Two facts, of which the first is retracted while they are new. -/
def hastyCalls : List MemCall :=
  [.insert "p" [.number 1], .insert "p" [.number 2], .mergeDeltas, .retract "p" [.number 1]]

/-- **An index outlives its row**: `p(2)` takes the place of `p(1)` in the delta, and the index
still lists it under 1; under 2 it lists a row that is not there. -/
theorem index_outlives_row : ∃ s, hastyCalls.foldlM MemStore.serve .new = some s ∧
    s.scan "p" = some [[.number 2]] ∧ s.scanIndex "p" 0 (.number 1) = some [[.number 2]] ∧
    s.scanIndex "p" 0 (.number 2) = none ∧ s.scanDeltaIndex "p" 0 (.number 2) = none :=
  ⟨_, rfl, rfl, rfl, rfl, rfl⟩

end Mangle

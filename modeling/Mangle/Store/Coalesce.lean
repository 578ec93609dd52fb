import Mangle.Machinery.Intervals
import Mangle.Store.Indexes

/-!
# Store/Coalesce — what coalescing leaves of a relation

The facts of a relation, grouped by all but their last two columns, are replaced by one fact for
each merged interval of a group.  `Merges`: for every key the intervals that are left are the merged
ones of those that were there, whatever order the groups are walked in.

* `coalesce_exact` — the intervals left have the same points, are apart, stable and indexed, and
  another call changes nothing.
-/

namespace Mangle

open Machinery Intervals List

variable {is : List (Int64 × Int64)} {t : Tuple} {i : Int64 × Int64}
  {held : Tuple → Int64 × Int64 → Prop} {order : HashOrder}

/-! ## Intervals as pairs of integers -/

/-- The two ends of an interval. -/
def ends (i : Int64 × Int64) : Interval := (i.1.toInt, i.2.toInt)

theorem ends_injective : Function.Injective ends := fun i j h => by
  obtain ⟨h₁, h₂⟩ := Prod.mk.inj h
  exact Prod.ext (Int64.toInt_inj.mp h₁) (Int64.toInt_inj.mp h₂)

namespace MemStore

theorem le_saturatingSucc {s e : Int64} : s ≤ saturatingSucc e ↔ s.toInt ≤ e.toInt + 1 := by
  have hs := s.toInt_lt
  rw [saturatingSucc, Int64.le_iff_toInt_le]
  split
  · rename_i h
    subst h
    have : Int64.maxValue.toInt = 2 ^ 63 - 1 := by decide
    omega
  · rename_i h
    have hne : e.toInt ≠ 2 ^ 63 - 1 := fun heq => h (Int64.toInt_inj.mp (heq.trans (by decide)))
    have he := e.toInt_lt
    have hle := e.le_toInt
    have hsucc : (e + 1).toInt = e.toInt + 1 := by
      rw [Int64.toInt_add, Int64.toInt_one, Int.bmod_eq_of_le] <;> omega
    rw [hsucc]

theorem toInt_max (a b : Int64) : (max a b).toInt = max a.toInt b.toInt := by
  change (if a ≤ b then b else a).toInt = _
  by_cases h : a ≤ b
  · rw [if_pos h, max_eq_right (Int64.le_iff_toInt_le.mp h)]
  · rw [if_neg h, max_eq_left]
    rw [Int64.le_iff_toInt_le] at h
    omega

theorem map_ends_mergeIntervals (last : Int64 × Int64) (is : List (Int64 × Int64)) :
    (mergeIntervals last is).map ends = Intervals.merge (ends last) (is.map ends) := by
  induction is generalizing last with
  | nil => rfl
  | cons i is ih =>
    obtain ⟨s, e⟩ := i
    have hcond : s ≤ saturatingSucc last.2 ↔ (ends (s, e)).1 ≤ (ends last).2 + 1 :=
      le_saturatingSucc
    rw [mergeIntervals, map_cons, Intervals.merge]
    by_cases h : s ≤ saturatingSucc last.2
    · rw [if_pos h, if_pos (hcond.mp h), ih]
      simp [ends, toInt_max]
    · rw [if_neg h, if_neg (hcond.not.mp h), map_cons, ih]

/-- The intervals of a group, in the order of their starts, merged. -/
def merged (is : List (Int64 × Int64)) : List (Int64 × Int64) :=
  match is.insertionSort fun a b => a.1 ≤ b.1 with
  | [] => []
  | first :: rest => mergeIntervals first rest

theorem coalesceGroup_eq (key : Tuple) (is : List (Int64 × Int64)) :
    coalesceGroup (key, is) = (merged is).map fun i => key ++ [.time i.1, .time i.2] := by
  rw [coalesceGroup, merged]
  cases is.insertionSort fun a b => a.1 ≤ b.1 <;> rfl

/-- **The merged intervals of a group** are those of an ordered list of the same intervals. -/
theorem merged_eq (hne : is ≠ []) :
    ∃ last rest, Ordered (last :: rest) ∧ (∀ i, i ∈ last :: rest ↔ ∃ j ∈ is, ends j = i) ∧
      (merged is).map ends = merge last rest := by
  have hsorted := pairwise_insertionSort (fun a b : Int64 × Int64 => a.1 ≤ b.1) is
  have hperm := perm_insertionSort (fun a b : Int64 × Int64 => a.1 ≤ b.1) is
  unfold merged
  cases hs : is.insertionSort fun a b => a.1 ≤ b.1 with
  | nil =>
    rw [hs] at hperm
    exact absurd hperm.nil_eq.symm hne
  | cons first rest =>
    rw [hs] at hsorted hperm
    refine ⟨ends first, rest.map ends, ?_, fun i => ?_, map_ends_mergeIntervals first rest⟩
    · rw [← map_cons]
      exact pairwise_map.mpr (hsorted.imp Int64.le_iff_toInt_le.mp)
    · rw [← map_cons, mem_map]
      simp only [hperm.mem_iff]

end MemStore

/-! ## Facts with an interval -/

/-- The tuple has the key `key` and the interval `i` in its last two columns. -/
def IsInterval (t key : Tuple) (i : Int64 × Int64) : Prop :=
  ∃ a b, t = key ++ [a, b] ∧ MemStore.boundNanos a = some i.1 ∧ MemStore.boundNanos b = some i.2

/-- The intervals that facts have under a key. -/
def intervalsOf (facts : Set Tuple) (key : Tuple) : Set Interval :=
  {x | ∃ t ∈ facts, ∃ i, IsInterval t key i ∧ ends i = x}

theorem IsInterval.unique {key key' : Tuple} {i' : Int64 × Int64} (h : IsInterval t key i)
    (h' : IsInterval t key' i') : key = key' ∧ i = i' := by
  obtain ⟨a, b, rfl, ha, hb⟩ := h
  obtain ⟨a', b', heq, ha', hb'⟩ := h'
  obtain ⟨rfl, hcols⟩ := append_inj' heq rfl
  obtain ⟨rfl, rfl⟩ : a = a' ∧ b = b' := by simpa using hcols
  exact ⟨rfl, Prod.ext (Option.some.inj (ha.symm.trans ha')) (Option.some.inj (hb.symm.trans hb'))⟩

theorem isInterval_times (key : Tuple) (i : Int64 × Int64) :
    IsInterval (key ++ [.time i.1, .time i.2]) key i := ⟨_, _, rfl, rfl, rfl⟩

theorem times_inj {key key' : Tuple} {j : Int64 × Int64}
    (h : key ++ [.time i.1, .time i.2] = key' ++ [.time j.1, .time j.2]) : key = key' ∧ i = j :=
  (isInterval_times key i).unique (h ▸ isInterval_times key' j)

namespace MemStore

variable {n : Nat} {groups : List (Tuple × List (Int64 × Int64))}

/-- A fact with an interval enters the group of its key. -/
theorem enterFact_eq {key : Tuple}
    (hlen : t.length = n) (h : IsInterval t key i) :
    enterFact n groups t = addToGroup key i groups := by
  obtain ⟨a, b, rfl, ha, hb⟩ := h
  obtain rfl : key.length + 2 = n := by simpa using hlen
  simp [enterFact, ha, hb]

/-- A fact without one enters none. -/
theorem enterFact_eq_self (hlen : t.length = n)
    (h : ∀ key i, ¬ IsInterval t key i) : enterFact n groups t = groups := by
  unfold enterFact
  split
  · rename_i start stop rest hdrop
    split
    · rename_i a b ha hb
      have hrest : rest = [] := by
        have hl := congrArg List.length hdrop
        simp only [length_drop, length_cons] at hl
        exact length_eq_zero_iff.mp (by omega)
      refine absurd ⟨start, stop, ?_, ha, hb⟩ (h (t.take (n - 2)) (a, b))
      rw [← hrest, ← hdrop, take_append_drop]
    · rfl
  · rfl

/-- The groups hold the intervals `held`, one group a key. -/
structure Grouped (held : Tuple → Int64 × Int64 → Prop)
    (groups : List (Tuple × List (Int64 × Int64))) : Prop where
  keys : (groups.map Prod.fst).Nodup
  mem : ∀ key i, (∃ is, (key, is) ∈ groups ∧ i ∈ is) ↔ held key i

theorem map_fst_addToGroup (key : Tuple) (i : Int64 × Int64)
    (groups : List (Tuple × List (Int64 × Int64))) :
    (addToGroup key i groups).map Prod.fst =
      if key ∈ groups.map Prod.fst then groups.map Prod.fst
      else groups.map Prod.fst ++ [key] := by
  induction groups with
  | nil => rfl
  | cons g groups ih =>
    obtain ⟨k, is⟩ := g
    rw [addToGroup]
    by_cases h : k = key
    · simp [h]
    · rw [if_neg h, map_cons, ih]
      simp only [map_cons, mem_cons, Ne.symm h, false_or]
      split <;> rfl

theorem mem_addToGroup_iff {key k : Tuple} {j : Int64 × Int64} :
    (∃ is, (k, is) ∈ addToGroup key i groups ∧ j ∈ is) ↔
      (k = key ∧ j = i) ∨ ∃ is, (k, is) ∈ groups ∧ j ∈ is := by
  induction groups with
  | nil => simp [addToGroup, and_assoc]
  | cons g groups ih =>
    obtain ⟨k', is'⟩ := g
    have hsplit (js : List (Int64 × Int64)) (gs : List (Tuple × List (Int64 × Int64))) :
        (∃ is, (k, is) ∈ (k', js) :: gs ∧ j ∈ is) ↔
          (k = k' ∧ j ∈ js) ∨ ∃ is, (k, is) ∈ gs ∧ j ∈ is := by
      simp [or_and_right, exists_or, and_assoc]
    rw [addToGroup]
    by_cases h : k' = key
    · subst h
      rw [if_pos rfl, hsplit, hsplit, mem_append, mem_singleton]
      tauto
    · rw [if_neg h, hsplit, hsplit, ih]
      tauto

theorem Grouped.nil : Grouped (fun _ _ => False) [] := ⟨nodup_nil, by simp⟩

/-- No two groups have one key. -/
theorem Grouped.eq_of_mem (h : Grouped held groups)
    {key : Tuple} {is' : List (Int64 × Int64)} (hk : (key, is) ∈ groups) (hk' : (key, is') ∈ groups)
    : is' = is :=
  (Prod.mk.inj (inj_on_of_nodup_map h.keys hk' hk rfl)).2

theorem Grouped.addToGroup (h : Grouped held groups)
    (key : Tuple) (i : Int64 × Int64) :
    Grouped (fun k j => (k = key ∧ j = i) ∨ held k j) (MemStore.addToGroup key i groups) where
  keys := by
    rw [map_fst_addToGroup]
    split
    · exact h.keys
    · rename_i hnew
      rw [← concat_eq_append]
      exact h.keys.concat hnew
  mem k j := by
    rw [mem_addToGroup_iff, h.mem]

variable {facts : List Tuple}

/-- **Every fact with an interval is in the group of its key.** -/
theorem grouped_foldl (hfacts : ∀ t ∈ facts, t.length = n) (h : Grouped held groups) :
    Grouped (fun key i => held key i ∨ ∃ t ∈ facts, IsInterval t key i)
      (facts.foldl (enterFact n) groups) := by
  induction facts generalizing held groups with
  | nil => simpa using h
  | cons t facts ih =>
    obtain ⟨hlen, hfacts⟩ := forall_mem_cons.mp hfacts
    rw [foldl_cons]
    by_cases ht : ∃ key i, IsInterval t key i
    · obtain ⟨key, i, ht⟩ := ht
      have hrest := ih hfacts (h.addToGroup key i)
      rw [enterFact_eq hlen ht]
      refine ⟨hrest.keys, fun k j => (hrest.mem k j).trans ?_⟩
      have hiff : IsInterval t k j ↔ k = key ∧ j = i :=
        ⟨fun hk => ⟨(ht.unique hk).1.symm, (ht.unique hk).2.symm⟩, fun ⟨hk, hj⟩ => hk ▸ hj ▸ ht⟩
      simp only [exists_mem_cons_iff, hiff]
      tauto
    · have hnone : ∀ key i, ¬ IsInterval t key i := fun key i hi => ht ⟨key, i, hi⟩
      rw [enterFact_eq_self hlen hnone]
      have hrest := ih hfacts h
      refine ⟨hrest.keys, fun k j => (hrest.mem k j).trans ?_⟩
      simp [hnone]

theorem mem_coalesced :
    t ∈ coalesced order n facts ↔ ∃ key is, (key, is) ∈ facts.foldl (enterFact n) [] ∧
      ∃ i ∈ merged is, key ++ [.time i.1, .time i.2] = t := by
  simp [coalesced, (order.perm_perm _).mem_iff, coalesceGroup_eq]

/-- **For every key, coalescing merges its intervals**, in the order of their starts. -/
theorem merges_coalesced (order : HashOrder)
    (hfacts : ∀ t ∈ facts, t.length = n) (key : Tuple) :
    Merges (intervalsOf {t | t ∈ facts} key)
      (intervalsOf {t | t ∈ coalesced order n facts} key) := by
  have hgroups := grouped_foldl hfacts Grouped.nil
  simp only [false_or] at hgroups
  generalize hg : facts.foldl (enterFact n) [] = groups at hgroups
  have hin (x : Interval) : x ∈ intervalsOf {t | t ∈ facts} key ↔
      ∃ is, (key, is) ∈ groups ∧ ∃ i ∈ is, ends i = x := by
    constructor
    · rintro ⟨t, ht, i, hi, rfl⟩
      obtain ⟨is, hk, hi⟩ := (hgroups.mem key i).mpr ⟨t, ht, hi⟩
      exact ⟨is, hk, i, hi, rfl⟩
    · rintro ⟨is, hk, i, hi, rfl⟩
      obtain ⟨t, ht, hi⟩ := (hgroups.mem key i).mp ⟨is, hk, hi⟩
      exact ⟨t, ht, i, hi, rfl⟩
  have hout (x : Interval) : x ∈ intervalsOf {t | t ∈ coalesced order n facts} key ↔
      ∃ is, (key, is) ∈ groups ∧ x ∈ (merged is).map ends := by
    simp only [intervalsOf, Set.mem_ofPred_eq, mem_coalesced, mem_map, hg]
    constructor
    · rintro ⟨_, ⟨k, is, hk, i, hi, rfl⟩, j, hj, rfl⟩
      obtain ⟨rfl, rfl⟩ := (isInterval_times k i).unique hj
      exact ⟨is, hk, i, hi, rfl⟩
    · rintro ⟨is, hk, i, hi, rfl⟩
      exact ⟨_, ⟨key, is, hk, i, hi, rfl⟩, i, isInterval_times key i, rfl⟩
  by_cases hne : ∃ is, (key, is) ∈ groups ∧ is ≠ []
  · obtain ⟨is, hk, hne⟩ := hne
    have hone (is' : List (Int64 × Int64)) : (key, is') ∈ groups ↔ is' = is :=
      ⟨hgroups.eq_of_mem hk, fun heq => heq ▸ hk⟩
    obtain ⟨last, rest, hordered, hmem, hmerged⟩ := merged_eq hne
    convert merges_merge hordered using 1 <;> ext x
    · rw [hin, Set.mem_ofPred_eq, hmem]
      simp only [hone, exists_eq_left]
    · rw [hout, Set.mem_ofPred_eq, ← hmerged]
      simp only [hone, exists_eq_left]
  · have hnil (is : List (Int64 × Int64)) (hk : (key, is) ∈ groups) : is = [] :=
      Classical.not_not.mp fun h => hne ⟨is, hk, h⟩
    convert Merges.empty using 1 <;> refine Set.eq_empty_iff_forall_notMem.mpr fun x hx => ?_
    · obtain ⟨is, hk, i, hi, -⟩ := (hin x).mp hx
      rw [hnil is hk] at hi
      cases hi
    · obtain ⟨is, hk, hx⟩ := (hout x).mp hx
      rw [hnil is hk] at hx
      cases hx

/-- What coalescing leaves has times for ends. -/
theorem exists_of_mem_coalesced (ht : t ∈ coalesced order n facts) :
    ∃ (key : Tuple) (i : Int64 × Int64), key ++ [.time i.1, .time i.2] = t := by
  obtain ⟨key, _, -, i, -, rfl⟩ := mem_coalesced.mp ht
  exact ⟨key, i, rfl⟩

/-- A fact with times for ends is left just when its interval is. -/
theorem mem_coalesced_times {key : Tuple} :
    key ++ [.time i.1, .time i.2] ∈ coalesced order n facts ↔
      ends i ∈ intervalsOf {t | t ∈ coalesced order n facts} key := by
  constructor
  · exact fun h => ⟨_, h, i, isInterval_times key i, rfl⟩
  · rintro ⟨t, ht, j, hj, heq⟩
    obtain ⟨key', j', rfl⟩ := exists_of_mem_coalesced ht
    obtain ⟨rfl, rfl⟩ := (isInterval_times key' j').unique hj
    rwa [← ends_injective heq]

theorem nodup_merged (hne : ∀ i ∈ is, i.1 ≤ i.2) : (merged is).Nodup := by
  by_cases hnil : is = []
  · subst hnil
    exact nodup_nil
  · obtain ⟨last, rest, hordered, hmem, hmerged⟩ := merged_eq hnil
    have hnodup := nodup_merge hordered fun i hi => by
      obtain ⟨j, hj, rfl⟩ := (hmem i).mp hi
      exact Int64.le_iff_toInt_le.mp (hne j hj)
    rw [← hmerged] at hnodup
    exact hnodup.of_map

/-- Each fact is left once, if no interval ends before it starts. -/
theorem nodup_coalesced (order : HashOrder)
    (hfacts : ∀ t ∈ facts, t.length = n)
    (hne : ∀ t ∈ facts, ∀ key i, IsInterval t key i → i.1 ≤ i.2) :
    (coalesced order n facts).Nodup := by
  have hgroups := grouped_foldl hfacts Grouped.nil
  simp only [false_or] at hgroups
  have hperm := order.perm_perm (facts.foldl (enterFact n) [])
  refine nodup_flatMap.mpr ⟨fun g hg => ?_, ?_⟩
  · obtain ⟨key, is⟩ := g
    rw [coalesceGroup_eq]
    refine (nodup_merged fun i hi => ?_).map fun i j h => (times_inj h).2
    obtain ⟨t, ht, hi⟩ := (hgroups.mem key i).mp ⟨is, hperm.mem_iff.mp hg, hi⟩
    exact hne t ht key i hi
  · -- Facts of different groups differ in their keys.
    have hkeys : ((order.perm (facts.foldl (enterFact n) [])).map Prod.fst).Nodup :=
      (hperm.map Prod.fst).nodup_iff.mpr hgroups.keys
    refine (pairwise_map.mp hkeys).imp fun {g g'} hgg' => ?_
    obtain ⟨key, is⟩ := g
    obtain ⟨key', is'⟩ := g'
    intro t ht ht'
    rw [coalesceGroup_eq] at ht ht'
    obtain ⟨i, -, rfl⟩ := mem_map.mp ht
    obtain ⟨j, -, heq⟩ := mem_map.mp ht'
    exact hgg' (times_inj heq.symm).1

end MemStore

/-! ## The store after coalescing -/

namespace MemStore

variable {s : MemStore} {rel : Name} {n : Nat}

/-- The rows of a relation that a scan sees. -/
def visibleRows (s : MemStore) (rel : Name) : List Row := s.stable.get rel ++ s.delta.get rel

/-- The store whose relation holds the stable tuples `ts` of `n` columns alone, and is indexed. -/
def coalescedTo (s : MemStore) (rel : Name) (n : Nat) (ts : List Tuple) : MemStore :=
  { s.setStable rel ts with
    stableIndexes := Function.update s.stableIndexes rel
      (indexRows (columnKeys n) .empty 0 (ts.map flattenTuple))
    deltaIndexes := Function.update s.deltaIndexes rel .empty }

/-- **Coalescing** replaces the facts of the registered arity, if a scan sees one. -/
theorem coalesceTemporal_eq {ts : List Tuple} (order : HashOrder)
    (hn : s.arity.lookup rel = some n) (htwo : 2 ≤ n)
    (hts : s.visibleRows rel = ts.map flattenTuple) :
    s.coalesceTemporal order rel = some (
      if ts.filter (·.length = n) = [] then s
      else s.coalescedTo rel n (coalesced order n (ts.filter (·.length = n)))) := by
  have hcols : s.nCols rel = n := by rw [nCols, hn, Option.getD_some]
  have hrows : (s.stable.get rel ++ s.delta.get rel).filter
      (fun cells => countLogicalValues cells = some n) =
        (ts.filter (·.length = n)).map flattenTuple := by
    rw [← visibleRows, hts, filter_map]
    simp [Function.comp_def]
  have hlen : ∀ t ∈ ts.filter (·.length = n), t.length = n := fun t ht => by
    simpa using (mem_filter.mp ht).2
  generalize ts.filter (·.length = n) = facts at hrows hlen
  have hread : s.readRows rel (facts.map flattenTuple) = some facts :=
    readRows_flattenTuple fun t ht => (hlen t ht).trans hcols.symm
  have hkeys : ((coalesced order n facts).map flattenTuple).all
      (fun cells => (columnKeys n cells).isSome) = true := by
    simp only [all_eq_true, mem_map, forall_exists_index, and_imp]
    rintro _ t ht rfl
    rw [← length_coalesced order htwo hlen t ht]
    simp
  have hbuild : (s.setStable rel (coalesced order n facts)).rebuildIndexesFor rel =
      some (s.coalescedTo rel n (coalesced order n facts)) := by
    have hcols' : (s.setStable rel (coalesced order n facts)).nCols rel = n := hcols
    have hstable : (s.setStable rel (coalesced order n facts)).stable.get rel =
        (coalesced order n facts).map flattenTuple := by
      simp [setStable, HashMap.get_insert]
    have hdelta : (s.setStable rel (coalesced order n facts)).delta.get rel = [] := by
      simp [setStable, HashMap.get_erase]
    simp only [rebuildIndexesFor, hcols', hstable, hdelta, append_nil, hkeys, if_true]
    rfl
  unfold coalesceTemporal
  simp only [hn, if_neg (Nat.not_lt.mpr htwo), hrows, hread]
  by_cases hnil : facts = []
  · simp [hnil]
  · rw [if_neg hnil, ← hbuild]
    simp [hnil]
    rfl

/-- Every row of the relation that a scan sees is a fact of `n` columns with an interval. -/
def Temporal (s : MemStore) (rel : Name) (n : Nat) : Prop :=
  ∀ row ∈ s.visibleRows rel, ∃ t key i, row = flattenTuple t ∧ t.length = n ∧ IsInterval t key i ∧
    i.1 ≤ i.2

/-- The intervals a scan sees under a key. -/
def intervals (s : MemStore) (rel : Name) (key : Tuple) : Set Interval :=
  intervalsOf {t | flattenTuple t ∈ s.visibleRows rel} key

/-- The two stores agree on a relation: its tiers, its arity and its indexes. -/
structure SameRelation (s s' : MemStore) (rel : Name) : Prop where
  stable : s'.stable.lookup rel = s.stable.lookup rel
  delta : s'.delta.lookup rel = s.delta.lookup rel
  next : s'.nextDelta.lookup rel = s.nextDelta.lookup rel
  arity : s'.arity.lookup rel = s.arity.lookup rel
  stableIndexes : s'.stableIndexes rel = s.stableIndexes rel
  deltaIndexes : s'.deltaIndexes rel = s.deltaIndexes rel

theorem SameRelation.refl (s : MemStore) (rel : Name) :
    s.SameRelation s rel := ⟨rfl, rfl, rfl, rfl, rfl, rfl⟩

theorem sameRelation_coalescedTo {r : Name} (hr : r ≠ rel) (ts : List Tuple) :
    s.SameRelation (s.coalescedTo rel n ts) r where
  stable := AList.lookup_insert_ne hr
  delta := AList.lookup_erase_ne hr
  next := AList.lookup_erase_ne hr
  arity := rfl
  stableIndexes := Function.update_of_ne hr ..
  deltaIndexes := Function.update_of_ne hr ..

theorem visibleRows_coalescedTo (s : MemStore) (rel : Name) (n : Nat) (ts : List Tuple) :
    (s.coalescedTo rel n ts).visibleRows rel = ts.map flattenTuple := by
  simp [visibleRows, coalescedTo, setStable, HashMap.get_insert, HashMap.get_erase]

theorem intervals_eq {ts : List Tuple} (hts : s.visibleRows rel = ts.map flattenTuple)
    (key : Tuple) : s.intervals rel key = intervalsOf {t | t ∈ ts} key := by
  simp only [intervals, hts, mem_map_of_injective flattenTuple_injective]

/-- **Coalescing what has been coalesced leaves it as it is.** -/
theorem mem_coalesced_coalesced {order' : HashOrder} {facts : List Tuple} (htwo : 2 ≤ n)
    (hfacts : ∀ t ∈ facts, t.length = n)
    (hne : ∀ t ∈ facts, ∀ key i, IsInterval t key i → i.1 ≤ i.2) (t : Tuple) :
    t ∈ coalesced order' n (coalesced order n facts) ↔ t ∈ coalesced order n facts := by
  have hlen := length_coalesced order htwo hfacts
  have hsame (key : Tuple) :
      intervalsOf {t | t ∈ coalesced order' n (coalesced order n facts)} key =
        intervalsOf {t | t ∈ coalesced order n facts} key := by
    have hmerges := merges_coalesced order hfacts key
    refine (merges_coalesced order' hlen key).eq_of_separated hmerges.separated
      (hmerges.start_le_end ?_)
    rintro _ ⟨t, ht, i, hi, rfl⟩
    exact Int64.le_iff_toInt_le.mp (hne t ht key i hi)
  have htimes (key : Tuple) (i : Int64 × Int64) :
      key ++ [.time i.1, .time i.2] ∈ coalesced order' n (coalesced order n facts) ↔
        key ++ [.time i.1, .time i.2] ∈ coalesced order n facts := by
    rw [mem_coalesced_times, mem_coalesced_times, hsame]
  constructor <;> intro ht <;> obtain ⟨key, i, rfl⟩ := exists_of_mem_coalesced ht
  · exact (htimes key i).mp ht
  · exact (htimes key i).mpr ht

/-- The relation `rel` of `s'` is what coalescing should make of that of `s`. -/
structure Coalesced (s s' : MemStore) (rel : Name) (n : Nat) : Prop where
  points : ∀ key, points (s'.intervals rel key) = points (s.intervals rel key)
  separated : ∀ key, Intervals.Separated (s'.intervals rel key)
  temporal : s'.Temporal rel n
  nodup : (s'.visibleRows rel).Nodup
  stable : s'.delta.get rel = []
  indexed : s.visibleRows rel ≠ [] →
    s'.stableIndexes rel = indexRows (columnKeys n) .empty 0 (s'.stable.get rel) ∧
      s'.deltaIndexes rel = indexRows (columnKeys n) .empty 0 (s'.delta.get rel)
  again : ∀ order, ∃ s'', s'.coalesceTemporal order rel = some s'' ∧
    (∀ row, row ∈ s''.stable.get rel ↔ row ∈ s'.stable.get rel) ∧
    s''.delta.get rel = s'.delta.get rel ∧ s''.nextDelta.get rel = s'.nextDelta.get rel
  others : ∀ r, r ≠ rel → s.SameRelation s' r

/-- Rows that are all facts are the rows of a list of facts. -/
theorem exists_map_flattenTuple {P : Tuple → Prop} {rows : List Row}
    (h : ∀ row ∈ rows, ∃ t, row = flattenTuple t ∧ P t) :
    ∃ ts : List Tuple, rows = ts.map flattenTuple ∧ ∀ t ∈ ts, P t := by
  induction rows with
  | nil => exact ⟨[], rfl, by simp⟩
  | cons row rows ih =>
    obtain ⟨⟨t, rfl, ht⟩, hrows⟩ := forall_mem_cons.mp h
    obtain ⟨ts, rfl, hts⟩ := ih hrows
    exact ⟨t :: ts, rfl, forall_mem_cons.mpr ⟨ht, hts⟩⟩

/-- A relation without visible rows is left as it is. -/
theorem coalesced_of_empty (hn : s.arity.lookup rel = some n) (htwo : 2 ≤ n)
    (hempty : s.visibleRows rel = []) : s.Coalesced s rel n := by
  obtain ⟨hstable, hdelta⟩ := append_eq_nil_iff.mp hempty
  have hnil : s.visibleRows rel = ([] : List Tuple).map flattenTuple := hempty
  have hintervals (key : Tuple) : s.intervals rel key = ∅ := by
    rw [intervals_eq hnil]
    exact Set.eq_empty_iff_forall_notMem.mpr fun x ⟨t, ht, _⟩ => absurd ht not_mem_nil
  exact
    { points := fun _ => rfl
      separated := fun key => by
        rw [hintervals]
        exact Merges.empty.separated
      temporal := fun row hrow => absurd (hempty ▸ hrow) not_mem_nil
      nodup := hempty ▸ nodup_nil
      stable := hdelta
      indexed := absurd hempty
      again := fun order => by
        refine ⟨s, ?_, fun _ => .rfl, rfl, rfl⟩
        rw [coalesceTemporal_eq order hn htwo hnil]
        rfl
      others := fun r _ => .refl s r }

/-- The relation after its facts have been replaced by the coalesced ones. -/
theorem coalesced_of_facts {facts : List Tuple} (order : HashOrder)
    (hn : s.arity.lookup rel = some n) (htwo : 2 ≤ n)
    (hrows : s.visibleRows rel = facts.map flattenTuple) (hlen : ∀ t ∈ facts, t.length = n)
    (hne : ∀ t ∈ facts, ∃ key i, IsInterval t key i ∧ i.1 ≤ i.2) :
    s.Coalesced (s.coalescedTo rel n (coalesced order n facts)) rel n := by
  have hne' : ∀ t ∈ facts, ∀ key i, IsInterval t key i → i.1 ≤ i.2 := by
    intro t ht key i hi
    obtain ⟨key', i', hi', hle⟩ := hne t ht
    exact (hi.unique hi').2 ▸ hle
  have hproper (key : Tuple) : ∀ x ∈ intervalsOf {t | t ∈ facts} key, x.1 ≤ x.2 := by
    rintro _ ⟨t, ht, i, hi, rfl⟩
    exact Int64.le_iff_toInt_le.mp (hne' t ht key i hi)
  have hout := visibleRows_coalescedTo s rel n (coalesced order n facts)
  have hlen' := length_coalesced order htwo hlen
  have hstable : (s.coalescedTo rel n (coalesced order n facts)).stable.get rel =
      (coalesced order n facts).map flattenTuple := by
    simp [coalescedTo, setStable, HashMap.get_insert]
  have hdelta : (s.coalescedTo rel n (coalesced order n facts)).delta.get rel = [] := by
    simp [coalescedTo, setStable, HashMap.get_erase]
  have hnext : (s.coalescedTo rel n (coalesced order n facts)).nextDelta.get rel = [] := by
    simp [coalescedTo, setStable, HashMap.get_erase]
  refine
    { points := fun key => ?_
      separated := fun key => ?_
      temporal := fun row hrow => ?_
      nodup := ?_
      stable := hdelta
      indexed := fun _ => ⟨?_, ?_⟩
      again := fun order' => ?_
      others := fun r hr => sameRelation_coalescedTo hr _ }
  · rw [intervals_eq hout, intervals_eq hrows]
    exact (merges_coalesced order hlen key).points
  · rw [intervals_eq hout]
    exact (merges_coalesced order hlen key).separated
  · rw [hout] at hrow
    obtain ⟨t, ht, rfl⟩ := mem_map.mp hrow
    obtain ⟨key, i, rfl⟩ := exists_of_mem_coalesced ht
    refine ⟨_, key, i, rfl, hlen' _ ht, isInterval_times key i, ?_⟩
    exact Int64.le_iff_toInt_le.mpr ((merges_coalesced order hlen key).start_le_end (hproper key) _
      (mem_coalesced_times.mp ht))
  · rw [hout]
    exact (nodup_coalesced order hlen hne').map flattenTuple_injective
  · rw [hstable]
    exact Function.update_self ..
  · rw [hdelta]
    exact Function.update_self ..
  · have hfilter : (coalesced order n facts).filter (·.length = n) = coalesced order n facts :=
      filter_eq_self.mpr fun t ht => by simpa using hlen' t ht
    refine ⟨_, coalesceTemporal_eq order' (by exact hn) htwo hout, ?_⟩
    rw [hfilter]
    split
    · exact ⟨fun _ => .rfl, rfl, rfl⟩
    · refine ⟨fun row => ?_, ?_, ?_⟩
      · rw [hstable]
        simp only [coalescedTo, setStable, HashMap.get_insert, if_true, mem_map,
          mem_coalesced_coalesced htwo hlen hne']
      · rw [hdelta]
        simp [coalescedTo, setStable, HashMap.get_erase]
      · rw [hnext]
        simp [coalescedTo, setStable, HashMap.get_erase]

end MemStore

/-- **Coalescing is exact.**  In every store, for every relation of at least two columns whose
visible facts have intervals that do not end before they start: for each key the intervals left
have the same points, no two of them overlap or touch, each is held once, in the stable tier, and
indexed; a second call leaves the same set, and no other relation is touched. -/
theorem coalesce_exact {s : MemStore} {rel : Name} {n : Nat} (order : HashOrder)
    (hn : s.arity.lookup rel = some n) (htwo : 2 ≤ n) (h : s.Temporal rel n) :
    ∃ s', s.coalesceTemporal order rel = some s' ∧ s.Coalesced s' rel n := by
  have hrow : ∀ row ∈ s.visibleRows rel, ∃ t, row = flattenTuple t ∧ t.length = n ∧
      ∃ key i, IsInterval t key i ∧ i.1 ≤ i.2 := fun row hrow => by
    obtain ⟨t, key, i, hrow, hlen, hi, hle⟩ := h row hrow
    exact ⟨t, hrow, hlen, key, i, hi, hle⟩
  obtain ⟨facts, hrows, hfacts⟩ := MemStore.exists_map_flattenTuple hrow
  have hfilter : facts.filter (·.length = n) = facts :=
    filter_eq_self.mpr fun t ht => by simpa using (hfacts t ht).1
  refine ⟨_, MemStore.coalesceTemporal_eq order hn htwo hrows, ?_⟩
  rw [hfilter]
  split
  · rename_i hnil
    exact MemStore.coalesced_of_empty hn htwo (by rw [hrows, hnil]; rfl)
  · exact MemStore.coalesced_of_facts order hn htwo hrows (fun t ht => (hfacts t ht).1)
      fun t ht => (hfacts t ht).2

/-- A relation with two intervals that touch. -/
def touchingStore : MemStore :=
  (MemStore.new.addFact "p" [.string "a", .time 1, .time 3]).addFact "p"
    [.string "a", .number 4, .number 6]

theorem coalesce_exact_touching : ∃ s',
    touchingStore.coalesceTemporal .insertion "p" = some s' ∧ touchingStore.Coalesced s' "p" 3 := by
  refine coalesce_exact .insertion rfl (by decide) fun row hrow => ?_
  have hrows : touchingStore.visibleRows "p" =
      [flattenTuple [.string "a", .time 1, .time 3],
        flattenTuple [.string "a", .number 4, .number 6]] :=
    rfl
  rw [hrows, mem_pair] at hrow
  obtain rfl | rfl := hrow
  · exact ⟨_, [.string "a"], (1, 3), rfl, rfl, ⟨_, _, rfl, rfl, rfl⟩, by decide⟩
  · exact ⟨_, [.string "a"], (4, 6), rfl, rfl, ⟨_, _, rfl, rfl, rfl⟩, by decide⟩

end Mangle

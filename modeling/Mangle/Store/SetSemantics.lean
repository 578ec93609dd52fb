import Mangle.Store.Indexes

/-!
# Store/SetSemantics — the three tiers as one set

A relation is spread over three tiers, and merging shifts its rows from one to the next.  Over every
run of the `Store` trait's calls the tiers together are a set without duplicates: an insertion
reports whether it enlarged the set, a merge leaves it as it is, and a retraction takes its tuple
out of it.  What a retraction reports is about the stable tier alone.

* `tiers_are_sets` — the laws in every state, and when the report of a retraction is right;
* `retract_denies_pending` — a tuple that was inserted, retracted and reported as not found.
-/

namespace Mangle

open Machinery List

/-- The call is one of `create_relation`, `insert`, `merge_deltas`, `retract` and `clear`. -/
def MemCall.Plain : MemCall → Prop
  | createRelation _ | insert .. | mergeDeltas | retract .. | clear _ => True
  | addFact .. | coalesceTemporal .. => False

namespace MemStore

/-- The rows of a relation, tier by tier. -/
def rows (s : MemStore) (rel : Name) : List Row :=
  s.stable.get rel ++ s.delta.get rel ++ s.nextDelta.get rel

/-- Some tier holds the tuple. -/
def Holds (s : MemStore) (rel : Name) (t : Tuple) : Prop := flattenTuple t ∈ s.rows rel

instance (s : MemStore) (rel : Name) (t : Tuple) : Decidable (s.Holds rel t) := by
  unfold Holds; infer_instance

/-- The tiers of every relation are disjoint and free of duplicates, and the calls that do not
retract treat them as one set. -/
structure SetLaws (arity : Name → Nat) (s : MemStore) : Prop where
  nodup : ∀ rel, (s.rows rel).Nodup
  insert : ∀ rel t, t.length = arity rel → ((s.insert rel t).1 = true ↔ ¬ s.Holds rel t)
  merge : ∀ rel row, row ∈ s.mergeDeltas.rows rel ↔ row ∈ s.rows rel

end MemStore

section

variable {s : MemStore} {c : Tiers}

theorem Laid.rows (h : Laid s c) (rel : Name) : s.rows rel = (c.all rel).map flattenTuple := by
  simp [MemStore.rows, h.stable, h.delta, h.next, Tiers.all, Tiers.visible]

theorem Laid.holds_iff (h : Laid s c) (rel : Name) (t : Tuple) :
    s.Holds rel t ↔ t ∈ c.all rel := by
  rw [MemStore.Holds, h.rows, mem_map_of_injective flattenTuple_injective]

/-- A tuple that is held once is held no more after its retraction. -/
theorem Tiers.notMem_all_retract (h : c.Valid) (rel : Name) (t : Tuple) :
    t ∉ (c.retract rel t).all rel := by
  have hnodup := h.nodup rel
  simp only [all, visible, nodup_append] at hnodup
  obtain ⟨⟨hstable, hdelta, -⟩, hnext, -⟩ := hnodup
  simp [retract, all, visible, mem_removeRow, hstable, hdelta, hnext]

/-- What holds in every state of a run of plain calls. -/
structure MemStore.Kept (arity : Name → Nat) (s : MemStore) (c : Tiers) : Prop where
  rep : Rep s c
  arity : ∀ rel, ∀ n ∈ c.arity rel, n = arity rel

namespace MemStore.Kept

variable {arity : Name → Nat}

theorem new : Kept arity .new .empty := ⟨Rep.new, fun _ _ hn => (by cases hn)⟩

/-- **A plain call** succeeds and keeps the tiers. -/
theorem serve (h : s.Kept arity c) {call : MemCall} (hplain : call.Plain)
    (hfits : call.Fits arity) : ∃ s' c', s.serve call = some s' ∧ s'.Kept arity c' := by
  cases call with
  | createRelation rel => exact ⟨_, c, rfl, h.rep.createRelation rel, h.arity⟩
  | insert rel t =>
    refine ⟨_, _, rfl, h.rep.insert rel t, fun r n hn => ?_⟩
    obtain hn | ⟨rfl, rfl⟩ := Tiers.arity_insert hn
    · exact h.arity r n hn
    · exact hfits
  | mergeDeltas => exact ⟨_, _, rfl, h.rep.mergeDeltas, h.arity⟩
  | retract rel t =>
    obtain ⟨s', hs', hrep⟩ := h.rep.retract rel t
    exact ⟨s', _, by rw [MemStore.serve, hs']; rfl, hrep, h.arity⟩
  | clear rel => exact ⟨_, _, rfl, h.rep.clear rel, h.arity⟩
  | addFact rel t => cases hplain
  | coalesceTemporal order rel => cases hplain

/-- **A run** of plain calls. -/
theorem calls (h : s.Kept arity c) {calls : List MemCall}
    (hcalls : ∀ call ∈ calls, call.Plain ∧ call.Fits arity) :
    ∃ s' c', calls.foldlM MemStore.serve s = some s' ∧ s'.Kept arity c' := by
  induction calls generalizing s c with
  | nil => exact ⟨s, c, rfl, h⟩
  | cons call calls ih =>
    obtain ⟨⟨hplain, hfits⟩, hrest⟩ := forall_mem_cons.mp hcalls
    obtain ⟨s₁, c₁, hs₁, h₁⟩ := h.serve hplain hfits
    obtain ⟨s', c', hs', h'⟩ := ih h₁ hrest
    refine ⟨s', c', ?_, h'⟩
    rw [foldlM_cons, hs₁]
    exact hs'

theorem setLaws (h : s.Kept arity c) : s.SetLaws arity where
  nodup rel := by
    rw [h.rep.toLaid.rows]
    exact (h.rep.nodup rel).map flattenTuple_injective
  insert rel t ht := by
    rw [h.rep.insert_fst, decide_eq_true_eq, h.rep.toLaid.holds_iff]
    exact ⟨And.left, fun hnew => ⟨hnew, fun n hn => (h.arity rel n hn).trans ht.symm⟩⟩
  merge rel row := by
    rw [h.rep.mergeDeltas.toLaid.rows, h.rep.toLaid.rows, Tiers.all_merge]

/-- **A retraction** leaves its tuple in no tier, and reports it as found just when it was
stable. -/
theorem retract (h : s.Kept arity c) (rel : Name) (t : Tuple) :
    ∃ found s', s.retract rel t = some (found, s') ∧ ¬ s'.Holds rel t ∧
      (found = true ↔ flattenTuple t ∈ s.stable.get rel) := by
  obtain ⟨s', hs', hrep⟩ := h.rep.retract rel t
  refine ⟨_, s', hs', ?_, ?_⟩
  · rw [hrep.toLaid.holds_iff]
    exact Tiers.notMem_all_retract h.rep.toValid rel t
  · rw [decide_eq_true_eq, h.rep.stable, mem_map_of_injective flattenTuple_injective]

end MemStore.Kept

end

/-- **Over every run of plain calls with one arity a relation**, no call panics, the tiers are
disjoint and free of duplicates, insertions and merges treat them as one set, and a retraction
leaves its tuple in none of them.  Its report is right just when the tuple is not pending in the
delta or the next delta. -/
theorem tiers_are_sets {arity : Name → Nat} {calls : List MemCall}
    (hcalls : ∀ call ∈ calls, call.Plain ∧ call.Fits arity) :
    ∃ s, calls.foldlM MemStore.serve .new = some s ∧ s.SetLaws arity ∧
      ∀ rel t, ∃ found s', s.retract rel t = some (found, s') ∧ ¬ s'.Holds rel t ∧
        ((found = true ↔ s.Holds rel t) ↔
          flattenTuple t ∉ s.delta.get rel ∧ flattenTuple t ∉ s.nextDelta.get rel) := by
  obtain ⟨s, c, hs, h⟩ := MemStore.Kept.new.calls hcalls
  refine ⟨s, hs, h.setLaws, fun rel t => ?_⟩
  obtain ⟨found, s', hs', hgone, hfound⟩ := h.retract rel t
  refine ⟨found, s', hs', hgone, ?_⟩
  have hnodup := h.setLaws.nodup rel
  simp only [MemStore.rows, nodup_append] at hnodup
  rw [hfound, MemStore.Holds, MemStore.rows, mem_append, mem_append]
  obtain ⟨⟨-, -, hstable⟩, -, hvisible⟩ := hnodup
  constructor
  · -- A stable tuple is in no other tier.
    refine fun hiff => ⟨fun hin => ?_, fun hin => ?_⟩
    · exact hstable _ (hiff.mpr (.inl (.inr hin))) _ hin rfl
    · exact hvisible _ (mem_append_left _ (hiff.mpr (.inr hin))) _ hin rfl
  · rintro ⟨hdelta, hnext⟩
    simp [hdelta, hnext]

theorem tiers_are_sets_settled : ∃ s, settledCalls.foldlM MemStore.serve .new = some s ∧
    s.SetLaws (fun _ => 1) ∧
      ∀ rel t, ∃ found s', s.retract rel t = some (found, s') ∧ ¬ s'.Holds rel t ∧
        ((found = true ↔ s.Holds rel t) ↔
          flattenTuple t ∉ s.delta.get rel ∧ flattenTuple t ∉ s.nextDelta.get rel) :=
  tiers_are_sets (by simp [settledCalls, MemCall.Plain, MemCall.Fits])

/-- **A pending tuple is retracted and reported as not found.** -/
theorem retract_denies_pending : ∃ s, MemStore.new.serve (.insert "p" [.number 1]) = some s ∧
    s.Holds "p" [.number 1] ∧ ∃ s', s.retract "p" [.number 1] = some (false, s') ∧
      ¬ s'.Holds "p" [.number 1] :=
  ⟨_, rfl, by decide, _, rfl, by decide⟩

end Mangle

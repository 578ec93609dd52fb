import Mangle.Store.DiskSound
import Mangle.Store.Tiers

/-!
# Store/DiskRefines — the store on disk against the one in memory

The same calls issued to both stores.  They part where the store on disk has no counterpart to a
rule of the other one: it takes tuples of any arity, merges only relations that were created,
reports a retraction from any tier, and drops index tables by the start of their name.  `Suits` says
of a call that none of this matters.

* `stores_agree` — along such calls both stores return the same and hold the same tuples;
* `stores_differ` — two calls after which they do not.
-/

namespace Mangle

open Machinery List

/-! ## Runs -/

/-- A call; `none` is an index panic. -/
def MemStore.call (s : MemStore) : StoreCall → Option (Bool × MemStore)
  | .createRelation rel => some (true, s.createRelation rel)
  | .insert rel t => some (s.insert rel t)
  | .mergeDeltas _ => some (true, s.mergeDeltas)
  | .retract rel t => s.retract rel t
  | .clear rel => some (true, s.clear rel)

/-- Calls one after the other, with what they return. -/
def MemStore.run : MemStore → List StoreCall → Option (List Bool × MemStore)
  | s, [] => some ([], s)
  | s, c :: cs => do
      let (b, s) ← s.call c
      let (bs, s) ← s.run cs
      pure (b :: bs, s)

/-- Calls one after the other, with what they return. -/
def DiskStore.run : DiskStore → List StoreCall → List Bool × DiskStore
  | d, [] => ([], d)
  | d, c :: cs =>
      let (b, d) := d.call c
      let (bs, d) := d.run cs
      (b :: bs, d)

/-- The stores read alike. -/
structure SameReads (s : MemStore) (d : DiskStore) : Prop where
  scan : ∀ rel : String, ∃ l, s.scan rel = some l ∧ ∀ t, t ∈ l ↔ t ∈ d.scan rel
  scanDelta : ∀ rel : String, ∃ l, s.scanDelta rel = some l ∧ ∀ t, t ∈ l ↔ t ∈ d.scanDelta rel
  scanNextDelta : ∀ rel : String, ∃ l, s.scanNextDelta rel = some l ∧
    ∀ t, t ∈ l ↔ t ∈ d.scanNextDelta rel
  scanIndex : ∀ (rel : String) (col : Nat) (key : Value), key.isScalar = true →
    ∃ l, s.scanIndex rel col key = some l ∧ ∀ t, t ∈ l ↔ t ∈ d.scanIndex rel col key

/-! ## What both stores hold -/

/-- The tuples of a tier. -/
def Tiers.tier (c : Tiers) : Tier → Name → List Tuple
  | .stable => c.stable
  | .delta => c.delta
  | .nextDelta => c.next

/-- The tiers after a call. -/
def Tiers.call (c : Tiers) : StoreCall → Tiers
  | .createRelation _ => c
  | .insert rel t => c.insert rel t
  | .mergeDeltas _ => c.merge
  | .retract rel t => c.retract rel t
  | .clear rel => c.clear rel

/-- The created relations after a call. -/
def StoreCall.created (known : List String) : StoreCall → List String
  | .createRelation rel => rel :: known
  | _ => known

/-- Both stores treat a call alike: an inserted tuple is there already or has the registered arity,
a retracted one is not waiting to become stable, and a merge finds every relation with such tuples
among the created ones. -/
def Suits (names : List String) (c : Tiers) (known : List String) : StoreCall → Prop
  | .createRelation _ => True
  | .insert rel t => t ∈ c.all rel ∨ ∀ n ∈ c.arity rel, n = t.length
  | .mergeDeltas _ => ∀ rel ∈ names, c.delta rel ++ c.next rel ≠ [] → rel ∈ known
  | .retract rel t => t ∉ c.delta rel ++ c.next rel
  | .clear _ => True

instance (names : List String) (c : Tiers) (known : List String) :
    (call : StoreCall) → Decidable (Suits names c known call)
  | .createRelation _ => inferInstanceAs (Decidable True)
  | .insert rel t => inferInstanceAs (Decidable (t ∈ c.all rel ∨ ∀ n ∈ c.arity rel, n = t.length))
  | .mergeDeltas _ => inferInstanceAs
      (Decidable (∀ rel ∈ names, c.delta rel ++ c.next rel ≠ [] → rel ∈ known))
  | .retract rel t => inferInstanceAs (Decidable (t ∉ c.delta rel ++ c.next rel))
  | .clear _ => inferInstanceAs (Decidable True)

/-- Every call of a run suits the tiers and the created relations before it. -/
def AllSuit (names : List String) : Tiers → List String → List StoreCall → Prop
  | _, _, [] => True
  | c, known, call :: calls =>
      Suits names c known call ∧ AllSuit names (c.call call) (call.created known) calls

instance decidableAllSuit (names : List String) : (c : Tiers) → (known : List String) →
    (calls : List StoreCall) → Decidable (AllSuit names c known calls)
  | _, _, [] => inferInstanceAs (Decidable True)
  | c, known, call :: calls =>
      have := decidableAllSuit names (c.call call) (call.created known) calls
      inferInstanceAs (Decidable (Suits names c known call ∧
        AllSuit names (c.call call) (call.created known) calls))

/-- Both stores hold the same tiers. -/
structure HoldBoth (names known : List String) (c : Tiers) (s : MemStore) (d : DiskStore) :
    Prop where
  rep : Rep s c
  indexed : Indexed s
  sound : d.Sound names
  holds : ∀ tier (rel : String) t, d.db.Holds tier rel t ↔ t ∈ c.tier tier rel
  known : ∀ rel, rel ∈ d.relations ↔ rel ∈ known

namespace HoldBoth

variable {names known : List String} {c : Tiers} {s : MemStore} {d : DiskStore} {rel : String}
  {t : Tuple}

theorem mem_scan (h : HoldBoth names known c s d) (rel : String) (t : Tuple) :
    t ∈ c.visible rel ↔ d.db.Holds .stable rel t ∨ d.db.Holds .delta rel t := by
  rw [h.holds, h.holds, Tiers.visible, mem_append]
  rfl

/-- **Stores that hold the same tiers read alike.** -/
theorem sameReads (h : HoldBoth names known c s d) : SameReads s d where
  scan rel := ⟨_, h.rep.scan rel, fun t => by
    rw [h.mem_scan, DiskStore.scan, mem_append, Db.mem_tuples, Db.mem_tuples]⟩
  scanDelta rel := ⟨_, h.rep.scanDelta rel, fun t => by
    rw [DiskStore.scanDelta, Db.mem_tuples, h.holds]
    rfl⟩
  scanNextDelta rel := ⟨_, h.rep.scanNextDelta rel, fun t => by
    rw [DiskStore.scanNextDelta, Db.mem_tuples, h.holds]
    rfl⟩
  scanIndex rel col key hkey := ⟨_, h.rep.scanIndex h.indexed rel col key, fun t => by
    have hcol : Tuple.hasKey col key t = true ↔ t[col]? = some key := by
      cases hv : t[col]? with
      | none => simp [Tuple.hasKey, hv]
      | some v => simp [Tuple.hasKey, hv, Value.index_eq_iff hkey]
    rw [mem_filter, h.mem_scan, hcol, DiskStore.scanIndex, mem_append,
      h.sound.exact.mem_fetchByIndex, h.sound.exact.mem_fetchByIndex, or_and_right]⟩

theorem exists_holds_iff (h : HoldBoth names known c s d) :
    (∃ tier, d.db.Holds tier rel t) ↔ t ∈ c.all rel := by
  simp only [h.holds, Tiers.all, Tiers.visible, mem_append]
  constructor
  · rintro ⟨tier | _ | _, ht⟩
    · exact .inl (.inl ht)
    · exact .inl (.inr ht)
    · exact .inr ht
  · rintro ((ht | ht) | ht)
    · exact ⟨.stable, ht⟩
    · exact ⟨.delta, ht⟩
    · exact ⟨.nextDelta, ht⟩

/-! ## One call -/

section

variable (h : HoldBoth names known c s d)

include h

theorem insert (hrel : rel ∈ names)
    (hs : t ∈ c.all rel ∨ ∀ n ∈ c.arity rel, n = t.length) :
    (s.insert rel t).1 = (d.insert rel t).1 ∧
      HoldBoth names known (c.insert rel t) (s.insert rel t).2 (d.insert rel t).2 := by
  have hrep := h.rep.insert rel t
  have hindexed := h.indexed.insert h.rep rel t
  rw [h.rep.insert_fst]
  obtain ⟨heq, hold⟩ | ⟨heq, hnew⟩ := h.sound.insert_cases rel t <;> rw [heq]
  · have hno : ¬ c.Accepts rel t := fun ha => ha.1 (h.exists_holds_iff.mp hold)
    have hc : c.insert rel t = c := if_neg hno
    rw [hc] at hrep ⊢
    exact ⟨by simp [hno], { h with rep := hrep, indexed := hindexed }⟩
  · have hmem : t ∉ c.all rel := fun ht => not_exists.mpr hnew (h.exists_holds_iff.mpr ht)
    have ha : c.Accepts rel t := ⟨hmem, hs.resolve_left hmem⟩
    have hc : c.insert rel t = c.push rel t := if_pos ha
    rw [hc] at hrep ⊢
    refine ⟨by simp [ha], { h with
      rep := hrep, indexed := hindexed, sound := h.sound.added hrel hnew, holds := ?_ }⟩
    intro tier r u
    rw [h.sound.holds_added, h.holds]
    cases tier <;> by_cases hr : r = rel <;>
      simp [Tiers.tier, Tiers.push, hr, or_comm]

theorem merge (hn : Apart names) (order : HashOrder)
    (hs : ∀ rel ∈ names, c.delta rel ++ c.next rel ≠ [] → rel ∈ known) :
    HoldBoth names known c.merge s.mergeDeltas (d.applySteps (d.mergeSteps order)) := by
  obtain ⟨hsound, hpromoted, hother, hknown⟩ := h.sound.merge hn order
  refine ⟨h.rep.mergeDeltas, h.indexed.mergeDeltas h.rep, hsound, fun tier r u => ?_,
    fun r => hknown ▸ h.known r⟩
  by_cases hr : r ∈ d.relations
  · obtain ⟨hst, hde, hne⟩ := hpromoted r hr u
    cases tier with
    | stable => exact hst.trans (h.mem_scan r u).symm
    | delta => exact hde.trans (h.holds ..)
    | nextDelta => exact iff_of_false hne not_mem_nil
  · -- A relation that was not created has nothing to promote.
    have hnil : c.delta r ++ c.next r = [] := by
      by_contra hne
      obtain ⟨u, hu⟩ := exists_mem_of_ne_nil _ hne
      have hmem : r ∈ names := (mem_append.mp hu).elim
        (fun hu => h.sound.within .delta r u ((h.holds ..).mpr hu))
        (fun hu => h.sound.within .nextDelta r u ((h.holds ..).mpr hu))
      exact hr ((h.known r).mpr (hs r hmem hne))
    obtain ⟨hd, hx⟩ := append_eq_nil_iff.mp hnil
    rw [hother tier r u hr, h.holds]
    cases tier <;> simp [Tiers.tier, Tiers.merge, Tiers.visible, hd, hx]

theorem retract (hs : t ∉ c.delta rel ++ c.next rel) :
    ∃ s', s.retract rel t = some ((d.retract rel t).1, s') ∧
      HoldBoth names known (c.retract rel t) s' (d.retract rel t).2 := by
  obtain ⟨hd, hx⟩ := not_or.mp (mem_append.not.mp hs)
  obtain ⟨s', hs', hrep⟩ := h.rep.retract rel t
  obtain ⟨hsound, hknown, hfst, hholds⟩ := h.sound.retract rel t
  have hb : decide (t ∈ c.stable rel) = (d.retract rel t).1 := by
    rw [Bool.eq_iff_iff, decide_eq_true_iff, hfst, h.exists_holds_iff]
    simp [Tiers.all, Tiers.visible, hd, hx]
  refine ⟨s', hb ▸ hs', hrep, h.indexed.retract h.rep hd hs', hsound, fun tier r u => ?_,
    fun r => hknown ▸ h.known r⟩
  have hnodup := h.rep.nodup r
  simp only [Tiers.all, Tiers.visible, nodup_append] at hnodup
  rw [hholds, h.holds]
  by_cases hr : r = rel
  · subst hr
    cases tier <;>
      simp [Tiers.tier, Tiers.retract, mem_removeRow, hnodup.1.1, hnodup.1.2.1, hnodup.2.1,
        and_comm]
  · cases tier <;> simp [Tiers.tier, Tiers.retract, hr]

theorem clear (hn : Apart names) (hrel : rel ∈ names) :
    HoldBoth names known (c.clear rel) (s.clear rel) (d.applySteps (DiskStore.clearSteps rel)) := by
  obtain ⟨hsound, hknown, hholds⟩ := h.sound.clear hn hrel
  refine ⟨h.rep.clear rel, h.indexed.clear rel, hsound, fun tier r u => ?_,
    fun r => hknown ▸ h.known r⟩
  rw [hholds, h.holds]
  by_cases hr : r = rel
  · subst hr
    cases tier <;> simp [Tiers.tier, Tiers.clear]
  · cases tier <;> simp [Tiers.tier, Tiers.clear, hr]

theorem create (hrel : rel ∈ names) :
    HoldBoth names (rel :: known) c (s.createRelation rel)
      (d.applySteps (DiskStore.createSteps rel d)) := by
  obtain ⟨hsound, hknown, hholds⟩ := h.sound.create hrel
  refine ⟨h.rep.createRelation rel, h.indexed.createRelation rel, hsound, fun tier r u => ?_,
    fun r => ?_⟩
  · rw [hholds, h.holds]
  · rw [hknown, h.known, mem_cons]

/-- **A call that suits both stores** returns the same from both, and they hold the same after. -/
theorem call (hn : Apart names) {call : StoreCall}
    (hnames : ∀ r ∈ call.names, r ∈ names) (hs : Suits names c known call) :
    ∃ s', s.call call = some ((d.call call).1, s') ∧
      HoldBoth names (call.created known) (c.call call) s' (d.call call).2 := by
  cases call with
  | createRelation rel => exact ⟨_, rfl, h.create (hnames rel (by simp [StoreCall.names]))⟩
  | insert rel t =>
    obtain ⟨hb, hh⟩ := h.insert (hnames rel (by simp [StoreCall.names])) hs
    exact ⟨_, congrArg some (Prod.ext hb rfl), hh⟩
  | mergeDeltas order => exact ⟨_, rfl, h.merge hn order hs⟩
  | retract rel t => exact h.retract hs
  | clear rel => exact ⟨_, rfl, h.clear hn (hnames rel (by simp [StoreCall.names]))⟩

end

theorem run (hn : Apart names) {calls : List StoreCall} (h : HoldBoth names known c s d)
    (hnames : ∀ r ∈ calls.flatMap StoreCall.names, r ∈ names)
    (hs : AllSuit names c known calls) :
    ∃ s', s.run calls = some ((d.run calls).1, s') ∧ SameReads s' (d.run calls).2 := by
  induction calls generalizing known c s d with
  | nil => exact ⟨s, rfl, h.sameReads⟩
  | cons call calls ih =>
    simp only [flatMap_cons, mem_append, or_imp, forall_and] at hnames
    obtain ⟨s₁, hs₁, h₁⟩ := h.call hn hnames.1 hs.1
    obtain ⟨s₂, hs₂, hreads⟩ := ih h₁ hnames.2 hs.2
    exact ⟨s₂, by simp [MemStore.run, DiskStore.run, hs₁, hs₂], hreads⟩

end HoldBoth

/-! ## Whole runs -/

theorem AllSuit.of_append {names : List String} {pre calls : List StoreCall} {c : Tiers}
    {known : List String} (h : AllSuit names c known (pre ++ calls)) :
    AllSuit names c known pre := by
  induction pre generalizing c known with
  | nil => trivial
  | cons call pre ih => exact ⟨h.1, ih h.2⟩

theorem HoldBoth.new (names : List String) :
    HoldBoth names [] .empty .new (.openDb DiskStore.newDb) where
  rep := .new
  indexed := .new
  sound := .new
  holds tier rel t := by
    cases tier <;>
      simp [Db.Holds, Db.row, DiskStore.openDb, DiskStore.newDb, Tiers.tier, Tiers.empty]
  known rel := by simp [DiskStore.openDb, DiskStore.newDb]

/-- **Both stores agree** after each of the calls: every call returns the same, and every read of
every relation yields the same tuples. -/
theorem stores_agree (calls : List StoreCall) (hn : Apart (calls.flatMap StoreCall.names))
    (hs : AllSuit (calls.flatMap StoreCall.names) .empty [] calls) (pre : List StoreCall)
    (hpre : pre <+: calls) :
    ∃ s, MemStore.run .new pre = some ((DiskStore.run (.openDb DiskStore.newDb) pre).1, s) ∧
      SameReads s (DiskStore.run (.openDb DiskStore.newDb) pre).2 := by
  obtain ⟨rest, rfl⟩ := hpre
  refine (HoldBoth.new _).run hn (fun r hr => ?_) hs.of_append
  rw [flatMap_append]
  exact mem_append_left _ hr

/-- Calls of every kind that both stores treat alike. -/
def agreeingCalls : List StoreCall :=
  [.createRelation "p", .insert "p" [.number 1], .mergeDeltas .insertion, .mergeDeltas .insertion,
    .insert "p" [.number 2], .retract "p" [.number 1], .clear "p"]

theorem stores_agree_example :
    ∃ s, MemStore.run .new agreeingCalls =
        some ((DiskStore.run (.openDb DiskStore.newDb) agreeingCalls).1, s) ∧
      SameReads s (DiskStore.run (.openDb DiskStore.newDb) agreeingCalls).2 :=
  stores_agree agreeingCalls (by decide) (by decide) agreeingCalls (prefix_refl _)

/-- The second tuple has another arity than the first: only the store on disk takes it. -/
theorem stores_differ :
    (MemStore.run .new [.insert "p" [.number 1], .insert "p" [.number 1, .number 2]]).map Prod.fst =
        some [true, false] ∧
      (DiskStore.run (.openDb DiskStore.newDb)
        [.insert "p" [.number 1], .insert "p" [.number 1, .number 2]]).1 = [true, true] := by
  decide

end Mangle

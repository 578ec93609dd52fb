import Mangle.Store.DiskSound

/-!
# Store/DiskDurable — the store on disk across stops

A history of calls in which the process may stop after any transaction of a call, whereupon the file
is opened again.  The row numbers are kept in memory and reach the file only with `save_meta`, so a
stop is harmless when none has been handed out since: then no promotion is half done either, for a
promotion hands out numbers before it writes.

* `durable` — in a history of such stops, a tuple that was inserted and not retracted has one row,
  and the number the next insertion takes is free;
* `stop_loses_row` — a stop right after an insertion, and the next one overwrites its row.
-/

namespace Mangle

open Machinery List

variable {db : Db}

/-! ## Histories -/

/-- A call, or one after whose first transactions the process stops. -/
inductive DiskEvent where
  | call (c : StoreCall)
  | stop (c : StoreCall) (transactions : Nat)

/-- Whether a call takes a tuple away. -/
def StoreCall.removes : StoreCall → String × Tuple → Bool
  | .retract rel t, p => p = (rel, t)
  | .clear rel, p => p.1 = rel
  | _, _ => false

/-- The tuples whose insertion returned `true` and that were not taken away since. -/
def StoreCall.liveAfter (live : List (String × Tuple)) (returned : Bool) :
    StoreCall → List (String × Tuple)
  | .insert rel t => if returned then (rel, t) :: live else live
  | c => live.filter fun p => !c.removes p

namespace DiskStore

/-- The store when the process stops in a call. -/
def atStop (d : DiskStore) (c : StoreCall) (transactions : Nat) : DiskStore :=
  d.applySteps ((d.callSteps c).take transactions)

/-- Every row number handed out is saved. -/
def Saved (d : DiskStore) : Prop :=
  ∀ rel ∈ d.nextIds.keys, d.db.savedIds.lookup rel = d.nextIds.lookup rel

instance (d : DiskStore) : Decidable d.Saved := by
  unfold Saved; infer_instance

end DiskStore

namespace DiskEvent

/-- The relation an event names. -/
def names : DiskEvent → List String
  | call c => c.names
  | stop c _ => c.names

/-- The store and the live tuples after an event. -/
def step : DiskEvent → DiskStore × List (String × Tuple) → DiskStore × List (String × Tuple)
  | call c, (d, live) => ((d.call c).2, c.liveAfter live (d.returned c))
  | stop c k, (d, live) => (.openDb (d.atStop c k).db, c.liveAfter live false)

/-- A stop finds every row number saved. -/
def Harmless (d : DiskStore) : DiskEvent → Prop
  | call _ => True
  | stop c k => (d.atStop c k).Saved

instance (d : DiskStore) : (e : DiskEvent) → Decidable (e.Harmless d)
  | call _ => inferInstanceAs (Decidable True)
  | stop c k => inferInstanceAs (Decidable (d.atStop c k).Saved)

/-- Events one after the other. -/
def run (es : List DiskEvent) (st : DiskStore × List (String × Tuple)) :
    DiskStore × List (String × Tuple) :=
  es.foldl (fun st e => e.step st) st

/-- Every stop of a history is harmless. -/
def AllHarmless : DiskStore × List (String × Tuple) → List DiskEvent → Prop
  | _, [] => True
  | st, e :: es => e.Harmless st.1 ∧ AllHarmless (e.step st) es

instance decidableAllHarmless : (st : DiskStore × List (String × Tuple)) → (es : List DiskEvent) →
    Decidable (AllHarmless st es)
  | _, [] => inferInstanceAs (Decidable True)
  | st, e :: es =>
      have := decidableAllHarmless (e.step st) es
      inferInstanceAs (Decidable (e.Harmless st.1 ∧ AllHarmless (e.step st) es))

end DiskEvent

/-- Each live tuple has one row in the three tiers, and the next insertion overwrites none. -/
def Durable (d : DiskStore) (live : List (String × Tuple)) : Prop :=
  (∀ p ∈ live, ∃! q : Tier × Nat, d.db.row q.1 p.1 q.2 = some p.2) ∧
    ∀ rel, d.db.row .nextDelta rel (d.nextId rel) = none

/-! ## Row numbers in memory and in the file -/

namespace DiskStore

variable {names : List String} {d : DiskStore} {rel : String} {t : Tuple}

/-- The saved row numbers are not ahead of those in memory. -/
structure Counters (names : List String) (d : DiskStore) : Prop where
  behind : ∀ rel m, d.db.savedIds.lookup rel = some m → m ≤ d.nextId rel
  named : ∀ rel, rel ∈ d.nextIds → rel ∈ names
  savedNamed : ∀ rel, rel ∈ d.db.savedIds → rel ∈ names

/-- A row number has been handed out since the last `save_meta`. -/
def Unsaved (d : DiskStore) : Prop :=
  ∃ rel n, d.nextIds.lookup rel = some n ∧ ∀ m, d.db.savedIds.lookup rel = some m → m < n

theorem Unsaved.not_saved (h : d.Unsaved) : ¬ d.Saved := by
  obtain ⟨rel, n, hn, hlt⟩ := h
  intro hs
  have hmem : rel ∈ d.nextIds.keys := AList.mem_keys.mp (AList.lookup_isSome.mp (by simp [hn]))
  exact Nat.lt_irrefl n (hlt n ((hs rel hmem).trans hn))

/-- A step that hands out numbers keeps the saved ones and what is saved of the others. -/
theorem Counters.allocIds (h : Counters names d) (hrel : rel ∈ names) (n : Nat)
    (hdb : db.savedIds = d.db.savedIds) : Counters names { d.allocIds rel n with db := db } where
  behind r m hm := by
    have hnext : ({ d.allocIds rel n with db := db } : DiskStore).nextId r = _ :=
      nextId_allocIds d rel r n
    have hle := h.behind r m (hdb ▸ hm)
    rw [hnext]
    split
    · next hr => exact Nat.le_add_right_of_le (hr ▸ hle)
    · exact hle
  named r hr := by
    obtain rfl | hr := AList.mem_insert _ |>.mp hr
    · exact hrel
    · exact h.named r hr
  savedNamed r hr := h.savedNamed r (hdb ▸ hr)

theorem unsaved_allocIds (h : Counters names d) {n : Nat} (hn : 0 < n)
    (hdb : db.savedIds = d.db.savedIds) : Unsaved { d.allocIds rel n with db := db } := by
  refine ⟨rel, d.nextId rel + n, by simp [DiskStore.allocIds], fun m hm => ?_⟩
  have := h.behind rel m (hdb ▸ hm)
  omega

theorem Unsaved.allocIds (h : d.Unsaved) (rel : String) (n : Nat)
    (hdb : db.savedIds = d.db.savedIds) : Unsaved { d.allocIds rel n with db := db } := by
  obtain ⟨r, k, hk, hlt⟩ := h
  by_cases hr : r = rel
  · subst hr
    refine ⟨r, d.nextId r + n, by simp [DiskStore.allocIds], fun m hm => ?_⟩
    have := hlt m (hdb ▸ hm)
    simp only [nextId, hk, Option.getD_some]
    omega
  · exact ⟨r, k, by simpa [DiskStore.allocIds, AList.lookup_insert_ne hr] using hk,
      fun m hm => hlt m (hdb ▸ hm)⟩

theorem savedIds_addRows (tier : Tier) (rel : String) (id : Nat) (ts : List Tuple) (db : Db) :
    (Db.addRows tier rel id ts db).savedIds = db.savedIds := by
  induction ts generalizing id db with
  | nil => rfl
  | cons t ts ih => exact ih ..

theorem Counters.copyTier (h : Counters names d) (hrel : rel ∈ names) (src dst : Tier) :
    Counters names (copyTier src dst rel d) := by
  obtain ⟨-, heq⟩ | ⟨-, heq⟩ := copyTier_cases src dst rel d <;> rw [heq]
  · exact h
  · exact h.allocIds hrel _ (savedIds_addRows ..)

theorem Unsaved.copyTier (h : d.Unsaved) (src dst : Tier) (rel : String) :
    Unsaved (copyTier src dst rel d) := by
  obtain ⟨-, heq⟩ | ⟨-, heq⟩ := copyTier_cases src dst rel d <;> rw [heq]
  · exact h
  · exact h.allocIds rel _ (savedIds_addRows ..)

theorem Counters.saveMeta (h : Counters names d) : Counters names d.saveMeta where
  behind r m hm := by
    change (d.nextIds ∪ d.db.savedIds).lookup r = some m at hm
    by_cases hr : r ∈ d.nextIds
    · rw [AList.lookup_union_left hr] at hm
      exact Nat.le_of_eq (by simp [DiskStore.saveMeta, nextId, hm])
    · rw [AList.lookup_union_right hr] at hm
      exact h.behind r m hm
  named := h.named
  savedNamed r hr := by
    obtain hr | hr := AList.mem_union.mp hr
    · exact h.named r hr
    · exact h.savedNamed r hr

theorem Counters.register (h : Counters names d) (hrel : rel ∈ names) :
    Counters names (register rel d) where
  behind r m hm := by
    rw [nextId_register]
    exact h.behind r m hm
  named r hr := by
    have hsome := AList.lookup_isSome.mpr hr
    simp only [DiskStore.register, HashMap.lookup_orInsert] at hsome
    split at hsome
    · next heq => exact heq ▸ hrel
    · exact h.named r (AList.lookup_isSome.mp hsome)
  savedNamed := h.savedNamed

/-! ## Stops -/

/-- The invariant between calls. -/
structure Lasting (names : List String) (d : DiskStore) : Prop where
  sound : Sound names d
  counters : Counters names d

theorem Lasting.new : Lasting names (openDb newDb) where
  sound := .new
  counters :=
    { behind := fun _ _ h => by simp [openDb, newDb] at h
      named := fun _ h => absurd h (by simp [openDb, newDb])
      savedNamed := fun _ h => absurd h (by simp [openDb, newDb]) }

/-- **Opening the file again** finds the same rows, and numbers above them. -/
theorem Lasting.reopen (h : Lasting names d) (hs : d.Saved) : Lasting names (openDb d.db) where
  sound :=
    { exact := h.sound.exact
      within := h.sound.within
      once := h.sound.once
      below := fun {tier rel id t} hid => by
        have hlt := h.sound.below hid
        by_cases hrel : rel ∈ d.nextIds.keys
        · simpa [nextId, openDb, hs rel hrel] using hlt
        · have hnone := AList.lookup_eq_none.mpr (AList.mem_keys.not.mpr hrel)
          simp [nextId, hnone] at hlt
      known := fun rel hrel => h.counters.savedNamed rel (AList.mem_keys.mpr hrel)
      nodup := d.db.savedIds.keys_nodup }
  counters :=
    { behind := fun rel m hm => by simp [openDb, nextId, show d.db.savedIds.lookup rel = _ from hm]
      named := h.counters.savedNamed
      savedNamed := h.counters.savedNamed }

/-- Wherever transactions are cut off, a row number is unsaved or every tuple is where it was. -/
structure Interruptible (names : List String) (steps : List (DiskStore → DiskStore)) : Prop where
  cut : ∀ {d}, Lasting names d → ∀ k, Unsaved (d.applySteps (steps.take k)) ∨
    (Lasting names (d.applySteps (steps.take k)) ∧
      ∀ tier rel t, (d.applySteps (steps.take k)).db.Holds tier rel t ↔ d.db.Holds tier rel t)
  unsaved : ∀ {d}, Unsaved d → ∀ k, Unsaved (d.applySteps (steps.take k))

theorem Interruptible.append {steps steps' : List (DiskStore → DiskStore)}
    (h : Interruptible names steps) (h' : Interruptible names steps') :
    Interruptible names (steps ++ steps') where
  cut {d} hd k := by
    rw [take_append, applySteps_append]
    obtain hu | ⟨hl, hsame⟩ := h.cut hd k
    · exact .inl (h'.unsaved hu _)
    · obtain hu' | ⟨hl', hsame'⟩ := h'.cut hl (k - steps.length)
      · exact .inl hu'
      · exact .inr ⟨hl', fun tier rel t => (hsame' tier rel t).trans (hsame tier rel t)⟩
  unsaved hu k := by
    rw [take_append, applySteps_append]
    exact h'.unsaved (h.unsaved hu k) _

theorem Interruptible.flatMap {α : Type} {l : List α} {f : α → List (DiskStore → DiskStore)}
    (h : ∀ a ∈ l, Interruptible names (f a)) : Interruptible names (l.flatMap f) := by
  induction l with
  | nil =>
    exact ⟨fun hd k => .inr ⟨by simpa [applySteps] using hd, by simp [applySteps]⟩,
      fun hu k => by simpa [applySteps] using hu⟩
  | cons a l ih =>
    rw [flatMap_cons]
    exact (h a (mem_cons_self ..)).append (ih fun b hb => h b (mem_cons_of_mem _ hb))

theorem applySteps_promoteTier (d : DiskStore) (src dst : Tier) (rel : String) (k : Nat) :
    d.applySteps ((promoteTier src dst rel).take (k + 2)) =
      dropTier src rel (copyTier src dst rel d) := by
  simp [promoteTier, applySteps]

/-- Dropping tables hands out no number. -/
theorem Unsaved.dropTier (h : d.Unsaved) (tier : Tier) (rel : String) :
    Unsaved (dropTier tier rel d) := h

/-- **A promotion cut short** has handed out numbers, unless there was nothing to promote. -/
theorem interruptible_promoteTier (hn : Apart names) (hrel : rel ∈ names) {src dst : Tier}
    (hne : src ≠ dst) : Interruptible names (promoteTier src dst rel) where
  cut {d} hd k := by
    obtain ⟨hnil, heq⟩ | ⟨hcons, heq⟩ := copyTier_cases src dst rel d
    · have hempty (t : Tuple) : ¬ d.db.Holds src rel t := by simp [← Db.mem_tuples, hnil]
      refine .inr ?_
      match k with
      | 0 => exact ⟨hd, fun _ _ _ => .rfl⟩
      | 1 =>
        have hcut : d.applySteps ((promoteTier src dst rel).take 1) = d := heq
        exact hcut.symm ▸ ⟨hd, fun _ _ _ => .rfl⟩
      | k + 2 =>
        have hsound := hd.sound.promote hn hrel hne
        have hholds := hd.sound.holds_promote hne rel
        have hcounters : Counters names (dropTier src rel (DiskStore.copyTier src dst rel d)) := by
          rw [heq]
          exact ⟨hd.counters.behind, hd.counters.named, hd.counters.savedNamed⟩
        rw [applySteps_promoteTier]
        refine ⟨⟨hsound, hcounters⟩, fun tier r u => (hholds tier r u).trans ?_⟩
        refine ⟨fun h => ?_, fun h => .inl ⟨h, ?_⟩⟩
        · exact h.elim And.left fun h => absurd h.2.2 (hempty u)
        · rintro ⟨rfl, rfl⟩
          exact hempty u h
    · have hu : Unsaved (DiskStore.copyTier src dst rel d) :=
        heq ▸ unsaved_allocIds hd.counters (length_pos_of_ne_nil hcons) (savedIds_addRows ..)
      match k with
      | 0 => exact .inr ⟨hd, fun _ _ _ => .rfl⟩
      | 1 => exact .inl hu
      | k + 2 => exact .inl (applySteps_promoteTier .. ▸ hu.dropTier src rel)
  unsaved {d} hu k := by
    match k with
    | 0 => exact hu
    | 1 => exact hu.copyTier src dst rel
    | k + 2 => exact applySteps_promoteTier .. ▸ (hu.copyTier src dst rel).dropTier src rel

/-- The steps of a list keep what each of them keeps. -/
theorem applySteps_induction {P : DiskStore → Prop} {steps : List (DiskStore → DiskStore)}
    (hsteps : ∀ step ∈ steps, ∀ d, P d → P (step d)) (h : P d) : P (d.applySteps steps) := by
  induction steps generalizing d with
  | nil => exact h
  | cons step steps ih =>
    exact ih (fun s hs => hsteps s (mem_cons_of_mem _ hs))
      (hsteps step (mem_cons_self ..) d h)

theorem Counters.promotions (h : Counters names d) {rels : List String}
    (hrels : ∀ r ∈ rels, r ∈ names) : Counters names (d.applySteps (rels.flatMap promotions)) := by
  refine applySteps_induction (fun step hstep d hd => ?_) h
  obtain ⟨r, hr, hstep⟩ := mem_flatMap.mp hstep
  simp only [DiskStore.promotions, promoteTier, cons_append, nil_append, mem_cons,
    not_mem_nil, or_false] at hstep
  obtain rfl | rfl | rfl | rfl := hstep
  · exact hd.copyTier (hrels r hr) _ _
  · exact ⟨hd.behind, hd.named, hd.savedNamed⟩
  · exact hd.copyTier (hrels r hr) _ _
  · exact ⟨hd.behind, hd.named, hd.savedNamed⟩

theorem Counters.insert (h : Counters names d) (hs : Sound names d) (hrel : rel ∈ names)
    (t : Tuple) : Counters names (d.insert rel t).2 := by
  obtain ⟨heq, -⟩ | ⟨heq, -⟩ := hs.insert_cases rel t <;> rw [heq]
  · exact h
  · exact h.allocIds hrel 1 rfl

theorem Counters.retract (h : Counters names d) (hs : Sound names d) (rel : String) (t : Tuple) :
    Counters names (d.retract rel t).2 := by
  obtain ⟨heq, -⟩ | ⟨tier, id, -, heq⟩ := hs.retract_cases rel t <;> rw [heq]
  · exact h
  · exact ⟨h.behind, h.named, h.savedNamed⟩

/-- The tuples a store holds, after a call that may take some away. -/
def Keeps (c : StoreCall) (d d' : DiskStore) : Prop :=
  ∀ p : String × Tuple, c.removes p = false → (∃ tier, d.db.Holds tier p.1 p.2) →
    ∃ tier, d'.db.Holds tier p.1 p.2

theorem Keeps.of_holds {c : StoreCall} {d' : DiskStore}
    (h : ∀ tier rel t, d'.db.Holds tier rel t ↔ d.db.Holds tier rel t) : Keeps c d d' :=
  fun p _ ⟨tier, ht⟩ => ⟨tier, (h tier p.1 p.2).mpr ht⟩

/-! ## One event -/

variable (h : Lasting names d)

include h

theorem Lasting.create (hrel : rel ∈ names) (k : Nat) :
    Lasting names (d.atStop (.createRelation rel) k) ∧
      Keeps (.createRelation rel) d (d.atStop (.createRelation rel) k) := by
  simp only [atStop, callSteps, createSteps]
  split
  · simpa [applySteps] using ⟨h, Keeps.of_holds fun _ _ _ => .rfl⟩
  · next hnew =>
    have hreg : Lasting names (register rel d) :=
      ⟨h.sound.register hrel hnew, h.counters.register hrel⟩
    rcases k with _ | _ | k
    · exact ⟨h, .of_holds fun _ _ _ => .rfl⟩
    · exact ⟨hreg, .of_holds fun _ _ _ => .rfl⟩
    · simpa [applySteps] using ⟨(⟨hreg.sound.saveMeta, hreg.counters.saveMeta⟩ :
        Lasting names (register rel d).saveMeta), Keeps.of_holds fun _ _ _ => .rfl⟩

theorem Lasting.insert (hrel : rel ∈ names) (t : Tuple) :
    Lasting names (d.insert rel t).2 ∧ Keeps (.insert rel t) d (d.insert rel t).2 ∧
      ∃ tier, (d.insert rel t).2.db.Holds tier rel t := by
  have hcounters := h.counters.insert h.sound hrel t
  obtain ⟨heq, hold⟩ | ⟨heq, hnew⟩ := h.sound.insert_cases rel t <;> rw [heq] at hcounters ⊢
  · exact ⟨⟨h.sound, hcounters⟩, .of_holds fun _ _ _ => .rfl, hold⟩
  · refine ⟨⟨h.sound.added hrel hnew, hcounters⟩, fun p _ ⟨tier, ht⟩ => ?_, .nextDelta, ?_⟩
    · exact ⟨tier, h.sound.holds_added.mpr (.inr ht)⟩
    · exact h.sound.holds_added.mpr (.inl ⟨rfl, rfl, rfl⟩)

theorem Lasting.retract (rel : String) (t : Tuple) :
    Lasting names (d.retract rel t).2 ∧ Keeps (.retract rel t) d (d.retract rel t).2 := by
  obtain ⟨hsound, -, -, hholds⟩ := h.sound.retract rel t
  refine ⟨⟨hsound, h.counters.retract h.sound rel t⟩, fun p hp ⟨tier, ht⟩ => ⟨tier, ?_⟩⟩
  refine (hholds tier p.1 p.2).mpr ⟨ht, fun ⟨h₁, h₂⟩ => ?_⟩
  simp [StoreCall.removes, Prod.ext_iff, h₁, h₂] at hp

theorem Lasting.clear (hn : Apart names) (hrel : rel ∈ names) (k : Nat) :
    Lasting names (d.atStop (.clear rel) k) ∧ Keeps (.clear rel) d (d.atStop (.clear rel) k) := by
  refine applySteps_induction
    (P := fun d' => Lasting names d' ∧ Keeps (.clear rel) d d') (fun step hstep d' hd' => ?_)
    ⟨h, .of_holds fun _ _ _ => .rfl⟩
  have hstep := mem_of_mem_take hstep
  simp only [callSteps, clearSteps, mem_cons, not_mem_nil, or_false] at hstep
  obtain ⟨tier, rfl⟩ : ∃ tier, step = DiskStore.dropTier tier rel := by
    obtain rfl | rfl | rfl := hstep
    · exact ⟨_, rfl⟩
    · exact ⟨_, rfl⟩
    · exact ⟨_, rfl⟩
  refine ⟨⟨hd'.1.sound.drop hn hrel tier, hd'.1.counters.behind, hd'.1.counters.named,
    hd'.1.counters.savedNamed⟩, fun p hp hold => ?_⟩
  obtain ⟨tier', ht'⟩ := hd'.2 p hp hold
  refine ⟨tier', holds_drop.mpr ⟨ht', fun ⟨_, hr⟩ => ?_⟩⟩
  simp [StoreCall.removes, hr] at hp

theorem Lasting.mergeDeltas (hn : Apart names) (order : HashOrder) :
    Lasting names (d.applySteps (d.mergeSteps order)) ∧
      Keeps (.mergeDeltas order) d (d.applySteps (d.mergeSteps order)) := by
  obtain ⟨hsound, hpromoted, hother, -⟩ := h.sound.merge hn order
  have hcounters : Counters names (d.applySteps (d.mergeSteps order)) := by
    rw [mergeSteps, applySteps_append]
    refine (h.counters.promotions fun r hr => ?_).saveMeta
    exact h.sound.known r ((order.perm_perm d.relations).mem_iff.mp hr)
  refine ⟨⟨hsound, hcounters⟩, ?_⟩
  rintro p - ⟨tier, ht⟩
  by_cases hr : p.1 ∈ d.relations
  · obtain ⟨hst, hde, -⟩ := hpromoted p.1 hr p.2
    cases tier with
    | stable => exact ⟨_, hst.mpr (.inl ht)⟩
    | delta => exact ⟨_, hst.mpr (.inr ht)⟩
    | nextDelta => exact ⟨_, hde.mpr ht⟩
  · exact ⟨tier, (hother tier p.1 p.2 hr).mpr ht⟩

/-- A merge cut short, or not. -/
theorem Lasting.stop_merge (hn : Apart names) (order : HashOrder) (k : Nat) :
    Unsaved (d.atStop (.mergeDeltas order) k) ∨ (Lasting names (d.atStop (.mergeDeltas order) k) ∧
      Keeps (.mergeDeltas order) d (d.atStop (.mergeDeltas order) k)) := by
  have hcut : Interruptible names ((order.perm d.relations).flatMap DiskStore.promotions) :=
    .flatMap fun r hr => by
      have hrel := h.sound.known r ((order.perm_perm d.relations).mem_iff.mp hr)
      exact (interruptible_promoteTier hn hrel (by decide)).append
        (interruptible_promoteTier hn hrel (by decide))
  by_cases hk : k ≤ ((order.perm d.relations).flatMap DiskStore.promotions).length
  · simp only [atStop, callSteps, mergeSteps, take_append_of_le_length hk]
    exact (hcut.cut h k).imp_right (And.imp_right .of_holds)
  · have hall : (d.mergeSteps order).take k = d.mergeSteps order :=
      take_of_length_le (by simp only [mergeSteps, length_append, length_singleton]; omega)
    simp only [atStop, callSteps, hall]
    exact .inr (h.mergeDeltas hn order)

/-- **A stop** in a call leaves a number unsaved, or a file that opens as it should. -/
theorem Lasting.stop (hn : Apart names) (c : StoreCall) (hnames : ∀ r ∈ c.names, r ∈ names)
    (k : Nat) :
    Unsaved (d.atStop c k) ∨ (Lasting names (d.atStop c k) ∧ Keeps c d (d.atStop c k)) := by
  have hstay : Lasting names d ∧ Keeps c d d := ⟨h, .of_holds fun _ _ _ => .rfl⟩
  cases c with
  | createRelation rel => exact .inr (h.create (hnames rel (by simp [StoreCall.names])) k)
  | insert rel t =>
    obtain ⟨hl, hk, -⟩ := h.insert (hnames rel (by simp [StoreCall.names])) t
    match k with
    | 0 => exact .inr hstay
    | k + 1 => exact .inr (by simpa [atStop, callSteps, applySteps] using ⟨hl, hk⟩)
  | mergeDeltas order => exact h.stop_merge hn order k
  | retract rel t =>
    match k with
    | 0 => exact .inr hstay
    | k + 1 => exact .inr (by simpa [atStop, callSteps, applySteps] using h.retract rel t)
  | clear rel => exact .inr (h.clear hn (hnames rel (by simp [StoreCall.names])) k)

/-- A whole call. -/
theorem Lasting.call (hn : Apart names) (c : StoreCall) (hnames : ∀ r ∈ c.names, r ∈ names) :
    Lasting names (d.call c).2 ∧ Keeps c d (d.call c).2 := by
  have hall : (d.call c).2 = d.atStop c (d.callSteps c).length := by
    rw [atStop, take_length, DiskStore.call]
  cases c with
  | createRelation rel => exact hall ▸ h.create (hnames rel (by simp [StoreCall.names])) _
  | insert rel t =>
    obtain ⟨hl, hk, -⟩ := h.insert (hnames rel (by simp [StoreCall.names])) t
    exact ⟨hl, hk⟩
  | mergeDeltas order => exact h.mergeDeltas hn order
  | retract rel t => exact h.retract rel t
  | clear rel => exact hall ▸ h.clear hn (hnames rel (by simp [StoreCall.names])) _

end DiskStore

/-! ## Whole histories -/

section Histories

variable {names : List String} {d : DiskStore} {live : List (String × Tuple)}

/-- The live tuples have rows. -/
def LiveIn (d : DiskStore) (live : List (String × Tuple)) : Prop :=
  ∀ p ∈ live, ∃ tier, d.db.Holds tier p.1 p.2

/-- The tuples that stay live after a call that did not insert. -/
theorem LiveIn.liveAfter {c : StoreCall} {d' : DiskStore} (h : LiveIn d live)
    (hk : DiskStore.Keeps c d d') : LiveIn d' (c.liveAfter live false) := by
  intro p hp
  have hmem : p ∈ live ∧ c.removes p = false := by
    cases c <;> simpa [StoreCall.liveAfter, StoreCall.removes] using hp
  exact hk p hmem.2 (h p hmem.1)

theorem DiskEvent.step_lasting (hn : Apart names) (h : d.Lasting names) (hl : LiveIn d live)
    {e : DiskEvent} (hnames : ∀ r ∈ e.names, r ∈ names) (hsafe : e.Harmless d) :
    (e.step (d, live)).1.Lasting names ∧ LiveIn (e.step (d, live)).1 (e.step (d, live)).2 := by
  cases e with
  | call c =>
    obtain ⟨hlast, hkeep⟩ := h.call hn c hnames
    refine ⟨hlast, ?_⟩
    cases c with
    | insert rel t =>
      obtain ⟨-, -, hheld⟩ := h.insert (hnames rel (by simp [DiskEvent.names, StoreCall.names])) t
      intro p hp
      simp only [step, StoreCall.liveAfter] at hp
      split at hp
      · obtain rfl | hp := mem_cons.mp hp
        · exact hheld
        · exact hkeep p rfl (hl p hp)
      · exact hkeep p rfl (hl p hp)
    | createRelation rel => exact hl.liveAfter hkeep
    | mergeDeltas order => exact hl.liveAfter hkeep
    | retract rel t => exact hl.liveAfter hkeep
    | clear rel => exact hl.liveAfter hkeep
  | stop c k =>
    obtain hu | ⟨hlast, hkeep⟩ := h.stop hn c hnames k
    · exact absurd hsafe hu.not_saved
    · exact ⟨hlast.reopen hsafe, hl.liveAfter hkeep⟩

theorem DiskEvent.run_lasting (hn : Apart names) {es : List DiskEvent} (h : d.Lasting names)
    (hl : LiveIn d live) (hnames : ∀ r ∈ es.flatMap DiskEvent.names, r ∈ names)
    (hsafe : AllHarmless (d, live) es) :
    (run es (d, live)).1.Lasting names ∧ LiveIn (run es (d, live)).1 (run es (d, live)).2 := by
  induction es generalizing d live with
  | nil => exact ⟨h, hl⟩
  | cons e es ih =>
    simp only [flatMap_cons, mem_append, or_imp, forall_and] at hnames
    obtain ⟨h₁, hl₁⟩ := step_lasting hn h hl hnames.1 hsafe.1
    exact ih h₁ hl₁ hnames.2 hsafe.2

theorem DiskStore.Lasting.durable_of_liveIn (h : d.Lasting names) (hl : LiveIn d live) :
    Durable d live := by
  refine ⟨fun p hp => ?_, fun rel => h.sound.free (Nat.le_refl _)⟩
  obtain ⟨tier, id, hid⟩ := hl p hp
  refine ⟨(tier, id), hid, fun q hq => ?_⟩
  obtain ⟨htier, hidq⟩ := h.sound.once hq hid
  exact Prod.ext htier hidq

theorem DiskEvent.AllHarmless.of_append {pre es : List DiskEvent}
    {st : DiskStore × List (String × Tuple)} (h : AllHarmless st (pre ++ es)) :
    AllHarmless st pre := by
  induction pre generalizing st with
  | nil => trivial
  | cons e pre ih => exact ⟨h.1, ih h.2⟩

end Histories

/-- **Inserted tuples last**: at every point of a history whose stops find the row numbers saved,
each of them has one row, and the next insertion writes where there is none. -/
theorem durable (es : List DiskEvent) (hn : Apart (es.flatMap DiskEvent.names))
    (hsafe : DiskEvent.AllHarmless (.openDb DiskStore.newDb, []) es) (pre : List DiskEvent)
    (hpre : pre <+: es) :
    Durable (DiskEvent.run pre (.openDb DiskStore.newDb, [])).1
      (DiskEvent.run pre (.openDb DiskStore.newDb, [])).2 := by
  obtain ⟨rest, rfl⟩ := hpre
  have hnames : ∀ r ∈ pre.flatMap DiskEvent.names, r ∈ (pre ++ rest).flatMap DiskEvent.names :=
    fun r hr => by
      rw [flatMap_append]
      exact mem_append_left _ hr
  obtain ⟨hlast, hlive⟩ := DiskEvent.run_lasting hn .new (fun _ h => absurd h not_mem_nil)
    hnames hsafe.of_append
  exact hlast.durable_of_liveIn hlive

/-- Stops after a merge, and in a second one that has nothing to promote. -/
def harmlessHistory : List DiskEvent :=
  [.call (.createRelation "p"), .call (.insert "p" [.number 1]), .call (.mergeDeltas .insertion),
    .stop (.mergeDeltas .insertion) 0, .call (.insert "p" [.number 2]),
    .call (.mergeDeltas .insertion), .call (.mergeDeltas .insertion),
    .stop (.mergeDeltas .insertion) 3, .call (.retract "p" [.number 1])]

theorem durable_harmlessHistory :
    Durable (DiskEvent.run harmlessHistory (.openDb DiskStore.newDb, [])).1
      (DiskEvent.run harmlessHistory (.openDb DiskStore.newDb, [])).2 :=
  durable harmlessHistory (by decide) (by decide) harmlessHistory (prefix_refl _)

/-- A stop between two insertions. -/
def lossyHistory : List DiskEvent :=
  [.call (.createRelation "p"), .call (.insert "p" [.number 1]), .stop (.insert "p" [.number 2]) 0,
    .call (.insert "p" [.number 2])]

/-- **A row is overwritten**: the second insertion takes the number of the first. -/
theorem stop_loses_row :
    ¬ Durable (DiskEvent.run lossyHistory (.openDb DiskStore.newDb, [])).1
      (DiskEvent.run lossyHistory (.openDb DiskStore.newDb, [])).2 := by
  intro h
  obtain ⟨⟨tier, id⟩, hrow, -⟩ := h.1 ("p", [.number 1]) (by decide)
  have hmem : [Value.number 1] ∈ ((DiskEvent.run lossyHistory
      (.openDb DiskStore.newDb, [])).1.db.rows tier "p").map Prod.snd :=
    Db.mem_tuples.mpr ⟨id, hrow⟩
  clear hrow
  cases tier with
  | stable => exact absurd hmem (by decide)
  | delta => exact absurd hmem (by decide)
  | nextDelta => exact absurd hmem (by decide)

end Mangle

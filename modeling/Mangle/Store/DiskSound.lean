import Mangle.Store.DiskStore

/-!
# Store/DiskSound — what the calls to the store on disk do

`Sound names d`: the indexes are exact, no tuple of a relation has two rows, and every row number is
below the next one.  Each call is described by the tuples its relations hold afterwards, and keeps
the store sound:

* `Sound.insert_cases`, `Sound.added` — insertion;
* `Sound.promote`, `Sound.merge` — promotion of a tier, and of all of them;
* `Sound.retract`, `Sound.drop`, `Sound.clear` — removal;
* `Sound.create`.
-/

namespace Mangle

open Machinery List

variable {src dst : Tier}

namespace DiskStore

variable {names : List String} {d : DiskStore} {rel r : String} {tier tier' : Tier} {t u : Tuple}

/-! ## What a step changes -/

theorem nextId_allocIds (d : DiskStore) (rel r : String) (n : Nat) :
    (d.allocIds rel n).nextId r = if r = rel then d.nextId rel + n else d.nextId r := by
  by_cases hr : r = rel
  · subst hr
    simp [allocIds, nextId]
  · simp [allocIds, nextId, hr, AList.lookup_insert_ne hr]

/-- Copying a tier does nothing when it is empty. -/
theorem copyTier_cases (src dst : Tier) (rel : String) (d : DiskStore) :
    (d.db.rows src rel = [] ∧ copyTier src dst rel d = d) ∨
      (d.db.rows src rel ≠ [] ∧ copyTier src dst rel d =
        { d.allocIds rel (d.db.rows src rel).length with
          db := d.db.addRows dst rel (d.nextId rel) ((d.db.rows src rel).map Prod.snd) }) := by
  cases hrows : d.db.rows src rel with
  | nil => exact .inl ⟨rfl, by simp [copyTier, hrows]⟩
  | cons a l => exact .inr ⟨cons_ne_nil _ _, by simp [copyTier, hrows]⟩

theorem nextId_copyTier (src dst : Tier) (rel r : String) (d : DiskStore) :
    (copyTier src dst rel d).nextId r =
      d.nextId r + if r = rel then (d.db.rows src rel).length else 0 := by
  obtain ⟨hnil, heq⟩ | ⟨-, heq⟩ := copyTier_cases src dst rel d
  · simp [heq, hnil]
  · rw [heq]
    refine (nextId_allocIds d rel r _).trans ?_
    split
    · next hr => rw [hr]
    · rfl

/-- The database after `copyTier`, also when there was nothing to copy. -/
theorem db_copyTier (src dst : Tier) (rel : String) (d : DiskStore) :
    (copyTier src dst rel d).db =
      d.db.addRows dst rel (d.nextId rel) ((d.db.rows src rel).map Prod.snd) := by
  obtain ⟨hnil, heq⟩ | ⟨-, heq⟩ := copyTier_cases src dst rel d
  · rw [heq, hnil, map_nil, Db.addRows]
  · rw [heq]

theorem relations_copyTier (src dst : Tier) (rel : String) (d : DiskStore) :
    (copyTier src dst rel d).relations = d.relations := by
  obtain ⟨-, heq⟩ | ⟨-, heq⟩ := copyTier_cases src dst rel d <;> rw [heq]
  rfl

/-- A row after `promote_tier` is an old one outside the source tier, or a copy of one inside. -/
theorem row_promote {id : Nat}
    (hid : (dropTier src rel (copyTier src dst rel d)).db.row tier r id = some u) :
    (d.db.row tier r id = some u ∧ ¬ (tier = src ∧ r = rel)) ∨
      (tier = dst ∧ r = rel ∧ d.nextId rel ≤ id ∧
        ((d.db.rows src rel).map Prod.snd)[id - d.nextId rel]? = some u) := by
  simp only [dropTier, db_copyTier, Db.row_dropTierTables, Db.row_addRows] at hid
  split at hid
  · cases hid
  · next hsrc =>
    split at hid
    · next hnew => exact .inr ⟨hnew.1, hnew.2.1, hnew.2.2.1, hid⟩
    · exact .inl ⟨hid, hsrc⟩

theorem applySteps_append (d : DiskStore) (steps steps' : List (DiskStore → DiskStore)) :
    d.applySteps (steps ++ steps') = (d.applySteps steps).applySteps steps' := by
  simp [applySteps]

theorem holds_drop : (dropTier tier rel d).db.Holds tier' r u ↔
    d.db.Holds tier' r u ∧ ¬ (tier' = tier ∧ r = rel) := by
  simp only [Db.Holds, dropTier, Db.row_dropTierTables]
  by_cases h : tier' = tier ∧ r = rel <;> simp [h]

theorem nextId_register (rel r : String) (d : DiskStore) :
    (register rel d).nextId r = d.nextId r := by
  simp only [register, nextId, HashMap.lookup_orInsert]
  split
  · next hr =>
    subst hr
    simp
  · rfl

/-! ## The invariant -/

/-- The invariant of a store whose relations are among `names`. -/
structure Sound (names : List String) (d : DiskStore) : Prop where
  exact : d.db.Exact
  within : d.db.Within names
  once : ∀ {tier tier' rel id id' t}, d.db.row tier rel id = some t →
    d.db.row tier' rel id' = some t → tier = tier' ∧ id = id'
  below : ∀ {tier rel id t}, d.db.row tier rel id = some t → id < d.nextId rel
  known : ∀ rel ∈ d.relations, rel ∈ names
  nodup : d.relations.Nodup

theorem Sound.new : Sound names (openDb newDb) where
  exact tier rel col v id := by simp [openDb, newDb, Db.row]
  within tier rel t h := by simp [openDb, newDb, Db.Holds, Db.row] at h
  once h := by simp [openDb, newDb, Db.row] at h
  below h := by simp [openDb, newDb, Db.row] at h
  known rel h := absurd h (by simp [openDb, newDb])
  nodup := nodup_nil

variable (h : Sound names d)

include h

/-- No row has the next number of its relation, or a greater one. -/
theorem Sound.free {id : Nat} (hid : d.nextId rel ≤ id) : d.db.row tier rel id = none := by
  cases hrow : d.db.row tier rel id with
  | none => rfl
  | some t => exact absurd (h.below hrow) (by omega)

/-- A tuple is held by one tier. -/
theorem Sound.tier_eq (ht : d.db.Holds tier rel t) (ht' : d.db.Holds tier' rel t) :
    tier = tier' := by
  obtain ⟨id, hid⟩ := ht
  obtain ⟨id', hid'⟩ := ht'
  exact (h.once hid hid').1

/-! ## Insertion -/

/-- The store with one more collected row. -/
def added (d : DiskStore) (rel : String) (t : Tuple) : DiskStore :=
  { d.allocIds rel 1 with db := d.db.addRow .nextDelta rel (d.nextId rel) t }

/-- **Insertion** skips a tuple that some tier holds, and adds a row for any other. -/
theorem Sound.insert_cases (rel : String) (t : Tuple) :
    (d.insert rel t = (false, d) ∧ ∃ tier, d.db.Holds tier rel t) ∨
      (d.insert rel t = (true, d.added rel t) ∧ ∀ tier, ¬ d.db.Holds tier rel t) := by
  unfold insert
  split
  · next hsome =>
    simp only [Bool.or_eq_true, h.exact.findRow_isSome] at hsome
    refine .inl ⟨rfl, ?_⟩
    obtain (hs | hd) | hn := hsome
    · exact ⟨_, hs⟩
    · exact ⟨_, hd⟩
    · exact ⟨_, hn⟩
  · next hnone =>
    simp only [Bool.or_eq_true, h.exact.findRow_isSome, not_or] at hnone
    obtain ⟨⟨hs, hd⟩, hn⟩ := hnone
    refine .inr ⟨rfl, fun tier => ?_⟩
    cases tier with
    | stable => exact hs
    | delta => exact hd
    | nextDelta => exact hn

theorem Sound.holds_added : (d.added rel t).db.Holds tier r u ↔
      (tier = .nextDelta ∧ r = rel ∧ u = t) ∨ d.db.Holds tier r u := by
  simp only [Db.Holds, added, Db.row_addRow]
  constructor
  · rintro ⟨id, hid⟩
    split at hid
    · next hat => exact .inl ⟨hat.1, hat.2.1, (Option.some_inj.mp hid).symm⟩
    · exact .inr ⟨id, hid⟩
  · rintro (⟨rfl, rfl, rfl⟩ | ⟨id, hid⟩)
    · exact ⟨d.nextId r, if_pos ⟨rfl, rfl, rfl⟩⟩
    · refine ⟨id, ?_⟩
      rw [if_neg, hid]
      rintro ⟨rfl, rfl, rfl⟩
      exact absurd (h.below hid) (Nat.lt_irrefl _)

theorem Sound.added (hrel : rel ∈ names) (hnew : ∀ tier, ¬ d.db.Holds tier rel t) :
    Sound names (d.added rel t) where
  exact := h.exact.addRow (h.free (Nat.le_refl _)) t
  within tier r u hu := by
    obtain ⟨-, rfl, -⟩ | hu := h.holds_added.mp hu
    · exact hrel
    · exact h.within _ _ _ hu
  once {tier tier' r id id' u} hid hid' := by
    simp only [DiskStore.added, Db.row_addRow] at hid hid'
    -- A second row for the new tuple would be an old one.
    split at hid <;> split at hid'
    · next h₁ h₂ => exact ⟨h₁.1.trans h₂.1.symm, h₁.2.2.trans h₂.2.2.symm⟩
    · next h₁ _ =>
      obtain ⟨rfl, rfl, rfl⟩ := h₁
      exact absurd ⟨id', Option.some_inj.mp hid ▸ hid'⟩ (hnew tier')
    · next _ h₂ =>
      obtain ⟨rfl, rfl, rfl⟩ := h₂
      exact absurd ⟨id, Option.some_inj.mp hid' ▸ hid⟩ (hnew tier)
    · exact h.once hid hid'
  below {tier r id u} hid := by
    have hnext : (d.added rel t).nextId r = _ := nextId_allocIds d rel r 1
    rw [hnext]
    simp only [DiskStore.added, Db.row_addRow] at hid
    split at hid
    · next hat =>
      obtain ⟨-, rfl, rfl⟩ := hat
      simp
    · have := h.below hid
      split
      · next hr =>
        subst hr
        omega
      · exact this
  known := h.known
  nodup := h.nodup

/-! ## Promotion -/

/-- **Promotion** moves the tuples of the source tier. -/
theorem Sound.holds_promote (hne : src ≠ dst) (rel : String) (tier : Tier)
    (r : String) (u : Tuple) :
    (dropTier src rel (copyTier src dst rel d)).db.Holds tier r u ↔
      (d.db.Holds tier r u ∧ ¬ (tier = src ∧ r = rel)) ∨
        (tier = dst ∧ r = rel ∧ d.db.Holds src rel u) := by
  constructor
  · rintro ⟨id, hid⟩
    obtain ⟨hid, hsrc⟩ | ⟨htier, hr, -, hnew⟩ := row_promote hid
    · exact .inl ⟨⟨id, hid⟩, hsrc⟩
    · exact .inr ⟨htier, hr, Db.mem_tuples.mp (mem_of_getElem? hnew)⟩
  · simp only [Db.Holds, dropTier, db_copyTier, Db.row_dropTierTables, Db.row_addRows]
    rintro (⟨⟨id, hid⟩, hsrc⟩ | ⟨rfl, rfl, hu⟩)
    · refine ⟨id, ?_⟩
      rw [if_neg hsrc, if_neg, hid]
      rintro ⟨-, rfl, hle, -⟩
      exact absurd (h.below hid) (by omega)
    · obtain ⟨i, hi⟩ := List.getElem?_of_mem (Db.mem_tuples.mpr hu)
      have hlen := (List.getElem?_eq_some_iff.mp hi).1
      refine ⟨d.nextId r + i, ?_⟩
      rw [if_neg (fun hsrc => hne hsrc.1.symm), if_pos ⟨rfl, rfl, by omega, by omega⟩,
        Nat.add_sub_cancel_left, hi]

/-- The tuples of a tier are listed once. -/
theorem Sound.nodup_tuples (tier : Tier) (rel : String) :
    ((d.db.rows tier rel).map Prod.snd).Nodup := by
  have hkeys : (d.db.rows tier rel).Nodup :=
    Std.ExtTreeMap.ordered_keys_toList.imp fun hab heq => by simp [heq] at hab
  refine hkeys.map_on fun a ha b hb hab => ?_
  have ha' := Db.mem_rows.mp ha
  have hb' := Db.mem_rows.mp hb
  rw [hab] at ha'
  exact Prod.ext (h.once ha' hb').2 hab

theorem Sound.promote (hn : Apart names) (hrel : rel ∈ names) (hne : src ≠ dst) :
    Sound names (dropTier src rel (copyTier src dst rel d)) where
  exact := by
    have hw : (copyTier src dst rel d).db.Within names := by
      rintro tier r u ⟨id, hid⟩
      simp only [db_copyTier, Db.row_addRows] at hid
      split at hid
      · next hnew => exact hnew.2.1 ▸ hrel
      · exact h.within _ _ _ ⟨id, hid⟩
    refine Db.Exact.dropTierTables ?_ hw hn hrel
    rw [db_copyTier]
    exact h.exact.addRows (fun id hid => h.free hid) _
  within tier r u hu := by
    obtain ⟨hu, -⟩ | ⟨-, rfl, -⟩ := (h.holds_promote hne rel tier r u).mp hu
    · exact h.within _ _ _ hu
    · exact hrel
  once {tier tier' r id id' u} hid hid' := by
    -- Of two copies the tuple stood twice in the source; an old row and a copy are of two tiers.
    have hcopy {tier : Tier} {id i : Nat} (hold : d.db.row tier r id = some u)
        (hsrc : ¬ (tier = src ∧ r = rel)) (hr : r = rel)
        (hi : ((d.db.rows src rel).map Prod.snd)[i]? = some u) : False := by
      subst hr
      exact hsrc ⟨h.tier_eq ⟨id, hold⟩ (Db.mem_tuples.mp (mem_of_getElem? hi)), rfl⟩
    obtain ⟨hid, hsrc⟩ | ⟨ht, hr, hle, hi⟩ := row_promote hid <;>
      obtain ⟨hid', hsrc'⟩ | ⟨ht', hr', hle', hi'⟩ := row_promote hid'
    · exact h.once hid hid'
    · exact (hcopy hid hsrc hr' hi').elim
    · exact (hcopy hid' hsrc' hr hi).elim
    · have hlen := (List.getElem?_eq_some_iff.mp hi).1
      have := (List.getElem?_inj hlen (h.nodup_tuples src rel)).mp (hi.trans hi'.symm)
      exact ⟨ht.trans ht'.symm, by omega⟩
  below {tier r id u} hid := by
    have hnext := nextId_copyTier src dst rel r d
    obtain ⟨hid, -⟩ | ⟨-, rfl, hle, hi⟩ := row_promote hid
    · exact Nat.lt_of_lt_of_le (h.below hid) (hnext ▸ Nat.le_add_right _ _)
    · have hlen := (List.getElem?_eq_some_iff.mp hi).1
      rw [length_map] at hlen
      rw [if_pos rfl] at hnext
      exact hnext ▸ (by omega)
  known := (relations_copyTier src dst rel d).symm ▸ h.known
  nodup := (relations_copyTier src dst rel d).symm ▸ h.nodup

/-- What a relation holds after both of its promotions. -/
def Promoted (d d' : DiskStore) (rel : String) : Prop := ∀ u,
  (d'.db.Holds .stable rel u ↔ d.db.Holds .stable rel u ∨ d.db.Holds .delta rel u) ∧
    (d'.db.Holds .delta rel u ↔ d.db.Holds .nextDelta rel u) ∧ ¬ d'.db.Holds .nextDelta rel u

theorem Sound.promotions (hn : Apart names) (hrel : rel ∈ names) :
    Sound names (d.applySteps (promotions rel)) ∧ Promoted d (d.applySteps (promotions rel)) rel ∧
      (∀ tier r u, r ≠ rel →
        ((d.applySteps (DiskStore.promotions rel)).db.Holds tier r u ↔ d.db.Holds tier r u)) ∧
      (d.applySteps (DiskStore.promotions rel)).relations = d.relations := by
  have hds : Tier.delta ≠ .stable := by decide
  have hnd : Tier.nextDelta ≠ .delta := by decide
  have h₁ := h.promote hn hrel hds
  have hh₁ := h.holds_promote hds rel
  have h₂ := h₁.promote hn hrel hnd
  have hh₂ := h₁.holds_promote hnd rel
  refine ⟨h₂, fun u => ⟨?_, ?_, ?_⟩, fun tier r u hr => ?_, ?_⟩
  · exact (hh₂ ..).trans (by simp [hh₁])
  · exact (hh₂ ..).trans (by simp [hh₁])
  · exact (hh₂ ..).not.mpr (by simp)
  · exact (hh₂ ..).trans (by simp [hh₁, hr])
  · exact (relations_copyTier ..).trans (relations_copyTier ..)

/-- The promotions of a list of relations, each once. -/
theorem Sound.promoteAll (hn : Apart names) {rels : List String} (hnodup : rels.Nodup)
    (hrels : ∀ r ∈ rels, r ∈ names) :
    Sound names (d.applySteps (rels.flatMap DiskStore.promotions)) ∧
      (∀ r ∈ rels, Promoted d (d.applySteps (rels.flatMap DiskStore.promotions)) r) ∧
      (∀ tier r u, r ∉ rels →
        ((d.applySteps (rels.flatMap DiskStore.promotions)).db.Holds tier r u ↔
          d.db.Holds tier r u)) ∧
      (d.applySteps (rels.flatMap DiskStore.promotions)).relations = d.relations := by
  induction rels generalizing d with
  | nil => exact ⟨h, by simp, fun _ _ _ _ => .rfl, rfl⟩
  | cons rel rels ih =>
    obtain ⟨hnot, hnodup⟩ := nodup_cons.mp hnodup
    obtain ⟨h₁, hrel₁, hother₁, hknown₁⟩ := h.promotions hn (hrels rel (mem_cons_self ..))
    obtain ⟨h₂, hrel₂, hother₂, hknown₂⟩ :=
      ih h₁ hnodup fun r hr => hrels r (mem_cons_of_mem _ hr)
    rw [flatMap_cons, applySteps_append]
    refine ⟨h₂, fun r hr u => ?_, fun tier r u hr => ?_, hknown₂.trans hknown₁⟩
    · obtain rfl | hr := mem_cons.mp hr
      · simpa only [hother₂ _ _ _ hnot] using hrel₁ u
      · have hne : r ≠ rel := fun heq => hnot (heq ▸ hr)
        simpa only [hother₁ _ _ _ hne] using hrel₂ r hr u
    · obtain ⟨hne, hr⟩ := not_or.mp (mem_cons.not.mp hr)
      rw [hother₂ _ _ _ hr, hother₁ _ _ _ hne]

/-- Saving the row numbers touches no row. -/
theorem Sound.saveMeta : Sound names d.saveMeta :=
  { h with }

/-- **Merging** promotes the tiers of the known relations, and leaves the others alone. -/
theorem Sound.merge (hn : Apart names) (order : HashOrder) :
    Sound names (d.applySteps (d.mergeSteps order)) ∧
      (∀ r ∈ d.relations, Promoted d (d.applySteps (d.mergeSteps order)) r) ∧
      (∀ tier r u, r ∉ d.relations →
        ((d.applySteps (d.mergeSteps order)).db.Holds tier r u ↔ d.db.Holds tier r u)) ∧
      (d.applySteps (d.mergeSteps order)).relations = d.relations := by
  have hperm := order.perm_perm d.relations
  obtain ⟨hs, hrel, hother, hknown⟩ := h.promoteAll hn (hperm.nodup_iff.mpr h.nodup)
    fun r hr => h.known r (hperm.mem_iff.mp hr)
  rw [mergeSteps, applySteps_append]
  exact ⟨hs.saveMeta, fun r hr => hrel r (hperm.mem_iff.mpr hr),
    fun tier r u hr => hother tier r u (hperm.mem_iff.not.mpr hr), hknown⟩

/-! ## Removal -/

/-- **Retraction** removes the row of a tuple that a tier holds. -/
theorem Sound.retract_cases (rel : String) (t : Tuple) :
    (d.retract rel t = (false, d) ∧ ∀ tier, ¬ d.db.Holds tier rel t) ∨
      ∃ tier id, d.db.row tier rel id = some t ∧
        d.retract rel t = (true, { d with db := d.db.removeRow tier rel id t }) := by
  have hnone {tier : Tier} (hfind : d.db.findRow tier rel t = none) : ¬ d.db.Holds tier rel t :=
    fun hh => by simpa [hfind] using h.exact.findRow_isSome.mpr hh
  cases hs : d.db.findRow .stable rel t with
  | some id => exact .inr ⟨_, id, Db.row_of_findRow hs, by simp [retract, retractFromTier, hs]⟩
  | none =>
    cases hd : d.db.findRow .delta rel t with
    | some id =>
      exact .inr ⟨_, id, Db.row_of_findRow hd, by simp [retract, retractFromTier, hs, hd]⟩
    | none =>
      cases hx : d.db.findRow .nextDelta rel t with
      | some id =>
        exact .inr ⟨_, id, Db.row_of_findRow hx, by simp [retract, retractFromTier, hs, hd, hx]⟩
      | none =>
        refine .inl ⟨by simp [retract, retractFromTier, hs, hd, hx], fun tier => ?_⟩
        cases tier with
        | stable => exact hnone hs
        | delta => exact hnone hd
        | nextDelta => exact hnone hx

/-- Fewer rows and the same row numbers keep a store sound, if the indexes stay exact. -/
theorem Sound.of_rows {d' : DiskStore} (hexact : d'.db.Exact)
    (hrows : ∀ {tier rel id t}, d'.db.row tier rel id = some t → d.db.row tier rel id = some t)
    (hids : d'.nextIds = d.nextIds) (hknown : d'.relations = d.relations) : Sound names d' where
  exact := hexact
  within tier rel t := fun ⟨id, hid⟩ => h.within tier rel t ⟨id, hrows hid⟩
  once hid hid' := h.once (hrows hid) (hrows hid')
  below hid := by
    rw [nextId, hids]
    exact h.below (hrows hid)
  known := hknown ▸ h.known
  nodup := hknown ▸ h.nodup

theorem Sound.retract (rel : String) (t : Tuple) :
    Sound names (d.retract rel t).2 ∧ (d.retract rel t).2.relations = d.relations ∧
      ((d.retract rel t).1 = true ↔ ∃ tier, d.db.Holds tier rel t) ∧
      ∀ tier r u, (d.retract rel t).2.db.Holds tier r u ↔
        d.db.Holds tier r u ∧ ¬ (r = rel ∧ u = t) := by
  obtain ⟨heq, hnone⟩ | ⟨tier, id, hid, heq⟩ := h.retract_cases rel t <;> rw [heq]
  · refine ⟨h, rfl, by simpa using hnone, fun tier r u => ?_⟩
    refine ⟨fun hu => ⟨hu, ?_⟩, And.left⟩
    rintro ⟨rfl, rfl⟩
    exact hnone tier hu
  · refine ⟨h.of_rows (h.exact.removeRow hid) (fun hrow => ?_) rfl rfl, rfl, ?_, ?_⟩
    · rw [Db.row_removeRow] at hrow
      split at hrow
      · cases hrow
      · exact hrow
    · simpa using ⟨tier, id, hid⟩
    · intro tier' r u
      simp only [Db.Holds, Db.row_removeRow]
      constructor
      · rintro ⟨i, hi⟩
        split at hi
        · cases hi
        · next hne =>
          refine ⟨⟨i, hi⟩, ?_⟩
          rintro ⟨rfl, rfl⟩
          obtain ⟨rfl, rfl⟩ := h.once hi hid
          exact hne ⟨rfl, rfl, rfl⟩
      · rintro ⟨⟨i, hi⟩, hne⟩
        refine ⟨i, ?_⟩
        rw [if_neg, hi]
        rintro ⟨rfl, rfl, rfl⟩
        exact hne ⟨rfl, Option.some_inj.mp (hi.symm.trans hid)⟩

theorem Sound.drop (hn : Apart names) (hrel : rel ∈ names) (tier : Tier) :
    Sound names (dropTier tier rel d) := by
  refine h.of_rows (h.exact.dropTierTables h.within hn hrel) (fun hrow => ?_) rfl rfl
  simp only [dropTier, Db.row_dropTierTables] at hrow
  split at hrow
  · cases hrow
  · exact hrow

/-- **Clearing** drops every row of the relation. -/
theorem Sound.clear (hn : Apart names) (hrel : rel ∈ names) :
    Sound names (d.applySteps (clearSteps rel)) ∧
      (d.applySteps (clearSteps rel)).relations = d.relations ∧
      ∀ tier r u, (d.applySteps (clearSteps rel)).db.Holds tier r u ↔
        d.db.Holds tier r u ∧ r ≠ rel := by
  refine ⟨((h.drop hn hrel _).drop hn hrel _).drop hn hrel _, rfl, fun tier r u => ?_⟩
  refine holds_drop.trans
    ((and_congr_left' (holds_drop.trans (and_congr_left' holds_drop))).trans ?_)
  by_cases hr : r = rel
  · cases tier <;> simp [hr]
  · simp [hr]

/-! ## Registration -/

theorem Sound.register (hrel : rel ∈ names) (hnew : rel ∉ d.relations) :
    Sound names (register rel d) where
  exact := h.exact
  within := h.within
  once := h.once
  below hid := by
    rw [nextId_register]
    exact h.below hid
  known r hr := by
    obtain rfl | hr := mem_cons.mp hr
    · exact hrel
    · exact h.known r hr
  nodup := nodup_cons.mpr ⟨hnew, h.nodup⟩

/-- **Registration** makes a relation known, and touches no row. -/
theorem Sound.create (hrel : rel ∈ names) :
    Sound names (d.applySteps (createSteps rel d)) ∧
      (∀ r, r ∈ (d.applySteps (createSteps rel d)).relations ↔ r = rel ∨ r ∈ d.relations) ∧
      ∀ tier r u, (d.applySteps (createSteps rel d)).db.Holds tier r u ↔ d.db.Holds tier r u := by
  unfold createSteps
  split
  · next hmem =>
    refine ⟨h, fun r => ⟨.inr, ?_⟩, fun _ _ _ => .rfl⟩
    rintro (rfl | hr)
    · exact hmem
    · exact hr
  · next hnew =>
    exact ⟨(h.register hrel hnew).saveMeta, fun r => mem_cons, fun _ _ _ => .rfl⟩

end DiskStore

end Mangle

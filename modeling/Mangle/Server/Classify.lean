import Mangle.Server.Apply

/-!
# Server/Classify — the operations a mutation applies

A `Mutate` command sorts its operations by a table of the facts before it (`classify`), and applies
those that change the table.  The store has a rule of its own: an insertion of another arity than
the registered one is dropped.

* `Agrees.changes_eq_iff` — as many operations are applied as change the facts, just when nothing
  is dropped;
* `Agrees.appliesAll` — then each of them changes the facts.
-/

namespace Mangle

open Machinery List

variable {t : Tuple}

/-! ## Changes -/

/-- The two lists have the same elements. -/
def sameSet (l l' : List Tuple) : Bool := l.all (· ∈ l') && l'.all (· ∈ l)

namespace Database

/-- The number of operations that change the facts, when all are executed one after another. -/
def changes : Database → List MutationOp → Nat
  | _, [] => 0
  | db, op :: ops =>
      match db.write op with
      | .error _ => 0
      | .ok db' =>
          (if sameSet ((db.query op.relation).getD []) ((db'.query op.relation).getD []) then 0
            else 1) + db'.changes ops

/-- No insertion of a tuple that is not there meets a registered arity other than its own. -/
def TakesAll : Database → List MutationOp → Prop
  | _, [] => True
  | db, op :: ops =>
      (op.kind = .insert → op.tuple ∉ (db.query op.relation).getD [] →
        ∀ n ∈ db.store.arity.lookup (op.relation : Name), n = op.tuple.length) ∧
      ∀ db', db.write op = .ok db' → db'.TakesAll ops

end Database

namespace Tiers

variable {c d : Tiers}

/-- The changes on tiers. -/
def changes : Tiers → List MutationOp → Nat
  | _, [] => 0
  | c, op :: ops =>
      (if op.tuple ∈ c.visible op.relation ↔ op.tuple ∈ (c.write op).visible op.relation then 0
        else 1) + (c.write op).changes ops

/-- No insertion is dropped for its arity. -/
def TakesAll : Tiers → List MutationOp → Prop
  | _, [] => True
  | c, op :: ops =>
      (op.kind = .insert → op.tuple ∉ c.visible op.relation → c.Takes op) ∧
        (c.write op).TakesAll ops

end Tiers

section

variable {db : Database} {c : Tiers}

/-- Only the tuple of an operation comes or goes. -/
theorem Database.Sound.mem_write_of_ne (h : db.Sound c) (op : MutationOp) (ht : t ≠ op.tuple) :
    t ∈ (c.write op).visible op.relation ↔ t ∈ c.visible op.relation := by
  cases hkind : op.kind with
  | insert => simp [h.merged.mem_write_insert hkind, ht]
  | retract => simp [h.rep.toValid.mem_write_retract hkind, ht]

theorem Database.Sound.sameSet_write (h : db.Sound c) (op : MutationOp) :
    sameSet (c.visible op.relation) ((c.write op).visible op.relation) = true ↔
      (op.tuple ∈ c.visible op.relation ↔ op.tuple ∈ (c.write op).visible op.relation) := by
  simp only [sameSet, Bool.and_eq_true, all_eq_true, decide_eq_true_iff]
  constructor
  · exact fun ⟨h₁, h₂⟩ => ⟨h₁ _, h₂ _⟩
  · refine fun hsame => ⟨fun t ht => ?_, fun t ht => ?_⟩ <;> by_cases hop : t = op.tuple
    · exact hop ▸ hsame.mp (hop ▸ ht)
    · exact (h.mem_write_of_ne op hop).mpr ht
    · exact hop ▸ hsame.mpr (hop ▸ ht)
    · exact (h.mem_write_of_ne op hop).mp ht

theorem Database.Sound.changes_eq (h : db.Sound c) (ops : List MutationOp) :
    db.changes ops = c.changes ops := by
  induction ops generalizing db c with
  | nil => rfl
  | cons op ops ih =>
    obtain ⟨s, hs, h₁⟩ := h.write op
    simp only [Database.changes, Tiers.changes, hs, ih h₁, h.scan, h₁.scan, Option.getD_some,
      h.sameSet_write]

theorem Database.Sound.takesAll_iff (h : db.Sound c) (ops : List MutationOp) :
    db.TakesAll ops ↔ c.TakesAll ops := by
  induction ops generalizing db c with
  | nil => exact Iff.rfl
  | cons op ops ih =>
    obtain ⟨s, hs, h₁⟩ := h.write op
    simp only [Database.TakesAll, Tiers.TakesAll, Tiers.Takes, hs, h.scan, Option.getD_some,
      h.rep.arity, Except.ok.injEq, forall_eq', ih h₁]

end

/-! ## Classification -/

namespace ProgramStore

variable {facts : String → List Tuple} {c : Tiers} {op : MutationOp} {ops : List MutationOp}
  {db : Database} {d : Tiers}

/-- The operation changes the table. -/
def Effective (facts : String → List Tuple) (op : MutationOp) : Prop :=
  match op.kind with
  | .insert => op.tuple ∉ facts op.relation
  | .retract => op.tuple ∈ facts op.relation

/-- The table after an operation that changes it. -/
def tableAfter (facts : String → List Tuple) (op : MutationOp) : String → List Tuple :=
  match op.kind with
  | .insert => Function.update facts op.relation (op.tuple :: facts op.relation)
  | .retract => Function.update facts op.relation ((facts op.relation).filter (· ≠ op.tuple))

theorem classify_of_effective (h : Effective facts op) (ops : List MutationOp) :
    classify facts (op :: ops) =
      (op :: (classify (tableAfter facts op) ops).1, (classify (tableAfter facts op) ops).2) := by
  unfold Effective at h
  unfold tableAfter
  cases hkind : op.kind <;> simp only [hkind] at h <;> simp [classify, hkind, h]

theorem classify_of_not_effective (h : ¬ Effective facts op) (ops : List MutationOp) :
    classify facts (op :: ops) = ((classify facts ops).1, (classify facts ops).2 + 1) := by
  unfold Effective at h
  cases hkind : op.kind <;> simp only [hkind, not_not] at h <;> simp [classify, hkind, h]

/-- **Every operation is counted once.** -/
theorem length_classify (facts : String → List Tuple) (ops : List MutationOp) :
    (classify facts ops).1.length + (classify facts ops).2 = ops.length := by
  induction ops generalizing facts with
  | nil => rfl
  | cons op ops ih =>
    by_cases h : Effective facts op
    · have := ih (tableAfter facts op)
      rw [classify_of_effective h, length_cons, length_cons]
      omega
    · have := ih facts
      simp only [classify_of_not_effective h, length_cons]
      omega

/-- The table has the facts, and beyond them only tuples of an arity that is not registered. -/
structure Covers (c : Tiers) (facts : String → List Tuple) : Prop where
  visible : ∀ rel : String, ∀ t ∈ c.visible rel, t ∈ facts rel
  dropped : ∀ rel : String, ∀ t ∈ facts rel, t ∉ c.visible rel → ∃ n ∈ c.arity rel, n ≠ t.length

/-- The table has just the facts. -/
def Agrees (c : Tiers) (facts : String → List Tuple) : Prop :=
  ∀ (rel : String) t, t ∈ facts rel ↔ t ∈ c.visible rel

theorem Agrees.covers (h : Agrees c facts) : Covers c facts :=
  ⟨fun rel t => (h rel t).mpr, fun rel t ht hno => absurd ((h rel t).mp ht) hno⟩

/-- A registered arity stays. -/
theorem arity_write {rel : Name} {n : Nat} (h : c.arity rel = some n) :
    (c.write op).arity rel = some n := by
  unfold Tiers.write
  cases op.kind with
  | insert => exact Tiers.arity_insert_of_some h
  | retract => exact h

theorem mem_tableAfter_insert (hkind : op.kind = .insert) {rel : String} :
    t ∈ tableAfter facts op rel ↔ t ∈ facts rel ∨ rel = op.relation ∧ t = op.tuple := by
  by_cases hrel : rel = op.relation
  · subst hrel
    simp [tableAfter, hkind, or_comm]
  · simp [tableAfter, hkind, hrel]

theorem mem_tableAfter_retract (hkind : op.kind = .retract) {rel : String} :
    t ∈ tableAfter facts op rel ↔ t ∈ facts rel ∧ ¬(rel = op.relation ∧ t = op.tuple) := by
  by_cases hrel : rel = op.relation
  · subst hrel
    simp [tableAfter, hkind]
  · simp [tableAfter, hkind, hrel]

section

variable (hm : c.Merged) (hv : c.Valid)

include hm hv

/-- An operation that changes the table keeps it a table of facts and dropped tuples. -/
theorem Covers.tableAfter (h : Covers c facts) : Covers (c.write op) (tableAfter facts op) := by
  refine ⟨fun rel t ht => ?_, fun rel t ht hno => ?_⟩
  · cases hkind : op.kind with
    | insert =>
      rw [hm.mem_write_insert hkind] at ht
      exact (mem_tableAfter_insert hkind).mpr (ht.imp (h.visible _ t) And.right)
    | retract =>
      rw [hv.mem_write_retract hkind] at ht
      exact (mem_tableAfter_retract hkind).mpr (ht.imp_left (h.visible _ t))
  · suffices hn : ∃ n ∈ c.arity rel, n ≠ t.length by
      obtain ⟨n, hn, hne⟩ := hn
      exact ⟨n, arity_write hn, hne⟩
    cases hkind : op.kind with
    | insert =>
      rw [hm.mem_write_insert hkind, not_or] at hno
      obtain ht | ⟨rfl, rfl⟩ := (mem_tableAfter_insert hkind).mp ht
      · exact h.dropped _ t ht hno.1
      · simpa [Tiers.Takes] using hno.2
    | retract =>
      obtain ⟨ht, hne⟩ := (mem_tableAfter_retract hkind).mp ht
      rw [hv.mem_write_retract hkind] at hno
      exact h.dropped _ t ht fun hvis => hno ⟨hvis, hne⟩

/-- An operation that leaves the table leaves the facts. -/
theorem Covers.mem_write (h : Covers c facts) (hno : ¬ Effective facts op) (rel : String)
    (t : Tuple) : t ∈ (c.write op).visible rel ↔ t ∈ c.visible rel := by
  unfold Effective at hno
  cases hkind : op.kind with
  | insert =>
    simp only [hkind, not_not] at hno
    rw [hm.mem_write_insert hkind]
    refine or_iff_left_of_imp ?_
    rintro ⟨htakes, rfl, rfl⟩
    by_contra hvis
    obtain ⟨n, hn, hne⟩ := h.dropped _ _ hno hvis
    exact hne (htakes n hn)
  | retract =>
    simp only [hkind] at hno
    rw [hv.mem_write_retract hkind]
    refine and_iff_left_of_imp fun ht => ?_
    rintro ⟨rfl, rfl⟩
    exact hno (h.visible _ _ ht)

theorem Covers.skip (h : Covers c facts) (hno : ¬ Effective facts op) : Covers
    (c.write op) facts where
  visible rel t ht := h.visible rel t ((h.mem_write hm hv hno rel t).mp ht)
  dropped rel t ht hvis := by
    obtain ⟨n, hn, hne⟩ := h.dropped rel t ht fun hin =>
      hvis ((h.mem_write hm hv hno rel t).mpr hin)
    exact ⟨n, arity_write hn, hne⟩

end

/-- **No change is missed**: at most as many operations change the facts as are applied. -/
theorem Covers.changes_le (hdb : db.Sound c) (h : Covers c facts) :
    c.changes ops ≤ (classify facts ops).1.length := by
  induction ops generalizing db c facts with
  | nil => exact Nat.le_refl _
  | cons op ops ih =>
    obtain ⟨s, -, hdb'⟩ := hdb.write op
    rw [Tiers.changes]
    by_cases heff : Effective facts op
    · have ih := ih hdb' (h.tableAfter hdb.merged hdb.rep.toValid)
      rw [classify_of_effective heff, length_cons]
      split <;> omega
    · have ih := ih hdb' (h.skip hdb.merged hdb.rep.toValid heff)
      rw [classify_of_not_effective heff,
        if_pos (h.mem_write hdb.merged hdb.rep.toValid heff op.relation op.tuple).symm]
      simpa using ih

/-- The table stays that of the facts, if nothing is dropped. -/
theorem Agrees.tableAfter (hm : c.Merged) (hv : c.Valid) (h : Agrees c facts)
    (htakes : op.kind = .insert → c.Takes op) : Agrees (c.write op) (tableAfter facts op) := by
  intro rel t
  cases hkind : op.kind with
  | insert =>
    rw [mem_tableAfter_insert hkind, hm.mem_write_insert hkind, h, and_iff_right (htakes hkind)]
  | retract => rw [mem_tableAfter_retract hkind, hv.mem_write_retract hkind, h]

theorem Agrees.skip (hm : c.Merged) (hv : c.Valid) (h : Agrees c facts)
    (hno : ¬ Effective facts op) : Agrees (c.write op) facts := fun rel t =>
  (h rel t).trans (h.covers.mem_write hm hv hno rel t).symm

/-- **The changes are the applied operations just when nothing is dropped.** -/
theorem Agrees.changes_eq_iff (hdb : db.Sound c) (h : Agrees c facts) :
    (classify facts ops).1.length = c.changes ops ↔ c.TakesAll ops := by
  induction ops generalizing db c facts with
  | nil => simp [classify, Tiers.changes, Tiers.TakesAll]
  | cons op ops ih =>
    obtain ⟨s, -, hdb'⟩ := hdb.write op
    have hm := hdb.merged
    have hv := hdb.rep.toValid
    rw [Tiers.changes, Tiers.TakesAll]
    by_cases heff : Effective facts op
    · rw [classify_of_effective heff, length_cons]
      by_cases htakes : op.kind = .insert → c.Takes op
      · have ih := ih hdb' (h.tableAfter hm hv htakes)
        have hchange : ¬ (op.tuple ∈ c.visible op.relation ↔
            op.tuple ∈ (c.write op).visible op.relation) := by
          unfold Effective at heff
          cases hkind : op.kind with
          | insert =>
            simp only [hkind] at heff
            rw [hm.mem_write_insert hkind, ← h]
            simp [heff, htakes hkind]
          | retract =>
            simp only [hkind] at heff
            rw [hv.mem_write_retract hkind, ← h]
            simp [heff]
        rw [if_neg hchange, and_iff_right fun hkind _ => htakes hkind, ← ih]
        omega
      · obtain ⟨hkind, hno⟩ := Classical.not_imp.mp htakes
        have hle : _ ≤ (classify (ProgramStore.tableAfter facts op) ops).1.length :=
          Covers.changes_le hdb' (h.covers.tableAfter hm hv)
        have habs : op.tuple ∉ c.visible op.relation := by
          simp only [Effective, hkind] at heff
          rwa [← h]
        have hsame : op.tuple ∈ c.visible op.relation ↔
            op.tuple ∈ (c.write op).visible op.relation := by
          rw [hm.mem_write_insert hkind]
          simp [hno]
        rw [if_pos hsame]
        refine iff_of_false (by omega) fun hall => hno (hall.1 hkind habs)
    · have ih := ih hdb' (h.skip hm hv heff)
      have hfirst : op.kind = .insert → op.tuple ∉ c.visible op.relation → c.Takes op := by
        intro hkind habs
        simp only [Effective, hkind, not_not] at heff
        exact absurd ((h _ _).mp heff) habs
      rw [classify_of_not_effective heff,
        if_pos (h.covers.mem_write hm hv heff op.relation op.tuple).symm, and_iff_right hfirst,
        Nat.zero_add]
      exact ih

/-! ## Skipped operations -/

/-- Tiers that hold the same sets under the same arities. -/
structure Reads (c d : Tiers) : Prop where
  visible : ∀ (rel : String) t, t ∈ d.visible rel ↔ t ∈ c.visible rel
  arity : ∀ rel : String, d.arity rel = c.arity rel

theorem arity_write_insert (hm : c.Merged) (hkind : op.kind = .insert) (rel : String) :
    (c.write op).arity rel =
      if rel = op.relation ∧ op.tuple ∉ c.visible op.relation ∧ c.Takes op then
        some op.tuple.length
      else c.arity rel := by
  by_cases hrel : rel = op.relation
  swap
  · simp [(hm.write_of_ne op fun heq => hrel (Name.named.inj heq)).2, hrel]
  subst hrel
  have hacc : c.Accepts op.relation op.tuple ↔ op.tuple ∉ c.visible op.relation ∧ c.Takes op := by
    rw [Tiers.Accepts, hm.all_eq, Tiers.Takes]
  simp only [Tiers.write, hkind, Tiers.insert, hacc, true_and]
  split <;> simp [Tiers.push, Tiers.merge]

theorem Reads.takes_iff (h : Reads c d) : d.Takes op ↔ c.Takes op := by
  rw [Tiers.Takes, Tiers.Takes, h.arity]

theorem Reads.write (h : Reads c d) (hm : c.Merged) (hv : c.Valid) (hm' : d.Merged)
    (hv' : d.Valid) : Reads (c.write op) (d.write op) := by
  cases hkind : op.kind with
  | insert =>
    refine ⟨fun rel t => ?_, fun rel => ?_⟩
    · rw [hm.mem_write_insert hkind, hm'.mem_write_insert hkind, h.visible, h.takes_iff]
    · simp only [arity_write_insert hm hkind, arity_write_insert hm' hkind, h.visible, h.takes_iff,
        h.arity]
  | retract =>
    refine ⟨fun rel t => ?_, fun rel => ?_⟩
    · rw [hv.mem_write_retract hkind, hv'.mem_write_retract hkind, h.visible]
    · rw [Tiers.arity_write_retract hkind, Tiers.arity_write_retract hkind, h.arity]

/-- An operation that is skipped may as well be executed. -/
theorem Reads.skip (h : Reads c d) (hm : c.Merged) (hv : c.Valid) (hcov : Covers c facts)
    (hno : ¬ Effective facts op) : Reads (c.write op) d := by
  refine ⟨fun rel t => (h.visible rel t).trans (hcov.mem_write hm hv hno rel t).symm, fun rel => ?_⟩
  rw [h.arity]
  cases hkind : op.kind with
  | insert =>
    simp only [Effective, hkind, not_not] at hno
    rw [arity_write_insert hm hkind, if_neg]
    rintro ⟨-, habs, htakes⟩
    obtain ⟨n, hn, hne⟩ := hcov.dropped _ _ hno habs
    exact hne (htakes n hn)
  | retract => rw [Tiers.arity_write_retract hkind]

/-- **Every applied operation changes the facts**, if nothing is dropped.  The tiers `d` run through
the applied operations only. -/
theorem Agrees.appliesAll {db' : Database} (hdb : db.Sound c) (hdb' : db'.Sound d)
    (h : Agrees c facts) (hr : Reads c d) (htakes : c.TakesAll ops) :
    d.AppliesAll (classify facts ops).1 := by
  induction ops generalizing db db' c d facts with
  | nil => trivial
  | cons op ops ih =>
    obtain ⟨_, -, hw⟩ := hdb.write op
    obtain ⟨_, -, hw'⟩ := hdb'.write op
    have hm := hdb.merged
    have hv := hdb.rep.toValid
    obtain ⟨hfirst, hrest⟩ := htakes
    by_cases heff : Effective facts op
    · have htaken : op.kind = .insert → c.Takes op := fun hkind => by
        simp only [Effective, hkind] at heff
        exact hfirst hkind fun hvis => heff ((h _ _).mpr hvis)
      rw [classify_of_effective heff]
      refine ⟨⟨fun hkind => ⟨?_, hr.takes_iff.mpr (htaken hkind)⟩, fun hkind => ?_⟩,
        ih hw hw' (h.tableAfter hm hv htaken) (hr.write hm hv hdb'.merged hdb'.rep.toValid) hrest⟩
      · simp only [Effective, hkind] at heff
        rwa [hr.visible, ← h]
      · simp only [Effective, hkind] at heff
        rwa [hr.visible, ← h]
    · rw [classify_of_not_effective heff]
      exact ih hw hdb' (h.skip hm hv heff) (hr.skip hm hv h.covers heff) hrest

/-! ## The table of a database -/

theorem agrees_query (hdb : db.Sound c) :
    Agrees c fun rel => (db.query rel).getD [] := fun rel t => by
  simp only [hdb.scan, Option.getD_some]

theorem mem_of_mem_classify (h : op ∈ (classify facts ops).1) : op ∈ ops := by
  induction ops generalizing facts with
  | nil => exact h
  | cons o ops ih =>
    by_cases heff : Effective facts o
    · rw [classify_of_effective heff] at h
      exact mem_cons.mpr ((mem_cons.mp h).imp_right ih)
    · rw [classify_of_not_effective heff] at h
      exact mem_cons_of_mem _ (ih h)

theorem appliesAll_effective (hdb : db.Sound c) (htakes : db.TakesAll ops) :
    c.AppliesAll (db.effective ops) :=
  (agrees_query hdb).appliesAll hdb hdb ⟨fun _ _ => Iff.rfl, fun _ => rfl⟩
    ((hdb.takesAll_iff ops).mp htakes)

end ProgramStore

end Mangle

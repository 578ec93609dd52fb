import Mangle.Db.Facts

/-!
# Db/Sound — what holds of every database

Every operation on a database leaves one whose store holds tiers without pending rows and whose
intensional relations are those of its clauses (`Database.Sound`).  Writes never fail; a
recomputation, also one that fails, leaves the relations without clauses alone.
-/

namespace Mangle

open Machinery

variable {op : MutationOp}

/-- A write on tiers. -/
def Tiers.write (c : Tiers) (op : MutationOp) : Tiers :=
  match op.kind with
  | .insert => (c.insert op.relation op.tuple).merge
  | .retract => c.retract op.relation op.tuple

namespace Tiers

variable {c : Tiers}

/-- The tuple of an insertion has the registered arity, if there is one. -/
def Takes (c : Tiers) (op : MutationOp) : Prop := ∀ n ∈ c.arity op.relation, n = op.tuple.length

instance (c : Tiers) (op : MutationOp) : Decidable (c.Takes op) :=
  inferInstanceAs (Decidable (∀ n ∈ c.arity op.relation, n = op.tuple.length))

/-- The operation changes the facts. -/
structure Applies (c : Tiers) (op : MutationOp) : Prop where
  insert : op.kind = .insert → op.tuple ∉ c.visible op.relation ∧ c.Takes op
  retract : op.kind = .retract → op.tuple ∈ c.visible op.relation

/-- Each operation changes the facts that the earlier ones leave. -/
def AppliesAll : Tiers → List MutationOp → Prop
  | _, [] => True
  | c, op :: ops => c.Applies op ∧ (c.write op).AppliesAll ops

/-- A write leaves the other relations alone. -/
theorem Merged.write_of_ne (h : c.Merged) (op : MutationOp) {rel : Name}
    (hrel : rel ≠ op.relation) :
    (c.write op).visible rel = c.visible rel ∧ (c.write op).arity rel = c.arity rel := by
  unfold write
  cases op.kind with
  | insert =>
    refine ⟨?_, (insert_of_ne hrel.symm).2⟩
    have hnext := (@insert_of_ne c op.relation rel op.tuple hrel.symm).1
    rw [visible_merge, all, visible, insert_stable, insert_delta, hnext, h rel, List.append_nil,
      visible]
  | retract => simp [Tiers.retract, visible, hrel]

/-- **An insertion** that is taken adds its tuple; any other changes nothing. -/
theorem Merged.mem_write_insert (h : c.Merged) (hkind : op.kind = .insert) {rel : String}
    (t : Tuple) : t ∈ (c.write op).visible rel ↔
      t ∈ c.visible rel ∨ c.Takes op ∧ rel = op.relation ∧ t = op.tuple := by
  by_cases hrel : rel = op.relation
  swap
  · simp [(h.write_of_ne op fun heq => hrel (Name.named.inj heq)).1, hrel]
  subst hrel
  simp only [write, hkind, visible_merge]
  by_cases htakes : c.Takes op
  · rw [mem_all_insert htakes, h.all_eq]
    simp [htakes]
  · have hno : ¬ c.Accepts op.relation op.tuple := fun ha => htakes ha.2
    rw [insert, if_neg hno, h.all_eq]
    simp [htakes]

/-- **A retraction** removes its tuple. -/
theorem Valid.mem_write_retract (h : c.Valid) (hkind : op.kind = .retract) {rel : String}
    (t : Tuple) : t ∈ (c.write op).visible rel ↔
      t ∈ c.visible rel ∧ ¬(rel = op.relation ∧ t = op.tuple) := by
  by_cases hrel : rel = op.relation
  swap
  · simp [write, hkind, visible, Tiers.retract, hrel]
  subst hrel
  have hnodup := h.nodup op.relation
  simp only [all, visible, List.nodup_append] at hnodup
  simp only [write, hkind, visible, Tiers.retract, Function.update_self, List.mem_append,
    mem_removeRow hnodup.1.1, mem_removeRow hnodup.1.2.1]
  tauto

theorem arity_write_retract (hkind : op.kind = .retract) : (c.write op).arity = c.arity := by
  simp [write, hkind, Tiers.retract]

/-- A write registers the arity of the tuple it inserts, or leaves the one that is registered. -/
theorem arity_write {rel : Name} {n : Nat} (hn : n ∈ (c.write op).arity rel) :
    n ∈ c.arity rel ∨ op.kind = .insert ∧ rel = op.relation ∧ op.tuple.length = n := by
  cases hkind : op.kind with
  | insert =>
    simp only [write, hkind] at hn
    exact (arity_insert hn).imp_right fun h => ⟨rfl, h⟩
  | retract => exact .inl (arity_write_retract hkind ▸ hn)

theorem Merged.write (h : c.Merged) (op : MutationOp) : (c.write op).Merged := by
  unfold Tiers.write
  cases op.kind
  exacts [merged_merge _, h.retract _ _]

end Tiers

section

variable {db : Database} {c : Tiers} (h : Rep db.store c)

include h

/-- **A write** succeeds. -/
theorem Rep.write (op : MutationOp) :
    ∃ s, db.write op = .ok { db with store := s } ∧ Rep s (c.write op) := by
  unfold Database.write Tiers.write
  cases op.kind with
  | insert => exact ⟨_, rfl, (h.insert _ _).mergeDeltas⟩
  | retract =>
    obtain ⟨s, hs, hrep⟩ := h.retract op.relation op.tuple
    refine ⟨s, ?_, hrep⟩
    simp only [hs]
    rfl

theorem Rep.writeAll (ops : List MutationOp) :
    ∃ s, db.writeAll ops = (.ok (), { db with store := s }) ∧ Rep s (ops.foldl Tiers.write c) := by
  induction ops generalizing db c with
  | nil => exact ⟨db.store, rfl, h⟩
  | cons op ops ih =>
    obtain ⟨s, hs, h₁⟩ := h.write op
    obtain ⟨s', hs', h₂⟩ := @ih { db with store := s } _ h₁
    refine ⟨s', ?_, h₂⟩
    rw [Database.writeAll, hs]
    exact hs'

end

/-! ## Recomputation -/

/-- Tiers that agree on the relations without clauses. -/
structure Tiers.SameFacts (unit : List Rule) (c c' : Tiers) : Prop where
  visible : ∀ rel : String, rel ∉ unit.map Rule.pred → c'.visible rel = c.visible rel
  arity : ∀ rel : String, rel ∉ unit.map Rule.pred → c'.arity rel = c.arity rel

theorem Tiers.SameFacts.refl (unit : List Rule) (c : Tiers) : SameFacts unit c c :=
  ⟨fun _ _ => rfl, fun _ _ => rfl⟩

theorem Tiers.SameFacts.trans {unit : List Rule} {c c' c'' : Tiers} (h : SameFacts unit c c')
    (h' : SameFacts unit c' c'') : SameFacts unit c c'' :=
  ⟨fun rel hrel => (h'.visible rel hrel).trans (h.visible rel hrel),
    fun rel hrel => (h'.arity rel hrel).trans (h.arity rel hrel)⟩

/-- **The tiers `c'` after a recomputation** on the tiers `c`, by a run that ended in `out`: derived
facts arrive as far as the arities registered before let them. -/
structure Tiers.Refilled (unit : List Rule) (out : MemStore) (c c' : Tiers) : Prop where
  merged : c'.Merged
  others : SameFacts unit c c'
  derived : ∀ r ∈ unit, ∀ t, t ∈ c'.visible r.pred ↔
    t ∈ c.visible r.pred ∨ t ∈ out.facts r.pred ∧ FitsHead c r
  fitsHead : ∀ r ∈ unit, FitsHead c' r ↔ FitsHead c r

/-- **A recomputation** that succeeds. -/
theorem Rep.refilled {s s' : MemStore} {c : Tiers} {en : Engine} {unit : List Rule} {prog : Program}
    (h : Rep s c) (hm : c.Merged) (hok : fullRecompute en unit s = .ok (prog, s')) :
    compileSource en unit = .ok prog ∧ ∃ out cout c', derive en prog s = .ok out ∧ Rep out cout ∧
      Rep s' c' ∧ c.Refilled unit out c' := by
  obtain ⟨hcomp, out, cout, hout, hrepo, hfits, hrep⟩ := fullRecompute_ok h hok
  have hc := compileSource_ok hcomp
  have hperm {rel : String} : rel ∈ en.rt.order.perm prog.intensional ↔ rel ∈ unit.map Rule.pred :=
    (en.rt.order.perm_perm _).mem_iff.trans hc.mem_intensional
  have hother {rel : String} (hrel : rel ∉ unit.map Rule.pred) :
      ∀ e ∈ cout.rowsIn (en.rt.order.perm prog.intensional), e.1 ≠ (rel : Name) :=
    Tiers.ne_of_mem_rowsIn (hperm.not.mpr hrel)
  -- A derived row has the columns of its head.
  have hlen {r : Rule} (hr : r ∈ unit) {u : Tuple} (hu : u ∈ cout.visible r.pred) :
      u.length = r.args.length := hfits r hr _ (hrepo.fits r.pred u (Tiers.mem_all_of_visible hu))
  refine ⟨hcomp, out, cout, _, hout, hrepo, hrep, Tiers.merged_merge _, ⟨fun rel hrel =>
    hm.visible_of_ne (hother hrel), fun rel hrel => (Tiers.insertAll_of_ne (hother hrel)).2⟩,
    fun r hr t => ?_, fun r hr => ⟨fun har n hn => ?_, fun har n hn => ?_⟩⟩
  · have hrows : ∀ e ∈ cout.rowsIn (en.rt.order.perm prog.intensional), e.1 = (r.pred : Name) →
        e.2.length = r.args.length := by
      rintro ⟨_, u⟩ he rfl
      exact hlen hr (Tiers.mem_rowsIn.mp he).2
    rw [hrepo.facts, Tiers.visible_merge, Tiers.mem_all_insertAll_of_length hrows, hm.all_eq,
      Tiers.mem_rowsIn, hperm, and_iff_right (List.mem_map_of_mem hr)]
    refine or_congr_right (and_congr_right fun ht => ?_)
    rw [FitsHead, hlen hr ht]
  · exact har n (Tiers.arity_insertAll_of_some hn)
  · obtain hn | ⟨u, hu, rfl⟩ := Tiers.arity_insertAll hn
    · exact har n hn
    · exact hlen hr (Tiers.mem_rowsIn.mp hu).2

/-- The invariant of a database. -/
structure Database.Sound (db : Database) (c : Tiers) : Prop where
  rep : Rep db.store c
  merged : c.Merged
  idb : ∀ rel, rel ∈ db.idbRelations ↔ rel ∈ db.unit.map Rule.pred

/-- Saving does not fail. -/
theorem Database.refill_of_full (db : Database) {en : Engine} {prog : Program} {s : MemStore}
    {c : Tiers} (hrep : Rep s c) (hfull : fullRecompute en db.unit db.store = .ok (prog, s)) :
    ∃ mode, db.refill en =
      .ok { db with store := s, idbRelations := prog.intensional, mode := mode } := by
  obtain ⟨mode, hmode⟩ := hrep.exists_save db.mode en.rt.order (en.hash db.unit) db.fingerprint
    prog.intensional
  exact ⟨mode, by simp [Database.refill, hfull, hmode, ok_bind, pure, Except.pure]⟩

/-- The program compiles and runs on its facts. -/
def Database.Runs (en : Engine) (db : Database) : Prop :=
  ∃ prog out, compileSource en db.unit = .ok prog ∧ derive en prog db.store = .ok out

namespace Database.Sound

variable {db db' : Database} {c : Tiers} {en : Engine}

theorem scan (h : db.Sound c) (rel : String) : db.query rel = some (c.visible rel) := h.rep.scan rel

/-! ## Writes -/

theorem write (h : db.Sound c) (op : MutationOp) :
    ∃ s, db.write op = .ok { db with store := s } ∧
      ({ db with store := s } : Database).Sound (c.write op) := by
  obtain ⟨s, hs, hrep⟩ := h.rep.write op
  exact ⟨s, hs, hrep, h.merged.write op, h.idb⟩

theorem writeAll (h : db.Sound c) (ops : List MutationOp) :
    ∃ s, db.writeAll ops = (.ok (), { db with store := s }) ∧
      ({ db with store := s } : Database).Sound (ops.foldl Tiers.write c) := by
  obtain ⟨s, hs, hrep⟩ := h.rep.writeAll ops
  exact ⟨s, hs, hrep, List.foldlRecOn ops _ h.merged fun _ hm op _ => hm.write op, h.idb⟩

section

variable (h : db.Sound c)

include h

/-- Clearing the derived relations. -/
theorem clearIdb (en : Engine) :
    (db.clearIdb en).Sound (c.clearAll (en.rt.order.perm db.idbRelations)) ∧
      c.SameFacts db.unit (c.clearAll (en.rt.order.perm db.idbRelations)) ∧
      ∀ rel : String, rel ∈ db.unit.map Rule.pred →
        (c.clearAll (en.rt.order.perm db.idbRelations)).visible rel = [] := by
  have hperm (rel : String) : rel ∈ en.rt.order.perm db.idbRelations ↔
      rel ∈ db.unit.map Rule.pred := (en.rt.order.perm_perm _).mem_iff.trans (h.idb rel)
  refine ⟨⟨h.rep.clearAll _, h.merged.clearAll _, h.idb⟩,
    ⟨fun rel hrel => ?_, fun rel _ => by rw [Tiers.clearAll_arity]⟩, fun rel hrel => ?_⟩
  · rw [Tiers.visible_clearAll, if_neg ((hperm rel).not.mpr hrel)]
  · rw [Tiers.visible_clearAll, if_pos ((hperm rel).mpr hrel)]

/-- **A recomputation** inserts what the program derives, and leaves the relations without clauses
alone. -/
theorem refill (hok : db.refill en = .ok db') :
    ∃ prog out c', compileSource en db.unit = .ok prog ∧ derive en prog db.store = .ok out ∧
      db'.Sound c' ∧ c.Refilled db.unit out c' ∧ db'.unit = db.unit ∧
      db'.edbRelations = db.edbRelations := by
  obtain ⟨prog, s, mode, hfull, rfl⟩ := refill_ok hok
  obtain ⟨hcomp, out, -, c', hout, -, hrep, hrefilled⟩ := h.rep.refilled h.merged hfull
  exact ⟨prog, out, c', hcomp, hout, ⟨hrep, hrefilled.merged, fun rel =>
    (compileSource_ok hcomp).mem_intensional⟩, hrefilled, rfl, rfl⟩

/-- **A recomputation**, also one that fails. -/
theorem recomputeIdb (en : Engine) :
    ∃ c', (db.recomputeIdb en).2.Sound c' ∧ c.SameFacts db.unit c' ∧
      (db.recomputeIdb en).2.unit = db.unit := by
  obtain ⟨hsound, hsame, -⟩ := h.clearIdb en
  rw [Database.recomputeIdb]
  cases hx : (db.clearIdb en).refill en with
  | error e => exact ⟨_, hsound, hsame, rfl⟩
  | ok db' =>
    obtain ⟨_, _, c', -, -, hsound', hrefilled, hunit, -⟩ := hsound.refill hx
    exact ⟨c', hsound', hsame.trans hrefilled.others, hunit⟩

/-- **A batch**, also one that fails. -/
theorem batch (en : Engine) (ops : List MutationOp) :
    ∃ c', (db.batch en ops).2.Sound c' ∧ (ops.foldl Tiers.write c).SameFacts db.unit c' ∧
      (db.batch en ops).2.unit = db.unit := by
  obtain ⟨s, hs, h₁⟩ := h.writeAll ops
  rw [Database.batch, hs]
  exact h₁.recomputeIdb en

/-- **A recomputation succeeds** where the program runs. -/
theorem recomputeIdb_of_runs (hruns : db.Runs en) : ∃ db', db.recomputeIdb en = (.ok (), db') := by
  obtain ⟨hsound, hsame, -⟩ := h.clearIdb en
  obtain ⟨prog, out, hcomp, hout⟩ := hruns
  obtain ⟨s, _, hs, hrep⟩ := fullRecompute_of_derive hcomp h.rep hout hsound.rep fun rel hrel =>
    hsame.visible rel (((compileSource_ok hcomp).extensional rel).mp hrel).2
  obtain ⟨mode, hmode⟩ := refill_of_full (db.clearIdb en) hrep hs
  exact ⟨_, by rw [Database.recomputeIdb, hmode]⟩

theorem batch_of_runs {ops : List MutationOp} (hruns : (db.writeAll ops).2.Runs en) :
    ∃ db', db.batch en ops = (.ok (), db') := by
  obtain ⟨s, hs, h₁⟩ := h.writeAll ops
  rw [hs] at hruns
  obtain ⟨db', hdb'⟩ := h₁.recomputeIdb_of_runs hruns
  refine ⟨db', ?_⟩
  rw [Database.batch, hs]
  exact hdb'

end

/-! ## Opening -/

/-- **Opening**, from the sources or from the cache. -/
theorem of_open {mode : IdbMode} {unit : List Rule} {sources : List EdbSource}
    (hok : Database.open' en mode unit sources = .ok db) : db.unit = unit ∧ ∃ c, db.Sound c := by
  have hload := Rep.new.loadEdbFiltered sources fun _ => []
  rw [Database.open'] at hok
  cases hhit : mode.hit (en.hash unit) (computeEdbFingerprint sources) with
  | some snapshot =>
    simp only [hhit, Database.ofSnapshot, bind_eq_ok] at hok
    obtain ⟨prog, hcomp, heq⟩ := hok
    cases heq
    have hrep := (hload.foldl (fun r h => h.loadRows r.1 r.2) snapshot).mergeDeltas
    refine ⟨rfl, _, hrep, Tiers.merged_merge _, fun rel => ?_⟩
    exact (compileSource_ok (ofCompile_eq_ok.mp hcomp)).mem_intensional
  | none =>
    simp only [hhit, Database.compute, bind_eq_ok] at hok
    obtain ⟨⟨prog, s⟩, hfull, mode', -, heq⟩ := hok
    cases heq
    obtain ⟨hcomp, _, _, -, -, -, hrep⟩ := fullRecompute_ok hload hfull
    exact ⟨rfl, _, hrep, Tiers.merged_merge _, fun rel => (compileSource_ok hcomp).mem_intensional⟩

end Database.Sound

end Mangle

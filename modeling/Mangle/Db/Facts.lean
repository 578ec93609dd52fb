import Mangle.Db.Database
import Mangle.Driver.Targets
import Mangle.Semantics.Insertion

/-!
# Db/Facts — the facts of a database, tier by tier

What loading, copying, clearing and running do to the contents of a store, as operations on `Tiers`.
Nothing here panics, and a run registers for the relation of a head only the arity of the head:

* `Rep.loadEdbFiltered`, `Rep.copyRelations`, `Rep.clearAll`;
* `execStore_congr` — a program runs on what a scan yields of the extensional relations;
* `derive_fits` — the arities after a run;
* `fullRecompute_ok` — what a recomputation leaves.
-/

namespace Mangle

open Machinery List

variable {rel : String} {rels : List String} {prog : Program} {s' : MemStore} {en : Engine}
  {unit : List Rule}

/-! ## Rows -/

/-- Insertions of rows into one relation. -/
def rowsOf (rel : String) (rows : List Tuple) : List Emit := rows.map fun t => ((rel : Name), t)

@[simp] theorem mem_rowsOf {rows : List Tuple} {e : Emit} :
    e ∈ rowsOf rel rows ↔ e.1 = (rel : Name) ∧ e.2 ∈ rows := by
  simp only [rowsOf, mem_map]
  constructor
  · rintro ⟨t, ht, rfl⟩
    exact ⟨rfl, ht⟩
  · rintro ⟨hrel, ht⟩
    exact ⟨e.2, ht, Prod.ext hrel.symm rfl⟩

variable {s : MemStore} {c : Tiers}

/-- The visible facts of a relation. -/
def MemStore.facts (s : MemStore) (rel : String) : List Tuple := (s.scan (rel : Name)).getD []

theorem Rep.facts (h : Rep s c) (rel : String) : s.facts rel = c.visible rel := by
  rw [MemStore.facts, h.scan, Option.getD_some]

/-- A relation with visible tuples has a name in the store. -/
theorem Rep.mem_relationNames (h : Rep s c) (order : HashOrder) {rel : Name}
    (hrel : rel ∉ s.relationNames order) : c.stable rel = [] ∧ c.delta rel = [] := by
  have hmem : rel ∉ s.stable.keys ∧ rel ∉ s.delta.keys := by
    simp only [MemStore.relationNames, mem_append, (order.perm_perm _).mem_iff,
      mem_filter, decide_eq_true_iff, not_or, not_and, not_not] at hrel
    exact ⟨hrel.1, fun hd => hrel.1 (hrel.2 hd)⟩
  have hs : (c.stable rel).map flattenTuple = [] := h.stable rel ▸ HashMap.get_of_notMem hmem.1
  have hd : (c.delta rel).map flattenTuple = [] := h.delta rel ▸ HashMap.get_of_notMem hmem.2
  exact ⟨map_eq_nil_iff.mp hs, map_eq_nil_iff.mp hd⟩

theorem insertAll_rowsOf (rel : String) (rows : List Tuple) (s : MemStore) :
    rows.foldl (fun s t => (s.insert rel t).2) s = (MemStore.insertAll (rowsOf rel rows) s).2 := by
  induction rows generalizing s with
  | nil => rfl
  | cons t rows ih => exact ih _

theorem Rep.loadRows (h : Rep s c) (rel : String) (rows : List Tuple) :
    Rep (loadRows rel rows s) (c.insertAll (rowsOf rel rows)) := by
  rw [Mangle.loadRows, insertAll_rowsOf]
  exact (h.createRelation rel).insertAll _

theorem Indexed.loadRows (hi : Indexed s) (h : Rep s c) (rel : String) (rows : List Tuple) :
    Indexed (loadRows rel rows s) := by
  rw [Mangle.loadRows, insertAll_rowsOf]
  exact (hi.createRelation rel).insertAll (h.createRelation rel) _

/-- Insertions for each element of a list. -/
theorem Rep.foldl {α : Type} {f : MemStore → α → MemStore} {g : α → List Emit}
    (hf : ∀ {s c} a, Rep s c → Rep (f s a) (c.insertAll (g a))) (as : List α) (h : Rep s c) :
    Rep (as.foldl f s) (c.insertAll (as.flatMap g)) := by
  induction as generalizing s c with
  | nil => exact h
  | cons a as ih =>
    rw [foldl_cons, flatMap_cons, Tiers.insertAll_append]
    exact ih (hf a h)

/-- The rows sources yield, filtered by the predicates of their relations. -/
def sourceRows (preds : String → List ColumnPredicate) (sources : List EdbSource) : List Emit :=
  sources.flatMap fun src => src.relations.flatMap fun rel =>
    rowsOf rel (src.scanWithPredicates rel (preds rel))

/-- **Loading** inserts the rows of the sources, and merges. -/
theorem Rep.loadEdbFiltered (h : Rep s c) (sources : List EdbSource)
    (preds : String → List ColumnPredicate) :
    Rep (loadEdbFiltered sources preds s) (c.insertAll (sourceRows preds sources)).merge :=
  (h.foldl (fun src h => h.foldl
    (fun rel h => h.loadRows rel (src.scanWithPredicates rel (preds rel))) src.relations)
    sources).mergeDeltas

/-- The scanned rows of relations. -/
def Tiers.rowsIn (c : Tiers) (rels : List String) : List Emit :=
  rels.flatMap fun rel => rowsOf rel (c.visible rel)

theorem Tiers.mem_rowsIn {t : Tuple} :
    ((rel : Name), t) ∈ c.rowsIn rels ↔ rel ∈ rels ∧ t ∈ c.visible rel := by
  simp only [rowsIn, mem_flatMap, mem_rowsOf]
  constructor
  · rintro ⟨r, hr, heq, ht⟩
    obtain rfl := Name.named.inj heq
    exact ⟨hr, ht⟩
  · rintro ⟨hr, ht⟩
    exact ⟨rel, hr, rfl, ht⟩

/-- **Copying** inserts the scanned rows. -/
theorem Rep.copyRelations {src : MemStore} {csrc : Tiers} (hsrc : Rep src csrc) (h : Rep s c)
    (rels : List String) : ∃ s', copyRelations src rels s = .ok s' ∧
      Rep s' (c.insertAll (csrc.rowsIn rels)) ∧ (Indexed s → Indexed s') := by
  induction rels generalizing s c with
  | nil => exact ⟨s, rfl, h, id⟩
  | cons rel rels ih =>
    obtain ⟨s', hs', hrep, hidx⟩ := ih (h.loadRows rel (csrc.visible rel))
    refine ⟨s', ?_, ?_, fun hi => hidx (hi.loadRows h rel _)⟩
    · rw [Mangle.copyRelations, foldlM_cons, hsrc.scan]
      exact hs'
    · rw [Tiers.rowsIn, flatMap_cons, Tiers.insertAll_append]
      exact hrep

/-- `clear` on tiers, for a list of relations. -/
def Tiers.clearAll (rels : List String) (c : Tiers) : Tiers :=
  rels.foldl (fun c (rel : String) => c.clear rel) c

theorem Rep.clearAll (h : Rep s c) (rels : List String) :
    Rep (clearAll rels s) (c.clearAll rels) := by
  induction rels generalizing s c with
  | nil => exact h
  | cons rel rels ih => exact ih (h.clear rel)

theorem Tiers.clearAll_arity (rels : List String) (c : Tiers) :
    (c.clearAll rels).arity = c.arity := by
  induction rels generalizing c with
  | nil => rfl
  | cons rel rels ih => exact ih (c.clear rel)

/-- **Clearing** empties the relations of the list, and leaves the others alone. -/
theorem Tiers.visible_clearAll (rels : List String) (c : Tiers) (rel : String) :
    (c.clearAll rels).visible rel = if rel ∈ rels then [] else c.visible rel := by
  induction rels generalizing c with
  | nil => rfl
  | cons r rels ih =>
    refine (ih (c.clear r)).trans ?_
    by_cases hr : rel = r <;> simp [Tiers.visible, Tiers.clear, hr]

/-! ## Runs -/

section

variable (h : ∀ rel ∈ prog.extensional, s.scan (rel : String) = s'.scan (rel : String))

include h

/-- A program runs on what a scan yields of the extensional relations. -/
theorem execStore_congr {order : HashOrder} : execStore order prog s = execStore order prog s' := by
  have hcopy : ∀ (rels : List String) (e : MemStore), (∀ rel ∈ rels, rel ∈ prog.extensional) →
      copyRelations s rels e = copyRelations s' rels e := by
    intro rels
    induction rels with
    | nil => exact fun _ _ => rfl
    | cons rel rels ih =>
      intro e hrels
      simp only [copyRelations, foldlM_cons, h rel (hrels rel (mem_cons_self ..))]
      cases s'.scan (rel : String) with
      | none => rfl
      | some rows => exact ih _ fun r hr => hrels r (mem_cons_of_mem _ hr)
  rw [execStore, execStore,
    hcopy _ _ fun rel hrel => (order.perm_perm prog.extensional).mem_iff.mp hrel]

theorem derive_congr : derive en prog s = derive en prog s' := by
  rw [derive, derive, execStore_congr h]

end

/-- The contents of the store a program runs in. -/
def Tiers.execTiers (order : HashOrder) (prog : Program) (c : Tiers) : Tiers :=
  (Tiers.empty.insertAll (c.rowsIn (order.perm prog.extensional))).merge

theorem Rep.execStore (h : Rep s c) (order : HashOrder) (prog : Program) :
    ∃ e, execStore order prog s = .ok e ∧ Rep e (c.execTiers order prog) ∧ Indexed e := by
  obtain ⟨e, he, hrep, hidx⟩ := h.copyRelations .new (order.perm prog.extensional)
  refine ⟨e.mergeDeltas, ?_, hrep.mergeDeltas, (hidx .new).mergeDeltas hrep⟩
  rw [Mangle.execStore, he]
  rfl

/-- A store whose relations of heads have the arity of the head. -/
def FitsHeads (unit : List Rule) (s : MemStore) : Prop :=
  ∃ c, Rep s c ∧ ∀ r ∈ unit, FitsHead c r

/-- A run keeps what insertions for its rules, and merging, keep of the contents. -/
theorem Program.keeps_rep {P : Tiers → Prop}
    (hinsert : ∀ c rel t, prog.Writes rel t.length → P c → P (c.insert rel t))
    (hmerge : ∀ c, P c → P c.merge) : prog.Keeps fun s => ∃ c, Rep s c ∧ P c where
  insert _ rel t hw := fun ⟨c, hrep, hc⟩ => ⟨_, hrep.insert rel t, hinsert c rel t hw hc⟩
  merge _ := fun ⟨c, hrep, hc⟩ => ⟨_, hrep.mergeDeltas, hmerge c hc⟩
  create _ pred := fun ⟨c, hrep, hc⟩ => ⟨c, hrep.createRelation pred, hc⟩

/-- **A run** registers for the relation of a head only the arity of the head. -/
theorem keeps_fitsHeads (hc : Compiled unit prog) : prog.Keeps (FitsHeads unit) := by
  refine Program.keeps_rep (fun c rel t hw hfits r hr n hn => ?_) fun c hfits => hfits
  obtain hn | ⟨heq, hlen⟩ := Tiers.arity_insert hn
  · exact hfits r hr n hn
  · obtain ⟨r', hr', ⟨hpred, hlen'⟩ | ⟨pre, id, hfresh⟩⟩ := hw
    · have hsame : r.pred = r'.pred := Name.named.inj (heq.trans hpred)
      rw [← hlen, hlen', hc.sameArity r hr r' (hc.rules ▸ hr') hsame]
    · cases heq.trans hfresh

/-- Only extensional relations have rows before a run. -/
theorem Compiled.fits_execTiers (hc : Compiled unit prog) (order : HashOrder) :
    ∀ r ∈ unit, FitsHead (c.execTiers order prog) r := by
  intro r hr n hn
  obtain hn | ⟨u, hu, -⟩ := Tiers.arity_insertAll hn
  · cases hn
  · obtain ⟨hext, -⟩ := Tiers.mem_rowsIn.mp hu
    have hext := (hc.extensional r.pred).mp ((order.perm_perm _).mem_iff.mp hext)
    exact absurd (mem_map_of_mem hr) hext.2

theorem ofRun_eq_ok {α : Type} {x : Result α} {a : α} : ofRun x = .ok a ↔ x = .ok a := by
  cases x <;> simp [ofRun]

variable {out : MemStore}

/-- What is derived is the outcome of a run. -/
theorem Rep.execute_of_derive (h : Rep s c) (hout : derive en prog s = .ok out) :
    ∃ e, prog.execute en.rt en.cfg e = .ok out ∧ Rep e (c.execTiers en.rt.order prog) ∧
      Indexed e := by
  obtain ⟨e, he, hrep⟩ := h.execStore en.rt.order prog
  rw [derive, he, ok_bind] at hout
  exact ⟨e, ofRun_eq_ok.mp hout, hrep⟩

/-- The arities after a run. -/
theorem derive_fits (hc : Compiled unit prog) (h : Rep s c)
    (hout : derive en prog s = .ok out) : FitsHeads unit out := by
  obtain ⟨e, hrun, hrep, -⟩ := h.execute_of_derive hout
  exact Program.execute_keeps (keeps_fitsHeads hc) hc.temporal hrun
    ⟨_, hrep, hc.fits_execTiers en.rt.order⟩

theorem ofCompile_eq_ok {α : Type} {x : Except String α} {a : α} :
    ofCompile x = .ok a ↔ x = .ok a := by
  cases x <;> simp [ofCompile]

/-- What a successful recomputation is. -/
theorem Database.recomputeIdb_ok {db db' : Database} (hok : db.recomputeIdb en = (.ok (), db')) :
    (db.clearIdb en).refill en = .ok db' := by
  rw [recomputeIdb] at hok
  split at hok
  · simp_all
  · cases hok

theorem Database.refill_ok {db db' : Database} (hok : db.refill en = .ok db') : ∃ prog s mode,
    fullRecompute en db.unit db.store = .ok (prog, s) ∧
      db' = { db with store := s, idbRelations := prog.intensional, mode := mode } := by
  simp only [refill, bind_eq_ok] at hok
  obtain ⟨⟨prog, s⟩, hfull, mode, -, heq⟩ := hok
  cases heq
  exact ⟨prog, s, mode, hfull, rfl⟩

/-- **A recomputation** that succeeds copies what the program derives. -/
theorem fullRecompute_ok (h : Rep s c) (hok : fullRecompute en unit s = .ok (prog, s')) :
    compileSource en unit = .ok prog ∧ ∃ out cout, derive en prog s = .ok out ∧ Rep out cout ∧
      (∀ r ∈ unit, FitsHead cout r) ∧
      Rep s' (c.insertAll (cout.rowsIn (en.rt.order.perm prog.intensional))).merge := by
  simp only [fullRecompute, bind_eq_ok] at hok
  obtain ⟨prog', hcomp, out, hout, s₁, hcopy, heq⟩ := hok
  cases heq
  have hcomp := ofCompile_eq_ok.mp hcomp
  obtain ⟨cout, hrep, hfits⟩ := derive_fits (compileSource_ok hcomp) h hout
  obtain ⟨s₂, hs₂, hrep₂, -⟩ := hrep.copyRelations h (en.rt.order.perm prog.intensional)
  obtain rfl : s₁ = s₂ := Except.ok.inj (hcopy.symm.trans hs₂)
  exact ⟨hcomp, out, cout, hout, hrep, hfits, hrep₂.mergeDeltas⟩

/-- **A recomputation** succeeds where the run it makes is known to, from what scans yield. -/
theorem fullRecompute_of_derive {c' : Tiers} (hcomp : compileSource en unit = .ok prog)
    (h : Rep s c) (hout : derive en prog s = .ok out) (h' : Rep s' c')
    (hvis : ∀ rel : String, rel ∈ prog.extensional → c'.visible rel = c.visible rel) :
    ∃ s₁ c₁, fullRecompute en unit s' = .ok (prog, s₁) ∧ Rep s₁ c₁ := by
  have hout' : derive en prog s' = .ok out := by
    rw [← hout]
    refine derive_congr fun rel hrel => ?_
    rw [h'.scan, h.scan, hvis rel hrel]
  obtain ⟨cout, hrepo, -⟩ := derive_fits (compileSource_ok hcomp) h hout
  obtain ⟨s₂, hs₂, hrep₂, -⟩ := hrepo.copyRelations h' (en.rt.order.perm prog.intensional)
  refine ⟨s₂.mergeDeltas, _, ?_, hrep₂.mergeDeltas⟩
  simp only [fullRecompute, hcomp, ofCompile, ok_bind, hout', hs₂]
  rfl

/-! ## Saving -/

/-- What is saved of the derived relations. -/
def Tiers.snapshotOf (c : Tiers) (rels : List String) : IdbSnapshot :=
  (rels.map fun (rel : String) => (rel, c.visible rel)).filter fun r => !r.2.isEmpty

theorem Rep.extractIdbSnapshot (h : Rep s c) (order : HashOrder)
    (idb : List String) :
    extractIdbSnapshot order idb s = .ok (c.snapshotOf (order.perm idb)) := by
  have hmap (rels : List String) : rels.mapM (fun (rel : String) => do
      pure ((rel : String), ← orPanicked (s.scan rel))) =
        (Except.ok (rels.map fun (rel : String) => (rel, c.visible rel)) :
          Except DbError (List (String × List Tuple))) := by
    induction rels with
    | nil => rfl
    | cons rel rels ih =>
      rw [mapM_cons, ih, h.scan]
      rfl
  rw [Mangle.extractIdbSnapshot, hmap]
  rfl

/-- **Saving succeeds.** -/
theorem Rep.exists_save (h : Rep s c) (mode : IdbMode)
    (order : HashOrder) (hash : List UInt8) (fp : Option (List UInt8)) (idb : List String) :
    ∃ mode', mode.save order hash fp idb s = .ok mode' := by
  unfold IdbMode.save
  split
  · rw [h.extractIdbSnapshot]
    exact ⟨_, rfl⟩
  · exact ⟨_, rfl⟩

/-! ## Visible facts -/

namespace Tiers

/-- Nothing waits to be merged. -/
def Merged (c : Tiers) : Prop := ∀ rel, c.next rel = []

theorem merged_merge (c : Tiers) : c.merge.Merged := fun _ => rfl

theorem Merged.all_eq (h : c.Merged) (rel : Name) : c.all rel = c.visible rel := by
  rw [all, h rel, append_nil]

/-- Clearing collects nothing. -/
theorem Merged.clearAll (h : c.Merged) (rels : List String) : (c.clearAll rels).Merged := by
  induction rels generalizing c with
  | nil => exact h
  | cons rel rels ih =>
    refine ih fun r => ?_
    simp only [clear, Function.update_apply, h r, ite_self]

/-- Retraction collects nothing. -/
theorem Merged.retract (h : c.Merged) (rel : Name) (t : Tuple) : (c.retract rel t).Merged := by
  intro r
  simp only [Tiers.retract, Function.update_apply]
  split
  · rw [h, removeRow_nil]
  · exact h r

theorem insert_of_ne {rel r : Name} {t : Tuple} (h : rel ≠ r) :
    (c.insert rel t).next r = c.next r ∧ (c.insert rel t).arity r = c.arity r := by
  unfold insert
  split
  · simp [push, Function.update_of_ne h.symm]
  · exact ⟨rfl, rfl⟩

variable {es : List Emit}

/-- Insertions into other relations leave a relation alone. -/
theorem insertAll_of_ne {r : Name} (h : ∀ e ∈ es, e.1 ≠ r) :
    (c.insertAll es).next r = c.next r ∧ (c.insertAll es).arity r = c.arity r := by
  induction es generalizing c with
  | nil => exact ⟨rfl, rfl⟩
  | cons e es ih =>
    obtain ⟨hn, ha⟩ := @ih (c.insert e.1 e.2) fun e' he' => h e' (mem_cons_of_mem _ he')
    obtain ⟨hn', ha'⟩ := @insert_of_ne c e.1 r e.2 (h e (mem_cons_self ..))
    exact ⟨hn.trans hn', ha.trans ha'⟩

theorem Merged.visible_of_ne (h : c.Merged) {r : Name} (hne : ∀ e ∈ es, e.1 ≠ r) :
    (c.insertAll es).merge.visible r = c.visible r := by
  rw [visible_merge, all, insertAll_visible, (insertAll_of_ne hne).1, h r, append_nil]

theorem Merged.mem_visible (h : c.Merged) (hfits : c.Fits es) (r : Name)
    (t : Tuple) : t ∈ (c.insertAll es).merge.visible r ↔ t ∈ c.visible r ∨ (r, t) ∈ es := by
  rw [visible_merge, mem_all_insertAll hfits, h.all_eq]

theorem named_of_mem_rowsIn : ∀ e ∈ c.rowsIn rels, ∃ rel : String, e.1 = rel := by
  intro e he
  obtain ⟨rel, -, he⟩ := mem_flatMap.mp he
  exact ⟨rel, (mem_rowsOf.mp he).1⟩

theorem named_of_mem_execTiers {order : HashOrder} {n : Name} {t : Tuple}
    (h : t ∈ (c.execTiers order prog).visible n) : ∃ rel : String, n = rel := by
  rw [execTiers, visible_merge, all, insertAll_visible] at h
  obtain h | h := mem_next_insertAll (h : t ∈ (empty.insertAll _).next n)
  · cases h
  · exact named_of_mem_rowsIn _ h

/-- The extensional facts in the store a program runs in. -/
theorem Valid.mem_execTiers (h : c.Valid) (order : HashOrder) (t : Tuple) :
    t ∈ (c.execTiers order prog).visible rel ↔ rel ∈ prog.extensional ∧ t ∈ c.visible rel := by
  have hmerged : Tiers.empty.Merged := fun _ => rfl
  rw [Tiers.execTiers, hmerged.mem_visible, Tiers.mem_rowsIn, (order.perm_perm _).mem_iff]
  · exact or_iff_right not_mem_nil
  · rintro ⟨_, u⟩ he
    obtain ⟨r, rfl⟩ := Tiers.named_of_mem_rowsIn _ he
    refine ⟨fun n hn => (by cases hn), ?_⟩
    rintro ⟨_, u'⟩ he' rfl
    have hu := h.fits r u (Tiers.mem_all_of_visible (Tiers.mem_rowsIn.mp he).2)
    have hu' := h.fits r u' (Tiers.mem_all_of_visible (Tiers.mem_rowsIn.mp he').2)
    exact Option.some.inj (hu'.symm.trans hu)

theorem ne_of_mem_rowsIn (hrel : rel ∉ rels) : ∀ e ∈ c.rowsIn rels, e.1 ≠ (rel : Name) := by
  rintro ⟨r, t⟩ he rfl
  exact hrel (mem_rowsIn.mp he).1

end Tiers

end Mangle

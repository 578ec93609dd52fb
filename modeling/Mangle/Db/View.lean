import Mathlib.Data.Set.Basic
import Mangle.Db.Sound

/-!
# Db/View — a database as a view of its facts

The abstract database is a set of tuples for each relation without clauses: what the sources supply,
plus and minus what the operations insert and retract, in order (`contents`).  `database_view`:
after every operation the database holds these facts, and its derived relations are what the program
derives from them.
-/

namespace Mangle

open Machinery List

variable {sources : List EdbSource}

/-! ## The abstract database -/

/-- What an operation makes of the facts. -/
def MutationOp.effect (F : String → Set Tuple) (op : MutationOp) : String → Set Tuple :=
  match op.kind with
  | .insert => Function.update F op.relation (insert op.tuple (F op.relation))
  | .retract => Function.update F op.relation (F op.relation \ {op.tuple})

/-- The facts of the sources. -/
def sourceFacts (sources : List EdbSource) (rel : String) : Set Tuple :=
  {t | ∃ src ∈ sources, rel ∈ src.relations ∧ t ∈ src.scanWithPredicates rel []}

/-- The facts of the sources, after operations. -/
def contents (sources : List EdbSource) (ops : List MutationOp) : String → Set Tuple :=
  ops.foldl MutationOp.effect (sourceFacts sources)

/-! ## Calls -/

/-- A mutation of its own, or a batch with its commit. -/
inductive DbCall where
  | mutate (op : MutationOp)
  | batch (ops : List MutationOp)

/-- The operations of a call. -/
def DbCall.ops : DbCall → List MutationOp
  | mutate op => [op]
  | batch ops => ops

namespace Database

/-- A call. -/
def call (en : Engine) (db : Database) : DbCall → Except DbError Unit × Database
  | .mutate op => db.mutate en op
  | .batch ops => db.batch en ops

/-- Calls one after the other, all of which succeed. -/
def runAll : Database → List (Engine × DbCall) → Except DbError Database
  | db, [] => .ok db
  | db, (en, c) :: calls =>
      match db.call en c with
      | (.ok (), db) => db.runAll calls
      | (.error e, _) => .error e

/-- The derived relations hold what the program derives from the other facts. -/
def IsView (en : Engine) (db : Database) : Prop :=
  ∃ prog out, compileSource en db.unit = .ok prog ∧ derive en prog db.store = .ok out ∧
    ∀ rel ∈ prog.intensional, ∃ l l', db.query rel = some l ∧ out.scan (rel : String) = some l' ∧
      ∀ t, t ∈ l ↔ t ∈ l'

end Database

/-- A store in use whose relations hold these facts and no others, with nothing to be merged. -/
def MemStore.HoldsVisibly (s : MemStore) (F : String → Set Tuple) : Prop :=
  ∃ c, Rep s c ∧ Indexed s ∧ c.Merged ∧
    ∀ n t, t ∈ c.visible n ↔ ∃ rel : String, n = rel ∧ t ∈ F rel

/-- **The derived relations** hold what `execute` derives from the facts `F` of the extensional
relations. -/
def Database.HoldsDerived (en : Engine) (F : String → Set Tuple) (db : Database) : Prop :=
  ∃ prog e out, compileSource en db.unit = .ok prog ∧
    e.HoldsVisibly (fun rel => {t | rel ∈ prog.extensional ∧ t ∈ F rel}) ∧
    prog.execute en.rt en.cfg e = .ok out ∧
    ∀ rel ∈ prog.intensional, ∃ l l', db.query rel = some l ∧ out.scan (rel : String) = some l' ∧
      ∀ t, t ∈ l ↔ t ∈ l'

/-! ## Facts without clauses -/

section

variable {unit : List Rule} {arity : String → Nat} {F : String → Set Tuple} {c : Tiers}
  {s : MemStore}

/-- The contents of a store whose relations without clauses hold the facts `F`. -/
structure ExtFacts (unit : List Rule) (arity : String → Nat) (F : String → Set Tuple) (c : Tiers) :
    Prop where
  merged : c.Merged
  fits : ∀ r ∈ unit, FitsHead c r
  arities : ∀ rel : String, rel ∉ unit.map Rule.pred → ∀ n ∈ c.arity rel, n = arity rel
  facts : ∀ rel : String, rel ∉ unit.map Rule.pred → ∀ t, t ∈ c.visible rel ↔ t ∈ F rel

/-- **A recomputation** over empty derived relations makes a view, and leaves the other facts. -/
theorem ExtFacts.recompute {en : Engine} {prog : Program} {s' : MemStore}
    (h : ExtFacts unit arity F c) (hrep : Rep s c)
    (hempty : ∀ rel : String, rel ∈ unit.map Rule.pred → c.visible rel = [])
    (hok : fullRecompute en unit s = .ok (prog, s')) :
    compileSource en unit = .ok prog ∧ ∃ c' out, Rep s' c' ∧ ExtFacts unit arity F c' ∧
      derive en prog s' = .ok out ∧ ∀ rel ∈ prog.intensional, ∃ l l',
        s'.scan (rel : String) = some l ∧ out.scan (rel : String) = some l' ∧
        ∀ t, t ∈ l ↔ t ∈ l' := by
  obtain ⟨hcomp, out, cout, c', hout, hrepo, hrep', hrefilled⟩ := hrep.refilled h.merged hok
  have hc := compileSource_ok hcomp
  refine ⟨hcomp, c', out, hrep', ⟨hrefilled.merged,
    fun r hr => (hrefilled.fitsHead r hr).mpr (h.fits r hr), fun rel hrel n hn => ?_,
    fun rel hrel t => ?_⟩, ?_, fun rel hrel => ⟨_, _, hrep'.scan rel, hrepo.scan rel, fun t => ?_⟩⟩
  · exact h.arities rel hrel n (hrefilled.others.arity rel hrel ▸ hn)
  · rw [hrefilled.others.visible rel hrel]
    exact h.facts rel hrel t
  · rw [← hout]
    refine derive_congr fun rel hrel => ?_
    rw [hrep'.scan, hrep.scan, hrefilled.others.visible rel ((hc.extensional rel).mp hrel).2]
  · have hhead := hc.mem_intensional.mp hrel
    obtain ⟨r, hr, rfl⟩ := mem_map.mp hhead
    rw [hrefilled.derived r hr, hempty _ hhead, hrepo.facts]
    simp [h.fits r hr]

/-! ## Writes -/

/-- **A write** to a relation without clauses. -/
theorem ExtFacts.write {db db' : Database} {op : MutationOp} (h : ExtFacts unit arity F c)
    (hrep : Rep db.store c) (hrel : op.relation ∉ unit.map Rule.pred)
    (harity : op.kind = .insert → op.tuple.length = arity op.relation)
    (hok : db.write op = .ok db') :
    ∃ c', Rep db'.store c' ∧ ExtFacts unit arity (op.effect F) c' ∧
      db' = { db with store := db'.store } := by
  obtain ⟨s, hs, hrep'⟩ := hrep.write op
  obtain rfl := Except.ok.inj (hs.symm.trans hok)
  refine ⟨_, hrep', ⟨h.merged.write op, fun r hr n hn => ?_, fun r hr n hn => ?_,
    fun r hr u => ?_⟩, rfl⟩
  · obtain hn | ⟨-, heq, -⟩ := Tiers.arity_write hn
    · exact h.fits r hr n hn
    · exact absurd (Name.named.inj heq ▸ mem_map_of_mem hr) hrel
  · obtain hn | ⟨hkind, heq, rfl⟩ := Tiers.arity_write hn
    · exact h.arities r hr n hn
    · exact Name.named.inj heq ▸ harity hkind
  · rw [MutationOp.effect]
    cases hkind : op.kind with
    | insert =>
      have htakes : c.Takes op := fun n hn => (h.arities _ hrel n hn).trans (harity hkind).symm
      rw [h.merged.mem_write_insert hkind, h.facts r hr]
      by_cases hr' : r = op.relation <;> simp [hr', htakes, or_comm]
    | retract =>
      rw [hrep.toValid.mem_write_retract hkind, h.facts r hr]
      by_cases hr' : r = op.relation <;> simp [hr']

/-- A database over the clauses `unit` whose other relations hold the facts `F`. -/
structure Database.Over (unit : List Rule) (arity : String → Nat) (F : String → Set Tuple)
    (db : Database) : Prop where
  unit_eq : db.unit = unit
  edb : ∀ rel, rel ∈ db.edbRelations ↔ (∃ r ∈ unit, rel ∈ r.preds) ∧ rel ∉ unit.map Rule.pred
  idb : ∀ rel, rel ∈ db.idbRelations ↔ rel ∈ unit.map Rule.pred
  facts : ∃ c, Rep db.store c ∧ ExtFacts unit arity F c

namespace Database.Over

variable {en : Engine} {db db' : Database}

theorem write {op : MutationOp} (h : db.Over unit arity F)
    (hrel : op.relation ∉ unit.map Rule.pred)
    (harity : op.kind = .insert → op.tuple.length = arity op.relation)
    (hok : db.write op = .ok db') : db'.Over unit arity (op.effect F) := by
  obtain ⟨c, hrep, hfacts⟩ := h.facts
  obtain ⟨c', hrep', hfacts', heq⟩ := hfacts.write hrep hrel harity hok
  rw [heq]
  exact ⟨h.unit_eq, h.edb, h.idb, c', hrep', hfacts'⟩

/-- Clearing the derived relations empties them, and leaves the other facts. -/
theorem clearIdb (h : db.Over unit arity F) (en : Engine) :
    ∃ c, Rep (db.clearIdb en).store c ∧ ExtFacts unit arity F c ∧
      ∀ rel : String, rel ∈ unit.map Rule.pred → c.visible rel = [] := by
  obtain ⟨c, hrep, hfacts⟩ := h.facts
  have hperm {rel : String} : rel ∈ en.rt.order.perm db.idbRelations ↔ rel ∈ unit.map Rule.pred :=
    (en.rt.order.perm_perm _).mem_iff.trans (h.idb rel)
  have harity := Tiers.clearAll_arity (en.rt.order.perm db.idbRelations) c
  refine ⟨_, hrep.clearAll _, ⟨hfacts.merged.clearAll _, fun r hr n hn => ?_,
    fun rel hrel n hn => ?_, fun rel hrel t => ?_⟩, fun rel hrel => ?_⟩
  · exact hfacts.fits r hr n (harity ▸ hn)
  · exact hfacts.arities rel hrel n (harity ▸ hn)
  · rw [Tiers.visible_clearAll, if_neg (hperm.not.mpr hrel)]
    exact hfacts.facts rel hrel t
  · rw [Tiers.visible_clearAll, if_pos (hperm.mpr hrel)]

/-- **A recomputation makes a view.** -/
theorem recomputeIdb (h : db.Over unit arity F) (hok : db.recomputeIdb en = (.ok (), db')) :
    db'.Over unit arity F ∧ db'.IsView en := by
  obtain ⟨c, hrep, hfacts, hempty⟩ := h.clearIdb en
  obtain ⟨prog, s', mode, hfull, rfl⟩ := refill_ok (recomputeIdb_ok hok)
  have hunit : (db.clearIdb en).unit = unit := h.unit_eq
  rw [hunit] at hfull
  obtain ⟨hcomp, c', out, hrep', hfacts', hout, hsame⟩ := hfacts.recompute hrep hempty hfull
  have hc := compileSource_ok hcomp
  exact ⟨⟨hunit, h.edb, fun rel => hc.mem_intensional, c', hrep', hfacts'⟩,
    prog, out, hunit.symm ▸ hcomp, hout, hsame⟩

theorem writeAll {ops : List MutationOp} (h : db.Over unit arity F)
    (hops : ∀ op ∈ ops, op.relation ∉ unit.map Rule.pred ∧
      (op.kind = .insert → op.tuple.length = arity op.relation))
    (hok : db.writeAll ops = (.ok (), db')) :
    db'.Over unit arity (ops.foldl MutationOp.effect F) := by
  induction ops generalizing db F with
  | nil =>
    cases hok
    exact h
  | cons op ops ih =>
    rw [Database.writeAll] at hok
    cases hx : db.write op with
    | error e => simp [hx] at hok
    | ok db₁ =>
      obtain ⟨hrel, harity⟩ := hops op (mem_cons_self ..)
      exact ih (h.write hrel harity hx) (fun o ho => hops o (mem_cons_of_mem _ ho))
        (by simpa [hx] using hok)

/-- **A batch** on relations without clauses leaves a view of the changed facts. -/
theorem batch {ops : List MutationOp} (h : db.Over unit arity F)
    (hops : ∀ op ∈ ops, op.relation ∉ unit.map Rule.pred ∧
      (op.kind = .insert → op.tuple.length = arity op.relation))
    (hok : db.batch en ops = (.ok (), db')) :
    db'.Over unit arity (ops.foldl MutationOp.effect F) ∧ db'.IsView en := by
  rw [Database.batch] at hok
  cases hx : db.writeAll ops with
  | mk r db₁ =>
    cases r with
    | error e => simp [hx] at hok
    | ok u => exact (h.writeAll hops hx).recomputeIdb (by simpa [hx] using hok)

/-- **A call** on extensional relations leaves a view of the changed facts. -/
theorem call {c : DbCall} (h : db.Over unit arity F)
    (hops : ∀ op ∈ c.ops, op.relation ∈ db.edbRelations ∧
      (op.kind = .insert → op.tuple.length = arity op.relation))
    (hok : db.call en c = (.ok (), db')) :
    db'.Over unit arity (c.ops.foldl MutationOp.effect F) ∧ db'.IsView en := by
  have hops' : ∀ op ∈ c.ops, op.relation ∉ unit.map Rule.pred ∧
      (op.kind = .insert → op.tuple.length = arity op.relation) := fun op hop =>
    ⟨((h.edb _).mp (hops op hop).1).2, (hops op hop).2⟩
  cases c with
  | mutate op =>
    rw [Database.call, Database.mutate] at hok
    cases hx : db.write op with
    | error e => simp [hx] at hok
    | ok db₁ =>
      have hop := hops op (by simp [DbCall.ops])
      have hop' := hops' op (by simp [DbCall.ops])
      have h₁ := h.write hop'.1 hop'.2 hx
      have hedb : op.relation ∈ db₁.edbRelations := (h₁.edb _).mpr ((h.edb _).mp hop.1)
      exact h₁.recomputeIdb (by simpa [hx, hedb] using hok)
  | batch ops => exact h.batch hops' hok

/-- The store that a view's program ran in holds the extensional facts. -/
theorem holdsDerived (h : db.Over unit arity F) (hview : db.IsView en) : db.HoldsDerived en F := by
  obtain ⟨c, hrep, hfacts⟩ := h.facts
  obtain ⟨prog, out, hcomp, hout, hsame⟩ := hview
  obtain ⟨e, hrun, hrepe, hidx⟩ := hrep.execute_of_derive hout
  refine ⟨prog, e, out, hcomp, ⟨_, hrepe, hidx, Tiers.merged_merge _, fun n t => ?_⟩, hrun, hsame⟩
  have hmem {rel : String} (hrel : rel ∈ prog.extensional) : t ∈ c.visible rel ↔ t ∈ F rel :=
    hfacts.facts rel (h.unit_eq ▸ (((compileSource_ok hcomp).extensional rel).mp hrel).2) t
  constructor
  · intro ht
    obtain ⟨rel, rfl⟩ := Tiers.named_of_mem_execTiers ht
    obtain ⟨hrel, ht⟩ := (hrep.toValid.mem_execTiers en.rt.order t).mp ht
    exact ⟨rel, rfl, hrel, (hmem hrel).mp ht⟩
  · rintro ⟨rel, rfl, hrel, ht⟩
    exact (hrep.toValid.mem_execTiers en.rt.order t).mpr ⟨hrel, (hmem hrel).mpr ht⟩

end Database.Over

end

/-! ## Whole runs -/

/-- Opening without a cache computes. -/
theorem Database.open_inMemory (en : Engine) (unit : List Rule) (sources : List EdbSource) :
    Database.open' en .inMemory unit sources =
      Database.compute en .inMemory unit sources (loadEdb sources .new) := rfl

variable {preds : String → List ColumnPredicate}

theorem mem_sourceRows {rel : String} {t : Tuple} :
    ((rel : Name), t) ∈ sourceRows preds sources ↔
      ∃ src ∈ sources, rel ∈ src.relations ∧ t ∈ src.scanWithPredicates rel (preds rel) := by
  simp only [sourceRows, mem_flatMap, mem_rowsOf]
  constructor
  · rintro ⟨src, hsrc, r, hr, heq, ht⟩
    obtain rfl := Name.named.inj heq
    exact ⟨src, hsrc, hr, ht⟩
  · rintro ⟨src, hsrc, hr, ht⟩
    exact ⟨src, hsrc, rel, hr, rfl, ht⟩

theorem named_of_mem_sourceRows {e : Emit}
    (h : e ∈ sourceRows preds sources) : ∃ rel : String, e.1 = (rel : Name) := by
  simp only [sourceRows, mem_flatMap, mem_rowsOf] at h
  obtain ⟨-, -, rel, -, heq, -⟩ := h
  exact ⟨rel, heq⟩

/-- What is asked of the sources: no clauses for their relations, and one arity for each. -/
structure EdbSource.Supply (unit : List Rule) (arity : String → Nat) (sources : List EdbSource) :
    Prop where
  noClauses : ∀ src ∈ sources, ∀ rel ∈ src.relations, rel ∉ unit.map Rule.pred
  oneArity : ∀ src ∈ sources, ∀ rel ∈ src.relations, ∀ t ∈ src.scanWithPredicates rel [],
    t.length = arity rel

variable {arity : String → Nat} {unit : List Rule}

/-- The facts of the sources, loaded into a new store. -/
theorem extFacts_loadEdb
    (h : EdbSource.Supply unit arity sources) :
    ∃ c, Rep (loadEdb sources .new) c ∧ ExtFacts unit arity (sourceFacts sources) c ∧
      ∀ rel : String, rel ∈ unit.map Rule.pred → c.visible rel = [] := by
  set es := sourceRows (fun _ => []) sources with hes
  have hlen {rel : String} {t : Tuple} (ht : ((rel : Name), t) ∈ es) :
      rel ∉ unit.map Rule.pred ∧ t.length = arity rel := by
    obtain ⟨src, hsrc, hrel, ht⟩ := mem_sourceRows.mp ht
    exact ⟨h.noClauses src hsrc rel hrel, h.oneArity src hsrc rel hrel t ht⟩
  have hfit : Tiers.empty.Fits es := by
    rintro ⟨_, t⟩ he
    obtain ⟨rel, rfl⟩ := named_of_mem_sourceRows he
    refine ⟨fun n hn => (by cases hn), ?_⟩
    rintro ⟨_, t'⟩ he' rfl
    exact (hlen he').2.trans (hlen he).2.symm
  have hmerged : Tiers.empty.Merged := fun _ => rfl
  have hvisible (rel : String) (t : Tuple) :
      t ∈ (Tiers.empty.insertAll es).merge.visible rel ↔ ((rel : Name), t) ∈ es :=
    (hmerged.mem_visible hfit rel t).trans (or_iff_right not_mem_nil)
  refine ⟨_, Rep.new.loadEdbFiltered sources _, ⟨Tiers.merged_merge _, fun r hr n hn => ?_,
    fun rel hrel n hn => ?_, fun rel hrel t => ?_⟩, fun rel hrel => ?_⟩
  · obtain hn | ⟨u, hu, -⟩ := Tiers.arity_insertAll hn
    · cases hn
    · exact absurd (mem_map_of_mem hr) (hlen hu).1
  · obtain hn | ⟨u, hu, rfl⟩ := Tiers.arity_insertAll hn
    · cases hn
    · exact (hlen hu).2
  · exact (hvisible rel t).trans mem_sourceRows
  · refine eq_nil_iff_forall_not_mem.mpr fun t ht => ?_
    exact (hlen ((hvisible rel t).mp ht)).1 hrel

/-- **Opening** makes a view of the facts of the sources. -/
theorem Database.over_open {en : Engine} {db : Database}
    (h : EdbSource.Supply unit arity sources)
    (hopen : Database.open' en .inMemory unit sources = .ok db) :
    db.Over unit arity (sourceFacts sources) ∧ db.IsView en := by
  obtain ⟨c, hrep, hfacts, hempty⟩ := extFacts_loadEdb h
  simp only [open_inMemory, compute, bind_eq_ok] at hopen
  obtain ⟨⟨prog, s'⟩, hfull, mode, -, heq⟩ := hopen
  cases heq
  obtain ⟨hcomp, c', out, hrep', hfacts', hout, hsame⟩ := hfacts.recompute hrep hempty hfull
  have hc := compileSource_ok hcomp
  exact ⟨⟨rfl, hc.extensional, fun rel => hc.mem_intensional, c', hrep', hfacts'⟩,
    prog, out, hcomp, hout, hsame⟩

/-- The engine of the last call. -/
def lastEngine (en : Engine) (calls : List (Engine × DbCall)) : Engine :=
  (calls.map Prod.fst).getLastD en

theorem Database.Over.runAll {en : Engine}
    {F : String → Set Tuple} {calls : List (Engine × DbCall)} {db db' : Database}
    (h : db.Over unit arity F) (hview : db.IsView en)
    (hops : ∀ c ∈ calls, ∀ op ∈ c.2.ops, op.relation ∈ db.edbRelations ∧
      (op.kind = .insert → op.tuple.length = arity op.relation))
    (hok : db.runAll calls = .ok db') :
    db'.Over unit arity ((calls.flatMap fun c => c.2.ops).foldl MutationOp.effect F) ∧
      db'.IsView (lastEngine en calls) := by
  induction calls generalizing db en F with
  | nil =>
    cases hok
    exact ⟨h, hview⟩
  | cons c calls ih =>
    obtain ⟨en₁, c⟩ := c
    rw [Database.runAll] at hok
    cases hx : db.call en₁ c with
    | mk r db₁ =>
      cases r with
      | error e => simp [hx] at hok
      | ok u =>
        obtain ⟨h₁, hview₁⟩ := h.call (hops _ (mem_cons_self ..)) hx
        have hedb (rel : String) : rel ∈ db₁.edbRelations ↔ rel ∈ db.edbRelations :=
          (h₁.edb rel).trans (h.edb rel).symm
        have hrest := ih h₁ hview₁ (fun c hc op hop => by
          rw [hedb]
          exact hops c (mem_cons_of_mem _ hc) op hop) (by simpa [hx] using hok)
        have hlast : lastEngine en ((en₁, c) :: calls) = lastEngine en₁ calls := by
          simp only [lastEngine, map_cons, getLastD_cons]
        rw [hlast, flatMap_cons, foldl_append]
        exact hrest

/-- **The database is a view of its facts.**  After calls on extensional relations, each in an
engine of its own, the relations without clauses hold the facts of the sources with the operations
applied in order, and the others what the program derives from these. -/
theorem database_view {en : Engine} {unit : List Rule} {arity : String → Nat}
    {sources : List EdbSource} {calls : List (Engine × DbCall)} {db₀ db : Database}
    (hsources : EdbSource.Supply unit arity sources)
    (hopen : Database.open' en .inMemory unit sources = .ok db₀)
    (hcalls : ∀ c ∈ calls, ∀ op ∈ c.2.ops, op.relation ∈ db₀.edbRelations ∧
      (op.kind = .insert → op.tuple.length = arity op.relation))
    (hrun : db₀.runAll calls = .ok db) :
    db.HoldsDerived (lastEngine en calls) (contents sources (calls.flatMap fun c => c.2.ops)) ∧
      ∀ rel, rel ∉ unit.map Rule.pred → ∃ l, db.query rel = some l ∧
        ∀ t, t ∈ l ↔ t ∈ contents sources (calls.flatMap fun c => c.2.ops) rel := by
  obtain ⟨hover, hview⟩ := Database.over_open hsources hopen
  obtain ⟨hover', hview'⟩ := hover.runAll hview hcalls hrun
  obtain ⟨c, hrep, hfacts⟩ := hover'.facts
  exact ⟨hover'.holdsDerived hview', fun rel hrel => ⟨_, hrep.scan rel, hfacts.facts rel hrel⟩⟩

/-- `q(X) :- p(X).` -/
def copyUnit : List Rule := [⟨"q", [.var "X"], [.atom "p" [.var "X"]], []⟩]

/-- A source of `p(1)`. -/
def oneSource : EdbSource := .ofScan ["p"] (fun rel => if rel = "p" then [[.number 1]] else []) none

theorem oneSource_supply : EdbSource.Supply copyUnit (fun _ => 1) [oneSource] :=
  ⟨by decide, by decide⟩

/-- An insertion of its own, then a batch that retracts and inserts. -/
def copyCalls : List (Engine × DbCall) :=
  [(.bare, .mutate ⟨.insert, "p", [.number 2]⟩),
    (.bare, .batch [⟨.retract, "p", [.number 1]⟩, ⟨.insert, "p", [.number 3]⟩])]

/-- `p` and `q` hold 2 and 3. -/
theorem database_view_copy : ∃ db₀ db, Database.open' .bare .inMemory copyUnit
    [oneSource] = .ok db₀ ∧ db₀.runAll copyCalls = .ok db ∧
    db.HoldsDerived .bare (contents [oneSource] (copyCalls.flatMap fun c => c.2.ops)) ∧
    db.query "p" = some [[.number 2], [.number 3]] ∧
    db.query "q" = some [[.number 2], [.number 3]] := by
  obtain ⟨db₀, hopen⟩ : ∃ db₀, Database.open' .bare .inMemory copyUnit [oneSource] = .ok db₀ :=
    ⟨_, rfl⟩
  obtain ⟨db, hrun, hp, hq⟩ : ∃ db, db₀.runAll copyCalls = .ok db ∧
      db.query "p" = some [[.number 2], [.number 3]] ∧
      db.query "q" = some [[.number 2], [.number 3]] := by
    cases hopen
    exact ⟨_, rfl, by decide, by decide⟩
  have hedb : "p" ∈ db₀.edbRelations := by
    cases hopen
    decide
  refine ⟨db₀, db, hopen, hrun,
    (database_view oneSource_supply hopen (fun c hc op hop => ?_) hrun).1, hp, hq⟩
  have hop : op.relation = "p" ∧ op.tuple.length = 1 := by
    revert c op
    decide
  exact ⟨hop.1 ▸ hedb, fun _ => hop.2⟩

end Mangle

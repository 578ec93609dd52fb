import Mangle.Db.View
import Mangle.Driver.SemiNaive

/-!
# Db/OrderFree — programs that do not see the order of facts

Hash tables are walked in an order of their own, and the rows of a relation come in the order of
their insertion.  A program is order free if neither shows in what it derives, nor in whether it
runs.  `fn:collect` makes a program that is not.

* `Database.Over.sameQuery` — two views of the same facts hold the same derived facts;
* `Database.exists_open` — a program that opens in one engine opens in all;
* `orderFree_of_positive` — positive programs are order free;
* `database_least_model` — a database of positive rules holds their least model.
-/

namespace Mangle

open Machinery List

variable {s : MemStore} {c : Tiers} {prog : Program}

/-- **Order free**: the facts of the relations without clauses decide, as sets, whether the program
runs and which sets it derives, in whichever of the engines. -/
def OrderFree (engines : Set Engine) (unit : List Rule) : Prop :=
  ∀ en ∈ engines, ∀ en' ∈ engines, ∀ s s' : MemStore, (∃ c, Rep s c) → (∃ c, Rep s' c) →
    (∀ rel, rel ∉ unit.map Rule.pred → ∀ t, t ∈ s.facts rel ↔ t ∈ s'.facts rel) →
    ∀ prog out, compileSource en unit = .ok prog → derive en prog s = .ok out →
      ∃ prog' out', compileSource en' unit = .ok prog' ∧ derive en' prog' s' = .ok out' ∧
        ∀ rel ∈ unit.map Rule.pred, ∀ t, t ∈ out.facts rel ↔ t ∈ out'.facts rel

namespace Database

variable {engines : Set Engine} {unit : List Rule} {arity : String → Nat} {F : String → Set Tuple}
  {en en' : Engine} {db db' : Database} {sources : List EdbSource}

theorem Over.sound (h : db.Over unit arity F) : ∃ c, db.Sound c := by
  obtain ⟨c, hrep, hfacts⟩ := h.facts
  exact ⟨c, hrep, hfacts.merged, fun rel => h.unit_eq ▸ h.idb rel⟩

/-- The facts of the relations without clauses. -/
theorem Over.mem_facts (h : db.Over unit arity F) {rel : String} (hrel : rel ∉ unit.map Rule.pred)
    (t : Tuple) : t ∈ db.store.facts rel ↔ t ∈ F rel := by
  obtain ⟨c, hrep, hfacts⟩ := h.facts
  rw [hrep.facts]
  exact hfacts.facts rel hrel t

/-- The facts of the relations with clauses. -/
theorem IsView.exists_derive (h : db.IsView en) : ∃ prog out, compileSource en db.unit = .ok prog ∧
    derive en prog db.store = .ok out ∧
    ∀ rel ∈ db.unit.map Rule.pred, ∀ t, t ∈ db.store.facts rel ↔ t ∈ out.facts rel := by
  obtain ⟨prog, out, hcomp, hout, hsame⟩ := h
  refine ⟨prog, out, hcomp, hout, fun rel hrel t => ?_⟩
  obtain ⟨l, l', hl, hl', heq⟩ := hsame rel ((compileSource_ok hcomp).mem_intensional.mpr hrel)
  have hl : db.store.scan rel = some l := hl
  rw [MemStore.facts, MemStore.facts, hl, hl']
  exact heq t

variable (hfree : OrderFree engines unit)

include hfree

/-- **Two views of the same facts** agree on every relation. -/
theorem Over.sameQuery (hen : en ∈ engines) (hen' : en' ∈ engines) (h : db.Over unit arity F)
    (hview : db.IsView en) (h' : db'.Over unit arity F) (hview' : db'.IsView en') (rel : String)
    (t : Tuple) : t ∈ db.store.facts rel ↔ t ∈ db'.store.facts rel := by
  have hext : ∀ rel, rel ∉ unit.map Rule.pred → ∀ t,
      t ∈ db.store.facts rel ↔ t ∈ db'.store.facts rel := fun rel hrel t =>
    (h.mem_facts hrel t).trans (h'.mem_facts hrel t).symm
  by_cases hrel : rel ∈ unit.map Rule.pred
  · obtain ⟨c, hdb⟩ := h.sound
    obtain ⟨c', hdb'⟩ := h'.sound
    obtain ⟨prog, out, hcomp, hout, hder⟩ := hview.exists_derive
    obtain ⟨prog', out', hcomp', hout', hder'⟩ := hview'.exists_derive
    rw [h.unit_eq] at hcomp hder
    rw [h'.unit_eq] at hcomp' hder'
    obtain ⟨prog₁, out₁, hcomp₁, hout₁, hsame⟩ := hfree en hen en' hen' _ _ ⟨c, hdb.rep⟩
      ⟨c', hdb'.rep⟩ hext prog out hcomp hout
    obtain rfl := Except.ok.inj (hcomp₁.symm.trans hcomp')
    obtain rfl := Except.ok.inj (hout₁.symm.trans hout')
    exact (hder rel hrel t).trans ((hsame rel hrel t).trans (hder' rel hrel t).symm)
  · exact hext rel hrel t

/-- A database with the facts of a view runs. -/
theorem IsView.runs (hen : en ∈ engines) (hen' : en' ∈ engines) (h : db.Over unit arity F)
    (hview : db.IsView en) (h' : db'.Over unit arity F) : db'.Runs en' := by
  obtain ⟨c, hdb⟩ := h.sound
  obtain ⟨c', hdb'⟩ := h'.sound
  obtain ⟨prog, out, hcomp, hout, -⟩ := hview.exists_derive
  rw [h.unit_eq] at hcomp
  obtain ⟨prog₁, out₁, hcomp₁, hout₁, -⟩ := hfree en hen en' hen' _ _ ⟨c, hdb.rep⟩
    ⟨c', hdb'.rep⟩ (fun rel hrel t => (h.mem_facts hrel t).trans (h'.mem_facts hrel t).symm)
    prog out hcomp hout
  exact ⟨prog₁, out₁, h'.unit_eq.symm ▸ hcomp₁, hout₁⟩

/-- **A program that opens in one engine opens in the others.** -/
theorem exists_open (hen : en ∈ engines) (hen' : en' ∈ engines)
    (hopen : Database.open' en .inMemory unit sources = .ok db) :
    ∃ db', Database.open' en' .inMemory unit sources = .ok db' := by
  have hrep := Rep.new.loadEdbFiltered sources fun _ => []
  simp only [open_inMemory, compute, bind_eq_ok] at hopen
  obtain ⟨⟨prog, s⟩, hfull, -⟩ := hopen
  obtain ⟨hcomp, out, -, hout, -⟩ := fullRecompute_ok hrep hfull
  obtain ⟨prog', out', hcomp', hout', -⟩ := hfree en hen en' hen' _ _ ⟨_, hrep⟩ ⟨_, hrep⟩
    (fun _ _ _ => Iff.rfl) prog out hcomp hout
  obtain ⟨s', -, hs', -⟩ := fullRecompute_of_derive hcomp' hrep hout' hrep fun _ _ => rfl
  refine ⟨⟨unit, .inMemory, s', prog'.extensional, prog'.intensional,
    computeEdbFingerprint sources⟩, ?_⟩
  rw [open_inMemory, compute, loadEdb, hs', ok_bind]
  rfl

end Database

/-! ## What a compiled program derives -/

/-- The strata of a compiled program are in order. -/
theorem Compiled.stratified {unit : List Rule} (hc : Compiled unit prog) : prog.Stratified where
  covered r hr := (hc.strata.cover _).mp (intensional_clause.mpr (mem_map_of_mem (hc.rules ▸ hr)))
  ordered := by
    refine pairwise_iff_getElem.mpr fun i j hi hj hlt r hr pred args hp hlater => ?_
    have hint := (hc.strata.cover pred).mpr ⟨_, getElem_mem hj, hlater⟩
    have := hc.strata.ordered i j _ _ (getElem?_eq_getElem hi) (getElem?_eq_getElem hj) r.pred hr.2
      pred hlater ⟨hint, _, mem_map_of_mem (hc.rules ▸ hr.1), rfl, .inl (mem_map_of_mem hp)⟩
    omega

section

variable {en : Engine} {unit : List Rule} {out : MemStore}
  (hcomp : compileSource en unit = .ok prog) (hs : ∃ c, Rep s c) (hout : derive en prog s = .ok out)

include hcomp hs hout

/-- **A run leaves alone what no head names**: such a relation holds its extensional facts. -/
theorem mem_derive {rel : String} (hrel : rel ∉ unit.map Rule.pred) (t : Tuple) :
    t ∈ out.facts rel ↔ rel ∈ prog.extensional ∧ t ∈ s.facts rel := by
  obtain ⟨c, h⟩ := hs
  have hc := compileSource_ok hcomp
  obtain ⟨e, hrun, hrep, -⟩ := h.execute_of_derive hout
  set d := c.execTiers en.rt.order prog
  have hkeeps : prog.Keeps fun s => ∃ c', Rep s c' ∧
      c'.visible rel = d.visible rel ∧ c'.next rel = [] := by
    refine Program.keeps_rep (fun c' name t hw hsame => ?_) fun c' hsame =>
      ⟨by rw [Tiers.visible_merge, Tiers.all, hsame.2, append_nil, hsame.1], rfl⟩
    have hne : name ≠ (rel : Name) := by
      rintro rfl
      obtain ⟨r, hr, ⟨hpred, -⟩ | ⟨pre, id, hfresh⟩⟩ := hw
      · exact hrel (Name.named.inj hpred ▸ mem_map_of_mem (hc.rules ▸ hr))
      · cases hfresh
    have hvis : (c'.insert name t).visible = c'.visible := Tiers.insertAll_visible [(name, t)]
    rw [hvis, (Tiers.insert_of_ne hne).1]
    exact hsame
  obtain ⟨c', hrep', hvis, -⟩ :=
    Program.execute_keeps hkeeps hc.temporal hrun ⟨d, hrep, rfl, Tiers.merged_merge _ _⟩
  rw [hrep'.facts, hvis, h.toValid.mem_execTiers, h.facts]

/-- A program of positive rules derives their least model, when the delta plans of every stratum
cover its rules. -/
theorem isLeast_derive (hpos : ∀ r ∈ unit, r.Positive)
    (hcov : ∀ stratum ∈ prog.strata, prog.Covers stratum) :
    IsLeast {M | IsModel en.rt {r | r ∈ unit}
      (fun rel => {t | rel ∈ prog.extensional ∧ t ∈ s.facts rel}) M}
      fun rel => {t | t ∈ out.facts rel} := by
  obtain ⟨c, h⟩ := hs
  have hc := compileSource_ok hcomp
  have hall : prog.rulesOfAll prog.strata = {r | r ∈ unit} := by
    ext r
    rw [← hc.rules]
    constructor
    · rintro ⟨stratum, -, hr⟩
      exact hr.1
    · intro hr
      obtain ⟨stratum, hmem, hpred⟩ := hc.stratified.covered r hr
      exact ⟨stratum, hmem, hr, hpred⟩
  obtain ⟨e, hrun, hrep, hidx⟩ := h.execute_of_derive hout
  have hset : Settled prog e (c.execTiers en.rt.order prog) :=
    ⟨hrep, hidx, Tiers.merged_merge _, hc.rules ▸ hc.fits_execTiers en.rt.order⟩
  obtain ⟨plans, hplans, hrun⟩ := bind_eq_ok.mp hrun
  obtain ⟨cout, hset', -, hleast⟩ := runStrata_evaluates
    ⟨hc.rules ▸ hpos, hc.rules ▸ hc.sameArity, hc.temporal⟩
    (forall₂_of_mapM (ofPlan_eq_ok.mp hplans)) hc.stratified.ordered
    (hset.createRelations prog.extensional) hrun
  have hbase : (c.execTiers en.rt.order prog).facts =
      fun rel => {t | rel ∈ prog.extensional ∧ t ∈ c.visible rel} := by
    funext rel
    ext t
    exact h.toValid.mem_execTiers en.rt.order t
  have := hleast hcov
  rw [hall, hbase] at this
  simp only [h.facts, hset'.rep.facts]
  exact this

end

/-- **Positive programs are order free**, if they run in every engine and the delta plans of their
strata cover the rules. -/
theorem orderFree_of_positive {engines : Set Engine} {unit : List Rule}
    (hpos : ∀ r ∈ unit, r.Positive)
    (hcov : ∀ en ∈ engines, ∀ prog, compileSource en unit = .ok prog →
      ∀ stratum ∈ prog.strata, prog.Covers stratum)
    (hruns : ∀ en ∈ engines, ∃ prog, compileSource en unit = .ok prog ∧
      ∀ s c, Rep s c → ∃ out, derive en prog s = .ok out) : OrderFree engines unit := by
  intro en hen en' hen' s s' hs hs' hsame prog out hcomp hout
  obtain ⟨prog', hcomp', hrun⟩ := hruns en' hen'
  obtain ⟨c', hrep'⟩ := hs'
  obtain ⟨out', hout'⟩ := hrun s' c' hrep'
  refine ⟨prog', out', hcomp', hout', fun rel _ t => ?_⟩
  have hbase : (fun rel => {t | rel ∈ prog.extensional ∧ t ∈ s.facts rel}) =
      fun rel => {t | rel ∈ prog'.extensional ∧ t ∈ s'.facts rel} := by
    funext rel
    ext t
    simp only [Set.mem_ofPred_eq, (compileSource_ok hcomp).extensional,
      (compileSource_ok hcomp').extensional]
    exact and_congr_right fun hrel => hsame rel hrel.2 t
  have hmodel (M B : Facts) : IsModel en.rt {r | r ∈ unit} B M ↔
      IsModel en'.rt {r | r ∈ unit} B M := by
    refine ⟨fun h => ⟨h.base, fun r hr => ?_⟩, fun h => ⟨h.base, fun r hr => ?_⟩⟩
    · rw [(hpos r hr).consequences_eq en'.rt en.rt]
      exact h.closed r hr
    · rw [(hpos r hr).consequences_eq en.rt en'.rt]
      exact h.closed r hr
  have hleast := isLeast_derive hcomp hs hout hpos (hcov en hen prog hcomp)
  simp only [hbase, hmodel] at hleast
  have heq := hleast.unique (isLeast_derive hcomp' ⟨c', hrep'⟩ hout' hpos
    (hcov en' hen' prog' hcomp'))
  exact Set.ext_iff.mp (congrFun heq rel) t

/-! ## A program that copies -/

/-- The plan of `q(X) :- p(X).` -/
def copyPlan : Op := .iterate (.scan "p" ["X"]) (.insert "q" [.var "X"])

/-- What the plan inserts. -/
def copies (c : Tiers) : List Emit :=
  ((c.visible "p").filter (·.length = 1)).map fun t => (("q" : Name), t)

theorem den_copyPlan (rt : Runtime) (c : Tiers) (ρ : Env) : den rt c.reader copyPlan ρ =
    .ok (copies c) := by
  have hrows : ∀ rows : List Tuple, concatM (fun t =>
      if t.length ≠ (DataSource.scan "p" ["X"]).vars.length then .ok []
      else den rt c.reader (.insert "q" [.var "X"]) (ρ.bindVars ["X"] t)) rows =
        (.ok ((rows.filter (·.length = 1)).map fun t => (("q" : Name), t)) :
          Result (List Emit)) := by
    intro rows
    induction rows with
    | nil => rfl
    | cons t rows ih =>
      rw [concatM, ih]
      rcases t with _ | ⟨v, _ | ⟨w, t⟩⟩ <;> rfl
  exact hrows _

theorem copyPlan_scoped : copyPlan.Scoped {("q" : Name)} ∅ := by
  refine .iterate trivial (Set.disjoint_empty _) (.insert rfl ?_)
  simp [Operand.Reads, DataSource.vars]

theorem strata_copyUnit (hc : Compiled copyUnit prog) :
    ∃ stratum, prog.strata = [stratum] ∧ ∀ p, p ∈ stratum ↔ p = "q" := by
  have hcover (p : String) : p = "q" ↔ ∃ st ∈ prog.strata, p ∈ st := by
    rw [← hc.strata.cover, intensional_clause]
    simp [copyUnit]
  have hmem {st : List String} (hst : st ∈ prog.strata) (p : String) : p ∈ st ↔ p = "q" := by
    refine ⟨fun hp => (hcover p).mpr ⟨st, hst, hp⟩, ?_⟩
    rintro rfl
    obtain ⟨p, hp, -⟩ := hc.strata.component st hst
    exact (hcover p).mpr ⟨st, hst, hp⟩ ▸ hp
  have hdisj := hc.strata.disjoint
  match hstrata : prog.strata with
  | [] =>
    obtain ⟨st, hst, -⟩ := (hcover "q").mp rfl
    rw [hstrata] at hst
    cases hst
  | [st] => exact ⟨st, rfl, hmem (by simp [hstrata])⟩
  | st :: st' :: rest =>
    rw [hstrata, pairwise_cons] at hdisj
    have hq : "q" ∈ st := (hmem (by rw [hstrata]; simp) "q").mpr rfl
    have hq' : "q" ∈ st' := (hmem (by rw [hstrata]; simp) "q").mpr rfl
    exact absurd hq' (hdisj.1 st' (by simp) "q" hq)

/-- The run of the copying program. -/
theorem execute_copyUnit {rt : Runtime} {cfg : RunConfig} (hc : Compiled copyUnit prog)
    (h : Rep s c) (hidx : Indexed s) :
    prog.execute rt cfg s = .ok
      (MemStore.insertAll (copies c) (createRelations prog.extensional s)).2.mergeDeltas := by
  obtain ⟨stratum, hstrata, hmem⟩ := strata_copyUnit hc
  -- one rule, which does not read its own stratum
  have hrules : prog.stratumRules stratum = copyUnit.zipIdx := by
    rw [Program.stratumRules, hc.rules]
    refine filter_eq_self.mpr fun r hr => decide_eq_true ((hmem _).mpr ?_)
    revert r
    decide
  have hplan : prog.planStratum cfg stratum = .ok (some (.nonRecursive [copyPlan])) := by
    have hp : "p" ∉ stratum := fun hp => absurd ((hmem "p").mp hp) (by decide)
    rw [Program.planStratum, hrules]
    simp only [copyUnit, List.zipIdx, isEmpty_cons, Bool.false_eq_true, if_false, any_cons,
      recursiveAtoms, filterMap_cons, hp, filterMap_nil, isEmpty_nil, Bool.not_true,
      any_nil, Bool.or_self]
    cases hj : cfg.hashJoin <;> simp [Program.initialPlan, hj] <;> rfl
  have hexec : execute rt copyPlan (createRelations prog.extensional s) =
      .ok (MemStore.insertAll (copies c) (createRelations prog.extensional s)) := by
    obtain ⟨out, hout, -, rfl⟩ := Lift.ok_left.mp (den_copyPlan rt c .new ▸
      execute_den copyPlan_scoped (h.createRelations _) (hidx.createRelations _))
    exact hout
  rw [Program.execute, hstrata, hc.temporal]
  simp only [mapM_cons, mapM_nil, hplan, ok_bind, ofPlan, pure, Except.pure,
    foldlM_cons, foldlM_nil, runStratum, runPlan, StratumPlan.run, runPlans, hexec]
  rw [coalesceAll_nil]
  rfl

theorem copyUnit_orderFree : OrderFree {en | en.check copyUnit = .ok ()} copyUnit := by
  refine orderFree_of_positive (by decide) (fun en _ prog hcomp stratum hst r hr a ha hin => ?_)
    fun en hen => ?_
  · -- the only atom reads `p`, which is in no stratum
    have hq := ((compileSource_ok hcomp).strata.cover _).mpr ⟨stratum, hst, hin⟩
    obtain rfl := mem_singleton.mp ((compileSource_ok hcomp).rules ▸ hr.1)
    obtain rfl := mem_singleton.mp ha
    exact absurd (intensional_clause.mp hq) (by decide)
  · have hneg : ¬ ∃ p q, DependsNegated (copyUnit.map Rule.clause) p q ∧
        DependsStar (copyUnit.map Rule.clause) q p := by
      rintro ⟨p, q, ⟨-, c, hc, -, hneg⟩, -⟩
      obtain rfl : c = ⟨"q", [.atom "p"], []⟩ := by
        simpa [copyUnit, Rule.clause, Premise.literal] using hc
      simp [Clause.ReadsNegated, Clause.aggregates] at hneg
    have harity : SameArity copyUnit := by
      unfold SameArity
      decide
    obtain ⟨prog, hcomp⟩ := exists_compile hneg harity hen
    refine ⟨prog, hcomp, fun s c h => ?_⟩
    obtain ⟨e, he, hrep, hidx⟩ := h.execStore en.rt.order prog
    rw [derive, he, ok_bind, execute_copyUnit (compileSource_ok hcomp) hrep hidx]
    exact ⟨_, rfl⟩

/-- **A database of positive rules holds their least model** over the facts of the sources with the
operations applied in order, in the relations that the rules mention. -/
theorem database_least_model {en : Engine} {unit : List Rule} {arity : String → Nat}
    {sources : List EdbSource} {calls : List (Engine × DbCall)} {db₀ db : Database}
    (hpos : ∀ r ∈ unit, r.Positive)
    (hcov : ∀ prog, compileSource (lastEngine en calls) unit = .ok prog →
      ∀ stratum ∈ prog.strata, prog.Covers stratum)
    (hsources : EdbSource.Supply unit arity sources)
    (hopen : Database.open' en .inMemory unit sources = .ok db₀)
    (hcalls : ∀ c ∈ calls, ∀ op ∈ c.2.ops, op.relation ∈ db₀.edbRelations ∧
      (op.kind = .insert → op.tuple.length = arity op.relation))
    (hrun : db₀.runAll calls = .ok db) :
    IsLeast {M | IsModel (lastEngine en calls).rt {r | r ∈ unit} (fun rel => {t |
        rel ∈ db.edbRelations ∧ t ∈ contents sources (calls.flatMap fun c => c.2.ops) rel}) M}
      fun rel => {t | (rel ∈ db.edbRelations ∨ rel ∈ unit.map Rule.pred) ∧
        t ∈ db.store.facts rel} := by
  obtain ⟨hover, hview⟩ := Database.over_open hsources hopen
  obtain ⟨hover', hview'⟩ := hover.runAll hview hcalls hrun
  obtain ⟨c, hsound⟩ := hover'.sound
  obtain ⟨prog, out, hcomp, hout, hder⟩ := hview'.exists_derive
  rw [hover'.unit_eq] at hcomp hder
  have hext (rel : String) : rel ∈ db.edbRelations ↔ rel ∈ prog.extensional :=
    (hover'.edb rel).trans ((compileSource_ok hcomp).extensional rel).symm
  convert isLeast_derive hcomp ⟨c, hsound.rep⟩ hout hpos (hcov prog hcomp) using 5 with M rel rel t
  · ext t
    simp only [Set.mem_ofPred_eq, hext]
    refine and_congr_right fun hrel => (hover'.mem_facts ?_ t).symm
    exact (((compileSource_ok hcomp).extensional rel).mp hrel).2
  · by_cases hrel : rel ∈ unit.map Rule.pred
    · rw [hder rel hrel]
      simp [hrel]
    · rw [mem_derive hcomp ⟨c, hsound.rep⟩ hout hrel, hext, or_iff_left hrel]

theorem database_least_model_copy : ∃ db₀ db, Database.open' .bare .inMemory copyUnit [oneSource] =
      .ok db₀ ∧ db₀.runAll copyCalls = .ok db ∧
    IsLeast {M | IsModel .bare {r | r ∈ copyUnit} (fun rel => {t | rel ∈ db.edbRelations ∧
        t ∈ contents [oneSource] (copyCalls.flatMap fun c => c.2.ops) rel}) M}
      fun rel => {t | (rel ∈ db.edbRelations ∨ rel ∈ copyUnit.map Rule.pred) ∧
        t ∈ db.store.facts rel} := by
  obtain ⟨db₀, hopen⟩ : ∃ db₀, Database.open' .bare .inMemory copyUnit [oneSource] = .ok db₀ :=
    ⟨_, rfl⟩
  obtain ⟨db, hrun⟩ : ∃ db, db₀.runAll copyCalls = .ok db := by
    cases hopen
    exact ⟨_, rfl⟩
  have hcov : ∀ prog, compileSource (lastEngine .bare copyCalls) copyUnit = .ok prog →
      ∀ stratum ∈ prog.strata, ∀ r ∈ prog.rules, DeltaCovers stratum r := by
    rintro _ ⟨⟩
    decide
  have hcalls : ∀ c ∈ copyCalls, ∀ op ∈ c.2.ops, op.relation ∈ db₀.edbRelations ∧
      (op.kind = .insert → op.tuple.length = 1) := by
    cases hopen
    decide
  exact ⟨db₀, db, hopen, hrun, database_least_model (by decide)
    (fun prog hcomp stratum hst r hr => hcov prog hcomp stratum hst r hr.1) oneSource_supply hopen
    hcalls hrun⟩

end Mangle

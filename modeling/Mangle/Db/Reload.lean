import Mangle.Db.OrderFree

/-!
# Db/Reload — loading again, with pushed down predicates

`Database::reload` clears every relation and loads the sources again, this time with the predicates
found in the plans of the rules.  A source may leave out a row that fails one of them, although the
row matters to another rule.

* `reload_same` — a reload leaves the facts that were opened exactly when every row passes the
  predicates of its relation, or some source yields it in spite of them;
* `reload_drops_facts` — two rules that read one relation with different constants.
-/

namespace Mangle

open Machinery

/-! ## The operation -/

/-- `extract_edb_predicates`: from the plans of all rules that can be planned. -/
def extractEdbPredicates (en : Engine) (unit : List Rule) : String → List ColumnPredicate :=
  match compileSource en unit with
  | .error _ => fun _ => []
  | .ok prog =>
      extractPredicates (prog.strata.flatMap fun stratum =>
        (prog.stratumRules stratum).filterMap fun r => (Program.initialPlan en.cfg r).toOption)
        prog.extensional

/-- Clear every relation of a store. -/
def clearNames (order : HashOrder) (s : MemStore) : MemStore :=
  (s.relationNames order).foldl MemStore.clear s

/-- `Database::reload`. -/
def Database.reload (en : Engine) (db : Database) (sources : List EdbSource) :
    Except DbError Unit × Database :=
  let s := loadEdbFiltered sources (extractEdbPredicates en db.unit)
    (clearNames en.rt.order db.store)
  match Database.compute en db.mode db.unit sources s with
  | .ok db => (.ok (), db)
  | .error e => (.error e, { db with store := s })

/-! ## Clearing everything -/

section

variable {s : MemStore} {c : Tiers}

/-- The tiers without their tuples. -/
def Tiers.emptied (c : Tiers) : Tiers := { Tiers.empty with arity := c.arity }

theorem Rep.foldl_clear (h : Rep s c) (names : List Name) :
    Rep (names.foldl MemStore.clear s) (names.foldl Tiers.clear c) := by
  induction names generalizing s c with
  | nil => exact h
  | cons n names ih => exact ih (h.clear n)

theorem Tiers.foldl_clear (names : List Name) (c : Tiers) : names.foldl Tiers.clear c =
    ⟨fun rel => if rel ∈ names then [] else c.stable rel,
      fun rel => if rel ∈ names then [] else c.delta rel,
      fun rel => if rel ∈ names then [] else c.next rel, c.arity⟩ := by
  induction names generalizing c with
  | nil => simp
  | cons n names ih =>
    rw [List.foldl_cons, ih]
    congr 1 <;> funext rel <;> by_cases hr : rel = n <;> simp [Tiers.clear, hr]

/-- **Clearing every relation** leaves the registered arities only, if rows wait to be merged in
relations with a name at most. -/
theorem Rep.clearNames (h : Rep s c) (order : HashOrder)
    (hnext : ∀ rel, rel ∉ s.relationNames order → c.next rel = []) :
    Rep (clearNames order s) c.emptied := by
  have hnil {rel : Name} (hrel : rel ∉ s.relationNames order) := h.mem_relationNames order hrel
  have heq : (s.relationNames order).foldl Tiers.clear c = c.emptied := by
    rw [Tiers.foldl_clear, Tiers.emptied]
    congr 1 <;> funext rel
    · exact ite_eq_left_iff.mpr fun hrel => (hnil hrel).1
    · exact ite_eq_left_iff.mpr fun hrel => (hnil hrel).2
    · exact ite_eq_left_iff.mpr (hnext rel)
  exact heq ▸ h.foldl_clear (s.relationNames order)

end

/-! ## Computing -/

section

variable {en : Engine} {mode : IdbMode} {unit : List Rule} {sources : List EdbSource}
  {db : Database} {s s' : MemStore}

/-- A database that is computed has the store of a recomputation. -/
theorem Database.compute_ok (hok : Database.compute en mode unit sources s = .ok db) :
    db.unit = unit ∧ ∃ prog, fullRecompute en unit s = .ok (prog, db.store) ∧
      db.idbRelations = prog.intensional := by
  simp only [compute, bind_eq_ok] at hok
  obtain ⟨⟨prog, s'⟩, hfull, mode', -, heq⟩ := hok
  cases heq
  exact ⟨rfl, prog, hfull, rfl⟩

/-- A recomputation is all that can fail. -/
theorem Database.exists_compute {prog : Program} {c : Tiers} (hrep : Rep s' c)
    (hfull : fullRecompute en unit s = .ok (prog, s')) :
    ∃ db, Database.compute en mode unit sources s = .ok db ∧ db.store = s' := by
  obtain ⟨mode', hmode⟩ := hrep.exists_save mode en.rt.order (en.hash unit)
    (computeEdbFingerprint sources) prog.intensional
  refine ⟨⟨unit, mode', s', prog.extensional, prog.intensional, computeEdbFingerprint sources⟩,
    ?_, rfl⟩
  simp only [compute, hfull, ok_bind, hmode]
  rfl

theorem Database.reload_ok (hok : db.reload en sources = (.ok (), db')) :
    Database.compute en db.mode db.unit sources (loadEdbFiltered sources
      (extractEdbPredicates en db.unit) (clearNames en.rt.order db.store)) = .ok db' := by
  rw [reload] at hok
  split at hok
  · next heq => rw [heq, (Prod.mk.inj hok).2]
  · cases hok

end

/-! ## Reloading -/

/-- **A source as `EdbSource` describes it**: a filtered scan yields rows of the relation, and all
of those that pass the predicates. -/
structure EdbSource.Honest (src : EdbSource) : Prop where
  rows : ∀ rel preds, ∀ t ∈ src.scanWithPredicates rel preds, t ∈ src.scanWithPredicates rel []
  passing : ∀ rel preds, ∀ t ∈ src.scanWithPredicates rel [], (∀ p ∈ preds, p.eval t = true) →
    t ∈ src.scanWithPredicates rel preds

/-- A source whose filtered scans yield nothing else, as the default one. -/
def EdbSource.Strict (src : EdbSource) : Prop :=
  ∀ rel preds, ∀ t ∈ src.scanWithPredicates rel preds, ∀ p ∈ preds, p.eval t = true

/-- The row passes the predicates of its relation. -/
def Passes (en : Engine) (unit : List Rule) (rel : String) (t : Tuple) : Prop :=
  ∀ p ∈ extractEdbPredicates en unit rel, p.eval t = true

/-- A source yields the row in spite of the predicates of its relation. -/
def IsYielded (en : Engine) (unit : List Rule) (sources : List EdbSource) (rel : String)
    (t : Tuple) : Prop :=
  ∃ src ∈ sources, rel ∈ src.relations ∧
    t ∈ src.scanWithPredicates rel (extractEdbPredicates en unit rel)

/-- The rows of the sources meet a condition. -/
def AllRows (sources : List EdbSource) (P : String → Tuple → Prop) : Prop :=
  ∀ src ∈ sources, ∀ rel ∈ src.relations, ∀ t ∈ src.scanWithPredicates rel [], P rel t

section

variable {en en' : Engine} {mode : IdbMode} {unit : List Rule} {sources : List EdbSource}
  {db₀ : Database} {arity : String → Nat} {engines : Set Engine}

/-- No predicates are pushed down to a relation with clauses. -/
theorem extractEdbPredicates_of_mem {rel : String} (hrel : rel ∈ unit.map Rule.pred) :
    extractEdbPredicates en unit rel = [] := by
  unfold extractEdbPredicates
  cases hcomp : compileSource en unit with
  | error => rfl
  | ok prog =>
    exact extractPredicates_of_notMem fun hext =>
      (((compileSource_ok hcomp).extensional rel).mp hext).2 hrel

theorem mem_rows {rel : String} {t : Tuple} (hhonest : ∀ src ∈ sources, src.Honest)
    {preds : String → List ColumnPredicate} (h : ((rel : Name), t) ∈ sourceRows preds sources) :
    ((rel : Name), t) ∈ sourceRows (fun _ => []) sources := by
  obtain ⟨src, hsrc, hrel, ht⟩ := mem_sourceRows.mp h
  exact mem_sourceRows.mpr ⟨src, hsrc, hrel, (hhonest src hsrc).rows rel _ t ht⟩

/-- The contents after an opening, and after the load of a reload. -/
structure Reloading (sources : List EdbSource) (unit : List Rule)
    (preds : String → List ColumnPredicate) (c₀ c₁ c₂ : Tiers) : Prop where
  loaded : ∀ (rel : String) t,
    t ∈ c₀.visible rel ↔ ((rel : Name), t) ∈ sourceRows (fun _ => []) sources
  opened : ∀ (rel : String) t, t ∈ c₀.visible rel → t ∈ c₁.visible rel
  reloaded : ∀ (rel : String) t,
    t ∈ c₂.visible rel ↔ ((rel : Name), t) ∈ sourceRows preds sources
  fitsHead : ∀ r ∈ unit, FitsHead c₂ r ↔ FitsHead c₀ r

/-- **Loading again** finds the arities registered that its rows have. -/
theorem Rep.reloading {s : MemStore} {c₁ : Tiers} {out : MemStore}
    {preds : String → List ColumnPredicate} (hhonest : ∀ src ∈ sources, src.Honest)
    (harity : AllRows sources fun rel t => t.length = arity rel) (h₁ : Rep s c₁)
    (hopened : (Tiers.empty.insertAll (sourceRows (fun _ => []) sources)).merge.Refilled unit
      out c₁) :
    Reloading sources unit preds (Tiers.empty.insertAll (sourceRows (fun _ => []) sources)).merge c₁
      (c₁.emptied.insertAll (sourceRows preds sources)).merge := by
  set rows := sourceRows (fun _ => []) sources
  have hlen {rel : String} : ∀ e ∈ rows, e.1 = (rel : Name) → e.2.length = arity rel := by
    rintro ⟨_, t⟩ he rfl
    obtain ⟨src, hsrc, hrel, ht⟩ := mem_sourceRows.mp he
    exact harity src hsrc rel hrel t ht
  have hlen' {rel : String} : ∀ e ∈ sourceRows preds sources, e.1 = (rel : Name) →
      e.2.length = arity rel := by
    rintro ⟨_, t⟩ he rfl
    exact hlen _ (mem_rows hhonest he) rfl
  have hloaded (rel : String) (t : Tuple) :
      t ∈ (Tiers.empty.insertAll rows).merge.visible rel ↔ ((rel : Name), t) ∈ rows := by
    rw [Tiers.visible_merge, Tiers.mem_all_insertAll_of_length hlen]
    simp [Tiers.empty, Tiers.all, Tiers.visible]
  have hkeeps (rel : String) (t : Tuple) (ht : t ∈ (Tiers.empty.insertAll rows).merge.visible rel) :
      t ∈ c₁.visible rel := by
    by_cases hrel : rel ∈ unit.map Rule.pred
    · obtain ⟨r, hr, rfl⟩ := List.mem_map.mp hrel
      exact (hopened.derived r hr t).mpr (.inl ht)
    · rwa [hopened.others.visible rel hrel]
  have hregistered {rel : String} {t : Tuple} (ht : ((rel : Name), t) ∈ sourceRows preds sources) :
      c₁.arity rel = some t.length :=
    h₁.fits rel t (Tiers.mem_all_of_visible (hkeeps rel t ((hloaded rel t).mpr
      (mem_rows hhonest ht))))
  refine ⟨hloaded, hkeeps, fun rel t => ?_, fun r hr => ?_⟩
  · rw [Tiers.visible_merge, Tiers.mem_all_insertAll_of_length hlen']
    simp only [Tiers.emptied, Tiers.empty, Tiers.all, Tiers.visible, List.append_nil,
      List.not_mem_nil, false_or, and_iff_left_iff_imp]
    intro ht n hn
    exact Option.some.inj (hn.symm.trans (hregistered ht))
  · rw [← hopened.fitsHead r hr]
    refine ⟨fun hfit n hn => hfit n (Tiers.arity_insertAll_of_some hn), fun hfit n hn => ?_⟩
    obtain hn | ⟨u, hu, rfl⟩ := Tiers.arity_insertAll hn
    · exact hfit n hn
    · exact hfit _ (hregistered hu)

section

variable (hhonest : ∀ src ∈ sources, src.Honest)
  (harity : AllRows sources fun rel t => t.length = arity rel)
  (hmiss : mode.hit (en.hash unit) (computeEdbFingerprint sources) = none)
  (hopen : Database.open' en mode unit sources = .ok db₀)

include hhonest harity hmiss hopen

/-- What an opening has computed, and what a reload then computes with. -/
theorem Database.open_reloading (en' : Engine) : db₀.unit = unit ∧
    ∃ prog out c₀ c₁ c₂, compileSource en unit = .ok prog ∧
      derive en prog (loadEdb sources .new) = .ok out ∧ Rep (loadEdb sources .new) c₀ ∧
      Rep db₀.store c₁ ∧ c₀.Refilled unit out c₁ ∧
      Rep (loadEdbFiltered sources (extractEdbPredicates en' unit)
        (clearNames en'.rt.order db₀.store)) c₂ ∧ c₂.Merged ∧
      Reloading sources unit (extractEdbPredicates en' unit) c₀ c₁ c₂ := by
  rw [Database.open', hmiss] at hopen
  obtain ⟨hunit, prog, hfull, -⟩ := Database.compute_ok hopen
  have hload := Rep.new.loadEdbFiltered sources fun _ => []
  obtain ⟨hcomp, out, -, c₁, hout, -, h₁, hopened⟩ := hload.refilled (Tiers.merged_merge _) hfull
  exact ⟨hunit, prog, out, _, c₁, _, hcomp, hout, hload, h₁, hopened,
    (h₁.clearNames _ fun rel _ => hopened.merged rel).loadEdbFiltered sources _,
    Tiers.merged_merge _, h₁.reloading hhonest harity hopened⟩

/-- A row that is there again passes or is kept. -/
theorem Database.rows_of_reload {db : Database} (hok : db₀.reload en' sources = (.ok (), db))
    (hsame : ∀ rel t, t ∈ db.store.facts rel ↔ t ∈ db₀.store.facts rel) :
    AllRows sources fun rel t => Passes en' unit rel t ∨ IsYielded en' unit sources rel t := by
  obtain ⟨hunit, prog, out, c₀, c₁, c₂, -, -, -, h₁, -, h₂, hm, hre⟩ :=
    Database.open_reloading hhonest harity hmiss hopen en'
  intro src hsrc rel hrel t ht
  by_cases hhead : rel ∈ unit.map Rule.pred
  · refine .inl fun p hp => ?_
    rw [extractEdbPredicates_of_mem hhead] at hp
    cases hp
  · have hcompute := Database.reload_ok hok
    rw [hunit] at hcompute
    obtain ⟨-, prog', hfull, -⟩ := Database.compute_ok hcompute
    obtain ⟨-, _, _, c₃, -, -, h₃, hrefilled⟩ := h₂.refilled hm hfull
    have hin : t ∈ db.store.facts rel := by
      rw [hsame, h₁.facts]
      exact hre.opened rel t ((hre.loaded rel t).mpr (mem_sourceRows.mpr ⟨src, hsrc, hrel, ht⟩))
    rw [h₃.facts, hrefilled.others.visible rel hhead, hre.reloaded] at hin
    exact .inr (mem_sourceRows.mp hin)

/-- **If every row passes or is kept**, a reload leaves the facts that were opened. -/
theorem Database.exists_reload (hfree : OrderFree engines unit) (hen : en ∈ engines)
    (hen' : en' ∈ engines) (hrows : AllRows sources fun rel t =>
      Passes en' unit rel t ∨ IsYielded en' unit sources rel t) :
    ∃ db, db₀.reload en' sources = (.ok (), db) ∧
      ∀ rel t, t ∈ db.store.facts rel ↔ t ∈ db₀.store.facts rel := by
  obtain ⟨hunit, prog, out, c₀, c₁, c₂, hcomp, hout, h₀, h₁, hopened, h₂, hm, hre⟩ :=
    Database.open_reloading hhonest harity hmiss hopen en'
  have hback (rel : String) (t : Tuple) : t ∈ c₂.visible rel ↔ t ∈ c₀.visible rel := by
    rw [hre.reloaded, hre.loaded]
    refine ⟨mem_rows hhonest, fun h => ?_⟩
    obtain ⟨src, hsrc, hrel, ht⟩ := mem_sourceRows.mp h
    obtain hpass | hkept := hrows src hsrc rel hrel t ht
    · exact mem_sourceRows.mpr ⟨src, hsrc, hrel, (hhonest src hsrc).passing rel _ t ht hpass⟩
    · exact mem_sourceRows.mpr hkept
  obtain ⟨prog', out', hcomp', hout', hder⟩ := hfree en hen en' hen' _ _ ⟨_, h₀⟩ ⟨_, h₂⟩
    (fun rel _ t => by rw [h₀.facts, h₂.facts, hback]) prog out hcomp hout
  obtain ⟨s', _, hfull, hrep'⟩ := fullRecompute_of_derive hcomp' h₂ hout' h₂ fun _ _ => rfl
  obtain ⟨-, out'', _, c₃, hout'', -, h₃, hrefilled⟩ := h₂.refilled hm hfull
  obtain rfl := Except.ok.inj (hout'.symm.trans hout'')
  obtain ⟨db, hdb, rfl⟩ := @Database.exists_compute en' db₀.mode unit sources _ _ _ _ hrep' hfull
  refine ⟨db, by rw [Database.reload, hunit, hdb], fun rel t => ?_⟩
  rw [h₃.facts, h₁.facts]
  by_cases hrel : rel ∈ unit.map Rule.pred
  · obtain ⟨r, hr, rfl⟩ := List.mem_map.mp hrel
    rw [hrefilled.derived r hr, hopened.derived r hr, hback, hre.fitsHead r hr, hder _ hrel]
  · rw [hrefilled.others.visible rel hrel, hopened.others.visible rel hrel, hback]

end

end

/-- **Predicate pushdown**, after an opening that the cache does not serve.  The program is order
free and each relation has rows of one arity.  A reload, in whichever engine, succeeds with the
facts that were opened exactly when every row of the sources passes the predicates of its relation
or some source yields it in spite of them; if the sources yield only what passes, when every row
passes. -/
theorem reload_same {engines : Set Engine} {en en' : Engine} {mode : IdbMode} {unit : List Rule}
    {sources : List EdbSource} {db₀ : Database} {arity : String → Nat}
    (hfree : OrderFree engines unit) (hen : en ∈ engines) (hen' : en' ∈ engines)
    (hhonest : ∀ src ∈ sources, src.Honest)
    (harity : AllRows sources fun rel t => t.length = arity rel)
    (hmiss : mode.hit (en.hash unit) (computeEdbFingerprint sources) = none)
    (hopen : Database.open' en mode unit sources = .ok db₀) :
    ((∃ db, db₀.reload en' sources = (.ok (), db) ∧
        ∀ rel t, t ∈ db.store.facts rel ↔ t ∈ db₀.store.facts rel) ↔
      AllRows sources fun rel t => Passes en' unit rel t ∨ IsYielded en' unit sources rel t) ∧
    ((∀ src ∈ sources, src.Strict) →
      ((AllRows sources fun rel t => Passes en' unit rel t ∨ IsYielded en' unit sources rel t) ↔
        AllRows sources (Passes en' unit))) := by
  refine ⟨⟨?_, Database.exists_reload hhonest harity hmiss hopen hfree hen hen'⟩, fun hstrict =>
    ⟨fun h src hsrc rel hrel t ht => ?_, fun h src hsrc rel hrel t ht =>
      .inl (h src hsrc rel hrel t ht)⟩⟩
  · rintro ⟨db, hok, hsame⟩
    exact Database.rows_of_reload hhonest harity hmiss hopen hok hsame
  · obtain hpass | ⟨src', hsrc', -, hkept⟩ := h src hsrc rel hrel t ht
    · exact hpass
    · exact hstrict src' hsrc' rel _ t hkept

/-- The default filter is honest and strict. -/
theorem EdbSource.honest_ofScan (relations : List String) (scan : String → List Tuple)
    (fp : Option (List UInt8)) :
    (EdbSource.ofScan relations scan fp).Honest ∧ (EdbSource.ofScan relations scan fp).Strict := by
  have hmem {rel : String} {preds : List ColumnPredicate} {t : Tuple} :
      t ∈ (EdbSource.ofScan relations scan fp).scanWithPredicates rel preds ↔
        t ∈ scan rel ∧ ∀ p ∈ preds, p.eval t = true := by simp [ofScan]
  refine ⟨⟨fun rel preds t ht => hmem.mpr ⟨(hmem.mp ht).1, nofun⟩, fun rel preds t ht hpass =>
    hmem.mpr ⟨(hmem.mp ht).1, hpass⟩⟩, fun rel preds t ht => (hmem.mp ht).2⟩

/-- An engine that walks its maps backwards. -/
def backwardsEngine : Engine :=
  { Engine.bare with rt := { Runtime.bare with order := .backwards } }

/-- `q(X) :- p(X)` over `p(1)`, opened in one engine and reloaded in another. -/
theorem reload_same_copy : ∃ db₀ db, Database.open' .bare .inMemory copyUnit [oneSource] = .ok db₀ ∧
    db₀.reload backwardsEngine [oneSource] = (.ok (), db) ∧
      ∀ rel t, t ∈ db.store.facts rel ↔ t ∈ db₀.store.facts rel := by
  obtain ⟨db₀, hopen⟩ : ∃ db₀, Database.open' .bare .inMemory copyUnit [oneSource] = .ok db₀ :=
    ⟨_, rfl⟩
  have hsource := EdbSource.honest_ofScan ["p"] (fun rel => if rel = "p" then [[.number 1]] else [])
    none
  have harity : AllRows [oneSource] fun _ t => t.length = 1 := by
    unfold AllRows
    decide
  have hpass : AllRows [oneSource] (Passes backwardsEngine copyUnit) := by
    unfold AllRows Passes
    decide
  have hbare : Engine.bare ∈ {en : Engine | en.check copyUnit = .ok ()} := rfl
  have hback : backwardsEngine ∈ {en : Engine | en.check copyUnit = .ok ()} := rfl
  obtain ⟨hiff, hstrict⟩ := reload_same copyUnit_orderFree hbare hback
    (List.forall_mem_singleton.mpr hsource.1) harity rfl hopen
  obtain ⟨db, hok, hsame⟩ :=
    hiff.mpr ((hstrict (List.forall_mem_singleton.mpr hsource.2)).mpr hpass)
  exact ⟨db₀, db, hopen, hok, hsame⟩

/-- `q(X) :- p(X, 1).` and `r(X) :- p(X, 2).` -/
def constantsUnit : List Rule :=
  [⟨"q", [.var "X"], [.atom "p" [.var "X", .number 1]], []⟩,
    ⟨"r", [.var "X"], [.atom "p" [.var "X", .number 2]], []⟩]

/-- A source of `p(1, 1)` and `p(2, 2)`. -/
def pairSource : EdbSource :=
  .ofScan ["p"] (fun _ => [[.number 1, .number 1], [.number 2, .number 2]]) none

/-- **The predicates of two rules are applied together**: no fact of `p` passes both. -/
theorem reload_drops_facts : ∃ db₀ db,
    Database.open' .bare .inMemory constantsUnit [pairSource] = .ok db₀ ∧
      db₀.query "q" = some [[.number 1]] ∧ db₀.reload .bare [pairSource] = (.ok (), db) ∧
      db.query "p" = some [] ∧ db.query "q" = some [] := by
  refine ⟨_, _, rfl, rfl, rfl, rfl, rfl⟩

end Mangle

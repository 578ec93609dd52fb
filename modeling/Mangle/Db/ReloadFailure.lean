import Mangle.Db.Inverse

/-!
# Db/ReloadFailure — what a failed reload leaves

`reload` clears every relation and then loads the sources, runs the program, takes the fingerprint
and saves the cache; each of these can fail.  Nothing that has been cleared comes back:

* `loadSources_loadsAs` — a source that fails leaves the rows read so far waiting to be merged;
* `reload_failure` — a failed reload leaves the relations as they were just when they were empty and
  a source failed, or held the rows of the sources and what the program derives from them.
-/

namespace Mangle

open Machinery List

/-! ## The operation -/

/-- An `EdbSource` whose reads may fail. -/
structure FallibleSource where
  relations : Except String (List String)
  scanWithPredicates : String → List ColumnPredicate → Except String (List Tuple)
  fingerprint : Except String (Option (List UInt8))

/-- Why a reload fails. -/
inductive ReloadError where
  | source (msg : String)
  | recompute (e : DbError)
  | save (msg : String)

/-- The inner loop of `load_edb_into_store_filtered`, and the store at the first failure. -/
def loadRelations (preds : String → List ColumnPredicate) (src : FallibleSource) :
    List String → MemStore → Except String Unit × MemStore
  | [], s => (.ok (), s)
  | rel :: rels, s =>
      match src.scanWithPredicates rel (preds rel) with
      | .error e => (.error e, s.createRelation rel)
      | .ok rows => loadRelations preds src rels (loadRows rel rows s)

/-- `load_edb_into_store_filtered`: only a complete load is merged. -/
def loadSources (preds : String → List ColumnPredicate) :
    List FallibleSource → MemStore → Except String Unit × MemStore
  | [], s => (.ok (), s.mergeDeltas)
  | src :: sources, s =>
      match src.relations with
      | .error e => (.error e, s)
      | .ok rels =>
          match loadRelations preds src rels s with
          | (.error e, s) => (.error e, s)
          | (.ok (), s) => loadSources preds sources s

/-- `compute_edb_fingerprint`: a source without fingerprint ends it. -/
def edbFingerprint : List FallibleSource → Except String (Option (List UInt8))
  | [] => .ok (some [])
  | src :: sources => do
      match ← src.fingerprint with
      | none => pure none
      | some fp => pure ((← edbFingerprint sources).map (fp ++ ·))

namespace Database

/-- The end of `reload`, with the outcome of `IdbBackend::save` in case it is called. -/
def updateCache (en : Engine) (db : Database) (saved : Except String Unit) :
    Except ReloadError Unit × Database :=
  match db.mode.save en.rt.order (en.hash db.unit) db.fingerprint db.idbRelations db.store with
  | .error e => (.error (.recompute e), db)
  | .ok mode =>
      match db.mode, db.fingerprint, saved with
      | .cached _, some _, .error e => (.error (.save e), db)
      | _, _, _ => (.ok (), { db with mode := mode })

/-- `Database::reload`. -/
def reloadFrom (en : Engine) (db : Database) (sources : List FallibleSource)
    (saved : Except String Unit) : Except ReloadError Unit × Database :=
  match loadSources (extractEdbPredicates en db.unit) sources
      (clearNames en.rt.order db.store) with
  | (.error e, s) => (.error (.source e), { db with store := s })
  | (.ok (), s) =>
      match fullRecompute en db.unit s with
      | .error e => (.error (.recompute e), { db with store := s })
      | .ok (prog, s) =>
          let db := { db with
            store := s, edbRelations := prog.extensional, idbRelations := prog.intensional }
          match edbFingerprint sources with
          | .error e => (.error (.source e), db)
          | .ok fp => { db with fingerprint := fp }.updateCache en saved

end Database

/-! ## Rows that wait -/

/-- Rows wait to be merged only in relations that have a name. -/
def MemStore.Named (s : MemStore) : Prop := ∀ rel ∈ s.nextDelta, rel ∈ s.stable

/-- The same relations have a name, and the same ones rows that wait. -/
structure MemStore.SameKeys (s s' : MemStore) : Prop where
  stable : ∀ rel, rel ∈ s'.stable ↔ rel ∈ s.stable
  next : ∀ rel, rel ∈ s'.nextDelta ↔ rel ∈ s.nextDelta

namespace MemStore

variable {s s' : MemStore}

theorem sameKeys_clear (s : MemStore) (rel : Name) : s.SameKeys (s.clear rel) :=
  ⟨fun _ => HashMap.mem_update, fun _ => HashMap.mem_update⟩

theorem sameKeys_retract {rel : Name} {t : Tuple} {b : Bool}
    (hs : s.retract rel t = some (b, s')) : s.SameKeys s' := by
  unfold MemStore.retract at hs
  dsimp only at hs
  split at hs
  · obtain ⟨s₁, hs₁, heq⟩ := Option.map_eq_some_iff.mp hs
    obtain ⟨-, rfl⟩ := Prod.mk.inj heq
    unfold rebuildIndexesFor at hs₁
    dsimp only at hs₁
    split at hs₁
    · obtain rfl := Option.some.inj hs₁
      exact ⟨fun _ => HashMap.mem_update, fun _ => HashMap.mem_update⟩
    · cases hs₁
  · obtain ⟨-, rfl⟩ := Prod.mk.inj (Option.some.inj hs)
    exact ⟨fun _ => HashMap.mem_update, fun _ => HashMap.mem_update⟩

theorem named_mergeDeltas (s : MemStore) : s.mergeDeltas.Named := fun rel h =>
  absurd h (AList.notMem_empty rel)

theorem Named.of_sameKeys (h : s.Named) (hs : s.SameKeys s') : s'.Named := fun rel hrel =>
  (hs.stable rel).mpr (h rel ((hs.next rel).mp hrel))

theorem Named.clear (h : s.Named) (rel : Name) : (s.clear rel).Named :=
  h.of_sameKeys (s.sameKeys_clear rel)

theorem Named.clearAll (h : s.Named) (rels : List String) : (Mangle.clearAll rels s).Named :=
  List.foldlRecOn rels _ h fun _ hs rel _ => hs.clear rel

theorem Named.createRelation (h : s.Named) (rel : Name) : (s.createRelation rel).Named :=
  fun r hr => HashMap.mem_modify.mpr (.inr (h r hr))

/-- What an insertion leaves: the store, or the row among those that wait. -/
theorem insert_cases (s : MemStore) (rel : Name) (t : Tuple) :
    s.insert rel t = (false, s) ∨
      s.insert rel t = (true, s.pushNext rel t.length (flattenTuple t)) := by
  unfold MemStore.insert
  dsimp only
  split
  · exact .inl rfl
  · split
    · split
      · exact .inl rfl
      · exact .inr rfl
    · exact .inr rfl

/-- An insertion into a relation with a name. -/
theorem Named.insert (h : s.Named) {rel : Name} (hrel : rel ∈ s.stable) (t : Tuple) :
    (s.insert rel t).2.Named ∧ rel ∈ (s.insert rel t).2.stable := by
  obtain heq | heq := s.insert_cases rel t <;> rw [heq]
  · exact ⟨h, hrel⟩
  · refine ⟨fun r hr => ?_, hrel⟩
    obtain rfl | hr := HashMap.mem_modify.mp hr
    exacts [hrel, h r hr]

theorem Named.loadRows (h : s.Named) (rel : String) (rows : List Tuple) :
    (Mangle.loadRows rel rows s).Named := by
  have hnew : (s.createRelation rel).Named ∧ (rel : Name) ∈ (s.createRelation rel).stable :=
    ⟨h.createRelation rel, HashMap.mem_modify.mpr (.inl rfl)⟩
  exact (List.foldlRecOn (motive := fun s : MemStore => s.Named ∧ (rel : Name) ∈ s.stable) rows _
    hnew fun _ hs t _ => hs.1.insert hs.2 t).1

end MemStore

/-! ## Loading -/

/-- What a source yields for a relation. -/
def readRelation (preds : String → List ColumnPredicate) (src : FallibleSource) (rel : String) :
    Except String (String × List Tuple) :=
  (src.scanWithPredicates rel (preds rel)).map fun rows => (rel, rows)

/-- What a source yields. -/
def readSource (preds : String → List ColumnPredicate) (src : FallibleSource) :
    Except String (List (String × List Tuple)) := do
  (← src.relations).mapM (readRelation preds src)

/-- What all sources yield. -/
def readSources (preds : String → List ColumnPredicate) (sources : List FallibleSource) :
    Except String (List (String × List Tuple)) := do
  pure (← sources.mapM (readSource preds)).flatten

/-- Insert the rows of relations. -/
def loadAll (rows : List (String × List Tuple)) (s : MemStore) : MemStore :=
  rows.foldl (fun s r => loadRows r.1 r.2 s) s

/-- The outcome of a load that reads `read`: all rows are inserted and finished, or a failure leaves
those collected before it. -/
def LoadsAs (finish : MemStore → MemStore) (s : MemStore)
    (read : Except String (List (String × List Tuple)))
    (outcome : Except String Unit × MemStore) : Prop :=
  match read with
  | .ok rows => outcome = (.ok (), finish (loadAll rows s))
  | .error e => outcome.1 = .error e ∧ (s.Named → outcome.2.Named) ∧
      ∀ c, Rep s c → ∃ es, Rep outcome.2 (c.insertAll es)

section

variable {preds : String → List ColumnPredicate} {src : FallibleSource} {s : MemStore} {c : Tiers}

theorem Rep.loadAll (h : Rep s c) (rows : List (String × List Tuple)) :
    Rep (loadAll rows s) (c.insertAll (rows.flatMap fun r => rowsOf r.1 r.2)) :=
  h.foldl (fun r h => h.loadRows r.1 r.2) rows

theorem MemStore.Named.loadAll (h : s.Named) (rows : List (String × List Tuple)) :
    (loadAll rows s).Named :=
  List.foldlRecOn rows _ h fun _ hs r _ => hs.loadRows r.1 r.2

/-- Rows that have been loaded, and then the rest. -/
theorem LoadsAs.append {finish : MemStore → MemStore} {rows : List (String × List Tuple)}
    {read : Except String (List (String × List Tuple))} {outcome : Except String Unit × MemStore}
    (h : LoadsAs finish (loadAll rows s) read outcome) :
    LoadsAs finish s (read.map (rows ++ ·)) outcome := by
  cases read with
  | ok rest =>
    rw [Except.map, LoadsAs, loadAll, foldl_append]
    exact h
  | error e =>
    refine ⟨h.1, fun hs => h.2.1 (hs.loadAll rows), fun c hrep => ?_⟩
    obtain ⟨es, hes⟩ := h.2.2 _ (hrep.loadAll rows)
    exact ⟨_, Tiers.insertAll_append _ es c ▸ hes⟩

theorem loadRelations_loadsAs (rels : List String) (s : MemStore) :
    LoadsAs id s (rels.mapM (readRelation preds src)) (loadRelations preds src rels s) := by
  induction rels generalizing s with
  | nil => exact rfl
  | cons rel rels ih =>
    rw [mapM_cons, loadRelations, readRelation]
    cases src.scanWithPredicates rel (preds rel) with
    | error e => exact ⟨rfl, fun hs => hs.createRelation rel, fun c h => ⟨[], h.createRelation rel⟩⟩
    | ok rows => exact (ih (loadAll [(rel, rows)] s)).append

/-- **Loading** ends as the reads do, and merges only what is complete. -/
theorem loadSources_loadsAs (sources : List FallibleSource) (s : MemStore) :
    LoadsAs MemStore.mergeDeltas s (readSources preds sources) (loadSources preds sources s) := by
  induction sources generalizing s with
  | nil => exact rfl
  | cons src sources ih =>
    have hread : readSources preds (src :: sources) =
        (readSource preds src >>= fun rows => (readSources preds sources).map (rows ++ ·)) := by
      rw [readSources, mapM_cons, readSources]
      cases readSource preds src with
      | error e => rfl
      | ok rows => cases sources.mapM (readSource preds) <;> rfl
    rw [hread, loadSources, readSource]
    cases src.relations with
    | error e => exact ⟨rfl, id, fun c h => ⟨[], h⟩⟩
    | ok rels =>
      have hrels := @loadRelations_loadsAs preds src rels s
      rw [ok_bind]
      cases hrows : rels.mapM (readRelation preds src) with
      | error e =>
        rw [hrows] at hrels
        cases hx : loadRelations preds src rels s with
        | mk r s' =>
          rw [hx] at hrels
          obtain ⟨rfl, hrep⟩ := hrels
          simp only [hx]
          exact ⟨rfl, hrep⟩
      | ok rows =>
        rw [hrows] at hrels
        have hrels : loadRelations preds src rels s = (.ok (), loadAll rows s) := hrels
        simp only [hrels, ok_bind]
        exact (ih _).append

end

/-- **Clearing every relation** leaves nothing, not even what waits. -/
theorem Rep.clearNamed {s : MemStore} {c : Tiers} (h : Rep s c) (hs : s.Named)
    (order : HashOrder) : Rep (Mangle.clearNames order s) c.emptied := by
  refine h.clearNames order fun rel hrel => ?_
  have hno : rel ∉ s.nextDelta := fun hin => hrel <| mem_append_left _ <|
    (order.perm_perm _).mem_iff.mpr (AList.mem_keys.mpr (hs rel hin))
  have hget := HashMap.get_of_notMem hno
  rwa [h.next, map_eq_nil_iff] at hget

/-! ## Databases in use -/

/-- **A database in use**: the result of `open`, and then of calls and reloads that may have failed
anywhere. -/
inductive Database.InUse : Database → Prop
  | opened {en : Engine} {mode : IdbMode} {unit : List Rule} {sources : List EdbSource}
      {db : Database} (h : Database.open' en mode unit sources = .ok db) : InUse db
  | called {db : Database} (en : Engine) (call : DbCall) (h : InUse db) : InUse (db.call en call).2
  | reloaded {db : Database} (en : Engine) (sources : List FallibleSource)
      (saved : Except String Unit) (h : InUse db) : InUse (db.reloadFrom en sources saved).2

/-- A store after a recomputation that may fail. -/
def recomputed (en : Engine) (unit : List Rule) (s : MemStore) : MemStore :=
  match fullRecompute en unit s with
  | .error _ => s
  | .ok (_, s) => s

/-- A recomputation merges what it inserts. -/
theorem named_fullRecompute {en : Engine} {unit : List Rule} {prog : Program} {s s' : MemStore}
    (hok : fullRecompute en unit s = .ok (prog, s')) : s'.Named := by
  simp only [fullRecompute, bind_eq_ok] at hok
  obtain ⟨_, -, _, -, s₁, -, heq⟩ := hok
  cases heq
  exact MemStore.named_mergeDeltas _

namespace Database

variable {db db' : Database} {en : Engine}

/-- The store holds some tiers, and rows wait only where there is a name. -/
def Stored (db : Database) : Prop := db.store.Named ∧ ∃ c, Rep db.store c

theorem Stored.recomputeIdb (h : db.Stored) (en : Engine) : (db.recomputeIdb en).2.Stored := by
  obtain ⟨hs, c, hrep⟩ := h
  have hclear : (db.clearIdb en).Stored := ⟨hs.clearAll _, _, hrep.clearAll _⟩
  rw [Database.recomputeIdb]
  cases hx : (db.clearIdb en).refill en with
  | error e => exact hclear
  | ok db' =>
    obtain ⟨-, c', hrep'⟩ := hclear
    obtain ⟨prog, s, mode, hfull, rfl⟩ := refill_ok hx
    obtain ⟨-, _, _, -, -, -, hrep''⟩ := fullRecompute_ok hrep' hfull
    exact ⟨named_fullRecompute hfull, _, hrep''⟩

theorem Stored.write (h : db.Stored) (op : MutationOp) :
    ∃ s, db.write op = .ok { db with store := s } ∧
      ({ db with store := s } : Database).Stored := by
  obtain ⟨hs, c, hrep⟩ := h
  obtain ⟨s, hw, hrep'⟩ := hrep.write op
  refine ⟨s, hw, ?_, _, hrep'⟩
  unfold Database.write at hw
  cases hkind : op.kind with
  | insert =>
    simp only [hkind, Except.ok.injEq, mk.injEq, true_and, and_true] at hw
    exact hw ▸ MemStore.named_mergeDeltas _
  | retract =>
    simp only [hkind, bind_eq_ok] at hw
    obtain ⟨⟨b, s₁⟩, hret, heq⟩ := hw
    cases heq
    cases hx : db.store.retract op.relation op.tuple with
    | none => simp [hx, orPanicked] at hret
    | some p =>
      obtain rfl : p = (b, s₁) := by simpa [hx, orPanicked] using hret
      exact hs.of_sameKeys (MemStore.sameKeys_retract hx)

theorem Stored.call (h : db.Stored) (en : Engine) (call : DbCall) : (db.call en call).2.Stored := by
  cases call with
  | mutate op =>
    obtain ⟨s, hs, h₁⟩ := h.write op
    simp only [Database.call, mutate, hs]
    split
    · exact h₁.recomputeIdb en
    · exact h₁
  | batch ops =>
    have hall : ∀ db : Database, db.Stored →
        ∃ s, db.writeAll ops = (.ok (), { db with store := s }) ∧
          ({ db with store := s } : Database).Stored := by
      induction ops with
      | nil => exact fun db h => ⟨db.store, rfl, h⟩
      | cons op ops ih =>
        intro db h
        obtain ⟨s, hs, h₁⟩ := h.write op
        obtain ⟨s', hs', h₂⟩ := ih _ h₁
        exact ⟨s', by rw [writeAll, hs]; exact hs', h₂⟩
    obtain ⟨s, hs, h₁⟩ := hall db h
    simp only [Database.call, batch, hs]
    exact h₁.recomputeIdb en

theorem updateCache_store (en : Engine) (db : Database) (saved : Except String Unit) :
    (db.updateCache en saved).2.store = db.store := by
  rw [updateCache]
  split
  · rfl
  · split <;> rfl

/-- **The store after a reload**, whether it fails or not. -/
theorem Stored.reloadFrom (h : db.Stored) (en : Engine) (sources : List FallibleSource)
    (saved : Except String Unit) :
    (db.reloadFrom en sources saved).2.Stored ∧
      match readSources (extractEdbPredicates en db.unit) sources with
      | .error _ => ∀ rel, (db.reloadFrom en sources saved).2.store.facts rel = []
      | .ok rows => (db.reloadFrom en sources saved).2.store =
          recomputed en db.unit (loadAll rows (clearNames en.rt.order db.store)).mergeDeltas := by
  obtain ⟨hs, c, hrep⟩ := h
  have hclear := hrep.clearNamed hs en.rt.order
  have hnamed : (clearNames en.rt.order db.store).Named :=
    List.foldlRecOn _ _ hs fun _ hs rel _ => hs.clear rel
  have hload := @loadSources_loadsAs (extractEdbPredicates en db.unit) sources
    (clearNames en.rt.order db.store)
  rw [Database.reloadFrom]
  cases hread : readSources (extractEdbPredicates en db.unit) sources with
  | error e =>
    rw [hread] at hload
    cases hx : loadSources (extractEdbPredicates en db.unit) sources
        (clearNames en.rt.order db.store) with
    | mk r s =>
      rw [hx] at hload
      obtain ⟨rfl, hnext, hall⟩ := hload
      obtain ⟨es, hes⟩ := hall _ hclear
      refine ⟨⟨hnext hnamed, _, hes⟩, fun rel => ?_⟩
      rw [hes.facts, Tiers.insertAll_visible]
      rfl
  | ok rows =>
    rw [hread] at hload
    have hload : loadSources (extractEdbPredicates en db.unit) sources
        (clearNames en.rt.order db.store) =
          (.ok (), (loadAll rows (clearNames en.rt.order db.store)).mergeDeltas) := hload
    have hloaded := (hclear.loadAll rows).mergeDeltas
    simp only [hload, recomputed]
    set s := (loadAll rows (clearNames en.rt.order db.store)).mergeDeltas
    cases hfull : fullRecompute en db.unit s with
    | error e => exact ⟨⟨MemStore.named_mergeDeltas _, _, hloaded⟩, rfl⟩
    | ok r =>
      obtain ⟨prog, s'⟩ := r
      obtain ⟨-, _, _, -, -, -, hrep'⟩ := fullRecompute_ok hloaded hfull
      have hs' := named_fullRecompute hfull
      cases edbFingerprint sources with
      | error e => exact ⟨⟨hs', _, hrep'⟩, rfl⟩
      | ok fp =>
        refine ⟨?_, updateCache_store en _ saved⟩
        rw [Stored, updateCache_store]
        exact ⟨hs', _, hrep'⟩

/-- Opening ends with a merge. -/
theorem named_of_open {mode : IdbMode} {unit : List Rule} {sources : List EdbSource}
    (hok : Database.open' en mode unit sources = .ok db) : db.store.Named := by
  rw [Database.open'] at hok
  split at hok
  · simp only [ofSnapshot, bind_eq_ok] at hok
    obtain ⟨_, -, heq⟩ := hok
    cases heq
    exact MemStore.named_mergeDeltas _
  · simp only [compute, bind_eq_ok] at hok
    obtain ⟨_, hfull, _, -, heq⟩ := hok
    cases heq
    exact named_fullRecompute hfull

theorem InUse.stored (h : db.InUse) : db.Stored := by
  induction h with
  | opened h =>
    obtain ⟨c, hsound⟩ := (Sound.of_open h).2
    exact ⟨named_of_open h, c, hsound.rep⟩
  | called en call _ ih => exact ih.call en call
  | reloaded en sources saved _ ih => exact (ih.reloadFrom en sources saved).1

end Database

/-! ## What is left -/

/-- The program derives the fact from the facts of the store, and the arity registered for its
relation lets it in. -/
def DerivesFrom (en : Engine) (unit : List Rule) (s : MemStore) (rel : String) (t : Tuple) : Prop :=
  ∃ prog out, compileSource en unit = .ok prog ∧ derive en prog s = .ok out ∧
    ∃ r ∈ unit, r.pred = rel ∧ t ∈ out.facts rel ∧ s.FitsHead r

section

variable {en : Engine} {unit : List Rule} {s : MemStore} {c : Tiers} {es : List Emit}

/-- **A recomputation that may fail** leaves what was there and what the program derives. -/
theorem Rep.mem_recomputed (h : Rep s c) (hm : c.Merged) (rel : String) (t : Tuple) :
    t ∈ (recomputed en unit s).facts rel ↔ t ∈ s.facts rel ∨ DerivesFrom en unit s rel t := by
  unfold recomputed
  cases hfull : fullRecompute en unit s with
  | error e =>
    refine (or_iff_left ?_).symm
    rintro ⟨prog, out, hcomp, hout, -⟩
    obtain ⟨s', -, hs', -⟩ := fullRecompute_of_derive hcomp h hout h fun _ _ => rfl
    cases hfull.symm.trans hs'
  | ok p =>
    obtain ⟨prog, s'⟩ := p
    obtain ⟨hcomp, out, _, c', hout, -, hrep', hrefilled⟩ := h.refilled hm hfull
    rw [hrep'.facts, h.facts]
    constructor
    · intro ht
      by_cases hrel : rel ∈ unit.map Rule.pred
      · obtain ⟨r, hr, rfl⟩ := mem_map.mp hrel
        refine ((hrefilled.derived r hr t).mp ht).imp_right fun hder => ?_
        exact ⟨prog, out, hcomp, hout, r, hr, rfl, hder.1, (h.fitsHead_iff r).mpr hder.2⟩
      · rw [hrefilled.others.visible rel hrel] at ht
        exact .inl ht
    · rintro (ht | ⟨prog', out', hcomp', hout', r, hr, rfl, ht, hfits⟩)
      · by_cases hrel : rel ∈ unit.map Rule.pred
        · obtain ⟨r, hr, rfl⟩ := mem_map.mp hrel
          exact (hrefilled.derived r hr t).mpr (.inl ht)
        · rwa [hrefilled.others.visible rel hrel]
      · obtain rfl := Except.ok.inj (hcomp.symm.trans hcomp')
        obtain rfl := Except.ok.inj (hout.symm.trans hout')
        exact (hrefilled.derived r hr t).mpr (.inr ⟨ht, (h.fitsHead_iff r).mp hfits⟩)

/-- If rows come only for relations with a registered arity, those of that arity are loaded, and no
arity is registered. -/
theorem Tiers.loaded_of_registered
    (hreg : ∀ (rel : String) t, ((rel : Name), t) ∈ es → c.arity rel ≠ none) :
    (∀ (rel : String) t, t ∈ (c.emptied.insertAll es).merge.visible rel ↔
      ((rel : Name), t) ∈ es ∧ ∀ n ∈ c.arity rel, n = t.length) ∧
    ∀ rel : String, (c.emptied.insertAll es).merge.arity rel = c.arity rel := by
  have hcases (rel : String) : (∃ n, c.arity rel = some n) ∨
      c.arity rel = none ∧ ∀ e ∈ es, e.1 ≠ (rel : Name) := by
    cases hn : c.arity rel with
    | some n => exact .inl ⟨n, rfl⟩
    | none =>
      refine .inr ⟨rfl, ?_⟩
      rintro ⟨_, t⟩ he rfl
      exact hreg rel t he hn
  refine ⟨fun rel t => ?_, fun rel => ?_⟩
  · rw [Tiers.visible_merge]
    obtain ⟨n, hn⟩ | ⟨-, hno⟩ := hcases rel
    · have hreg' : c.emptied.arity rel = some n := hn
      rw [Tiers.mem_all_insertAll_of_some hreg', hn]
      simp [Tiers.emptied, Tiers.empty, Tiers.all, Tiers.visible, eq_comm]
    · rw [Tiers.all, Tiers.insertAll_visible, (Tiers.insertAll_of_ne hno).1]
      simp only [Tiers.emptied, Tiers.empty, Tiers.visible, append_nil, not_mem_nil, false_iff]
      exact fun h => hno _ h.1 rfl
  · obtain ⟨n, hn⟩ | ⟨-, hno⟩ := hcases rel
    · rw [hn]
      exact Tiers.arity_insertAll_of_some hn
    · exact (Tiers.insertAll_of_ne hno).2

/-- Rows for an unregistered relation leave one of them. -/
theorem Tiers.exists_loaded {rel : String} {t : Tuple} (ht : ((rel : Name), t) ∈ es)
    (hn : c.arity rel = none) : ∃ u, u ∈ (c.emptied.insertAll es).merge.visible rel := by
  rw [Tiers.visible_merge]
  exact Tiers.exists_mem_insertAll (c := c.emptied) rfl hn ht

end

theorem mem_flatMap_rowsOf (rows : List (String × List Tuple)) (rel : String) (t : Tuple) :
    ((rel : Name), t) ∈ rows.flatMap (fun r => rowsOf r.1 r.2) ↔
      ∃ ts, (rel, ts) ∈ rows ∧ t ∈ ts := by
  simp only [mem_flatMap, mem_rowsOf, Prod.exists]
  constructor
  · rintro ⟨r, ts, hr, heq, ht⟩
    obtain rfl := Name.named.inj heq
    exact ⟨ts, hr, ht⟩
  · rintro ⟨ts, hr, ht⟩
    exact ⟨rel, ts, hr, rfl, ht⟩

/-- The row was read, and the arity registered for its relation lets it in. -/
def Database.Takes (db : Database) (rows : List (String × List Tuple)) (rel : String) (t : Tuple) :
    Prop :=
  (∃ ts, (rel, ts) ∈ rows ∧ t ∈ ts) ∧ ∀ n ∈ db.store.arity.lookup (rel : Name), n = t.length

theorem DerivesFrom.head {en : Engine} {unit : List Rule} {s : MemStore} {rel : String} {t : Tuple}
    (h : DerivesFrom en unit s rel t) : rel ∈ unit.map Rule.pred := by
  obtain ⟨_, _, -, -, r, hr, rfl, -⟩ := h
  exact mem_map_of_mem hr

/-- **Settled** relations hold what the program derives. -/
theorem Database.Settled.mem_facts {en : Engine} {db : Database} (h : db.Settled en) {rel : String}
    (hrel : rel ∈ db.unit.map Rule.pred) (t : Tuple) :
    t ∈ db.store.facts rel ↔ DerivesFrom en db.unit db.store rel t := by
  obtain ⟨prog, out, hcomp, hout, hder⟩ := h
  constructor
  · intro ht
    obtain ⟨r, hr, rfl⟩ := mem_map.mp hrel
    obtain ⟨ht, hfits⟩ := (hder r hr t).mp ht
    exact ⟨prog, out, hcomp, hout, r, hr, rfl, ht, hfits⟩
  · rintro ⟨prog', out', hcomp', hout', r, hr, rfl, ht⟩
    obtain rfl := Except.ok.inj (hcomp.symm.trans hcomp')
    obtain rfl := Except.ok.inj (hout.symm.trans hout')
    exact (hder r hr t).mpr ht

/-- An order free program derives the same facts from the same extensional facts. -/
theorem DerivesFrom.congr {engines : Set Engine} {en : Engine} {unit : List Rule} {s s' : MemStore}
    (hfree : OrderFree engines unit) (hen : en ∈ engines) (hs : ∃ c, Rep s c) (hs' : ∃ c, Rep s' c)
    (hext : ∀ rel, rel ∉ unit.map Rule.pred → ∀ t, t ∈ s.facts rel ↔ t ∈ s'.facts rel)
    (hfits : ∀ r ∈ unit, s.FitsHead r → s'.FitsHead r) {rel : String} {t : Tuple}
    (h : DerivesFrom en unit s rel t) : DerivesFrom en unit s' rel t := by
  obtain ⟨prog, out, hcomp, hout, r, hr, rfl, ht, hfit⟩ := h
  obtain ⟨prog', out', hcomp', hout', hsame⟩ := hfree en hen en hen s s' hs hs' hext prog out hcomp
    hout
  exact ⟨prog', out', hcomp', hout', r, hr, rfl, (hsame _ (mem_map_of_mem hr) t).mp ht,
    hfits r hr hfit⟩

theorem derivesFrom_congr {engines : Set Engine} {en : Engine} {unit : List Rule} {s s' : MemStore}
    (hfree : OrderFree engines unit) (hen : en ∈ engines) (hs : ∃ c, Rep s c) (hs' : ∃ c, Rep s' c)
    (hext : ∀ rel, rel ∉ unit.map Rule.pred → ∀ t, t ∈ s.facts rel ↔ t ∈ s'.facts rel)
    (hfits : ∀ r ∈ unit, s.FitsHead r ↔ s'.FitsHead r) (rel : String) (t : Tuple) :
    DerivesFrom en unit s rel t ↔ DerivesFrom en unit s' rel t :=
  ⟨.congr hfree hen hs hs' hext fun r hr => (hfits r hr).mp,
    .congr hfree hen hs' hs (fun rel hrel t => (hext rel hrel t).symm) fun r hr => (hfits r hr).mpr⟩

/-- **A failed reload** leaves every relation as it was just when either a source failed and all
relations were empty before; or the sources could be read, and each relation held the rows read that
its registered arity lets in, and what the program derives from its facts. -/
theorem reload_failure {engines : Set Engine} {en : Engine} {db db' : Database}
    {sources : List FallibleSource} {saved : Except String Unit} {e : ReloadError}
    (hfree : OrderFree engines db.unit) (hen : en ∈ engines) (hdb : db.InUse)
    (hfail : db.reloadFrom en sources saved = (.error e, db')) :
    (∀ rel t, t ∈ db'.store.facts rel ↔ t ∈ db.store.facts rel) ↔
      match readSources (extractEdbPredicates en db.unit) sources with
      | .error _ => ∀ rel, db.store.facts rel = []
      | .ok rows => ∀ rel t, t ∈ db.store.facts rel ↔
          db.Takes rows rel t ∨ DerivesFrom en db.unit db.store rel t := by
  have hleft := (hdb.stored.reloadFrom en sources saved).2
  rw [hfail] at hleft
  cases hread : readSources (extractEdbPredicates en db.unit) sources with
  | error _ =>
    rw [hread] at hleft
    simp only [hleft, not_mem_nil, false_iff]
    exact forall_congr' fun rel => eq_nil_iff_forall_not_mem.symm
  | ok rows =>
    rw [hread] at hleft
    obtain ⟨hs, c, hrep⟩ := hdb.stored
    have hload := ((hrep.clearNamed hs en.rt.order).loadAll rows).mergeDeltas
    rw [show db'.store = _ from hleft]
    simp only [hload.mem_recomputed (Tiers.merged_merge _)]
    set s := (loadAll rows (clearNames en.rt.order db.store)).mergeDeltas
    set es := rows.flatMap fun r => rowsOf r.1 r.2
    have hes (rel : String) (t : Tuple) := mem_flatMap_rowsOf rows rel t
    have hfacts {rel : String} {t : Tuple} (ht : t ∈ db.store.facts rel) : c.arity rel ≠ none := by
      rw [hrep.facts] at ht
      simp [hrep.fits rel t (Tiers.mem_all_of_visible ht)]
    -- Either way rows come only for relations that are registered.
    have key (hreg : ∀ (rel : String) t, ((rel : Name), t) ∈ es → c.arity rel ≠ none)
        (hext : ∀ rel, rel ∉ db.unit.map Rule.pred → ∀ t,
          t ∈ db.store.facts rel ↔ db.Takes rows rel t) (rel : String) (t : Tuple) :
        (t ∈ s.facts rel ∨ DerivesFrom en db.unit s rel t) ↔
          (db.Takes rows rel t ∨ DerivesFrom en db.unit db.store rel t) := by
      obtain ⟨hloaded, harity⟩ := Tiers.loaded_of_registered hreg
      have hin (rel : String) (t : Tuple) : t ∈ s.facts rel ↔ db.Takes rows rel t := by
        rw [hload.facts, hloaded, hes, Database.Takes, hrep.arity]
      have hfits (r : Rule) : s.FitsHead r ↔ db.store.FitsHead r := by
        rw [hload.fitsHead_iff, hrep.fitsHead_iff, FitsHead, harity, FitsHead]
      have hsame (rel : String) (hrel : rel ∉ db.unit.map Rule.pred) (t : Tuple) :
          t ∈ s.facts rel ↔ t ∈ db.store.facts rel := (hin rel t).trans (hext rel hrel t).symm
      rw [hin, derivesFrom_congr hfree hen ⟨_, hload⟩ ⟨_, hrep⟩ hsame fun r _ => hfits r]
    constructor
    · intro hsame
      have hreg (rel : String) (t : Tuple) (ht : ((rel : Name), t) ∈ es) : c.arity rel ≠ none := by
        intro hn
        obtain ⟨u, hu⟩ := Tiers.exists_loaded ht hn
        exact hfacts ((hsame rel u).mp (.inl (hload.facts rel ▸ hu))) hn
      have hext (rel : String) (hrel : rel ∉ db.unit.map Rule.pred) (t : Tuple) :
          t ∈ db.store.facts rel ↔ db.Takes rows rel t := by
        rw [← hsame, or_iff_left fun h => hrel h.head, hload.facts,
          (Tiers.loaded_of_registered hreg).1, hes, Database.Takes, hrep.arity]
      exact fun rel t => (hsame rel t).symm.trans (key hreg hext rel t)
    · intro hcond
      have hreg (rel : String) (t : Tuple) (ht : ((rel : Name), t) ∈ es) : c.arity rel ≠ none := by
        intro hn
        refine hfacts ((hcond rel t).mpr (.inl ⟨(hes rel t).mp ht, ?_⟩)) hn
        simp [hrep.arity, hn]
      have hext (rel : String) (hrel : rel ∉ db.unit.map Rule.pred) (t : Tuple) :
          t ∈ db.store.facts rel ↔ db.Takes rows rel t := by
        rw [hcond, or_iff_left fun h => hrel h.head]
      exact fun rel t => (key hreg hext rel t).trans (hcond rel t).symm

/-- A source that lists `p` and cannot read it. -/
def brokenSource : FallibleSource := ⟨.ok ["p"], fun _ _ => .error "unreadable", .ok none⟩

/-- A source of `p(1)` whose fingerprint cannot be taken. -/
def unstampedSource : FallibleSource :=
  ⟨.ok ["p"], fun _ _ => .ok [[.number 1]], .error "unreadable"⟩

/-- The rows are there already, and so is what they give: only the fingerprint fails. -/
theorem reload_failure_unstamped : ∃ db db',
    Database.open' .bare .inMemory copyUnit [oneSource] = .ok db ∧
      db.query "p" = some [[.number 1]] ∧ db.query "q" = some [[.number 1]] ∧
      db.reloadFrom .bare [unstampedSource] (.ok ()) = (.error (.source "unreadable"), db') ∧
      ∀ rel t, t ∈ db'.store.facts rel ↔ t ∈ db.store.facts rel := by
  obtain ⟨db, hopen, hp, hq⟩ : ∃ db, Database.open' .bare .inMemory copyUnit [oneSource] = .ok db ∧
      db.query "p" = some [[.number 1]] ∧ db.query "q" = some [[.number 1]] := ⟨_, rfl, rfl, rfl⟩
  obtain ⟨db', hfail⟩ : ∃ db', db.reloadFrom .bare [unstampedSource] (.ok ()) =
      (.error (.source "unreadable"), db') := by
    cases hopen
    exact ⟨_, rfl⟩
  obtain ⟨hover, hview⟩ := Database.over_open oneSource_supply hopen
  have hunit : db.unit = copyUnit := hover.unit_eq
  have hbare : Engine.bare ∈ {en : Engine | en.check copyUnit = .ok ()} := rfl
  refine ⟨db, db', hopen, hp, hq, hfail,
    (reload_failure (hunit.symm ▸ copyUnit_orderFree) hbare (.opened hopen) hfail).mpr ?_⟩
  change ∀ rel t, t ∈ db.store.facts rel ↔ db.Takes [("p", [[.number 1]])] rel t ∨ _
  intro rel t
  have htakes : db.Takes [("p", [[.number 1]])] rel t ↔ rel = "p" ∧ t = [.number 1] := by
    have harity : db.store.arity.lookup ("p" : Name) = some 1 := by
      cases hopen
      rfl
    constructor
    · rintro ⟨⟨ts, hts, ht⟩, -⟩
      simp only [mem_singleton, Prod.mk.injEq] at hts
      obtain ⟨rfl, rfl⟩ := hts
      exact ⟨rfl, mem_singleton.mp ht⟩
    · rintro ⟨rfl, rfl⟩
      refine ⟨⟨_, mem_singleton_self _, mem_singleton_self _⟩, ?_⟩
      rw [harity]
      decide
  by_cases hrel : rel = "q"
  · subst hrel
    rw [htakes, ← (hover.settled hview).mem_facts (by simp [hunit, copyUnit])]
    simp
  · have hhead : rel ∉ copyUnit.map Rule.pred := by simpa [copyUnit] using hrel
    rw [hover.mem_facts hhead, htakes, or_iff_left fun h => hhead (hunit ▸ h.head)]
    simp [sourceFacts, oneSource, EdbSource.ofScan]

/-- **A failed reload empties the database.** -/
theorem reload_failure_clears : ∃ db db',
    Database.open' .bare .inMemory copyUnit [oneSource] = .ok db ∧
      db.query "p" = some [[.number 1]] ∧ db.query "q" = some [[.number 1]] ∧
      db.reloadFrom .bare [brokenSource] (.ok ()) = (.error (.source "unreadable"), db') ∧
      db'.query "p" = some [] ∧ db'.query "q" = some [] :=
  ⟨_, _, rfl, rfl, rfl, rfl, rfl, rfl⟩

end Mangle

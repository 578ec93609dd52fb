import Mangle.Db.Predicate
import Mangle.Driver.Compile
import Mangle.Proto.Command

/-!
# Db/Database — a program with its facts

`Database` over the in-memory store: the facts of the sources and of the API, and the relations
derived from them.  A change of facts clears the derived relations and runs the program again in a
store of its own, whose results are copied back.  In cached mode the derived relations are also
written to a file, under the hash of the program and the fingerprint of the sources.

A mutation leaves a database also when it fails, so it returns one next to its outcome.  Reading a
source and writing the cache always succeed here.  The cached file is read back as it was written;
a fingerprint of several sources is modelled by what is hashed.
-/

namespace Mangle

open Machinery

/-- Why an operation on a database fails. -/
inductive DbError where
  | compile (msg : String)
  | run (e : Error)
  deriving DecidableEq

/-- `none` as a panic. -/
def orPanicked {α : Type} : Option α → Except DbError α
  | some a => .ok a
  | none => .error (.run .panic)

/-- An `EdbSource`, as it reads at one moment. -/
structure EdbSource where
  relations : List String
  scanWithPredicates : String → List ColumnPredicate → List Tuple
  fingerprint : Option (List UInt8)

/-- A source with the default `scan_with_predicates`. -/
def EdbSource.ofScan (relations : List String) (scan : String → List Tuple)
    (fingerprint : Option (List UInt8)) : EdbSource where
  relations := relations
  scanWithPredicates rel preds := (scan rel).filter fun row => preds.all (·.eval row)
  fingerprint := fingerprint

/-! ## Loading -/

/-- Register a relation and insert rows. -/
def loadRows (rel : String) (rows : List Tuple) (s : MemStore) : MemStore :=
  rows.foldl (fun s t => (s.insert rel t).2) (s.createRelation rel)

/-- `load_edb_into_store_filtered`. -/
def loadEdbFiltered (sources : List EdbSource) (preds : String → List ColumnPredicate)
    (s : MemStore) : MemStore :=
  (sources.foldl (fun s src => src.relations.foldl (fun s rel =>
    loadRows rel (src.scanWithPredicates rel (preds rel)) s) s) s).mergeDeltas

/-- `load_edb_into_store`. -/
def loadEdb (sources : List EdbSource) (s : MemStore) : MemStore :=
  loadEdbFiltered sources (fun _ => []) s

/-- Copy the scanned rows of relations from one store to another. -/
def copyRelations (src : MemStore) (rels : List String) (s : MemStore) : Except DbError MemStore :=
  rels.foldlM (fun s (rel : String) => do pure (loadRows rel (← orPanicked (src.scan rel)) s)) s

/-- The store a program runs in, with the extensional facts of another. -/
def execStore (order : HashOrder) (prog : Program) (s : MemStore) : Except DbError MemStore := do
  pure (← copyRelations s (order.perm prog.extensional) .new).mergeDeltas

/-- The errors of a compilation. -/
def ofCompile {α : Type} : Except String α → Except DbError α
  | .ok a => .ok a
  | .error msg => .error (.compile msg)

/-- The errors of a run. -/
def ofRun {α : Type} : Result α → Except DbError α
  | .ok a => .ok a
  | .error e => .error (.run e)

/-- `mangle_driver::execute` on the extensional facts of a store. -/
def derive (en : Engine) (prog : Program) (s : MemStore) : Except DbError MemStore := do
  let exec ← execStore en.rt.order prog s
  ofRun (prog.execute en.rt en.cfg exec)

/-- `full_recompute`: the program, and the store with the derived relations. -/
def fullRecompute (en : Engine) (unit : List Rule) (s : MemStore) :
    Except DbError (Program × MemStore) := do
  let prog ← ofCompile (compileSource en unit)
  let out ← derive en prog s
  let s ← copyRelations out (en.rt.order.perm prog.intensional) s
  pure (prog, s.mergeDeltas)

/-- `clear` for a list of relations. -/
def clearAll (rels : List String) (s : MemStore) : MemStore :=
  rels.foldl (fun s (rel : String) => s.clear rel) s

/-! ## The cache -/

/-- `CacheMeta`. -/
structure CacheMeta where
  programHash : List UInt8
  edbFingerprint : List UInt8
  deriving DecidableEq

/-- `IdbSnapshot`. -/
abbrev IdbSnapshot := List (String × List Tuple)

/-- `IdbMode`, with the file of the cache. -/
inductive IdbMode where
  | inMemory
  | cached (file : Option (CacheMeta × IdbSnapshot))

/-- `compute_edb_fingerprint`. -/
def computeEdbFingerprint (sources : List EdbSource) : Option (List UInt8) :=
  (sources.mapM EdbSource.fingerprint).map List.flatten

/-- The snapshot that a program with this hash may use over sources with this fingerprint. -/
def IdbMode.hit (mode : IdbMode) (hash : List UInt8) (fp : Option (List UInt8)) :
    Option IdbSnapshot :=
  match mode, fp with
  | .cached (some (cacheMeta, snapshot)), some fp =>
      if cacheMeta = ⟨hash, fp⟩ then some snapshot else none
  | _, _ => none

/-- `extract_idb_snapshot`. -/
def extractIdbSnapshot (order : HashOrder) (idb : List String) (s : MemStore) :
    Except DbError IdbSnapshot := do
  let relations ← (order.perm idb).mapM fun (rel : String) => do
    pure (rel, ← orPanicked (s.scan rel))
  pure (relations.filter fun r => !r.2.isEmpty)

/-- Save the derived relations of a store, in cached mode and over sources with a fingerprint. -/
def IdbMode.save (mode : IdbMode) (order : HashOrder) (hash : List UInt8) (fp : Option (List UInt8))
    (idb : List String) (s : MemStore) : Except DbError IdbMode :=
  match mode, fp with
  | .cached _, some fp => do
      pure (.cached (some (⟨hash, fp⟩, ← extractIdbSnapshot order idb s)))
  | mode, _ => pure mode

/-! ## The database -/

/-- `Database`. -/
structure Database where
  unit : List Rule
  mode : IdbMode
  store : MemStore
  edbRelations : List String
  idbRelations : List String
  fingerprint : Option (List UInt8)

namespace Database

/-- The database of a cache hit: derived relations come from the snapshot. -/
def ofSnapshot (en : Engine) (mode : IdbMode) (unit : List Rule) (sources : List EdbSource)
    (snapshot : IdbSnapshot) : Except DbError Database := do
  let s := snapshot.foldl (fun s r => loadRows r.1 r.2 s) (loadEdb sources .new)
  let prog ← ofCompile (compileSource en unit)
  pure ⟨unit, mode, s.mergeDeltas, prog.extensional, prog.intensional,
    computeEdbFingerprint sources⟩

/-- The database of a store with the facts of the sources, computed and saved. -/
def compute (en : Engine) (mode : IdbMode) (unit : List Rule) (sources : List EdbSource)
    (s : MemStore) : Except DbError Database := do
  let (prog, s) ← fullRecompute en unit s
  let fp := computeEdbFingerprint sources
  let mode ← mode.save en.rt.order (en.hash unit) fp prog.intensional s
  pure ⟨unit, mode, s, prog.extensional, prog.intensional, fp⟩

/-- `Database::open`. -/
def open' (en : Engine) (mode : IdbMode) (unit : List Rule) (sources : List EdbSource) :
    Except DbError Database :=
  match mode.hit (en.hash unit) (computeEdbFingerprint sources) with
  | some snapshot => ofSnapshot en mode unit sources snapshot
  | none => compute en mode unit sources (loadEdb sources .new)

/-- `query`. -/
def query (db : Database) (rel : String) : Option (List Tuple) := db.store.scan rel

/-- `is_mutable_relation`. -/
def isMutableRelation (db : Database) (rel : String) : Bool := rel ∉ db.idbRelations

/-- The database with its derived relations cleared. -/
def clearIdb (en : Engine) (db : Database) : Database :=
  { db with store := clearAll (en.rt.order.perm db.idbRelations) db.store }

/-- What `recompute_idb` does after clearing. -/
def refill (en : Engine) (db : Database) : Except DbError Database := do
  let (prog, s) ← fullRecompute en db.unit db.store
  let mode ← db.mode.save en.rt.order (en.hash db.unit) db.fingerprint prog.intensional s
  pure { db with store := s, idbRelations := prog.intensional, mode := mode }

/-- `recompute_idb`: after a failure the derived relations are empty. -/
def recomputeIdb (en : Engine) (db : Database) : Except DbError Unit × Database :=
  match (db.clearIdb en).refill en with
  | .ok db => (.ok (), db)
  | .error e => (.error e, db.clearIdb en)

/-- `Batch::insert` and `Batch::retract`. -/
def write (db : Database) (op : MutationOp) : Except DbError Database :=
  match op.kind with
  | .insert => .ok { db with store := (db.store.insert op.relation op.tuple).2.mergeDeltas }
  | .retract => do
      let (_, s) ← orPanicked (db.store.retract op.relation op.tuple)
      pure { db with store := s }

/-- `insert` and `retract`: only a relation the program reads makes it run again. -/
def mutate (en : Engine) (db : Database) (op : MutationOp) : Except DbError Unit × Database :=
  match db.write op with
  | .error e => (.error e, db)
  | .ok db => if op.relation ∈ db.edbRelations then db.recomputeIdb en else (.ok (), db)

/-- The writes of a batch; after a failure the earlier ones stay. -/
def writeAll : Database → List MutationOp → Except DbError Unit × Database
  | db, [] => (.ok (), db)
  | db, op :: ops =>
      match db.write op with
      | .ok db => db.writeAll ops
      | .error e => (.error e, db)

/-- A batch and its `commit`. -/
def batch (en : Engine) (db : Database) (ops : List MutationOp) : Except DbError Unit × Database :=
  match db.writeAll ops with
  | (.ok (), db) => db.recomputeIdb en
  | (.error e, db) => (.error e, db)

end Database

end Mangle

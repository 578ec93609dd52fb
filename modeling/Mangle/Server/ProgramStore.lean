import Mangle.Db.FileSource
import Mangle.Machinery.OrdSet
import Mangle.Machinery.Table

/-!
# Server/ProgramStore — the replicated state machine

`ProgramStore`: named programs with their databases, the ledger of the facts that came and went by
commands, and the command interpreter `apply`.  A command that fails may have changed the store, so
`apply` returns one next to its outcome.

The ledger keeps sets in the order of `Value::cmp`, searched as one node of the source's trees is.
The parser is not modelled: a node brings what a source text stands for, and what its external
sources hold.  The mutation log is kept as the facts of its lines.
-/

namespace Mangle

open Machinery

/-! ## The ledger -/

/-- Sets of tuples by relation. -/
abbrev FactSets := Table String (List Tuple)

/-- The set of a relation, empty if there is none. -/
def FactSets.of (sets : FactSets) (rel : String) : List Tuple := (sets[rel]?).getD []

/-- Enter a tuple in the set of a relation. -/
def FactSets.add (sets : FactSets) (rel : String) (t : Tuple) : FactSets :=
  Std.ExtTreeMap.insert sets rel (OrdSet.insert Value.cmpList t (sets.of rel))

/-- `FactLedger`. -/
structure FactLedger where
  replicated : FactSets
  retracted : FactSets

namespace FactLedger

/-- `FactLedger::default`. -/
def empty : FactLedger := ⟨∅, ∅⟩

/-- `is_empty`. -/
def isEmpty (l : FactLedger) : Bool :=
  Std.ExtTreeMap.isEmpty l.replicated && Std.ExtTreeMap.isEmpty l.retracted

/-- `note_insert`: the retraction is found by equality. -/
def noteInsert (l : FactLedger) (rel : String) (t : Tuple) : FactLedger where
  replicated := l.replicated.add rel t
  retracted := Std.ExtTreeMap.modify l.retracted rel (·.filter (· ≠ t))

/-- `note_retract`: only what is not replicated is remembered. -/
def noteRetract (l : FactLedger) (rel : String) (t : Tuple) : FactLedger :=
  match OrdSet.remove Value.cmpList t (l.replicated.of rel) with
  | (true, set) => { l with replicated := Std.ExtTreeMap.insert l.replicated rel set }
  | (false, _) => { l with retracted := l.retracted.add rel t }

/-- The entry of an applied operation. -/
def note (l : FactLedger) (op : MutationOp) : FactLedger :=
  match op.kind with
  | .insert => l.noteInsert op.relation op.tuple
  | .retract => l.noteRetract op.relation op.tuple

end FactLedger

/-! ## The store -/

/-- Why a command fails. -/
inductive StoreError where
  | message (text : String)
  | db (e : DbError)
  deriving DecidableEq

/-- The errors of a database. -/
def ofDb {α : Type} : Except DbError α → Except StoreError α
  | .ok a => .ok a
  | .error e => .error (.db e)

/-- What a node brings: its engine, the parser, what its external sources hold for a program, and
whether writing to the mutation log fails. -/
structure Node where
  en : Engine
  parse : String → Except String (List Rule)
  sources : String → List EdbSource
  logError : Option String

/-- `MutationLog`, with the lines of its files. -/
structure MutationLog where
  persistPrograms : List String
  files : HashMap String (List (String × Tuple))

/-- `StoredProgram`. -/
structure StoredProgram where
  source : String
  predicates : List String
  db : Database
  ledger : FactLedger

/-- `ProgramStore`. -/
structure ProgramStore where
  programs : HashMap String StoredProgram
  idbCache : Option (HashMap String (CacheMeta × IdbSnapshot))
  mutationLog : Option MutationLog

/-- The line of an operation. -/
def MutationOp.line (op : MutationOp) : String × Tuple :=
  match op.kind with
  | .insert => (op.relation, op.tuple)
  | .retract => (retractPrefix ++ op.relation, op.tuple)

/-- `append_insert` and `append_retract`. -/
def MutationLog.append (node : Node) (log : MutationLog) (program : String) (op : MutationOp) :
    Except StoreError Unit × MutationLog :=
  if program ∉ log.persistPrograms then (.ok (), log) else
    match node.logError with
    | some msg => (.error (.message msg), log)
    | none => (.ok (), { log with files := log.files.modify program (· ++ [op.line]) })

namespace ProgramStore

/-- `ProgramStore::new`. -/
def new : ProgramStore := ⟨∅, none, none⟩

/-- The cache of a program. -/
def idbMode (st : ProgramStore) (name : String) : IdbMode :=
  match st.idbCache with
  | none => .inMemory
  | some files => .cached (files.lookup name)

/-- The store with what a database has saved. -/
def keepCache (st : ProgramStore) (name : String) (mode : IdbMode) : ProgramStore :=
  match st.idbCache, mode with
  | some files, .cached (some file) => { st with idbCache := some (files.insert name file) }
  | _, _ => st

/-- Change what is stored of a program. -/
def put (st : ProgramStore) (name : String) (prog : StoredProgram) : ProgramStore :=
  { st with programs := st.programs.insert name prog }.keepCache name prog.db.mode

/-- Open the database of a source. -/
def openProgram (node : Node) (st : ProgramStore) (name source : String) :
    Except StoreError Database := do
  let unit ← ofDb (ofCompile (node.parse source))
  ofDb (Database.open' node.en (st.idbMode name) unit (node.sources name))

/-- The sorted names of the relations of a database. -/
def sortedNames (order : HashOrder) (db : Database) : List String :=
  ((db.store.relationNames order).map Name.text).insertionSort (· ≤ ·)

/-- `load`. -/
def load (node : Node) (st : ProgramStore) (name source : String) :
    Except StoreError (List String) × ProgramStore :=
  match st.openProgram node name source with
  | .error e => (.error e, st)
  | .ok db =>
      let predicates := sortedNames node.en.rt.order db
      (.ok predicates, st.put name ⟨source, predicates, db, .empty⟩)

/-! ### Mutations -/

/-- The facts of the relations that operations touch. -/
def membership (db : Database) (ops : List MutationOp) :
    Except StoreError (String → List Tuple) :=
  if ops.all fun op => (db.query op.relation).isSome then .ok fun rel => (db.query rel).getD []
  else .error (.db (.run .panic))

/-- The operations that change the facts of a membership table, and the number of the others. -/
def classify (facts : String → List Tuple) : List MutationOp → List MutationOp × Nat
  | [] => ([], 0)
  | op :: ops =>
      let set := facts op.relation
      match op.kind with
      | .insert =>
          if op.tuple ∈ set then
            let (applied, skipped) := classify facts ops
            (applied, skipped + 1)
          else
            let (applied, skipped) :=
              classify (Function.update facts op.relation (op.tuple :: set)) ops
            (op :: applied, skipped)
      | .retract =>
          if op.tuple ∈ set then
            let (applied, skipped) :=
              classify (Function.update facts op.relation (set.filter (· ≠ op.tuple))) ops
            (op :: applied, skipped)
          else
            let (applied, skipped) := classify facts ops
            (applied, skipped + 1)

/-- Note applied operations in the ledger and the log; after a failure the earlier ones stay. -/
def record (node : Node) (program : String) :
    FactLedger → Option MutationLog → List MutationOp →
      Except StoreError Unit × FactLedger × Option MutationLog
  | ledger, log, [] => (.ok (), ledger, log)
  | ledger, none, op :: ops => record node program (ledger.note op) none ops
  | ledger, some log, op :: ops =>
      match log.append node program op with
      | (.ok (), log) => record node program (ledger.note op) (some log) ops
      | (.error e, log) => (.error e, ledger.note op, some log)

/-- Apply operations to a program that has changed them into its facts. -/
def commit (node : Node) (st : ProgramStore) (program : String) (prog : StoredProgram)
    (applied : List MutationOp) : Except StoreError Unit × ProgramStore :=
  match prog.db.batch node.en applied with
  | (.error e, db) => (.error (.db e), st.put program { prog with db := db })
  | (.ok (), db) =>
      let (r, ledger, log) := record node program prog.ledger st.mutationLog applied
      (r, { st.put program { prog with db := db, ledger := ledger } with mutationLog := log })

/-- What `apply_mutate` says of a relation with clauses. -/
def immutableMessage (rel : String) : String :=
  s!"relation '{rel}' is defined by the program source; only EDB relations can be mutated"

/-- What is said of a program that is not there. -/
def notFoundMessage (name : String) : String := s!"program '{name}' not found"

/-- `apply_mutate`. -/
def applyMutate (node : Node) (st : ProgramStore) (program : String) (ops : List MutationOp) :
    Except StoreError ApplyOutcome × ProgramStore :=
  match st.programs.lookup program with
  | none => (.error (.message (notFoundMessage program)), st)
  | some prog =>
      match ops.find? fun op => !prog.db.isMutableRelation op.relation with
      | some op => (.error (.message (immutableMessage op.relation)), st)
      | none =>
          match membership prog.db ops with
          | .error e => (.error e, st)
          | .ok facts =>
              let (applied, skipped) := classify facts ops
              if applied.isEmpty then (.ok (.mutated 0 skipped), st) else
                match commit node st program prog applied with
                | (.ok (), st) => (.ok (.mutated applied.length skipped), st)
                | (.error e, st) => (.error e, st)

/-- `apply`. -/
def apply (node : Node) (st : ProgramStore) :
    Command → Except StoreError ApplyOutcome × ProgramStore
  | .mutate program ops => st.applyMutate node program ops
  | .loadProgram name source =>
      match st.load node name source with
      | (.ok predicates, st) => (.ok (.loaded name predicates), st)
      | (.error e, st) => (.error e, st)
  | .deleteProgram name =>
      match st.programs.lookup name with
      | some _ => (.ok .deleted, { st with programs := st.programs.erase name })
      | none => (.error (.message (notFoundMessage name)), st)
  | .noop => (.ok .noop, st)

/-- Commands one after the other, on nodes as they are at that moment. -/
def run (st : ProgramStore) (steps : List (Node × Command)) : ProgramStore :=
  steps.foldl (fun st x => (st.apply x.1 x.2).2) st

/-! ### The canonical state -/

/-- `CanonicalProgramState`. -/
structure CanonicalProgram where
  source : String
  relations : FactSets
  ledger : FactLedger

/-- The facts of the relations of a database. -/
def relationSets (order : HashOrder) (db : Database) : FactSets :=
  (db.store.relationNames order).foldl (fun sets rel =>
    Std.ExtTreeMap.insert sets rel.text
      (OrdSet.ofList Value.cmpList ((db.query rel.text).getD []))) ∅

/-- `canonical_state`. -/
def canonicalState (order : HashOrder) (st : ProgramStore) : Table String CanonicalProgram :=
  (order.perm st.programs.entries).foldl (fun progs e =>
    Std.ExtTreeMap.insert progs e.1
      ⟨e.2.source, relationSets order e.2.db, e.2.ledger⟩) ∅

end ProgramStore

end Mangle

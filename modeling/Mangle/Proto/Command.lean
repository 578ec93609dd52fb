import Mangle.Proto.Value

/-!
# Proto/Command — replicated commands and snapshots

The commands of the replicated state machine, what applying one answers, the snapshot of a whole
state, and their conversions to and from the messages of the wire.  The type tag of a command
message is written and never read.
-/

namespace Mangle

open Machinery

/-! ## Commands -/

/-- `MutationOpKind`. -/
inductive MutationOpKind where
  | insert
  | retract
  deriving DecidableEq

/-- `MutationOp`. -/
structure MutationOp where
  kind : MutationOpKind
  relation : String
  tuple : Tuple
  deriving DecidableEq

/-- `Command`. -/
inductive Command where
  | mutate (program : String) (ops : List MutationOp)
  | loadProgram (name source : String)
  | deleteProgram (name : String)
  | noop
  deriving DecidableEq

/-- `ApplyOutcome`. -/
inductive ApplyOutcome where
  | mutated (numApplied numSkipped : Nat)
  | loaded (name : String) (predicates : List String)
  | deleted
  | noop
  deriving DecidableEq

/-- Every value of the tuple is well formed. -/
def Tuple.wellFormed (t : Tuple) : Bool := t.all Value.wellFormed

/-- The command carries well-formed values. -/
def Command.wellFormed : Command → Bool
  | mutate _ ops => ops.all fun op => op.tuple.wellFormed
  | loadProgram .. | deleteProgram _ | noop => true

/-- The message `MutationOp`; the kind is an open enumeration. -/
structure PMutationOp where
  op : Int
  relation : String
  tuple : List PValue

/-- `Command.Type`. -/
inductive CommandType where
  | unknown
  | mutate
  | loadProgram
  | deleteProgram
  | noop

/-- The payload of the message `Command`. -/
inductive CommandPayload where
  | mutate (program : String) (ops : List PMutationOp)
  | loadProgram (name source : String)
  | deleteProgram (name : String)
  | noop

/-- The message `Command`. -/
structure PCommand where
  type : CommandType
  payload : Option CommandPayload

section

variable (display : Value → String)

/-- The number of a kind in the open enumeration. -/
def MutationOpKind.number : MutationOpKind → Int
  | insert => 1
  | retract => 2

/-- `MutationOp::to_proto`. -/
def MutationOp.toProto (op : MutationOp) : PMutationOp where
  op := op.kind.number
  relation := op.relation
  tuple := op.tuple.map (Value.toProto display)

/-- `Command::to_proto`. -/
def Command.toProto : Command → PCommand
  | mutate program ops => ⟨.mutate, some (.mutate program (ops.map (MutationOp.toProto display)))⟩
  | loadProgram name source => ⟨.loadProgram, some (.loadProgram name source)⟩
  | deleteProgram name => ⟨.deleteProgram, some (.deleteProgram name)⟩
  | noop => ⟨.noop, some .noop⟩

end

/-- The kind a number of the open enumeration stands for. -/
def MutationOpKind.ofNumber (n : Int) : Except String MutationOpKind :=
  if n = 1 then .ok .insert
  else if n = 2 then .ok .retract
  else .error s!"unknown mutation op kind: {n}"

/-- `MutationOp::from_proto`. -/
def MutationOp.fromProto (op : PMutationOp) : Except String MutationOp := do
  let kind ← MutationOpKind.ofNumber op.op
  let tuple ← op.tuple.mapM PValue.fromProto
  pure ⟨kind, op.relation, tuple⟩

/-- `Command::from_proto`. -/
def Command.fromProto (cmd : PCommand) : Except String Command :=
  match cmd.payload with
  | none => .error
      "command payload is required (mutate, load_program, delete_program or noop)"
  | some (.mutate program ops) => do
      let ops ← ops.mapM MutationOp.fromProto
      pure (.mutate program ops)
  | some (.loadProgram name source) => .ok (.loadProgram name source)
  | some (.deleteProgram name) => .ok (.deleteProgram name)
  | some .noop => .ok .noop

/-! ## Snapshots -/

/-- `SnapshotLedgerEntry`. -/
structure SnapshotLedgerEntry where
  relation : String
  tuple : Tuple
  deriving DecidableEq

/-- `SnapshotLedger`. -/
structure SnapshotLedger where
  replicated : List SnapshotLedgerEntry
  retracted : List SnapshotLedgerEntry
  deriving DecidableEq

/-- `SnapshotProgram`. -/
structure SnapshotProgram where
  name : String
  source : String
  ledger : SnapshotLedger
  deriving DecidableEq

/-- `Snapshot`: the whole state in canonical form. -/
structure Snapshot where
  programs : List SnapshotProgram
  deriving DecidableEq

/-- The message `SnapshotLedgerEntry`. -/
structure PLedgerEntry where
  relation : String
  tuple : List PValue

/-- The message `SnapshotLedger`. -/
structure PLedger where
  replicated : List PLedgerEntry
  retracted : List PLedgerEntry

/-- The message `SnapshotProgram`. -/
structure PSnapshotProgram where
  name : String
  source : String
  ledger : Option PLedger

/-- The message `Snapshot`. -/
structure PSnapshot where
  programs : List PSnapshotProgram

/-- Every value of the ledger is well formed. -/
def SnapshotLedger.wellFormed (l : SnapshotLedger) : Bool :=
  (l.replicated ++ l.retracted).all fun e => e.tuple.wellFormed

/-- Every value of the snapshot is well formed. -/
def Snapshot.wellFormed (s : Snapshot) : Bool := s.programs.all fun p => p.ledger.wellFormed

section

variable (display : Value → String)

/-- The message of a ledger entry. -/
def SnapshotLedgerEntry.toProto (e : SnapshotLedgerEntry) : PLedgerEntry :=
  ⟨e.relation, e.tuple.map (Value.toProto display)⟩

/-- `ledger_to_proto`. -/
def SnapshotLedger.toProto (l : SnapshotLedger) : PLedger :=
  ⟨l.replicated.map (SnapshotLedgerEntry.toProto display),
    l.retracted.map (SnapshotLedgerEntry.toProto display)⟩

/-- The message of a program. -/
def SnapshotProgram.toProto (p : SnapshotProgram) : PSnapshotProgram :=
  ⟨p.name, p.source, some (p.ledger.toProto display)⟩

/-- `Snapshot::to_proto`. -/
def Snapshot.toProto (s : Snapshot) : PSnapshot :=
  ⟨s.programs.map (SnapshotProgram.toProto display)⟩

end

/-- The ledger entry of a message. -/
def SnapshotLedgerEntry.fromProto (e : PLedgerEntry) : Except String SnapshotLedgerEntry := do
  let tuple ← e.tuple.mapM PValue.fromProto
  pure ⟨e.relation, tuple⟩

/-- `ledger_from_proto`. -/
def SnapshotLedger.fromProto (l : PLedger) : Except String SnapshotLedger := do
  let replicated ← l.replicated.mapM SnapshotLedgerEntry.fromProto
  let retracted ← l.retracted.mapM SnapshotLedgerEntry.fromProto
  pure ⟨replicated, retracted⟩

/-- The program of a message; an unset ledger is empty. -/
def SnapshotProgram.fromProto (p : PSnapshotProgram) : Except String SnapshotProgram :=
  match p.ledger with
  | some l => do
      let ledger ← SnapshotLedger.fromProto l
      pure ⟨p.name, p.source, ledger⟩
  | none => .ok ⟨p.name, p.source, ⟨[], []⟩⟩

/-- `Snapshot::from_proto`. -/
def Snapshot.fromProto (s : PSnapshot) : Except String Snapshot := do
  let programs ← s.programs.mapM SnapshotProgram.fromProto
  pure ⟨programs⟩

/-! ## Round trips -/

section

variable (display : Value → String)

theorem Tuple.fromProto_toProto {t : Tuple} (h : t.wellFormed = true) :
    (t.map (Value.toProto display)).mapM PValue.fromProto = .ok t :=
  mapM_map_eq_ok fun v hv => Mangle.fromProto_toProto display v (List.all_eq_true.mp h v hv)

theorem MutationOp.fromProto_toProto {op : MutationOp} (h : op.tuple.wellFormed = true) :
    fromProto (op.toProto display) = .ok op := by
  have hkind : MutationOpKind.ofNumber op.kind.number = .ok op.kind := by cases op.kind <;> rfl
  have htuple := Tuple.fromProto_toProto display h
  simp only [fromProto, toProto, hkind, htuple, ok_bind]
  rfl

/-- **A command with well-formed values comes back from the wire.** -/
theorem Command.fromProto_toProto {cmd : Command} (h : cmd.wellFormed = true) :
    fromProto (cmd.toProto display) = .ok cmd := by
  cases cmd with
  | mutate program ops =>
    have hops : (ops.map (MutationOp.toProto display)).mapM MutationOp.fromProto = .ok ops :=
      mapM_map_eq_ok fun op hop =>
        MutationOp.fromProto_toProto display (List.all_eq_true.mp h op hop)
    simp only [toProto, fromProto, hops, ok_bind]
    rfl
  | loadProgram | deleteProgram | noop => rfl

theorem MutationOp.wellFormed_of_fromProto {p : PMutationOp} {op : MutationOp}
    (h : fromProto p = .ok op) : op.tuple.wellFormed = true := by
  obtain ⟨kind, -, h⟩ := bind_eq_ok.mp h
  obtain ⟨tuple, htuple, rfl⟩ := bind_eq_pure.mp h
  refine List.all_eq_true.mpr fun v hv => ?_
  obtain ⟨p, -, hp⟩ := exists_of_mapM htuple hv
  exact Mangle.wellFormed_of_fromProto p v hp

/-- Only commands with well-formed values come from the wire. -/
theorem Command.wellFormed_of_fromProto {p : PCommand} {cmd : Command}
    (h : fromProto p = .ok cmd) : cmd.wellFormed = true := by
  unfold fromProto at h
  split at h
  · cases h
  · obtain ⟨ops, hops, rfl⟩ := bind_eq_pure.mp h
    refine List.all_eq_true.mpr fun op hop => ?_
    obtain ⟨p, -, hp⟩ := exists_of_mapM hops hop
    exact MutationOp.wellFormed_of_fromProto hp
  all_goals
    obtain rfl := Except.ok.inj h
    rfl

/-- What is left of a command sent over the wire `n` times in a row. -/
def Command.relay : Nat → Command → Except String Command
  | 0, cmd => .ok cmd
  | n + 1, cmd => do
      let cmd ← fromProto (cmd.toProto display)
      relay n cmd

/-- **Values are stable over the wire**: a well-formed value or command comes back as it was, and so
does whatever the decoder once accepted, however often a command is passed on. -/
theorem wire_stable :
    (∀ v : Value, v.wellFormed = true → (v.toProto display).fromProto = .ok v) ∧
    (∀ cmd : Command, cmd.wellFormed = true → Command.fromProto (cmd.toProto display) = .ok cmd) ∧
    (∀ p v, PValue.fromProto p = .ok v → (v.toProto display).fromProto = .ok v) ∧
    ∀ p cmd, Command.fromProto p = .ok cmd → ∀ n, cmd.relay display n = .ok cmd := by
  refine ⟨fromProto_toProto display, fun _ => Command.fromProto_toProto display, fun p v h =>
    fromProto_toProto display v (wellFormed_of_fromProto p v h), fun p cmd h n => ?_⟩
  induction n with
  | zero => rfl
  | succ n ih =>
    have hback := Command.fromProto_toProto display (Command.wellFormed_of_fromProto h)
    rw [Command.relay, hback, ok_bind, ih]

theorem SnapshotLedgerEntry.fromProto_toProto {e : SnapshotLedgerEntry}
    (h : e.tuple.wellFormed = true) : fromProto (e.toProto display) = .ok e := by
  have htuple := Tuple.fromProto_toProto display h
  simp only [fromProto, toProto, htuple, ok_bind]
  rfl

theorem SnapshotLedger.fromProto_toProto {l : SnapshotLedger} (h : l.wellFormed = true) :
    fromProto (l.toProto display) = .ok l := by
  simp only [wellFormed, List.all_append, Bool.and_eq_true, List.all_eq_true] at h
  have hentries {es : List SnapshotLedgerEntry} (hes : ∀ e ∈ es, e.tuple.wellFormed = true) :
      (es.map (SnapshotLedgerEntry.toProto display)).mapM SnapshotLedgerEntry.fromProto = .ok es :=
    mapM_map_eq_ok fun e he => SnapshotLedgerEntry.fromProto_toProto display (hes e he)
  simp only [fromProto, toProto, hentries h.1, hentries h.2, ok_bind]
  rfl

theorem SnapshotProgram.fromProto_toProto {p : SnapshotProgram} (h : p.ledger.wellFormed = true) :
    fromProto (p.toProto display) = .ok p := by
  have hledger := SnapshotLedger.fromProto_toProto display h
  simp only [fromProto, toProto, hledger, ok_bind]
  rfl

/-- **A snapshot with well-formed values comes back from the wire.** -/
theorem Snapshot.fromProto_toProto {s : Snapshot} (h : s.wellFormed = true) :
    fromProto (s.toProto display) = .ok s := by
  have hprograms : (s.programs.map (SnapshotProgram.toProto display)).mapM
      SnapshotProgram.fromProto = .ok s.programs :=
    mapM_map_eq_ok fun p hp =>
      SnapshotProgram.fromProto_toProto display (List.all_eq_true.mp h p hp)
  simp only [fromProto, toProto, hprograms, ok_bind]
  rfl

end

end Mangle

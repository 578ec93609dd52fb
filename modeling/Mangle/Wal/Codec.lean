import Mathlib.Tactic.Linarith
import Mangle.Machinery.ByteReader
import Mangle.Proto.Command

/-!
# Wal/Codec — the records of the log

The types of the consensus library that the log stores and the network carries, the hand-written
encodings of `codec.rs` and the codec of snapshot metadata in `fsm.rs`.  The protobuf library is a
pair of functions (`Protobuf`); a result that needs it to read back what it wrote says so for the
message at hand.  The consensus library is its constructor of memberships (`Openraft`).

A decoder that allocates by a number it has read takes the bytes that can be allocated at once; its
callers outside this module pass `none`, no bound.

* `codec_faithful` — what was encoded is decoded to the same, no other record begins or ends like
  one, and a decoder crashes by the number of configurations only;
* `codec_unfaithful` — the snapshot id is lost, and eight bytes bring the process down.
-/

namespace Mangle

open Machinery Std List

/-! ## Types -/

/-- `CommittedLeaderId`. -/
structure LeaderId where
  term : UInt64
  nodeId : UInt64
  deriving DecidableEq

/-- `LogId`. -/
structure LogId where
  leaderId : LeaderId
  index : UInt64
  deriving DecidableEq

/-- `Vote`. -/
structure Vote where
  leaderId : LeaderId
  committed : Bool
  deriving DecidableEq

/-- The voters of a configuration. -/
abbrev NodeSet := ExtTreeSet UInt64

/-- The addresses of the nodes. -/
abbrev NodeMap := ExtTreeMap UInt64 String

/-- `Membership`: every voter has a node, which `Membership::new` sees to. -/
structure Membership where
  configs : List NodeSet
  nodes : NodeMap
  voters : ∀ config ∈ configs, ∀ id ∈ config, id ∈ nodes
  deriving DecidableEq

/-- `StoredMembership`. -/
structure StoredMembership where
  logId : Option LogId
  membership : Membership
  deriving DecidableEq

/-- `EntryPayload`. -/
inductive EntryPayload where
  | blank
  | normal (cmd : Command)
  | membership (m : Membership)
  deriving DecidableEq

/-- A log entry. -/
structure Entry where
  logId : LogId
  payload : EntryPayload
  deriving DecidableEq

/-- `SnapshotMeta`. -/
structure SnapshotMeta where
  snapshotId : String
  lastLogId : Option LogId
  lastMembership : StoredMembership
  deriving DecidableEq

/-- The protobuf library for one message type. -/
structure Protobuf (α : Type) where
  encodeToVec : α → List UInt8
  decodeFromSlice : List UInt8 → Except String α

/-- The library reads back the message it wrote. -/
def Protobuf.RoundTrips {α : Type} (pb : Protobuf α) (m : α) : Prop :=
  pb.decodeFromSlice (pb.encodeToVec m) = .ok m

/-- A protobuf library for one message and its bytes. -/
def Protobuf.only {α : Type} (m : α) (bytes : List UInt8) : Protobuf α where
  encodeToVec _ := bytes
  decodeFromSlice slice := if slice = bytes then .ok m else .error "unexpected end of buffer"

theorem Protobuf.roundTrips_only {α : Type} (m : α) (bytes : List UInt8) :
    (Protobuf.only m bytes).RoundTrips m := if_pos rfl

theorem Membership.ext {m m' : Membership} (hc : m.configs = m'.configs) (hn : m.nodes = m'.nodes) :
    m = m' := by
  obtain ⟨c, n, h⟩ := m
  obtain ⟨c', n', h'⟩ := m'
  cases hc
  cases hn
  rfl

/-- Each id that has no node gets the default one. -/
def addNodes (nodes : NodeMap) (ids : List UInt64) : NodeMap :=
  ids.foldl (fun nodes id => nodes.insertIfNew id "") nodes

theorem mem_addNodes {nodes : NodeMap} {ids : List UInt64} {k : UInt64} :
    k ∈ addNodes nodes ids ↔ k ∈ nodes ∨ k ∈ ids := by
  induction ids generalizing nodes with
  | nil => simp [addNodes]
  | cons id ids ih =>
    have hstep : addNodes nodes (id :: ids) = addNodes (nodes.insertIfNew id "") ids := rfl
    rw [hstep, ih, ExtTreeMap.mem_insertIfNew, Std.compare_eq_iff_eq, mem_cons,
      eq_comm (a := id)]
    tauto

theorem addNodes_of_mem {nodes : NodeMap} {ids : List UInt64} (h : ∀ id ∈ ids, id ∈ nodes) :
    addNodes nodes ids = nodes := by
  induction ids with
  | nil => rfl
  | cons id ids ih =>
    have hid : nodes.insertIfNew id "" = nodes :=
      ExtTreeMap.ext_getElem? fun k => by simp [ExtTreeMap.getElem?_insertIfNew, h id]
    have hstep : addNodes nodes (id :: ids) = addNodes (nodes.insertIfNew id "") ids := rfl
    rw [hstep, hid]
    exact ih fun k hk => h k (mem_cons_of_mem _ hk)

/-- The consensus library's `Membership::new`, which takes back what it was made of. -/
structure Openraft where
  membershipNew : List NodeSet → NodeMap → Membership
  membershipNew_self : ∀ m : Membership, membershipNew m.configs m.nodes = m

/-- A constructor that gives a voter without a node the default one. -/
def Openraft.filling : Openraft where
  membershipNew configs nodes :=
    { configs
      nodes := addNodes nodes (configs.flatMap ExtTreeSet.toList)
      voters := fun config hc _ hid =>
        mem_addNodes.mpr (.inr (mem_flatMap.mpr ⟨config, hc, ExtTreeSet.mem_toList.mpr hid⟩)) }
  membershipNew_self m := by
    refine Membership.ext rfl (addNodes_of_mem fun id hid => ?_)
    obtain ⟨config, hc, hid⟩ := mem_flatMap.mp hid
    exact m.voters config hc id (ExtTreeSet.mem_toList.mp hid)

/-! ## Encodings -/

/-- `encode_committed_leader_id`. -/
def encodeCommittedLeaderId (id : LeaderId) : List UInt8 := putU64 id.term ++ putU64 id.nodeId

/-- The reader of a leader id. -/
def readLeaderId : ReadM LeaderId := do
  let term ← ReadM.u64
  let nodeId ← ReadM.u64
  pure ⟨term, nodeId⟩

/-- `decode_committed_leader_id`. -/
def decodeCommittedLeaderId (buf : List UInt8) : Except Fault LeaderId :=
  readLeaderId.record.run buf

/-- `encode_log_id`. -/
def encodeLogId (id : LogId) : List UInt8 := encodeCommittedLeaderId id.leaderId ++ putU64 id.index

/-- `decode_log_id`. -/
def decodeLogId (buf : List UInt8) : Except Fault LogId :=
  if buf.length < 24 then .error (.error s!"truncated log id: {buf.length} bytes") else do
    let leaderId ← decodeCommittedLeaderId (buf.take 16)
    let index ← ReadM.u64.record.run (buf.drop 16)
    pure ⟨leaderId, index⟩

/-- The reader of a log id whose parts follow each other. -/
def readLogId : ReadM LogId := do
  let leaderId ← readLeaderId
  let index ← ReadM.u64
  pure ⟨leaderId, index⟩

/-- `encode_vote`. -/
def encodeVote (v : Vote) : List UInt8 :=
  encodeCommittedLeaderId v.leaderId ++ putBool v.committed

/-- The reader of a vote. -/
def readVote : ReadM Vote := do
  let leaderId ← readLeaderId
  let committed ← ReadM.bool
  pure ⟨leaderId, committed⟩

/-- `decode_vote`. -/
def decodeVote (buf : List UInt8) : Except Fault Vote := readVote.record.run buf

/-- The encoding of a configuration. -/
def putConfig (config : NodeSet) : List UInt8 := putList putU64 config.toList

/-- The encoding of a node. -/
def putNode (node : UInt64 × String) : List UInt8 := putU64 node.1 ++ putStr node.2

/-- `encode_membership`. -/
def encodeMembership (m : Membership) : List UInt8 :=
  putList putConfig m.configs ++ putList putNode m.nodes.toList

/-- The reader of a configuration. -/
def readConfig : ReadM NodeSet := do
  let ids ← ReadM.list ReadM.u64
  pure (ExtTreeSet.ofList ids)

/-- The reader of a node. -/
def readNode : ReadM (UInt64 × String) := do
  let id ← ReadM.u64
  let addr ← ReadM.str
  pure (id, addr)

section

variable (raft : Openraft) (memory : Option Nat)

/-- The reader of a membership; a configuration takes 24 bytes of its vector. -/
def readMembership : ReadM Membership := do
  let configs ← ReadM.vec memory 24 readConfig
  let nodes ← ReadM.list readNode
  pure (raft.membershipNew configs (ExtTreeMap.ofList nodes))

/-- `decode_membership`. -/
def decodeMembership (buf : List UInt8) : Except Fault Membership :=
  (readMembership raft memory).record.run buf

end

/-- The log id a record may start with. -/
def putLogId? : Option LogId → List UInt8
  | some id => putBool true ++ encodeLogId id
  | none => putBool false

/-- The reader of a log id that may be missing. -/
def readLogId? : ReadM (Option LogId) := do
  let hasLogId ← ReadM.bool
  if hasLogId then do
    let id ← readLogId
    pure (some id)
  else pure none

/-- `encode_stored_membership`. -/
def encodeStoredMembership (m : StoredMembership) : List UInt8 :=
  putLogId? m.logId ++ encodeMembership m.membership

/-- `decode_stored_membership`: the membership is read from a slice of its own. -/
def decodeStoredMembership (raft : Openraft) (memory : Option Nat) (buf : List UInt8) :
    Except Fault StoredMembership := do
  let header ← readLogId? ⟨buf, 0⟩
  let membership ← decodeMembership raft memory (buf.drop header.2.pos)
  pure ⟨header.1, membership⟩

section

variable (display : Value → String) (pb : Protobuf PCommand)

/-- The payload of an entry after its tag. -/
def putPayload : EntryPayload → List UInt8
  | .blank => [0]
  | .normal cmd => 1 :: putBytes (pb.encodeToVec (cmd.toProto display))
  | .membership m => 2 :: putBytes (encodeMembership m)

/-- `encode_entry`. -/
def encodeEntry (entry : Entry) : List UInt8 :=
  encodeLogId entry.logId ++ putPayload display pb entry.payload

/-- The command of its protobuf bytes. -/
def decodeCommand (bytes : List UInt8) : Except String Command := do
  let cmd ← pb.decodeFromSlice bytes
  Command.fromProto cmd

variable (raft : Openraft) (memory : Option Nat)

/-- The reader of a payload, by its tag. -/
def readPayload (tag : UInt8) : ReadM EntryPayload :=
  if tag = 0 then pure .blank
  else if tag = 1 then do
    let cmd ← ReadM.framed fun bytes => (decodeCommand pb bytes).mapError .error
    pure (.normal cmd)
  else if tag = 2 then do
    let m ← ReadM.framed (decodeMembership raft memory)
    pure (.membership m)
  else ReadM.fail s!"unknown entry payload tag {tag}"

/-- The reader of an entry. -/
def readEntry : ReadM Entry := do
  let logId ← readLogId
  let tag ← ReadM.byte
  let payload ← readPayload pb raft memory tag
  pure ⟨logId, payload⟩

/-- `decode_entry`. -/
def decodeEntry (buf : List UInt8) : Except Fault Entry := (readEntry pb raft memory).record.run buf

/-- `encode_meta`; the snapshot id is not kept. -/
def encodeMeta (info : SnapshotMeta) : List UInt8 :=
  (match info.lastLogId with
    | some id => 1 :: encodeLogId id
    | none => [0]) ++ encodeStoredMembership info.lastMembership

/-- `decode_meta`. -/
def decodeMeta : List UInt8 → Except Fault SnapshotMeta
  | [] => .error (.error "empty snapshot meta")
  | tag :: rest =>
      if tag = 1 then
        if rest.length < 24 then .error (.error "truncated snapshot meta log id") else do
          let lastLogId ← decodeLogId (rest.take 24)
          let lastMembership ← decodeStoredMembership raft memory (rest.drop 24)
          pure ⟨"", some lastLogId, lastMembership⟩
      else do
        let lastMembership ← decodeStoredMembership raft memory rest
        pure ⟨"", none, lastMembership⟩

end

/-- The error a caller of a decoder handles. -/
def answered {α : Type} (r : Except Fault α) : Except String α :=
  r.mapError fun
    | .error msg => msg
    | .crash => "capacity overflow"

@[simp] theorem answered_ok {α : Type} (a : α) : answered (.ok a) = .ok a := rfl

/-! ## Round trips -/

theorem reads_leaderId (id : LeaderId) : Reads readLeaderId (encodeCommittedLeaderId id) id :=
  (reads_u64 id.term).bind ((reads_u64 id.nodeId).last rfl)

theorem reads_logId (id : LogId) : Reads readLogId (encodeLogId id) id :=
  (reads_leaderId id.leaderId).bind ((reads_u64 id.index).last rfl)

@[simp] theorem length_encodeCommittedLeaderId (id : LeaderId) :
    (encodeCommittedLeaderId id).length = 16 := by simp [encodeCommittedLeaderId]

@[simp] theorem length_encodeLogId (id : LogId) : (encodeLogId id).length = 24 := by
  simp [encodeLogId]

/-- **A log id is read back.** -/
@[simp] theorem decodeLogId_encodeLogId (id : LogId) : decodeLogId (encodeLogId id) = .ok id := by
  have hleader : decodeCommittedLeaderId (encodeCommittedLeaderId id.leaderId) = .ok id.leaderId :=
    (reads_leaderId id.leaderId).record (by simp)
  have hindex : ReadM.u64.record.run (putU64 id.index) = .ok id.index :=
    (reads_u64 id.index).record (by simp)
  have htake : (encodeLogId id).take 16 = encodeCommittedLeaderId id.leaderId :=
    take_left' (length_encodeCommittedLeaderId _)
  have hdrop : (encodeLogId id).drop 16 = putU64 id.index :=
    drop_left' (length_encodeCommittedLeaderId _)
  rw [decodeLogId, if_neg (by simp), htake, hdrop, hleader, hindex]
  rfl

theorem reads_vote (v : Vote) : Reads readVote (encodeVote v) v :=
  (reads_leaderId v.leaderId).bind ((reads_bool v.committed).last rfl)

/-- **A vote is read back.** -/
@[simp] theorem decodeVote_encodeVote (v : Vote) : decodeVote (encodeVote v) = .ok v :=
  (reads_vote v).record (by simp [encodeVote, putBool])

theorem reads_config (config : NodeSet) : Reads readConfig (putConfig config) config := by
  have hback : ExtTreeSet.ofList config.toList = config :=
    ExtTreeSet.ext_mem fun k => by simp [ExtTreeSet.mem_ofList]
  exact (reads_list (fun id _ => reads_u64 id) (by simp)).last hback

theorem reads_node (node : UInt64 × String) : Reads readNode (putNode node) node :=
  (reads_u64 node.1).bind ((reads_str node.2).last rfl)

theorem ofList_toList (nodes : NodeMap) : ExtTreeMap.ofList nodes.toList = nodes := by
  refine ExtTreeMap.ext_getElem? fun k => ?_
  rcases h : nodes[k]? with _ | addr
  · have hk : k ∉ nodes := by simp only [ExtTreeMap.mem_iff_isSome_getElem?, h]; decide
    exact ExtTreeMap.getElem?_ofList_of_contains_eq_false (by simpa using hk)
  · exact ExtTreeMap.getElem?_ofList_of_mem compare_self ExtTreeMap.distinct_keys_toList
      (ExtTreeMap.mem_toList_iff_getElem?_eq_some.mpr h)

section

variable {raft : Openraft} {memory : Option Nat}

theorem granted_none (n : Nat) : Granted none n := nofun

theorem reads_membership {m : Membership} (h : Granted memory (3 * (encodeMembership m).length)) :
    Reads (readMembership raft memory) (encodeMembership m) m := by
  have hback : raft.membershipNew m.configs (ExtTreeMap.ofList m.nodes.toList) = m := by
    rw [ofList_toList, raft.membershipNew_self]
  have hlen : ∀ config, 8 ≤ (putConfig config).length := by simp [putConfig, putList, putLen]
  have hconfigs : 8 * m.configs.length ≤ (encodeMembership m).length := by
    have := length_le_flatMap hlen m.configs
    simp only [encodeMembership, putList, length_append]
    omega
  have hvec := reads_vec (fun config (_ : config ∈ m.configs) => reads_config config)
    (fun config => Nat.le_trans (by decide) (hlen config))
    (h.mono (n := 24 * m.configs.length) (by omega))
  have hnodes := reads_list (fun node (_ : node ∈ m.nodes.toList) => reads_node node)
    (fun node => by simp [putNode]; omega)
  exact hvec.bind (hnodes.last hback)

/-- **A membership is read back.** -/
theorem decodeMembership_encodeMembership {m : Membership}
    (h : (encodeMembership m).length < 2 ^ 64)
    (hg : Granted memory (3 * (encodeMembership m).length)) :
    decodeMembership raft memory (encodeMembership m) = .ok m := (reads_membership hg).record h

theorem reads_logId? (id : Option LogId) : Reads readLogId? (putLogId? id) id := by
  cases id with
  | none => exact (reads_bool false).bind (Reads.pure none)
  | some id => exact (reads_bool true).bind ((reads_logId id).last rfl)

/-- **A stored membership is read back.** -/
theorem decodeStoredMembership_encode {m : StoredMembership}
    (h : (encodeStoredMembership m).length < 2 ^ 64)
    (hg : Granted memory (3 * (encodeStoredMembership m).length)) :
    decodeStoredMembership raft memory (encodeStoredMembership m) = .ok m := by
  have hread : readLogId? ⟨encodeStoredMembership m, 0⟩ =
      .ok (m.logId, ⟨encodeStoredMembership m, (putLogId? m.logId).length⟩) := by
    simpa [encodeStoredMembership] using reads_logId? m.logId [] (encodeMembership m.membership)
      (by simpa [encodeStoredMembership] using h)
  have hrest : (encodeStoredMembership m).drop (putLogId? m.logId).length =
      encodeMembership m.membership := drop_left
  have hlen : (encodeMembership m.membership).length ≤ (encodeStoredMembership m).length := by
    simp [encodeStoredMembership]
  rw [decodeStoredMembership, hread, ok_bind, hrest,
    decodeMembership_encodeMembership (by omega) (hg.mono (by omega))]
  rfl

variable {display : Value → String} {pb : Protobuf PCommand}

variable (display pb) in
/-- The payload has values the wire carries, and the protobuf library reads back its command. -/
def EntryPayload.Carried : EntryPayload → Prop
  | normal cmd => cmd.wellFormed = true ∧ pb.RoundTrips (cmd.toProto display)
  | blank | membership _ => True

theorem decodeCommand_encode {cmd : Command} (h : cmd.wellFormed = true)
    (hpb : pb.RoundTrips (cmd.toProto display)) :
    decodeCommand pb (pb.encodeToVec (cmd.toProto display)) = .ok cmd := by
  rw [decodeCommand, hpb, ok_bind, Command.fromProto_toProto display h]

theorem reads_entry {entry : Entry} (h : entry.payload.Carried display pb)
    (hlen : (encodeEntry display pb entry).length < 2 ^ 64)
    (hg : Granted memory (3 * (encodeEntry display pb entry).length)) :
    Reads (readEntry pb raft memory) (encodeEntry display pb entry) entry := by
  obtain ⟨id, payload⟩ := entry
  refine (reads_logId id).bind ?_
  cases payload with
  | blank => exact (reads_byte 0).bind (Reads.pure _)
  | normal cmd =>
    have hdecode : (decodeCommand pb (pb.encodeToVec (cmd.toProto display))).mapError Fault.error =
        .ok cmd := by rw [decodeCommand_encode h.1 h.2]; rfl
    have hcmd := (@reads_framed _ _ _ (fun bytes => (decodeCommand pb bytes).mapError .error)
      hdecode).last (f := EntryPayload.normal) rfl
    exact (reads_byte 1).bind (hcmd.last rfl)
  | membership m =>
    have hm : (encodeMembership m).length ≤
        (encodeEntry display pb ⟨id, .membership m⟩).length := by
      simp only [encodeEntry, putPayload, putBytes, length_cons, length_append]
      omega
    have hback : decodeMembership raft memory (encodeMembership m) = .ok m :=
      decodeMembership_encodeMembership (Nat.lt_of_le_of_lt hm hlen) (hg.mono (by omega))
    exact (reads_byte 2).bind
      (((reads_framed hback).last (f := EntryPayload.membership) rfl).last rfl)

/-- **An entry is read back.** -/
theorem decodeEntry_encodeEntry {entry : Entry} (h : entry.payload.Carried display pb)
    (hlen : (encodeEntry display pb entry).length < 2 ^ 64)
    (hg : Granted memory (3 * (encodeEntry display pb entry).length)) :
    decodeEntry pb raft memory (encodeEntry display pb entry) = .ok entry :=
  (reads_entry h hlen hg).record hlen

variable {info : SnapshotMeta}

theorem length_encodeMeta (info : SnapshotMeta) :
    (encodeStoredMembership info.lastMembership).length ≤ (encodeMeta info).length := by
  simp [encodeMeta]

/-- **The metadata are read back**, but for the snapshot id. -/
theorem decodeMeta_encodeMeta (h : (encodeMeta info).length < 2 ^ 64)
    (hg : Granted memory (3 * (encodeMeta info).length)) :
    decodeMeta raft memory (encodeMeta info) = .ok { info with snapshotId := "" } := by
  have hlen := length_encodeMeta info
  have hback : decodeStoredMembership raft memory _ = .ok info.lastMembership :=
    decodeStoredMembership_encode (Nat.lt_of_le_of_lt hlen h) (hg.mono (by omega))
  obtain ⟨snapshotId, lastLogId, lastMembership⟩ := info
  cases lastLogId with
  | none =>
    simp only [encodeMeta, cons_append, nil_append, decodeMeta, hback, ok_bind]
    rfl
  | some id =>
    have htake : (encodeLogId id ++ encodeStoredMembership lastMembership).take 24 =
        encodeLogId id := take_left' (length_encodeLogId id)
    have hdrop : (encodeLogId id ++ encodeStoredMembership lastMembership).drop 24 =
        encodeStoredMembership lastMembership := drop_left' (length_encodeLogId id)
    have hlong : ¬ (encodeLogId id ++ encodeStoredMembership lastMembership).length < 24 := by simp
    simp only [encodeMeta, cons_append, decodeMeta, if_true, if_neg hlong, htake, hdrop,
      decodeLogId_encodeLogId, hback, ok_bind]
    rfl

/-! ## Cut and extended records -/

theorem local_leaderId : Local readLeaderId :=
  local_u64.bind fun _ => local_u64.bind fun _ => .pure _

theorem local_logId : Local readLogId :=
  local_leaderId.bind fun _ => local_u64.bind fun _ => .pure _

theorem local_membership : Local (readMembership raft memory) :=
  (local_vec ((local_list local_u64).bind fun _ => .pure _) 24).bind fun _ =>
    (local_list (local_u64.bind fun _ => local_str.bind fun _ => .pure _)).bind fun _ => .pure _

theorem local_logId? : Local readLogId? := by
  refine local_bool.bind fun b => ?_
  cases b with
  | false => exact .pure _
  | true => exact local_logId.bind fun _ => .pure _

theorem local_payload (tag : UInt8) : Local (readPayload pb raft memory tag) := by
  unfold readPayload
  split
  · exact .pure _
  split
  · exact (local_framed _).bind fun _ => .pure _
  split
  · exact (local_framed _).bind fun _ => .pure _
  · exact local_fail _

theorem delimits_vote (v : Vote) : Delimits decodeVote (encodeVote v) :=
  (reads_vote v).delimits (local_leaderId.bind fun _ => local_bool.bind fun _ => .pure _)
    (by simp [encodeVote, putBool])

theorem delimits_logId (id : LogId) : Delimits decodeLogId (encodeLogId id) := by
  intro buf hlen hbuf hne
  rw [decodeLogId]
  split
  · exact ⟨_, rfl⟩
  next hlong =>
  obtain hpre | ⟨suf, rfl⟩ := hbuf
  · refine absurd (hpre.eq_of_length ?_) hne
    have := hpre.length_le
    rw [length_encodeLogId] at this ⊢
    omega
  · have hsuf : suf ≠ [] := by
      rintro rfl
      simp at hne
    have htake : (encodeLogId id ++ suf).take 16 = encodeCommittedLeaderId id.leaderId := by
      rw [encodeLogId, append_assoc, take_left' (length_encodeCommittedLeaderId _)]
    have hdrop : (encodeLogId id ++ suf).drop 16 = putU64 id.index ++ suf := by
      rw [encodeLogId, append_assoc, drop_left' (length_encodeCommittedLeaderId _)]
    have hleader : decodeCommittedLeaderId (encodeCommittedLeaderId id.leaderId) =
      .ok id.leaderId := (reads_leaderId id.leaderId).record (by simp)
    obtain ⟨e, he⟩ := (reads_u64 id.index).delimits local_u64 (by simp) (putU64 id.index ++ suf)
      (by simp at hlen ⊢; omega) (.inr (prefix_append _ _)) (by simpa using hsuf)
    exact ⟨e, by rw [htake, hdrop, hleader, he]; rfl⟩

theorem delimits_membership {m : Membership} (h : (encodeMembership m).length < 2 ^ 64)
    (hg : Granted memory (3 * (encodeMembership m).length)) :
    Delimits (decodeMembership raft memory) (encodeMembership m) :=
  (reads_membership hg).delimits local_membership h

theorem delimits_storedMembership {m : StoredMembership}
    (h : (encodeStoredMembership m).length < 2 ^ 64)
    (hg : Granted memory (3 * (encodeStoredMembership m).length)) :
    Delimits (decodeStoredMembership raft memory) (encodeStoredMembership m) := by
  intro buf hlen hbuf hne
  have hm : (encodeMembership m.membership).length ≤ (encodeStoredMembership m).length := by
    simp [encodeStoredMembership]
  rw [decodeStoredMembership]
  match hread : readLogId? ⟨buf, 0⟩ with
  | .error .crash => exact absurd hread ((reads_logId? m.logId).ne_crash local_logId? hlen h hbuf)
  | .error (.error msg) => exact ⟨msg, rfl⟩
  | .ok (logId, r) =>
    have hpos : 0 < (encodeMembership m.membership).length := by
      simp [encodeMembership, putList, putLen]
    obtain ⟨msg, hmsg⟩ := (reads_logId? m.logId).delimits_slice local_logId?
      (@delimits_membership raft memory _ (by omega) (hg.mono (by omega)))
      (ne_nil_of_length_pos hpos) h hlen hbuf hne hread
    exact ⟨msg, by rw [ok_bind, hmsg]; rfl⟩

theorem delimits_meta (h : (encodeMeta info).length < 2 ^ 64)
    (hg : Granted memory (3 * (encodeMeta info).length)) :
    Delimits (decodeMeta raft memory) (encodeMeta info) := by
  have hm := length_encodeMeta info
  have hdel : Delimits (decodeStoredMembership raft memory) _ :=
    delimits_storedMembership (Nat.lt_of_le_of_lt hm h) (hg.mono (by omega))
  obtain ⟨snapshotId, lastLogId, lastMembership⟩ := info
  dsimp only at hdel
  rintro (_ | ⟨tag, rest⟩) hlen hbuf hne
  · exact ⟨_, rfl⟩
  have htail {b : UInt8} {bs : List UInt8}
      (hbuf : tag :: rest <+: b :: bs ∨ b :: bs <+: tag :: rest) (hne : tag :: rest ≠ b :: bs) :
      tag = b ∧ (rest <+: bs ∨ bs <+: rest) ∧ rest ≠ bs := by
    simp only [cons_prefix_cons] at hbuf
    obtain ⟨rfl, hr⟩ | ⟨rfl, hr⟩ := hbuf
    · exact ⟨rfl, .inl hr, fun h => hne (by rw [h])⟩
    · exact ⟨rfl, .inr hr, fun h => hne (by rw [h])⟩
  rw [length_cons] at hlen
  cases lastLogId with
  | none =>
    obtain ⟨rfl, hbuf, hne⟩ := htail hbuf hne
    obtain ⟨e, he⟩ := hdel rest (by omega) hbuf hne
    exact ⟨e, by rw [decodeMeta, if_neg (by decide), he]; rfl⟩
  | some id =>
    obtain ⟨rfl, hbuf, hne⟩ := htail hbuf hne
    rw [decodeMeta, if_pos rfl]
    split
    · exact ⟨_, rfl⟩
    next hlong =>
    have hdrop : (encodeLogId id ++ encodeStoredMembership lastMembership).drop 24 =
        encodeStoredMembership lastMembership := drop_left' (length_encodeLogId id)
    have htake : rest.take 24 = encodeLogId id := by
      have hid : (encodeLogId id ++ encodeStoredMembership lastMembership).take 24 =
          encodeLogId id := take_left' (length_encodeLogId id)
      refine eq_of_comparable ?_ (by simp; omega)
      rw [← hid]
      exact hbuf.imp (IsPrefix.take · 24) (IsPrefix.take · 24)
    obtain ⟨e, he⟩ := hdel (rest.drop 24) (by rw [length_drop]; omega)
      (hdrop ▸ hbuf.imp (IsPrefix.drop · 24) (IsPrefix.drop · 24)) fun heq => by
        have hlen := congrArg List.length heq
        rw [length_drop] at hlen
        have hall : rest.length =
            (encodeLogId id ++ encodeStoredMembership lastMembership).length := by
          rw [length_append, length_encodeLogId]
          omega
        exact hne (eq_of_comparable hbuf hall)
    exact ⟨e, by rw [he, htake, decodeLogId_encodeLogId]; rfl⟩

/-! ## Crashes -/

/-- The number of configurations that a membership record states. -/
def statedConfigs (buf : List UInt8) : Except Fault UInt64 := ReadM.u64.run buf

/-- The number of configurations that a stored membership states. -/
def storedConfigs (buf : List UInt8) : Except Fault UInt64 := do
  let header ← readLogId? ⟨buf, 0⟩
  statedConfigs (buf.drop header.2.pos)

/-- The number of configurations that an entry states, if its payload is a membership. -/
def entryConfigs (buf : List UInt8) : Except Fault UInt64 :=
  ReadM.run (do
    let _ ← readLogId
    let tag ← ReadM.byte
    if tag = 2 then ReadM.framed statedConfigs else ReadM.fail "no membership") buf

/-- The number of configurations that the metadata of a snapshot state. -/
def metaConfigs : List UInt8 → Except Fault UInt64
  | [] => .error (.error "empty snapshot meta")
  | tag :: rest =>
      if tag = 1 then
        if rest.length < 24 then .error (.error "truncated snapshot meta log id") else do
          let _ ← decodeLogId (rest.take 24)
          storedConfigs (rest.drop 24)
      else storedConfigs rest

theorem safe_leaderId : Safe readLeaderId := safe_u64.bind fun _ => safe_u64.bind fun _ => .pure _

theorem safe_logId : Safe readLogId := safe_leaderId.bind fun _ => safe_u64.bind fun _ => .pure _

theorem safe_bool : Safe ReadM.bool := safe_byte.bind fun _ => .pure _

theorem safe_logId? : Safe readLogId? := by
  refine safe_bool.bind fun b => ?_
  cases b with
  | false => exact .pure _
  | true => exact safe_logId.bind fun _ => .pure _

theorem decodeVote_ne_crash (buf : List UInt8) : decodeVote buf ≠ .error .crash := fun h =>
  (safe_leaderId.bind fun _ => safe_bool.bind fun _ => .pure _) _ (record_crash_iff.mp h)

theorem decodeLogId_ne_crash (buf : List UInt8) : decodeLogId buf ≠ .error .crash := by
  rw [decodeLogId]
  split
  · nofun
  intro h
  obtain h | ⟨l, -, h⟩ := bind_eq_error.mp h
  · exact safe_leaderId _ (record_crash_iff.mp h)
  obtain h | ⟨i, -, ⟨⟩⟩ := bind_eq_error.mp h
  exact safe_u64 _ (record_crash_iff.mp h)

/-- The number is there, and its vector cannot be allocated. -/
def Exceeds (memory : Option Nat) (count : Except Fault UInt64) : Prop :=
  ∃ n, count = .ok n ∧ ¬ Granted memory (24 * n.toNat)

/-- **A membership crashes by its number of configurations.** -/
theorem decodeMembership_crash_iff {buf : List UInt8} :
    decodeMembership raft memory buf = .error .crash ↔ Exceeds memory (statedConfigs buf) := by
  have hconfig : Safe readConfig := (safe_list safe_u64).bind fun _ => .pure _
  have hnodes : Safe (ReadM.list readNode) :=
    safe_list (safe_u64.bind fun _ => safe_str.bind fun _ => .pure _)
  rw [decodeMembership, record_crash_iff, readMembership,
    crash_bind_left fun _ => hnodes.bind fun _ => .pure _, ReadM.vec, crash_bind_right safe_u64]
  simp only [crash_bind_left fun _ => safe_many hconfig _, reserve_crash_iff, Exceeds,
    statedConfigs, run_ok_iff, exists_and_right]

/-- **A stored membership crashes by its number of configurations.** -/
theorem decodeStoredMembership_crash_iff {buf : List UInt8} :
    decodeStoredMembership raft memory buf = .error .crash ↔
      Exceeds memory (storedConfigs buf) := by
  rw [decodeStoredMembership, bind_eq_error, or_iff_right (safe_logId? _)]
  simp only [Exceeds, storedConfigs, bind_eq_ok]
  constructor
  · rintro ⟨header, hread, h⟩
    obtain h | ⟨m, -, ⟨⟩⟩ := bind_eq_error.mp h
    obtain ⟨n, hn, hg⟩ := decodeMembership_crash_iff.mp h
    exact ⟨n, ⟨header, hread, hn⟩, hg⟩
  · rintro ⟨n, ⟨header, hread, hn⟩, hg⟩
    exact ⟨header, hread, bind_eq_error.mpr (.inl (decodeMembership_crash_iff.mpr ⟨n, hn, hg⟩))⟩

theorem readPayload_crash_iff {tag : UInt8} {r : Machinery.Reader} :
    readPayload pb raft memory tag r = .error .crash ↔
      tag = 2 ∧ ReadM.framed (decodeMembership raft memory) r = .error .crash := by
  have hcommand (bytes : List UInt8) :
      (decodeCommand pb bytes).mapError Fault.error ≠ .error .crash := by
    cases decodeCommand pb bytes <;> nofun
  unfold readPayload
  split
  · next htag => exact ⟨nofun, fun h => absurd (htag ▸ h.1) (by decide)⟩
  split
  · next htag =>
    rw [crash_bind_left fun _ => .pure _, framed_crash_iff]
    refine ⟨?_, fun h => absurd (htag ▸ h.1) (by decide)⟩
    rintro ⟨bytes, _, -, h⟩
    exact absurd h (hcommand bytes)
  split
  · next htag => rw [crash_bind_left fun _ => .pure _, and_iff_right htag]
  · next htag => exact ⟨nofun, fun h => absurd h.1 htag⟩

/-- **An entry crashes by the number of configurations of its membership.** -/
theorem decodeEntry_crash_iff {buf : List UInt8} :
    decodeEntry pb raft memory buf = .error .crash ↔ Exceeds memory (entryConfigs buf) := by
  have htag {tag : UInt8} {r : Machinery.Reader} :
      readPayload pb raft memory tag r = .error .crash ↔
      ∃ n, (∃ s, (if tag = 2 then ReadM.framed statedConfigs else ReadM.fail "no membership") r =
        .ok (n, s)) ∧ ¬ Granted memory (24 * n.toNat) := by
    rw [readPayload_crash_iff, framed_crash_iff]
    simp only [decodeMembership_crash_iff, Exceeds]
    split
    · next htwo =>
      simp only [framed_ok_iff]
      constructor
      · rintro ⟨-, bytes, s, hbytes, n, hn, hg⟩
        exact ⟨n, ⟨s, bytes, hbytes, hn⟩, hg⟩
      · rintro ⟨n, ⟨s, bytes, hbytes, hn⟩, hg⟩
        exact ⟨htwo, bytes, s, hbytes, n, hn, hg⟩
    · next hno => exact ⟨fun h => absurd h.1 hno, by rintro ⟨_, ⟨_, ⟨⟩⟩, _⟩⟩
  rw [decodeEntry, record_crash_iff, readEntry, crash_bind_right safe_logId]
  simp only [crash_bind_right safe_byte, crash_bind_left fun _ => Safe.pure _, htag, Exceeds,
    entryConfigs, run_ok_iff]
  constructor
  · rintro ⟨id, r, hid, tag, s, hbyte, n, ⟨t, hn⟩, hg⟩
    exact ⟨n, ⟨t, ok_bind_iff.mpr ⟨id, r, hid, ok_bind_iff.mpr ⟨tag, s, hbyte, hn⟩⟩⟩, hg⟩
  · rintro ⟨n, ⟨t, h⟩, hg⟩
    obtain ⟨id, r, hid, h⟩ := ok_bind_iff.mp h
    obtain ⟨tag, s, hbyte, hn⟩ := ok_bind_iff.mp h
    exact ⟨id, r, hid, tag, s, hbyte, n, ⟨t, hn⟩, hg⟩

/-- **The metadata of a snapshot crash by their number of configurations.** -/
theorem decodeMeta_crash_iff {buf : List UInt8} :
    decodeMeta raft memory buf = .error .crash ↔ Exceeds memory (metaConfigs buf) := by
  have hmap {rest : List UInt8} {g : StoredMembership → SnapshotMeta} :
      (do let m ← decodeStoredMembership raft memory rest; pure (g m)) = .error .crash ↔
        Exceeds memory (storedConfigs rest) := by
    rw [bind_eq_error, ← decodeStoredMembership_crash_iff]
    exact or_iff_left fun h => h.elim fun _ h => nomatch h.2
  have hnone {e : Fault} : ¬ Exceeds memory (.error e) := fun h => nomatch h.choose_spec.1
  rcases buf with _ | ⟨tag, rest⟩
  · exact ⟨nofun, fun h => absurd h hnone⟩
  rw [decodeMeta, metaConfigs]
  split
  · split
    · exact ⟨nofun, fun h => absurd h hnone⟩
    · cases hid : decodeLogId (rest.take 24) with
      | error e =>
        refine ⟨fun h => ?_, fun h => absurd h hnone⟩
        exact absurd (hid.trans (congrArg _ (Except.error.inj h))) (decodeLogId_ne_crash _)
      | ok id => exact hmap
  · exact hmap

end

/-! ## The codec -/

section

variable {α : Type} (decode : Option Nat → List UInt8 → Except Fault α)

/-- `decode` reads `a` back from `bytes`, and refuses every other buffer that they begin or that
begins them, wherever three times their number can be allocated at once. -/
def Faithful (bytes : List UInt8) (a : α) : Prop :=
  bytes.length < 2 ^ 64 → ∀ memory, Granted memory (3 * bytes.length) →
    decode memory bytes = .ok a ∧ Delimits (decode memory) bytes

/-- On the machines that can allocate three times the bytes of a record, `decode` goes without a
crash iff the record states at most one configuration for each eight of its bytes. -/
def CrashesByCount (count : List UInt8 → Except Fault UInt64) : Prop :=
  ∀ buf, 3 * buf.length < 2 ^ 63 →
    ((∀ memory, 3 * buf.length ≤ memory → memory < 2 ^ 63 →
      decode (some memory) buf ≠ .error .crash) ↔
        ∀ n, count buf = .ok n → 8 * n.toNat ≤ buf.length)

variable {decode}

theorem crashesByCount {count : List UInt8 → Except Fault UInt64}
    (h : ∀ memory buf, decode memory buf = .error .crash ↔ Exceeds memory (count buf)) :
    CrashesByCount decode count := by
  intro buf hlen
  simp only [ne_eq, h, Exceeds, Granted, Option.mem_some_iff, forall_eq', not_exists, not_and,
    not_not]
  exact ⟨fun hall n hn => by have := hall _ (Nat.le_refl _) hlen n hn; omega,
    fun hfit memory hmem _ n hn => by have := hfit n hn; omega⟩

end

/-- **The records of the log are read back, and no other record begins or ends like one.**  The
metadata of a snapshot come back iff the snapshot id is empty; votes and log ids are decoded without
a crash, the other records iff they state at most one configuration for each eight bytes. -/
theorem codec_faithful (raft : Openraft) (display : Value → String) (pb : Protobuf PCommand) :
    (∀ v, Faithful (fun _ => decodeVote) (encodeVote v) v) ∧
    (∀ id, Faithful (fun _ => decodeLogId) (encodeLogId id) id) ∧
    (∀ m, Faithful (decodeMembership raft) (encodeMembership m) m) ∧
    (∀ m, Faithful (decodeStoredMembership raft) (encodeStoredMembership m) m) ∧
    (∀ e : Entry, e.payload.Carried display pb →
      Faithful (decodeEntry pb raft) (encodeEntry display pb e) e) ∧
    (∀ info, Faithful (decodeMeta raft) (encodeMeta info) { info with snapshotId := "" } ∧
      ((encodeMeta info).length < 2 ^ 64 →
        (Faithful (decodeMeta raft) (encodeMeta info) info ↔ info.snapshotId = ""))) ∧
    (∀ buf, decodeVote buf ≠ .error .crash ∧ decodeLogId buf ≠ .error .crash) ∧
    CrashesByCount (decodeMembership raft) statedConfigs ∧
    CrashesByCount (decodeStoredMembership raft) storedConfigs ∧
    CrashesByCount (decodeEntry pb raft) entryConfigs ∧
    CrashesByCount (decodeMeta raft) metaConfigs := by
  have hmeta (info : SnapshotMeta) :
      Faithful (decodeMeta raft) (encodeMeta info) { info with snapshotId := "" } :=
    fun h _ hg => ⟨decodeMeta_encodeMeta h hg, delimits_meta h hg⟩
  refine ⟨fun v _ _ _ => ⟨decodeVote_encodeVote v, delimits_vote v⟩,
    fun id _ _ _ => ⟨decodeLogId_encodeLogId id, delimits_logId id⟩,
    fun m h _ hg => ⟨decodeMembership_encodeMembership h hg, delimits_membership h hg⟩,
    fun m h _ hg => ⟨decodeStoredMembership_encode h hg, delimits_storedMembership h hg⟩,
    fun e hc h _ hg => ⟨decodeEntry_encodeEntry hc h hg, ?_⟩, fun info => ⟨hmeta info, fun h => ?_⟩,
    fun buf => ⟨decodeVote_ne_crash buf, decodeLogId_ne_crash buf⟩,
    crashesByCount fun _ _ => decodeMembership_crash_iff,
    crashesByCount fun _ _ => decodeStoredMembership_crash_iff,
    crashesByCount fun _ _ => decodeEntry_crash_iff,
    crashesByCount fun _ _ => decodeMeta_crash_iff⟩
  · exact (reads_entry hc h hg).delimits (local_logId.bind fun _ =>
      local_byte.bind fun tag => (local_payload tag).bind fun _ => .pure _) h
  · refine ⟨fun hf => ?_, fun hid => ?_⟩
    · have hinfo := (hf h none (granted_none _)).1
      rw [(hmeta info h none (granted_none _)).1] at hinfo
      exact (congrArg SnapshotMeta.snapshotId (Except.ok.inj hinfo)).symm
    · have hback := hmeta info
      rw [← hid] at hback
      exact hback

/-- A command that inserts `e(1)`. -/
def insertOne : Command := .mutate "p" [⟨.insert, "e", [.number 1]⟩]

/-- The protobuf library for that command and the bytes of its message. -/
def insertOnePb (display : Value → String) : Protobuf PCommand :=
  .only (insertOne.toProto display) [0x08, 1, 0x12, 14, 0x0A, 1, 0x70,
    0x12, 9, 0x08, 1, 0x12, 1, 0x65, 0x1A, 2, 0x08, 2]

theorem insertOne_carried (display : Value → String) :
    (EntryPayload.normal insertOne).Carried display (insertOnePb display) :=
  ⟨by decide, Protobuf.roundTrips_only _ _⟩

/-- No members. -/
def noMembership : StoredMembership := ⟨none, ⟨[], ∅, nofun⟩⟩

/-- The metadata of a snapshot with an id and without members. -/
def namedMeta : SnapshotMeta := ⟨"a", none, noMembership⟩

/-- **The snapshot id is lost, and a corrupt number of configurations ends the process**: by a panic
on every machine, or by an abort where the memory is not there. -/
theorem codec_unfaithful :
    decodeMeta .filling none (encodeMeta namedMeta) ≠ .ok namedMeta ∧
    (∀ memory < 2 ^ 63,
      decodeMembership .filling (some memory) (List.replicate 8 0xFF) = .error .crash) ∧
    decodeMembership .filling (some (2 ^ 44)) (putU64 (.ofNat (2 ^ 40))) = .error .crash := by
  have hcount (n : UInt64) : statedConfigs (putU64 n) = .ok n :=
    run_ok_iff.mpr ⟨_, by simpa using reads_u64 n [] [] (by simp)⟩
  refine ⟨fun h => ?_, fun memory hmem => ?_, ?_⟩
  · rw [decodeMeta_encodeMeta (by decide +kernel) (granted_none _)] at h
    exact absurd (congrArg SnapshotMeta.snapshotId (Except.ok.inj h)) (by decide)
  · have hbytes : List.replicate 8 0xFF = putU64 (.ofNat (2 ^ 64 - 1)) := by decide +kernel
    rw [hbytes, decodeMembership_crash_iff, Exceeds, hcount]
    refine ⟨_, rfl, fun h => ?_⟩
    have hfit := h memory rfl
    have hmax : (UInt64.ofNat (2 ^ 64 - 1)).toNat = 2 ^ 64 - 1 := by decide +kernel
    omega
  · rw [decodeMembership_crash_iff, Exceeds, hcount]
    exact ⟨_, rfl, fun h => absurd (h _ rfl) (by decide)⟩

end Mangle

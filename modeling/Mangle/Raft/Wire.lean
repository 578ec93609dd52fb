import Mangle.Interpreter.Function
import Mangle.Wal.Codec

/-!
# Raft/Wire — the messages between nodes

`wire.rs`: the requests and responses of the consensus library as messages of the wire, and back.
An unset message field is `none`; the text `error` of a response is empty when there is none.

* `wire_faithful` — every message comes back as it was, an append response exactly when it is not
  the partial success without log id;
* `appendResp_partial_success` — that one is turned into a success.
-/

namespace Mangle

open Machinery

/-! ## Requests and responses -/

/-- `VoteRequest`. -/
structure VoteRequest where
  vote : Vote
  lastLogId : Option LogId
  deriving DecidableEq

/-- `VoteResponse`. -/
structure VoteResponse where
  vote : Vote
  voteGranted : Bool
  lastLogId : Option LogId
  deriving DecidableEq

/-- `AppendEntriesRequest`. -/
structure AppendEntriesRequest where
  vote : Vote
  prevLogId : Option LogId
  entries : List Entry
  leaderCommit : Option LogId
  deriving DecidableEq

/-- `AppendEntriesResponse`. -/
inductive AppendEntriesResponse where
  | success
  | partialSuccess (id : Option LogId)
  | conflict
  | higherVote (vote : Vote)
  deriving DecidableEq

/-- `InstallSnapshotRequest`. -/
structure InstallSnapshotRequest where
  vote : Vote
  info : SnapshotMeta
  offset : UInt64
  data : List UInt8
  done : Bool
  deriving DecidableEq

/-- `InstallSnapshotResponse`. -/
structure InstallSnapshotResponse where
  vote : Vote
  deriving DecidableEq

/-! ## Messages -/

/-- `pb::RaftVote`. -/
structure PVote where
  term : UInt64
  nodeId : UInt64
  committed : Bool

/-- `pb::RaftLogId`. -/
structure PLogId where
  leaderTerm : UInt64
  leaderNodeId : UInt64
  index : UInt64

/-- The payload of `pb::RaftEntry`. -/
inductive PEntryPayload where
  | blank
  | normal (bytes : List UInt8)
  | membership (bytes : List UInt8)

/-- `pb::RaftEntry`. -/
structure PEntry where
  logId : Option PLogId
  payload : Option PEntryPayload

/-- `pb::VoteRequest`. -/
structure PVoteRequest where
  vote : Option PVote
  lastLogId : Option PLogId

/-- `pb::VoteResponse`. -/
structure PVoteResponse where
  vote : Option PVote
  voteGranted : Bool
  error : String
  lastLogId : Option PLogId

/-- `pb::AppendEntriesRequest`. -/
structure PAppendRequest where
  vote : Option PVote
  prevLogId : Option PLogId
  entries : List PEntry
  leaderCommit : Option PLogId

/-- The result of `pb::AppendEntriesResponse`. -/
inductive PAppendResult where
  | success
  | partialSuccess (id : PLogId)
  | conflict
  | higherVote (vote : PVote)

/-- `pb::AppendEntriesResponse`. -/
structure PAppendResponse where
  result : Option PAppendResult
  error : String

/-- `pb::InstallSnapshotRequest`. -/
structure PInstallRequest where
  vote : Option PVote
  snapshotId : String
  lastLogId : Option PLogId
  membership : List UInt8
  offset : UInt64
  data : List UInt8
  done : Bool

/-- `pb::InstallSnapshotResponse`. -/
structure PInstallResponse where
  vote : Option PVote
  error : String

/-! ## Conversions -/

/-- `vote_to_proto`. -/
def voteToProto (v : Vote) : PVote := ⟨v.leaderId.term, v.leaderId.nodeId, v.committed⟩

/-- `vote_from_proto`. -/
def voteFromProto (v : PVote) : Vote := ⟨⟨v.term, v.nodeId⟩, v.committed⟩

/-- `log_id_to_proto`. -/
def logIdToProto (id : LogId) : PLogId := ⟨id.leaderId.term, id.leaderId.nodeId, id.index⟩

/-- `log_id_from_proto`. -/
def logIdFromProto (id : PLogId) : LogId := ⟨⟨id.leaderTerm, id.leaderNodeId⟩, id.index⟩

/-- `log_id_field`. -/
def logIdField (id : Option LogId) : Option PLogId := id.map logIdToProto

/-- A message field that has to be set. -/
def required {α : Type} (msg : String) : Option α → Except String α
  | some a => .ok a
  | none => .error msg

/-- A response with an error text is that error. -/
def unlessError {α : Type} (error : String) (x : Except String α) : Except String α :=
  if error = "" then x else .error error

section

variable (display : Value → String) (pb : Protobuf PCommand) (raft : Openraft)

/-- The payload of `entry_to_proto`. -/
def payloadToProto : EntryPayload → PEntryPayload
  | .blank => .blank
  | .normal cmd => .normal (pb.encodeToVec (cmd.toProto display))
  | .membership m => .membership (encodeMembership m)

/-- `entry_to_proto`. -/
def entryToProto (entry : Entry) : PEntry :=
  ⟨logIdField (some entry.logId), some (payloadToProto display pb entry.payload)⟩

/-- The payload of `entry_from_proto`. -/
def payloadFromProto : PEntryPayload → Except String EntryPayload
  | .blank => .ok .blank
  | .normal bytes => (decodeCommand pb bytes).map .normal
  | .membership bytes => (answered (decodeMembership raft none bytes)).map .membership

/-- `entry_from_proto`. -/
def entryFromProto (e : PEntry) : Except String Entry := do
  let logId ← required "entry without log id" (e.logId.map logIdFromProto)
  let payload ← required "entry without payload" e.payload
  let payload ← payloadFromProto pb raft payload
  pure ⟨logId, payload⟩

/-- `append_req_to_proto`. -/
def appendReqToProto (req : AppendEntriesRequest) : PAppendRequest where
  vote := some (voteToProto req.vote)
  prevLogId := logIdField req.prevLogId
  entries := req.entries.map (entryToProto display pb)
  leaderCommit := logIdField req.leaderCommit

/-- `append_req_from_proto`. -/
def appendReqFromProto (req : PAppendRequest) : Except String AppendEntriesRequest := do
  let entries ← req.entries.mapM (entryFromProto pb raft)
  let vote ← required "append request without vote" req.vote
  pure ⟨voteFromProto vote, req.prevLogId.map logIdFromProto, entries,
    req.leaderCommit.map logIdFromProto⟩

end

/-- `vote_req_to_proto`. -/
def voteReqToProto (req : VoteRequest) : PVoteRequest :=
  ⟨some (voteToProto req.vote), logIdField req.lastLogId⟩

/-- `vote_req_from_proto`. -/
def voteReqFromProto (req : PVoteRequest) : Except String VoteRequest := do
  let vote ← required "vote request without vote" req.vote
  pure ⟨voteFromProto vote, req.lastLogId.map logIdFromProto⟩

/-- `vote_resp_to_proto`. -/
def voteRespToProto (resp : VoteResponse) (error : Option String) : PVoteResponse :=
  ⟨some (voteToProto resp.vote), resp.voteGranted, error.getD "", logIdField resp.lastLogId⟩

/-- `vote_resp_from_proto`. -/
def voteRespFromProto (resp : PVoteResponse) : Except String VoteResponse :=
  unlessError resp.error do
    let vote ← required "vote response without vote" resp.vote
    pure ⟨voteFromProto vote, resp.voteGranted, resp.lastLogId.map logIdFromProto⟩

/-- `append_resp_to_proto`: a partial success without log id becomes a success. -/
def appendRespToProto (resp : AppendEntriesResponse) (error : Option String) : PAppendResponse where
  result := match resp with
    | .success => some .success
    | .partialSuccess (some id) => some (.partialSuccess (logIdToProto id))
    | .partialSuccess none => some .success
    | .conflict => some .conflict
    | .higherVote vote => some (.higherVote (voteToProto vote))
  error := error.getD ""

/-- `append_resp_from_proto`. -/
def appendRespFromProto (resp : PAppendResponse) : Except String AppendEntriesResponse :=
  unlessError resp.error <|
    match resp.result with
    | some .success => .ok .success
    | some (.partialSuccess id) => .ok (.partialSuccess (some (logIdFromProto id)))
    | some .conflict => .ok .conflict
    | some (.higherVote vote) => .ok (.higherVote (voteFromProto vote))
    | none => .error "append response without result"

/-- `meta_from_proto`. -/
def metaFromProto (raft : Openraft) (snapshotId : String) (lastLogId : Option PLogId)
    (membership : List UInt8) : Except String SnapshotMeta := do
  let lastMembership ← answered (decodeStoredMembership raft none membership)
  pure ⟨snapshotId, lastLogId.map logIdFromProto, lastMembership⟩

/-- `install_req_to_proto`, with the fields of `membership_to_meta_fields`. -/
def installReqToProto (req : InstallSnapshotRequest) : PInstallRequest where
  vote := some (voteToProto req.vote)
  snapshotId := req.info.snapshotId
  lastLogId := logIdField req.info.lastLogId
  membership := encodeStoredMembership req.info.lastMembership
  offset := req.offset
  data := req.data
  done := req.done

/-- `install_req_from_proto`. -/
def installReqFromProto (raft : Openraft) (req : PInstallRequest) :
    Except String InstallSnapshotRequest := do
  let info ← metaFromProto raft req.snapshotId req.lastLogId req.membership
  let vote ← required "install-snapshot request without vote" req.vote
  pure ⟨voteFromProto vote, info, req.offset, req.data, req.done⟩

/-- `install_resp_to_proto`. -/
def installRespToProto (resp : InstallSnapshotResponse) (error : Option String) :
    PInstallResponse :=
  ⟨some (voteToProto resp.vote), error.getD ""⟩

/-- `install_resp_from_proto`. -/
def installRespFromProto (resp : PInstallResponse) : Except String InstallSnapshotResponse :=
  unlessError resp.error do
    let vote ← required "install-snapshot response without vote" resp.vote
    pure ⟨voteFromProto vote⟩

/-! ## Round trips -/

@[simp] theorem voteFromProto_toProto (v : Vote) : voteFromProto (voteToProto v) = v := rfl

@[simp] theorem logIdFromProto_toProto (id : LogId) : logIdFromProto (logIdToProto id) = id := rfl

@[simp] theorem map_logIdField (id : Option LogId) : (logIdField id).map logIdFromProto = id := by
  cases id <;> rfl

@[simp] theorem unlessError_empty {α : Type} (x : Except String α) : unlessError "" x = x := rfl

section

variable {display : Value → String} {pb : Protobuf PCommand} {raft : Openraft}

/-- The membership of the payload has an encoding of addressable length. -/
def EntryPayload.Addressable : EntryPayload → Prop
  | membership m => (encodeMembership m).length < 2 ^ 64
  | blank | normal _ => True

theorem payloadFromProto_toProto {payload : EntryPayload} (h : payload.Carried display pb)
    (ha : payload.Addressable) :
    payloadFromProto pb raft (payloadToProto display pb payload) = .ok payload := by
  cases payload with
  | blank => rfl
  | normal cmd =>
    rw [payloadToProto, payloadFromProto, decodeCommand_encode h.1 h.2]
    rfl
  | membership m =>
    rw [payloadToProto, payloadFromProto, decodeMembership_encodeMembership ha (granted_none _)]
    rfl

theorem entryFromProto_toProto {e : Entry} (h : e.payload.Carried display pb)
    (ha : e.payload.Addressable) : entryFromProto pb raft (entryToProto display pb e) = .ok e := by
  simp only [entryFromProto, entryToProto, map_logIdField, required, ok_bind,
    payloadFromProto_toProto h ha]
  rfl

theorem appendReqFromProto_toProto {req : AppendEntriesRequest}
    (h : ∀ e ∈ req.entries, e.payload.Carried display pb ∧ e.payload.Addressable) :
    appendReqFromProto pb raft (appendReqToProto display pb req) = .ok req := by
  have hentries : (req.entries.map (entryToProto display pb)).mapM (entryFromProto pb raft) =
      .ok req.entries := mapM_map_eq_ok fun e he => entryFromProto_toProto (h e he).1 (h e he).2
  simp only [appendReqFromProto, appendReqToProto, hentries, required, ok_bind, map_logIdField,
    voteFromProto_toProto]
  rfl

end

theorem voteReqFromProto_toProto (req : VoteRequest) :
    voteReqFromProto (voteReqToProto req) = .ok req := by
  simp only [voteReqFromProto, voteReqToProto, required, ok_bind, map_logIdField]
  rfl

theorem voteRespFromProto_toProto (resp : VoteResponse) :
    voteRespFromProto (voteRespToProto resp none) = .ok resp := by
  simp only [voteRespFromProto, voteRespToProto, Option.getD_none, unlessError_empty, required,
    ok_bind, map_logIdField]
  rfl

/-- **An append response comes back as it was, unless it is the partial success without log id.** -/
theorem appendRespFromProto_toProto_iff (resp : AppendEntriesResponse) :
    appendRespFromProto (appendRespToProto resp none) = .ok resp ↔ resp ≠ .partialSuccess none := by
  rcases resp with _ | ⟨_ | id⟩ | _ | vote
  all_goals simp [appendRespFromProto, appendRespToProto]

theorem installReqFromProto_toProto {req : InstallSnapshotRequest}
    (h : (encodeStoredMembership req.info.lastMembership).length < 2 ^ 64) :
    installReqFromProto raft (installReqToProto req) = .ok req := by
  simp only [installReqFromProto, installReqToProto, metaFromProto, required, ok_bind,
    decodeStoredMembership_encode h (granted_none _), answered_ok, map_logIdField]
  rfl

theorem installRespFromProto_toProto (resp : InstallSnapshotResponse) :
    installRespFromProto (installRespToProto resp none) = .ok resp := by
  simp only [installRespFromProto, installRespToProto, Option.getD_none, unlessError_empty,
    required, ok_bind]
  rfl

/-- **The wire is faithful but for one response.**  Requests, responses and entries come back as
they were; an append response does exactly when it is not the partial success without log id. -/
theorem wire_faithful (display : Value → String) (pb : Protobuf PCommand) (raft : Openraft) :
    (∀ req, voteReqFromProto (voteReqToProto req) = .ok req) ∧
    (∀ resp, voteRespFromProto (voteRespToProto resp none) = .ok resp) ∧
    (∀ e : Entry, e.payload.Carried display pb → e.payload.Addressable →
      entryFromProto pb raft (entryToProto display pb e) = .ok e) ∧
    (∀ req : AppendEntriesRequest,
      (∀ e ∈ req.entries, e.payload.Carried display pb ∧ e.payload.Addressable) →
      appendReqFromProto pb raft (appendReqToProto display pb req) = .ok req) ∧
    (∀ resp, appendRespFromProto (appendRespToProto resp none) = .ok resp ↔
      resp ≠ .partialSuccess none) ∧
    (∀ req : InstallSnapshotRequest,
      (encodeStoredMembership req.info.lastMembership).length < 2 ^ 64 →
      installReqFromProto raft (installReqToProto req) = .ok req) ∧
    (∀ resp, installRespFromProto (installRespToProto resp none) = .ok resp) :=
  ⟨voteReqFromProto_toProto, voteRespFromProto_toProto, fun _ => entryFromProto_toProto,
    fun _ => appendReqFromProto_toProto, appendRespFromProto_toProto_iff,
    fun _ => installReqFromProto_toProto, installRespFromProto_toProto⟩

/-- The vote of a first leader, and an entry of its term with a command. -/
theorem wire_faithful_insert :
    appendReqFromProto (insertOnePb Host.bare.display) .filling
      (appendReqToProto Host.bare.display (insertOnePb Host.bare.display)
        ⟨⟨⟨1, 1⟩, true⟩, none, [⟨⟨⟨1, 1⟩, 0⟩, .normal insertOne⟩], some ⟨⟨1, 1⟩, 0⟩⟩) =
      .ok ⟨⟨⟨1, 1⟩, true⟩, none, [⟨⟨⟨1, 1⟩, 0⟩, .normal insertOne⟩], some ⟨⟨1, 1⟩, 0⟩⟩ := by
  refine (wire_faithful _ _ _).2.2.2.1 _ fun e he => ?_
  rw [List.mem_singleton.mp he]
  exact ⟨insertOne_carried _, trivial⟩

/-- **A partial success without log id arrives as a success**: the leader takes the follower to have
stored every entry of the request. -/
theorem appendResp_partial_success :
    appendRespFromProto (appendRespToProto (.partialSuccess none) none) = .ok .success := rfl

end Mangle

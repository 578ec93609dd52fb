import Mangle.Interpreter.Function
import Mangle.Machinery.Table
import Mangle.Wal.Codec

/-!
# Wal/LogStore — the log on disk

`RaftLog`: the entries of the consensus log in one table of a transactional store, the vote and the
last purged id in another.  Every call is one durable transaction, so opening the file again finds
what the last call left.

`OrderedLog` is what the store is for: the live entries in order, the last purged id, the vote.

* `raftLog_refines` — after any calls that keep to the contract of the consensus library, the reads
  of the store are those of the ordered log;
* `raftLog_alters_pair` — an entry whose command carries a pair without two elements comes back with
  a list in its place.
-/

namespace Mangle

open Machinery Std List

/-- The index of an entry. -/
def Entry.index (e : Entry) : UInt64 := e.logId.index

/-! ## Ranges -/

/-- `Bound`. -/
inductive Bound where
  | included (i : UInt64)
  | excluded (i : UInt64)
  | unbounded

/-- `RangeBounds`. -/
structure IndexRange where
  lower : Bound
  upper : Bound

namespace IndexRange

/-- The index is not below the range. -/
def aboveLower (r : IndexRange) (i : UInt64) : Bool :=
  match r.lower with
  | .included l => l ≤ i
  | .excluded l => l < i
  | .unbounded => true

/-- The index is not above the range. -/
def belowUpper (r : IndexRange) (i : UInt64) : Bool :=
  match r.upper with
  | .included u => i ≤ u
  | .excluded u => i < u
  | .unbounded => true

/-- `RangeBounds::contains`. -/
def contains (r : IndexRange) (i : UInt64) : Bool := r.aboveLower i && r.belowUpper i

/-- The key a walk over the range starts at: `checked_add` stops at the greatest key. -/
def start (r : IndexRange) : UInt64 :=
  match r.lower with
  | .included i => i
  | .excluded i => if i.toNat + 1 < 2 ^ 64 then i + 1 else UInt64.ofNat (2 ^ 64 - 1)
  | .unbounded => 0

end IndexRange

/-! ## The store -/

/-- `LogState`. -/
structure LogState where
  lastPurgedLogId : Option LogId
  lastLogId : Option LogId

/-- The two tables of the file. -/
structure RaftLog where
  log : Table UInt64 (List UInt8)
  info : Table String (List UInt8)

namespace RaftLog

/-- The file of a new log. -/
def new : RaftLog := ⟨∅, ∅⟩

/-- A record that cannot be decoded. -/
def corrupt {α : Type} : Except String α → Except String α
  | .ok a => .ok a
  | .error msg => .error s!"corrupt WAL record: {msg}"

section

variable (display : Value → String) (pb : Protobuf PCommand) (raft : Openraft)

/-- `append_inner`. -/
def append (s : RaftLog) (entries : List Entry) : RaftLog :=
  { s with log := entries.foldl (fun log e => log.insert e.index (encodeEntry display pb e)) s.log }

/-- `truncate`. -/
def truncate (s : RaftLog) (logId : LogId) : RaftLog :=
  { s with log := removeWhere s.log fun k => logId.index ≤ k }

/-- `purge`. -/
def purge (s : RaftLog) (logId : LogId) : RaftLog where
  log := removeWhere s.log fun k => k ≤ logId.index
  info := s.info.insert "last_purged" (encodeLogId logId)

/-- `save_vote`. -/
def saveVote (s : RaftLog) (vote : Vote) : RaftLog :=
  { s with info := s.info.insert "vote" (encodeVote vote) }

/-- `read_vote`. -/
def readVote (s : RaftLog) : Except String (Option Vote) :=
  match s.info["vote"]? with
  | some bytes => (corrupt (answered (decodeVote bytes))).map some
  | none => .ok none

/-- The last purged id of the information table. -/
def lastPurged (s : RaftLog) : Except String (Option LogId) :=
  match s.info["last_purged"]? with
  | some bytes => (corrupt (answered (decodeLogId bytes))).map some
  | none => .ok none

/-- The id of the last row, or else the last purged one. -/
def lastLogId (s : RaftLog) (lastPurged : Option LogId) : Except String (Option LogId) :=
  match s.log.toList.getLast? with
  | some row => (corrupt (answered (decodeEntry pb raft none row.2))).map fun e => some e.logId
  | none => .ok lastPurged

/-- `get_log_state`. -/
def getLogState (s : RaftLog) : Except String LogState := do
  let lastPurged ← s.lastPurged
  let lastLogId ← s.lastLogId pb raft lastPurged
  pure ⟨lastPurged, lastLogId⟩

/-- `try_get_log_entries`: a walk from the start of the range, up to the first key outside. -/
def tryGetLogEntries (s : RaftLog) (range : IndexRange) : Except String (List Entry) :=
  ((s.log.toList.filter fun row => range.start ≤ row.1).takeWhile fun row =>
    range.contains row.1).mapM fun row => corrupt (answered (decodeEntry pb raft none row.2))

end

end RaftLog

/-- A call of the consensus library, or the end of the process and a new start on the same file. -/
inductive LogCall where
  | append (entries : List Entry)
  | truncate (logId : LogId)
  | purge (logId : LogId)
  | saveVote (vote : Vote)
  | reopen

/-- One call. -/
def RaftLog.step (display : Value → String) (pb : Protobuf PCommand) (s : RaftLog) :
    LogCall → RaftLog
  | .append entries => s.append display pb entries
  | .truncate logId => s.truncate logId
  | .purge logId => s.purge logId
  | .saveVote vote => s.saveVote vote
  | .reopen => s

/-! ## The ordered log -/

/-- An ordered log. -/
structure OrderedLog where
  live : List Entry
  lastPurged : Option LogId
  vote : Option Vote

namespace OrderedLog

/-- The log before the first call. -/
def new : OrderedLog := ⟨[], none, none⟩

/-- The id of the last live entry, or the last purged one when none is left. -/
def lastLogId (l : OrderedLog) : Option LogId := (l.live.getLast?.map Entry.logId).or l.lastPurged

/-- One call. -/
def step (l : OrderedLog) : LogCall → OrderedLog
  | .append entries => { l with live := l.live ++ entries }
  | .truncate logId => { l with live := l.live.filter fun e => e.index < logId.index }
  | .purge logId =>
      { l with live := l.live.filter fun e => logId.index < e.index, lastPurged := some logId }
  | .saveVote vote => { l with vote := some vote }
  | .reopen => l

/-- The contract of a call: appended indexes follow the last one and each other, and an id to
truncate or purge lies in the log. -/
def Allows (l : OrderedLog) : LogCall → Prop
  | .append entries => ((l.lastLogId.map LogId.index).toList ++ entries.map Entry.index).IsChain
      fun i j => j.toNat = i.toNat + 1
  | .truncate logId | .purge logId => ∃ e ∈ l.live, e.logId = logId
  | .saveVote _ | .reopen => True

instance (l : OrderedLog) : (call : LogCall) → Decidable (l.Allows call)
  | .append _ => inferInstanceAs (Decidable (List.IsChain _ _))
  | .truncate _ | .purge _ => inferInstanceAs (Decidable (∃ e ∈ l.live, _))
  | .saveVote _ | .reopen => inferInstanceAs (Decidable True)

/-- The contract of a sequence of calls. -/
def AllowsAll (l : OrderedLog) : List LogCall → Prop
  | [] => True
  | call :: calls => l.Allows call ∧ (l.step call).AllowsAll calls

end OrderedLog

/-! ## Walks over a range -/

namespace IndexRange

variable {r : IndexRange} {i j : UInt64}

theorem toNat_start_excluded {l : UInt64} (h : r.lower = .excluded l) :
    r.start.toNat = min (l.toNat + 1) (2 ^ 64 - 1) := by
  have hl := l.toNat_lt
  rw [start, h]
  dsimp only
  split
  · rw [UInt64.toNat_add, UInt64.toNat_one, Nat.mod_eq_of_lt (by omega)]
    omega
  · rw [UInt64.toNat_ofNat_of_lt' (by decide)]
    omega

theorem start_le (h : r.aboveLower i = true) : r.start ≤ i := by
  have hi := i.toNat_lt
  rcases hr : r.lower with l | l | _
  · simpa [aboveLower, start, hr] using h
  · have hli : l < i := by simpa [aboveLower, hr] using h
    have hstart := toNat_start_excluded hr
    rw [UInt64.lt_iff_toNat_lt] at hli
    rw [UInt64.le_iff_toNat_le]
    omega
  · simp [start, hr]

theorem aboveLower_of_lt (hi : r.start ≤ i) (hij : i < j) (hj : r.aboveLower j = true) :
    r.aboveLower i = true := by
  have hlt := j.toNat_lt
  rcases hr : r.lower with l | l | _
  · simpa [aboveLower, start, hr] using hi
  · have hlj : l < j := by simpa [aboveLower, hr] using hj
    have hstart := toNat_start_excluded hr
    rw [UInt64.lt_iff_toNat_lt] at hlj hij
    rw [UInt64.le_iff_toNat_le] at hi
    simp only [aboveLower, hr, decide_eq_true_eq, UInt64.lt_iff_toNat_lt]
    omega
  · simp [aboveLower, hr]

theorem belowUpper_of_lt (hij : i < j) (hj : r.belowUpper j = true) : r.belowUpper i = true := by
  rcases hr : r.upper with u | u | _ <;> simp only [belowUpper, hr, decide_eq_true_eq] at hj ⊢
  · exact UInt64.le_of_lt (UInt64.lt_of_lt_of_le hij hj)
  · exact UInt64.lt_trans hij hj

/-- **Walking up from the start of the range, what follows a key outside is outside.** -/
theorem contains_of_lt (hi : r.start ≤ i) (hij : i < j) (hj : r.contains j = true) :
    r.contains i = true := by
  simp only [contains, Bool.and_eq_true] at hj ⊢
  exact ⟨aboveLower_of_lt hi hij hj.1, belowUpper_of_lt hij hj.2⟩

/-- A walk over sorted rows sees the rows of the range. -/
theorem walk_eq_filter {α : Type} {rows : List (UInt64 × α)}
    (h : rows.Pairwise fun a b => a.1 < b.1) :
    ((rows.filter fun row => r.start ≤ row.1).takeWhile fun row => r.contains row.1) =
      rows.filter fun row => r.contains row.1 := by
  rw [takeWhile_eq_filter, filter_filter]
  · refine filter_congr fun row _ => ?_
    have hstart : r.contains row.1 = true → r.start ≤ row.1 := fun hc =>
      start_le (Bool.and_eq_true_iff.mp hc).1
    rcases hc : r.contains row.1 <;> simp_all
  · refine List.Pairwise.imp_of_mem (fun ha _ hab => ?_) (h.filter _)
    exact contains_of_lt (by simpa using (mem_filter.mp ha).2) hab

end IndexRange

/-! ## Refinement -/

section

variable (display : Value → String) (pb : Protobuf PCommand)

/-- The entry is read back from its record. -/
structure Entry.Stored (e : Entry) : Prop where
  carried : e.payload.Carried display pb
  addressable : (encodeEntry display pb e).length < 2 ^ 64

/-- The row of an entry. -/
def Entry.row (e : Entry) : UInt64 × List UInt8 := (e.index, encodeEntry display pb e)

/-- The store holds the ordered log. -/
structure RaftLog.Holds (s : RaftLog) (l : OrderedLog) : Prop where
  rows : s.log.toList = l.live.map (Entry.row display pb)
  stored : ∀ e ∈ l.live, e.Stored display pb
  purged : s.info["last_purged"]? = l.lastPurged.map encodeLogId
  vote : s.info["vote"]? = l.vote.map encodeVote

/-- The entries a call brings are read back from their records. -/
def LogCall.Stored : LogCall → Prop
  | append entries => ∀ e ∈ entries, e.Stored display pb
  | truncate _ | purge _ | saveVote _ | reopen => True

end

section

variable {display : Value → String} {pb : Protobuf PCommand} {s : RaftLog} {l : OrderedLog}

namespace RaftLog

theorem holds_new : RaftLog.new.Holds display pb .new := by
  refine ⟨?_, ?_, ?_, ?_⟩ <;> simp [RaftLog.new, OrderedLog.new]

theorem Holds.sorted (h : s.Holds display pb l) : l.live.Pairwise fun a b => a.index < b.index := by
  have hrows := ExtTreeMap.ordered_keys_toList (t := s.log)
  rw [h.rows, pairwise_map] at hrows
  exact hrows.imp fun hab => Std.compare_eq_lt.mp hab

/-- Entries behind the last row are appended to the rows. -/
theorem toList_append {rows : List (UInt64 × List UInt8)} {entries : List Entry}
    {t : Table UInt64 (List UInt8)} (ht : t.toList = rows)
    (h : (rows.map Prod.fst ++ entries.map Entry.index).Pairwise (· < ·)) :
    (entries.foldl (fun log e => log.insert e.index (encodeEntry display pb e)) t).toList =
      rows ++ entries.map (Entry.row display pb) := by
  induction entries generalizing t rows with
  | nil => simpa using ht
  | cons e entries ih =>
    have hlast : ∀ p ∈ t.toList, compare p.1 e.index = .lt := fun p hp =>
      Std.compare_eq_lt.mpr ((pairwise_append.mp h).2.2 p.1
        (mem_map_of_mem (ht ▸ hp)) e.index mem_cons_self)
    have hinsert := toList_insert_of_lt hlast (v := encodeEntry display pb e)
    rw [ht] at hinsert
    simpa [Entry.row] using ih hinsert (by simpa using h)

end RaftLog

/-- Indexes that follow the last one and each other are sorted with the rest. -/
theorem OrderedLog.sorted_append {entries : List Entry}
    (hs : l.live.Pairwise fun a b => a.index < b.index) (h : l.Allows (.append entries)) :
    (l.live.map Entry.index ++ entries.map Entry.index).Pairwise (· < ·) := by
  have htrans : Trans (α := UInt64) (· < ·) (· < ·) (· < ·) := ⟨UInt64.lt_trans⟩
  have hchain := (h.imp fun i j hij => by rw [UInt64.lt_iff_toNat_lt]; omega :
    (_ : List UInt64).IsChain (· < ·)).pairwise
  rcases eq_nil_or_concat l.live with hnil | ⟨init, last, hlive⟩
  · simpa [hnil] using (pairwise_append.mp hchain).2.1
  · have hlast : l.lastLogId = some last.logId := by simp [OrderedLog.lastLogId, hlive]
    rw [hlast] at hchain
    obtain ⟨hbehind, hnew⟩ := pairwise_cons.mp hchain
    refine pairwise_append.mpr ⟨pairwise_map.mpr hs, hnew, fun i hi j hj => ?_⟩
    obtain ⟨e, he, rfl⟩ := mem_map.mp hi
    rw [hlive, concat_eq_append] at hs he
    rcases mem_append.mp he with he | he
    · have hle := (pairwise_append.mp hs).2.2 e he last (mem_singleton_self last)
      exact UInt64.lt_trans hle (hbehind j hj)
    · exact (mem_singleton.mp he) ▸ hbehind j hj

/-- Removing keys of a kind removes the live entries of that kind. -/
theorem RaftLog.Holds.rows_removeWhere (h : s.Holds display pb l) {p q : UInt64 → Bool}
    (hpq : ∀ i, (!p i) = q i) :
    (removeWhere s.log p).toList =
      (l.live.filter fun e => q e.index).map (Entry.row display pb) := by
  simp only [toList_removeWhere, hpq, h.rows, filter_map]
  rfl

/-- **One call keeps the store and the ordered log in step.** -/
theorem RaftLog.Holds.step (h : s.Holds display pb l) {call : LogCall} (ha : l.Allows call)
    (hc : call.Stored display pb) : (s.step display pb call).Holds display pb (l.step call) := by
  cases call with
  | append entries =>
    have hsorted := OrderedLog.sorted_append h.sorted ha
    refine ⟨?_, fun e he => (mem_append.mp he).elim (h.stored e) (hc e), h.purged, h.vote⟩
    rw [OrderedLog.step, map_append]
    exact RaftLog.toList_append h.rows (by simpa [Entry.row, Function.comp_def] using hsorted)
  | truncate logId =>
    have hkept (i : UInt64) : (!decide (logId.index ≤ i)) = decide (i < logId.index) := by
      rw [← decide_not, decide_eq_decide, UInt64.not_le]
    exact ⟨h.rows_removeWhere hkept, fun e he => h.stored e (mem_filter.mp he).1,
      h.purged, h.vote⟩
  | purge logId =>
    have hkept (i : UInt64) : (!decide (i ≤ logId.index)) = decide (logId.index < i) := by
      rw [← decide_not, decide_eq_decide, UInt64.not_le]
    refine ⟨h.rows_removeWhere hkept, fun e he => h.stored e (mem_filter.mp he).1, ?_, ?_⟩
    · simp [RaftLog.step, RaftLog.purge, OrderedLog.step]
    · simpa [RaftLog.step, RaftLog.purge, OrderedLog.step, ExtTreeMap.getElem?_insert] using h.vote
  | saveVote vote =>
    refine ⟨h.rows, h.stored, ?_, ?_⟩
    · simpa [RaftLog.step, RaftLog.saveVote, OrderedLog.step, ExtTreeMap.getElem?_insert] using
        h.purged
    · simp [RaftLog.step, RaftLog.saveVote, OrderedLog.step]
  | reopen => exact h

/-- **Any calls that keep to the contract.** -/
theorem RaftLog.Holds.run (h : s.Holds display pb l) {calls : List LogCall} (ha : l.AllowsAll calls)
    (hc : ∀ call ∈ calls, call.Stored display pb) :
    (calls.foldl (RaftLog.step display pb) s).Holds display pb (calls.foldl OrderedLog.step l) := by
  induction calls generalizing s l with
  | nil => exact h
  | cons call calls ih =>
    refine ih (h.step ha.1 (hc call mem_cons_self)) ha.2 fun c hcs => ?_
    exact hc c (mem_cons_of_mem _ hcs)

/-! ## Reads -/

namespace RaftLog.Holds

variable {raft : Openraft} (h : s.Holds display pb l)

include h

theorem tryGetLogEntries (range : IndexRange) :
    s.tryGetLogEntries pb raft range = .ok (l.live.filter fun e => range.contains e.index) := by
  have hsorted : (l.live.map (Entry.row display pb)).Pairwise fun a b => a.1 < b.1 :=
    pairwise_map.mpr h.sorted
  rw [RaftLog.tryGetLogEntries, h.rows, IndexRange.walk_eq_filter hsorted, filter_map]
  refine mapM_map_eq_ok fun e he => ?_
  have hst := h.stored e (mem_filter.mp he).1
  rw [Entry.row, decodeEntry_encodeEntry hst.carried hst.addressable (granted_none _), answered_ok,
    corrupt]

theorem readVote : s.readVote = .ok l.vote := by
  rw [RaftLog.readVote, h.vote]
  rcases l.vote with _ | vote
  · rfl
  · simp only [Option.map_some, decodeVote_encodeVote]
    rfl

theorem lastPurged : s.lastPurged = .ok l.lastPurged := by
  rw [RaftLog.lastPurged, h.purged]
  rcases l.lastPurged with _ | id
  · rfl
  · simp only [Option.map_some, decodeLogId_encodeLogId]
    rfl

theorem lastLogId : s.lastLogId pb raft l.lastPurged = .ok l.lastLogId := by
  rw [RaftLog.lastLogId, h.rows, List.getLast?_map, OrderedLog.lastLogId]
  rcases hlast : l.live.getLast? with _ | e
  · rfl
  · have hst := h.stored e (mem_of_getLast? hlast)
    simp only [Option.map_some, Entry.row,
      decodeEntry_encodeEntry hst.carried hst.addressable (granted_none _)]
    rfl

theorem getLogState : s.getLogState pb raft = .ok ⟨l.lastPurged, l.lastLogId⟩ := by
  rw [RaftLog.getLogState, h.lastPurged, ok_bind, h.lastLogId]
  rfl

end RaftLog.Holds

end

/-- **The store refines the ordered log**: after any calls that keep to the contract and append
entries that the wire carries, the reads of the store are those of the ordered log, whose entries
are in increasing order. -/
theorem raftLog_refines (display : Value → String) (pb : Protobuf PCommand) (raft : Openraft)
    (calls : List LogCall)
    (ha : OrderedLog.new.AllowsAll calls) (hc : ∀ call ∈ calls, call.Stored display pb) :
    let s := calls.foldl (RaftLog.step display pb) .new
    let l := calls.foldl OrderedLog.step .new
    (∀ range, s.tryGetLogEntries pb raft range =
      .ok (l.live.filter fun e => range.contains e.index)) ∧
      l.live.Pairwise (fun a b => a.index < b.index) ∧
      s.getLogState pb raft = .ok ⟨l.lastPurged, l.lastLogId⟩ ∧ s.readVote = .ok l.vote := by
  have hnew : RaftLog.new.Holds display pb .new := RaftLog.holds_new
  have h := hnew.run ha hc
  exact ⟨h.tryGetLogEntries, h.sorted, h.getLogState, h.readVote⟩

/-- The entry without payload at an index of the first term. -/
def blankAt (index : UInt64) : Entry := ⟨⟨⟨1, 1⟩, index⟩, .blank⟩

/-- Three entries, of which the first is purged and the last truncated; the one that stays has a
command. -/
theorem raftLog_refines_purged :
    ((([.append [blankAt 4, ⟨⟨⟨1, 1⟩, 5⟩, .normal insertOne⟩, blankAt 6],
      .purge (blankAt 4).logId, .reopen, .truncate (blankAt 6).logId] : List LogCall).foldl
        (RaftLog.step Host.bare.display (insertOnePb Host.bare.display)) .new).tryGetLogEntries
          (insertOnePb Host.bare.display) .filling ⟨.unbounded, .unbounded⟩) =
      .ok [⟨⟨⟨1, 1⟩, 5⟩, .normal insertOne⟩] := by
  refine (raftLog_refines _ _ _ _ ?_ ?_).1 _
  · exact ⟨by decide, by decide, by decide, by decide, trivial⟩
  · simp only [forall_mem_cons, LogCall.Stored]
    refine ⟨⟨?_, ?_, ?_, fun _ h => absurd h not_mem_nil⟩, trivial, trivial, trivial,
      fun _ h => absurd h not_mem_nil⟩
    · exact ⟨trivial, by decide⟩
    · exact ⟨insertOne_carried _, by decide⟩
    · exact ⟨trivial, by decide⟩

/-- A command that inserts a pair of one element. -/
def lonePairCommand : Command := .mutate "p" [⟨.insert, "e", [.compound .pair [.number 1]]⟩]

/-- The protobuf library for that command and the bytes of its message. -/
def lonePairPb : Protobuf PCommand :=
  .only (lonePairCommand.toProto Host.bare.display) [0x08, 1, 0x12, 18, 0x0A, 1, 0x70,
    0x12, 13, 0x08, 1, 0x12, 1, 0x65, 0x1A, 6, 0x4A, 4, 0x0A, 2, 0x08, 2]

/-- **A pair without two elements comes back as a list**: the append keeps to the contract and the
protobuf library reads its message back, and yet the entry that is read is another one. -/
theorem raftLog_alters_pair :
    OrderedLog.new.Allows (.append [⟨⟨⟨1, 1⟩, 0⟩, .normal lonePairCommand⟩]) ∧
    lonePairPb.RoundTrips (lonePairCommand.toProto Host.bare.display) ∧
    (RaftLog.new.append Host.bare.display lonePairPb
      [⟨⟨⟨1, 1⟩, 0⟩, .normal lonePairCommand⟩]).tryGetLogEntries lonePairPb .filling
        ⟨.unbounded, .unbounded⟩ =
      .ok [⟨⟨⟨1, 1⟩, 0⟩, .normal (.mutate "p" [⟨.insert, "e", [.compound .list [.number 1]]⟩])⟩] :=
  ⟨by decide, rfl, rfl⟩

end Mangle

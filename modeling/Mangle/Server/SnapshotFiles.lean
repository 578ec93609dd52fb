import Mangle.Raft.Wire

/-!
# Server/SnapshotFiles — the snapshot on disk, and crashes

`FsmStore` keeps its snapshot in two files, the data and the metadata.  `build_snapshot` replaces
one after the other through temporary files that it syncs; `install_snapshot` renames the received
file to the data and rewrites the metadata in place.

Here a snapshot operation is its list of file operations, and the process may stop after any number
of them.  A file that was not synced may then lose its contents.

* `restore_consistent` — as long as no stop falls between the replacement of the data and that of
  the metadata, and none loses contents that were not synced, what `restore` finds is one snapshot;
* `restore_mixes_snapshots` — a stop between the two renames leaves new data with old metadata.
-/

namespace Mangle

open Machinery List

variable {info : SnapshotMeta} {k : Nat} {snap : Snapshot} {chunks : List (List UInt8)}

/-! ## Files -/

/-- The files of the raft directory. -/
inductive SnapFile where
  | data
  | info
  | receiving
  | dataTmp
  | infoTmp
  deriving DecidableEq

/-- The contents of a file, and whether they were synced. -/
structure DiskFile where
  content : List UInt8
  synced : Bool
  deriving DecidableEq

/-- The raft directory. -/
abbrev SnapDir := SnapFile → Option DiskFile

/-- A file operation. -/
inductive FileOp where
  | create (f : SnapFile)
  | write (f : SnapFile) (bytes : List UInt8)
  | sync (f : SnapFile)
  | rename (src dst : SnapFile)

/-- One file operation: `create` empties a file that exists. -/
def FileOp.apply (d : SnapDir) : FileOp → SnapDir
  | create f => Function.update d f (some ⟨[], false⟩)
  | write f bytes =>
      Function.update d f ((d f).map fun file => ⟨file.content ++ bytes, false⟩)
  | sync f => Function.update d f ((d f).map fun file => { file with synced := true })
  | rename src dst => Function.update (Function.update d dst (d src)) src none

/-- File operations, one after the other. -/
def applyOps (d : SnapDir) (ops : List FileOp) : SnapDir := ops.foldl FileOp.apply d

/-- What a stop loses: an unsynced file may be left with other contents. -/
def afterStop (lost : SnapFile → Option (List UInt8)) (d : SnapDir) : SnapDir := fun f =>
  (d f).map fun file =>
    if file.synced then file else { file with content := (lost f).getD file.content }

variable {d : SnapDir} {f : SnapFile}

/-! ## The state machine's snapshot operations -/

section

variable {σ : Type} (display : Value → String) (pb : Protobuf PSnapshot)
  (install : Snapshot → Except String σ)

/-- The data of a snapshot file. -/
def decodeSnapshot (bytes : List UInt8) : Except String Snapshot := do
  let snap ← pb.decodeFromSlice bytes
  Snapshot.fromProto snap

/-- A snapshot operation: a snapshot of the state is built, or one is received in chunks. -/
inductive SnapEvent where
  | build (snap : Snapshot) (info : SnapshotMeta)
  | receive (chunks : List (List UInt8)) (info : SnapshotMeta)

/-- The file operations of `build_snapshot`. -/
def buildOps (snap : Snapshot) (info : SnapshotMeta) : List FileOp :=
  [.create .dataTmp, .write .dataTmp (pb.encodeToVec (snap.toProto display)), .sync .dataTmp,
    .rename .dataTmp .data, .create .infoTmp, .write .infoTmp (encodeMeta info), .sync .infoTmp,
    .rename .infoTmp .info]

/-- The file operations of `begin_receiving_snapshot` and the stream into its file. -/
def receiveOps (chunks : List (List UInt8)) : List FileOp :=
  .create .receiving :: chunks.map (.write .receiving)

/-- The state received bytes install, if they decode and can be installed. -/
def received (bytes : List UInt8) : Except String (Snapshot × σ) := do
  let snap ← decodeSnapshot pb bytes
  let st ← install snap
  pure (snap, st)

/-- The file operations of `install_snapshot`, which come after the state was installed. -/
def installOps (chunks : List (List UInt8)) (info : SnapshotMeta) : List FileOp :=
  match received pb install chunks.flatten with
  | .ok _ => [.rename .receiving .data, .create .info, .write .info (encodeMeta info)]
  | .error _ => []

/-- The file operations of a snapshot operation. -/
def SnapEvent.ops : SnapEvent → List FileOp
  | build snap info => buildOps display pb snap info
  | receive chunks info => receiveOps chunks ++ installOps pb install chunks info

/-- The end of the process after some file operations, and what it loses. -/
structure Stop where
  after : Nat
  lost : SnapFile → Option (List UInt8)

/-- A snapshot operation, during or after which the process may stop. -/
structure SnapStep where
  event : SnapEvent
  stop : Option Stop

/-- The directory after a step. -/
def SnapStep.run (d : SnapDir) (step : SnapStep) : SnapDir :=
  match step.stop with
  | some stop =>
      afterStop stop.lost (applyOps d ((step.event.ops display pb install).take stop.after))
  | none => applyOps d (step.event.ops display pb install)

/-- `has_snapshot`. -/
def hasSnapshot (d : SnapDir) : Bool := (d .data).isSome && (d .info).isSome

/-- What `restore` installs: the state, and the progress. -/
structure Restored (σ : Type) where
  state : σ
  lastApplied : Option LogId
  lastMembership : StoredMembership

variable (raft : Openraft)

/-- `restore` of the two files. -/
def restoreFiles (data info : List UInt8) : Except String (Restored σ) := do
  let snap ← decodeSnapshot pb data
  let info ← answered (decodeMeta raft none info)
  let st ← install snap
  pure ⟨st, info.lastLogId, info.lastMembership⟩

/-- `restore`; nothing is done without a snapshot. -/
def restore (d : SnapDir) : Except String (Option (Restored σ)) :=
  match d .data, d .info with
  | some data, some info => (restoreFiles pb install raft data.content info.content).map some
  | _, _ => .ok none

/-- The snapshot an operation writes, with its metadata. -/
def SnapEvent.snapshot : SnapEvent → Option (Snapshot × SnapshotMeta)
  | build snap info => some (snap, info)
  | receive chunks info =>
      match received pb install chunks.flatten with
      | .ok (snap, _) => some (snap, info)
      | .error _ => none

/-- After `k` of its file operations the operation has replaced the data, and the metadata is
neither missing nor replaced yet. -/
def SnapEvent.Torn (d : SnapDir) (k : Nat) : SnapEvent → Prop
  | build _ _ => 3 < k ∧ k < 8 ∧ d .info ≠ none
  | receive chunks _ => chunks.length + 1 < k ∧ k < chunks.length + 4 ∧
      (d .info ≠ none ∨ k = chunks.length + 3)

/-- The stop leaves the two files of the snapshot as they are. -/
def Stop.Keeps (stop : Stop) (d : SnapDir) : Prop :=
  ∀ f, f = .data ∨ f = .info → ∀ file, d f = some file → file.synced = true ∨ stop.lost f = none

/-- **The condition on a step**: if the process stops, the snapshot is not torn and nothing of it is
lost. -/
def SnapStep.Safe (d : SnapDir) (step : SnapStep) : Prop :=
  ∀ stop, step.stop = some stop → ¬ step.event.Torn d stop.after ∧
    stop.Keeps (applyOps d ((step.event.ops display pb install).take stop.after))

/-- The condition on every step of a history. -/
def SafeHistory (d : SnapDir) : List SnapStep → Prop
  | [] => True
  | step :: steps => step.Safe display pb install d ∧
      SafeHistory (step.run display pb install d) steps

/-- The snapshot an operation builds is read back and can be installed, and its metadata has an
encoding of addressable length. -/
def SnapEvent.Restorable : SnapEvent → Prop
  | build snap info => snap.wellFormed = true ∧ pb.RoundTrips (snap.toProto display) ∧
      (∃ st, install snap = .ok st) ∧ (encodeMeta info).length < 2 ^ 64
  | receive _ info => (encodeMeta info).length < 2 ^ 64

end

/-! ## Which files an operation touches -/

/-- The files an operation touches. -/
def FileOp.touched : FileOp → List SnapFile
  | create f | write f _ | sync f => [f]
  | rename src dst => [src, dst]

theorem FileOp.apply_of_notMem {op : FileOp} (h : f ∉ op.touched) : op.apply d f = d f := by
  cases op with
  | create g | write g _ | sync g => exact Function.update_of_ne (ne_of_not_mem_cons h) _ _
  | rename src dst =>
    simp only [touched, mem_cons, not_mem_nil, or_false, not_or] at h
    rw [apply, Function.update_of_ne h.1, Function.update_of_ne h.2]

theorem applyOps_of_notMem {ops : List FileOp} (h : ∀ op ∈ ops, f ∉ op.touched) :
    applyOps d ops f = d f := by
  induction ops generalizing d with
  | nil => rfl
  | cons op ops ih =>
    have hrest := ih (d := op.apply d) fun o ho => h o (mem_cons_of_mem _ ho)
    exact hrest.trans (FileOp.apply_of_notMem (h op mem_cons_self))

/-- A file the first `n` operations leave alone is the same after any fewer of them. -/
theorem applyOps_take_of_notMem {ops : List FileOp} {n : Nat} (hk : k ≤ n)
    (h : ∀ op ∈ ops.take n, f ∉ op.touched) : applyOps d (ops.take k) f = d f :=
  applyOps_of_notMem fun op hop => h op ((take_subset_take_left ops hk) hop)

theorem afterStop_of_keeps {stop : Stop} (h : stop.Keeps d) (hf : f = .data ∨ f = .info) :
    afterStop stop.lost d f = d f := by
  rcases hd : d f with _ | file
  · simp [afterStop, hd]
  · rcases h f hf file hd with hs | hs <;> simp [afterStop, hd, hs]

theorem applyOps_append (d : SnapDir) (ops ops' : List FileOp) :
    applyOps d (ops ++ ops') = applyOps (applyOps d ops) ops' := foldl_append

theorem applyOps_writes {file : DiskFile} (h : d f = some file) (chunks : List (List UInt8)) :
    ∃ synced, applyOps d (chunks.map (.write f)) f =
      some ⟨file.content ++ chunks.flatten, synced⟩ := by
  induction chunks generalizing d file with
  | nil => exact ⟨file.synced, by simp [applyOps, h]⟩
  | cons c chunks ih =>
    have hstep : FileOp.apply d (.write f c) f = some ⟨file.content ++ c, false⟩ := by
      simp [FileOp.apply, h]
    simpa [applyOps] using ih hstep

/-! ## One snapshot -/

section

variable {σ : Type} (display : Value → String) (pb : Protobuf PSnapshot)
  (install : Snapshot → Except String σ)

/-- The two files hold the snapshot `p.1` and its metadata `p.2`. -/
structure Written (p : Snapshot × SnapshotMeta) (data info : Option DiskFile) : Prop where
  data : ∃ file, data = some file ∧ decodeSnapshot pb file.content = .ok p.1
  info : ∃ file, info = some file ∧ file.content = encodeMeta p.2
  installs : ∃ st, install p.1 = .ok st
  addressable : (encodeMeta p.2).length < 2 ^ 64

/-- If there is metadata, the two files hold one of the snapshots taken. -/
def OneSnapshot (taken : List (Snapshot × SnapshotMeta)) (d : SnapDir) : Prop :=
  d .info ≠ none → ∃ p ∈ taken, Written pb install p (d .data) (d .info)

/-- The snapshots a history takes. -/
def taken (steps : List SnapStep) : List (Snapshot × SnapshotMeta) :=
  steps.filterMap fun step => step.event.snapshot pb install

/-- What some of the file operations of `ev` did to the snapshot: nothing, or there is no metadata
yet, or the snapshot is that of `ev`. -/
def Replaced (ev : SnapEvent) (d d' : SnapDir) : Prop :=
  (d' .data = d .data ∧ d' .info = d .info) ∨ d' .info = none ∨
    ∃ p, ev.snapshot pb install = some p ∧ Written pb install p (d' .data) (d' .info)

variable {display pb install}

/-- **What `restore` makes of one snapshot.** -/
theorem Written.restore {p : Snapshot × SnapshotMeta} (raft : Openraft)
    (h : Written pb install p (d .data) (d .info)) :
    ∃ st, install p.1 = .ok st ∧
      restore pb install raft d = .ok (some ⟨st, p.2.lastLogId, p.2.lastMembership⟩) := by
  obtain ⟨data, hdata, hsnap⟩ := h.data
  obtain ⟨info, hinfo, hmeta⟩ := h.info
  obtain ⟨st, hst⟩ := h.installs
  refine ⟨st, hst, ?_⟩
  simp only [Mangle.restore, hdata, hinfo, restoreFiles, hsnap, hmeta,
    decodeMeta_encodeMeta h.addressable (granted_none _), answered_ok, hst, ok_bind]
  rfl

theorem decodeSnapshot_encode (h : snap.wellFormed = true)
    (hpb : pb.RoundTrips (snap.toProto display)) :
    decodeSnapshot pb (pb.encodeToVec (snap.toProto display)) = .ok snap := by
  rw [decodeSnapshot, hpb, ok_bind, Snapshot.fromProto_toProto display h]

/-- A build that runs to its end has written its snapshot. -/
theorem written_build (h : (SnapEvent.build snap info).Restorable display pb install) :
    Written pb install (snap, info) (applyOps d (buildOps display pb snap info) .data)
      (applyOps d (buildOps display pb snap info) .info) where
  data := by simp [applyOps, buildOps, FileOp.apply, decodeSnapshot_encode h.1 h.2.1]
  info := by simp [applyOps, buildOps, FileOp.apply]
  installs := h.2.2.1
  addressable := h.2.2.2

theorem replaced_build (h : (SnapEvent.build snap info).Restorable display pb install)
    (ht : ¬ (SnapEvent.build snap info).Torn d k) :
    Replaced pb install (.build snap info) d
      (applyOps d ((buildOps display pb snap info).take k)) := by
  rcases Nat.lt_or_ge 3 k with hk | hk
  · rcases Nat.lt_or_ge k 8 with hk' | hk'
    · have hinfo : d .info = none := by
        by_contra hne
        exact ht ⟨hk, hk', hne⟩
      refine .inr (.inl ((applyOps_take_of_notMem (Nat.le_of_lt_succ hk') ?_).trans hinfo))
      simp [buildOps, FileOp.touched]
    · rw [take_of_length_le (by simpa [buildOps] using hk')]
      exact .inr (.inr ⟨_, rfl, written_build h⟩)
  · refine .inl ⟨applyOps_take_of_notMem hk ?_, applyOps_take_of_notMem hk ?_⟩ <;>
      simp [buildOps, FileOp.touched]

/-- A stream leaves the files of the snapshot alone. -/
theorem notMem_receiveOps (hf : f ≠ .receiving) : ∀ op ∈ receiveOps chunks, f ∉ op.touched := by
  simp [receiveOps, FileOp.touched, hf]

theorem length_receiveOps (chunks : List (List UInt8)) :
    (receiveOps chunks).length = chunks.length + 1 := by simp [receiveOps]

/-- The streamed file holds the chunks. -/
theorem applyOps_receiveOps (d : SnapDir) (chunks : List (List UInt8)) :
    ∃ synced, applyOps d (receiveOps chunks) .receiving = some ⟨chunks.flatten, synced⟩ := by
  have hcreate : FileOp.apply d (.create .receiving) .receiving = some ⟨[], false⟩ := by
    simp [FileOp.apply]
  simpa [receiveOps, applyOps] using applyOps_writes hcreate chunks

/-- An installation that runs to its end has written the received snapshot. -/
theorem written_receive {st : σ} (hr : received pb install chunks.flatten = .ok (snap, st))
    (ha : (encodeMeta info).length < 2 ^ 64) :
    Written pb install (snap, info)
      (applyOps d (receiveOps chunks ++ installOps pb install chunks info) .data)
      (applyOps d (receiveOps chunks ++ installOps pb install chunks info) .info) := by
  obtain ⟨synced, hfile⟩ := applyOps_receiveOps d chunks
  obtain ⟨snap', hsnap, hrest⟩ := bind_eq_ok.mp hr
  obtain ⟨st', hst, heq⟩ := bind_eq_ok.mp hrest
  obtain ⟨rfl, rfl⟩ := Prod.mk.inj (Except.ok.inj heq)
  rw [applyOps_append, installOps, hr]
  refine ⟨⟨⟨chunks.flatten, synced⟩, ?_, hsnap⟩, ⟨⟨encodeMeta info, false⟩, ?_, rfl⟩,
    ⟨st', hst⟩, ha⟩
  · rw [← hfile]
    rfl
  · rfl

theorem replaced_receive (ha : (encodeMeta info).length < 2 ^ 64)
    (ht : ¬ (SnapEvent.receive chunks info).Torn d k) :
    Replaced pb install (.receive chunks info) d
      (applyOps d ((receiveOps chunks ++ installOps pb install chunks info).take k)) := by
  have hlen := length_receiveOps chunks
  -- as long as the received file is not renamed, the snapshot is the old one
  have hstream {ops : List FileOp} (hops : ∀ op ∈ ops, op ∈ receiveOps chunks) :
      Replaced pb install (.receive chunks info) d (applyOps d ops) :=
    .inl ⟨applyOps_of_notMem fun op hop => notMem_receiveOps (by decide) op (hops op hop),
      applyOps_of_notMem fun op hop => notMem_receiveOps (by decide) op (hops op hop)⟩
  rcases Nat.lt_or_ge (chunks.length + 1) k with hk | hk
  · rcases hr : received pb install chunks.flatten with msg | ⟨snap, st⟩
    · have hnone : installOps pb install chunks info = [] := by rw [installOps, hr]
      rw [hnone, append_nil]
      exact hstream fun op hop => mem_of_mem_take hop
    · have hthree : (installOps pb install chunks info).length = 3 := by rw [installOps, hr]; rfl
      rcases Nat.lt_or_ge k (chunks.length + 4) with hk' | hk'
      · have hinfo : d .info = none ∧ k ≤ chunks.length + 2 := by
          simp only [SnapEvent.Torn] at ht
          grind
        refine .inr (.inl ((applyOps_take_of_notMem hinfo.2 ?_).trans hinfo.1))
        have hone : (receiveOps chunks ++ installOps pb install chunks info).take
            (chunks.length + 2) = receiveOps chunks ++ [.rename .receiving .data] := by
          have htwo : chunks.length + 2 = (receiveOps chunks).length + 1 := by omega
          rw [htwo, take_length_add_append, installOps, hr]
          rfl
        rw [hone]
        refine forall_mem_append.mpr ⟨notMem_receiveOps (by decide), ?_⟩
        simp [FileOp.touched]
      · rw [take_of_length_le (by rw [length_append, hlen, hthree]; omega)]
        exact .inr (.inr ⟨(snap, info), by rw [SnapEvent.snapshot, hr], written_receive hr ha⟩)
  · rw [take_append_of_le_length (by omega)]
    exact hstream fun op hop => mem_of_mem_take hop

/-- **What a snapshot operation has done after `k` file operations**, unless it is torn. -/
theorem SnapEvent.replaced {ev : SnapEvent} (h : ev.Restorable display pb install)
    (ht : ¬ ev.Torn d k) :
    Replaced pb install ev d (applyOps d ((ev.ops display pb install).take k)) := by
  cases ev with
  | build snap info => exact replaced_build h ht
  | receive chunks info => exact replaced_receive h ht

variable (display pb install) in
theorem SnapEvent.not_torn (ev : SnapEvent) (d : SnapDir) :
    ∃ k, ¬ ev.Torn d k ∧ (ev.ops display pb install).length ≤ k := by
  refine ⟨match ev with | .build _ _ => 8 | .receive chunks _ => chunks.length + 4, ?_, ?_⟩
  · cases ev <;> simp [Torn]
  · cases ev with
    | build => simp [ops, buildOps]
    | receive chunks info =>
      rw [ops, length_append, length_receiveOps, installOps]
      split <;> simp

/-- **A safe step does to the snapshot what its operation does.** -/
theorem SnapStep.replaced {step : SnapStep} (h : step.event.Restorable display pb install)
    (hs : step.Safe display pb install d) :
    Replaced pb install step.event d (step.run display pb install d) := by
  rcases hstop : step.stop with _ | stop
  · obtain ⟨k, ht, hk⟩ := step.event.not_torn display pb install d
    have hall := SnapEvent.replaced h ht
    rw [take_of_length_le hk] at hall
    rwa [SnapStep.run, hstop]
  · obtain ⟨ht, hkeeps⟩ := hs stop hstop
    have hops := SnapEvent.replaced h ht
    simp only [SnapStep.run, hstop, Replaced] at hops ⊢
    rwa [afterStop_of_keeps hkeeps (.inl rfl), afterStop_of_keeps hkeeps (.inr rfl)]

variable {H : List (Snapshot × SnapshotMeta)}

/-- **One step keeps the files those of one snapshot.** -/
theorem OneSnapshot.step {step : SnapStep}
    (h : OneSnapshot pb install H d) (hr : step.event.Restorable display pb install)
    (hs : step.Safe display pb install d) :
    OneSnapshot pb install (H ++ taken pb install [step]) (step.run display pb install d) := by
  intro hinfo
  rcases SnapStep.replaced hr hs with ⟨hd, hi⟩ | hnone | ⟨p, hp, hw⟩
  · rw [hd, hi]
    obtain ⟨p, hp, hw⟩ := h (hi ▸ hinfo)
    exact ⟨p, mem_append_left _ hp, hw⟩
  · exact absurd hnone hinfo
  · exact ⟨p, mem_append_right _ (by simp [taken, hp]), hw⟩

/-- **Any safe history does.** -/
theorem OneSnapshot.run {steps : List SnapStep}
    (h : OneSnapshot pb install H d) (hr : ∀ step ∈ steps, step.event.Restorable display pb install)
    (hs : SafeHistory display pb install d steps) :
    OneSnapshot pb install (H ++ taken pb install steps)
      (steps.foldl (SnapStep.run display pb install) d) := by
  induction steps generalizing d H with
  | nil => simpa [taken] using h
  | cons step steps ih =>
    have hone := h.step (hr step mem_cons_self) hs.1
    have hall := ih hone (fun st hst => hr st (mem_cons_of_mem _ hst)) hs.2
    rwa [append_assoc, taken, taken, ← filterMap_append] at hall

end

/-- **Restart finds one snapshot**: after a history of snapshot operations and stops that all keep
to the condition, whenever there is a snapshot, `restore` succeeds with the state and the progress
of one and the same snapshot of the history. -/
theorem restore_consistent {σ : Type} (display : Value → String) (pb : Protobuf PSnapshot)
    (raft : Openraft) (install : Snapshot → Except String σ) (steps : List SnapStep)
    (hr : ∀ step ∈ steps, step.event.Restorable display pb install)
    (hs : SafeHistory display pb install (fun _ => none) steps) :
    let d := steps.foldl (SnapStep.run display pb install) fun _ => none
    hasSnapshot d = true → ∃ p ∈ taken pb install steps, ∃ st, install p.1 = .ok st ∧
      restore pb install raft d = .ok (some ⟨st, p.2.lastLogId, p.2.lastMembership⟩) := by
  intro d hd
  have hone : OneSnapshot pb install (taken pb install steps) d := by
    simpa using OneSnapshot.run (H := []) (fun hne => absurd rfl hne) hr hs
  have hinfo : d .info ≠ none := by
    simp only [hasSnapshot, Bool.and_eq_true, Option.isSome_iff_ne_none] at hd
    exact hd.2
  obtain ⟨p, hp, hw⟩ := hone hinfo
  exact ⟨p, hp, hw.restore raft⟩

/-- The bytes of a snapshot of `n` programs of one name, without source and facts. -/
def programsBytes (n : Nat) : List UInt8 :=
  (List.replicate n [0x0A, 5, 0x0A, 1, 0x70, 0x1A, 0]).flatten

/-- A protobuf library for such snapshots. -/
def Protobuf.counting : Protobuf PSnapshot where
  encodeToVec s := programsBytes s.programs.length
  decodeFromSlice bytes :=
    if bytes = programsBytes (bytes.length / 7) then
      .ok ⟨List.replicate (bytes.length / 7) ⟨"p", "", some ⟨[], []⟩⟩⟩
    else .error "unexpected end of buffer"

/-- A snapshot of `n` programs, and the metadata of a snapshot at an index. -/
def programsSnapshot (n : Nat) : Snapshot := ⟨List.replicate n ⟨"p", "", ⟨[], []⟩⟩⟩
@[inherit_doc programsSnapshot] def metaAt (index : UInt64) : SnapshotMeta :=
  ⟨"", some ⟨⟨1, 1⟩, index⟩, noMembership⟩

/-- A second build that stops before the data is renamed leaves the first snapshot. -/
theorem restore_consistent_stopped :
    ∃ p ∈ taken .counting Except.ok [⟨.build (programsSnapshot 0) (metaAt 1), none⟩,
        ⟨.build (programsSnapshot 1) (metaAt 2), some ⟨3, fun _ => none⟩⟩],
      ∃ st, Except.ok p.1 = (.ok st : Except String Snapshot) ∧
        restore .counting Except.ok .filling (([⟨.build (programsSnapshot 0) (metaAt 1), none⟩,
          ⟨.build (programsSnapshot 1) (metaAt 2), some ⟨3, fun _ => none⟩⟩] : List SnapStep).foldl
            (SnapStep.run Host.bare.display .counting Except.ok) fun _ => none) =
          .ok (some ⟨st, p.2.lastLogId, p.2.lastMembership⟩) := by
  refine restore_consistent Host.bare.display .counting .filling Except.ok _ ?_ ?_ (by decide)
  · simp only [forall_mem_cons]
    exact ⟨⟨by decide, rfl, ⟨_, rfl⟩, by decide⟩, ⟨by decide, rfl, ⟨_, rfl⟩, by decide⟩,
      fun _ h => absurd h not_mem_nil⟩
  · refine ⟨fun stop h => absurd h (by simp), fun stop h => ?_, trivial⟩
    obtain rfl := Option.some.inj h
    exact ⟨by simp [SnapEvent.Torn], fun f _ file _ => .inr rfl⟩

/-- **A stop between the two renames** leaves the data of the second snapshot with the metadata of
the first: the state has the effects of entries that are applied again after the restart. -/
theorem restore_mixes_snapshots :
    restore .counting Except.ok .filling (([⟨.build (programsSnapshot 0) (metaAt 1), none⟩,
      ⟨.build (programsSnapshot 1) (metaAt 2), some ⟨4, fun _ => none⟩⟩] : List SnapStep).foldl
        (SnapStep.run Host.bare.display .counting Except.ok) fun _ => none) =
      .ok (some ⟨programsSnapshot 1, (metaAt 1).lastLogId, (metaAt 1).lastMembership⟩) := by
  rfl

end Mangle

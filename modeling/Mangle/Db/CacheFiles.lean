import Mangle.Db.CacheJson
import Mangle.Db.SimpleRowCut

/-!
# Db/CacheFiles — the files of the cache, and stops of the process

`FileIdbBackend` keeps the metadata of a snapshot in one file and its relations in another.  `save`
overwrites them in place, one after the other; `invalidate` removes them.

Here a call is its list of file operations, one for each character written, and the process may stop
after any number of them, or inside a character.

* `load_of_safe_history` — **what `load` returns was saved together**, as long as no stop falls
  between the end of the metadata and the emptying of a snapshot that is there, and the snapshots
  are of numbers and plain strings;
* `load_mixes_saves` — a stop at that point leaves new metadata with an old snapshot.
-/

namespace Mangle

open Machinery Parse List

variable {saved : List (StampedMeta × IdbSnapshot)} {file : TextFile}

/-! ## Files -/

/-- The files of a database in the cache directory. -/
inductive CacheFile where
  | info
  | idb
  deriving DecidableEq

/-- The cache directory, as far as one database uses it. -/
abbrev CacheDir := CacheFile → Option TextFile

/-- A file operation. -/
inductive CacheOp where
  | create (f : CacheFile)
  | write (f : CacheFile) (c : Char)
  | remove (f : CacheFile)

/-- One file operation: `create` empties a file that exists. -/
def CacheOp.apply (d : CacheDir) : CacheOp → CacheDir
  | create f => Function.update d f (some ⟨[], false⟩)
  | write f c => Function.update d f ((d f).map fun file => ⟨file.text ++ [c], file.torn⟩)
  | remove f => Function.update d f none

/-- A file operation in which the process stops: a character may be written in part. -/
def CacheOp.tear (d : CacheDir) : CacheOp → CacheDir
  | write f _ => Function.update d f ((d f).map fun file => { file with torn := true })
  | create _ | remove _ => d

/-- File operations, one after the other. -/
def applyCacheOps (d : CacheDir) (ops : List CacheOp) : CacheDir := ops.foldl CacheOp.apply d

/-- The end of the process after some file operations, and whether it comes inside the next one. -/
structure CacheStop where
  after : Nat
  torn : Bool

/-- The file operations up to the end of the process. -/
def applyUntil (d : CacheDir) (ops : List CacheOp) (stop : CacheStop) : CacheDir :=
  let d := applyCacheOps d (ops.take stop.after)
  if stop.torn then (ops[stop.after]?).elim d (CacheOp.tear d) else d

/-! ## The backend -/

variable {d : CacheDir}

/-- The errors of `load`. -/
inductive CacheError where
  | invalidUtf8
  | json (e : String)
  | rows (e : RowError)
  deriving DecidableEq

section Backend

variable (json : MetaJson) (lib : TextLib) (dbg : AstDebug)

/-- The metadata of a file. -/
def readMeta (file : TextFile) : Except CacheError StampedMeta :=
  if file.torn then .error .invalidUtf8
  else match json.fromStr file.text with
    | .ok info => .ok info
    | .error e => .error (.json e)

/-- The relations of a file. -/
def readIdb (file : TextFile) : Except CacheError IdbSnapshot :=
  match readSimpleRow lib dbg file with
  | .ok data => .ok data.toPairs
  | .error e => .error (.rows e)

/-- `load`. -/
def load (d : CacheDir) : Except CacheError (Option (StampedMeta × IdbSnapshot)) :=
  match d .info, d .idb with
  | some info, some idb => do
    let info ← readMeta json info
    let snapshot ← readIdb lib dbg idb
    pure (some (info, snapshot))
  | _, _ => .ok none

/-- The file operations that write a text. -/
def writeOps (f : CacheFile) (text : List Char) : List CacheOp := .create f :: text.map (.write f)

/-- A call of the backend. -/
inductive CacheCall where
  | save (info : StampedMeta) (snapshot : IdbSnapshot)
  | invalidate

/-- The file operations of a call. -/
def CacheCall.ops : CacheCall → List CacheOp
  | save info snapshot =>
    writeOps .info (json.toStringPretty info) ++ writeOps .idb (writeSimpleRow lib snapshot)
  | invalidate => [.remove .info, .remove .idb]

/-- A call, during which the process may stop. -/
structure CacheStep where
  call : CacheCall
  stop : Option CacheStop

/-- The directory after a step. -/
def CacheStep.run (d : CacheDir) (step : CacheStep) : CacheDir :=
  match step.stop with
  | some stop => applyUntil d (step.call.ops json lib) stop
  | none => applyCacheOps d (step.call.ops json lib)

/-- The directory after a history. -/
def runCache (d : CacheDir) (steps : List CacheStep) : CacheDir :=
  steps.foldl (CacheStep.run json lib) d

/-- What the calls of a history saved. -/
def savedPairs (steps : List CacheStep) : List (StampedMeta × IdbSnapshot) :=
  steps.filterMap fun step => match step.call with
    | .save info snapshot => some (info, snapshot)
    | .invalidate => none

/-- **The condition on a step**: if the process stops between the end of the metadata and the
emptying of the snapshot, there was no snapshot. -/
def CacheStep.Safe (d : CacheDir) (step : CacheStep) : Prop :=
  match step.call, step.stop with
  | .save info _, some stop =>
    stop.after = (json.toStringPretty info).length + 1 → d .idb = none
  | _, _ => True

/-- The condition on every step of a history. -/
def SafeCacheHistory (d : CacheDir) : List CacheStep → Prop
  | [] => True
  | step :: steps => step.Safe json d ∧ SafeCacheHistory (step.run json lib d) steps

end Backend

/-! ## Writing a file -/

theorem applyCacheOps_append (d : CacheDir) (ops ops' : List CacheOp) :
    applyCacheOps d (ops ++ ops') = applyCacheOps (applyCacheOps d ops) ops' := foldl_append

theorem applyCacheOps_writes (d : CacheDir) (f : CacheFile) (pre text : List Char) :
    applyCacheOps (Function.update d f (some ⟨pre, false⟩)) (text.map (.write f)) =
      Function.update d f (some ⟨pre ++ text, false⟩) := by
  induction text generalizing pre with
  | nil => simp [applyCacheOps]
  | cons c text ih =>
    have hstep : CacheOp.apply (Function.update d f (some ⟨pre, false⟩)) (.write f c) =
        Function.update d f (some ⟨pre ++ [c], false⟩) := by
      simp [CacheOp.apply]
    rw [map_cons, applyCacheOps, foldl_cons, hstep]
    exact (ih _).trans (by simp)

/-- A file is written. -/
theorem applyCacheOps_writeOps (d : CacheDir) (f : CacheFile) (text : List Char) :
    applyCacheOps d (writeOps f text) = Function.update d f (some ⟨text, false⟩) :=
  applyCacheOps_writes d f [] text

/-- **A stop while a file is written**: nothing has happened, the file is cut, or the stop comes
later. -/
theorem applyUntil_writeOps (d : CacheDir) (f : CacheFile) (text : List Char) (ops : List CacheOp)
    (stop : CacheStop) :
    (stop.after = 0 ∧ applyUntil d (writeOps f text ++ ops) stop = d) ∨
      (∃ file : TextFile, file.text <+: text ∧ file.text ≠ text ∧
        applyUntil d (writeOps f text ++ ops) stop = Function.update d f (some file)) ∨
      ∃ stop' : CacheStop, stop.after = stop'.after + text.length + 1 ∧
        applyUntil d (writeOps f text ++ ops) stop =
          applyUntil (Function.update d f (some ⟨text, false⟩)) ops stop' := by
  obtain ⟨after, torn⟩ := stop
  cases after with
  | zero => exact .inl ⟨rfl, by cases torn <;> rfl⟩
  | succ k =>
    refine .inr ?_
    by_cases hk : k < text.length
    · have hlt : k < (text.map (CacheOp.write f)).length := by simpa using hk
      have htake : (writeOps f text ++ ops).take (k + 1) = writeOps f (text.take k) := by
        simp [writeOps, take_append_of_le_length (Nat.le_of_lt hlt), map_take]
      have hget : (writeOps f text ++ ops)[k + 1]? = some (.write f text[k]) := by
        simp [writeOps, List.getElem?_append_left hlt, hk]
      refine .inl ⟨⟨text.take k, torn⟩, take_prefix k text, fun heq => ?_, ?_⟩
      · have := congrArg List.length heq
        simp at this
        omega
      · simp only [applyUntil, htake, applyCacheOps_writeOps, hget]
        cases torn <;> simp [CacheOp.tear]
    · refine .inr ⟨⟨k - text.length, torn⟩, by dsimp only; omega, ?_⟩
      have hlen : k + 1 = (writeOps f text).length + (k - text.length) := by
        simp [writeOps]
        omega
      simp only [applyUntil]
      rw [hlen, take_length_add_append, applyCacheOps_append, applyCacheOps_writeOps,
        List.getElem?_append_right (Nat.le_add_right _ _), Nat.add_sub_cancel_left]

theorem applyUntil_nil (d : CacheDir) (stop : CacheStop) : applyUntil d [] stop = d := by
  obtain ⟨after, torn⟩ := stop
  cases torn <;> simp [applyUntil, applyCacheOps]

/-- **A stop of `save`**: nothing has happened, the metadata is cut, it is whole and the snapshot is
untouched, or it is whole and the snapshot is cut or whole. -/
theorem applyUntil_save (json : MetaJson) (lib : TextLib) (d : CacheDir) (info : StampedMeta)
    (snapshot : IdbSnapshot) (stop : CacheStop) :
    let d' := applyUntil d ((CacheCall.save info snapshot).ops json lib) stop
    let whole := Function.update d .info (some ⟨json.toStringPretty info, false⟩)
    d' = d ∨
      (∃ file : TextFile, file.text <+: json.toStringPretty info ∧
        file.text ≠ json.toStringPretty info ∧ d' = Function.update d .info (some file)) ∨
      (stop.after = (json.toStringPretty info).length + 1 ∧ d' = whole) ∨
      ∃ file : TextFile, file.text <+: writeSimpleRow lib snapshot ∧
        d' = Function.update whole .idb (some file) := by
  intro d' whole
  obtain ⟨-, hd⟩ | hcut | ⟨stop', hafter, hd⟩ := applyUntil_writeOps d .info
    (json.toStringPretty info) (writeOps .idb (writeSimpleRow lib snapshot)) stop
  · exact .inl hd
  · exact .inr (.inl hcut)
  refine .inr (.inr ?_)
  have hidb := applyUntil_writeOps whole .idb (writeSimpleRow lib snapshot) [] stop'
  rw [append_nil] at hidb
  have hd' : d' = applyUntil whole (writeOps .idb (writeSimpleRow lib snapshot)) stop' := hd
  rw [hd']
  obtain ⟨hzero, hd⟩ | ⟨file, hcut, -, hd⟩ | ⟨stop'', -, hd⟩ := hidb
  · exact .inl ⟨by omega, hd⟩
  · exact .inr ⟨file, hcut, hd⟩
  · exact .inr ⟨⟨writeSimpleRow lib snapshot, false⟩, prefix_rfl, hd.trans (applyUntil_nil _ _)⟩

theorem applyUntil_invalidate (json : MetaJson) (lib : TextLib) (d : CacheDir) (stop : CacheStop) :
    applyUntil d (CacheCall.invalidate.ops json lib) stop = d ∨
      applyUntil d (CacheCall.invalidate.ops json lib) stop .info = none := by
  obtain ⟨after, torn⟩ := stop
  match after with
  | 0 => exact .inl (by cases torn <;> rfl)
  | 1 => exact .inr (by cases torn <;> rfl)
  | after + 2 =>
    exact .inr (by cases torn <;> simp [applyUntil, CacheCall.ops, applyCacheOps, CacheOp.apply])

/-! ## What the directory holds -/

section History

variable {json : MetaJson} {lib : TextLib} {dbg : AstDebug}

/-- A file is missing, the metadata is cut, or both files are of one call, where the snapshot may be
cut. -/
def CacheConsistent (json : MetaJson) (lib : TextLib) (saved : List (StampedMeta × IdbSnapshot))
    (d : CacheDir) : Prop :=
  d .info = none ∨ d .idb = none ∨
    (∃ file info, d .info = some file ∧ file.text <+: json.toStringPretty info ∧
      file.text ≠ json.toStringPretty info) ∨
    ∃ info snapshot file, (info, snapshot) ∈ saved ∧
      d .info = some ⟨json.toStringPretty info, false⟩ ∧ d .idb = some file ∧
      file.text <+: writeSimpleRow lib snapshot

/-- A `save` that is not stopped writes both files. -/
theorem run_save (d : CacheDir) (info : StampedMeta) (snapshot : IdbSnapshot) :
    CacheStep.run json lib d ⟨.save info snapshot, none⟩ =
      Function.update (Function.update d .info (some ⟨json.toStringPretty info, false⟩)) .idb
        (some ⟨writeSimpleRow lib snapshot, false⟩) := by
  rw [CacheStep.run, CacheCall.ops, applyCacheOps_append, applyCacheOps_writeOps,
    applyCacheOps_writeOps]

theorem consistent_of_files {info : StampedMeta} {snapshot : IdbSnapshot}
    (hmem : (info, snapshot) ∈ saved) (d : CacheDir)
    (hcut : file.text <+: writeSimpleRow lib snapshot) :
    CacheConsistent json lib saved (Function.update (Function.update d .info
      (some ⟨json.toStringPretty info, false⟩)) .idb (some file)) :=
  .inr (.inr (.inr ⟨info, snapshot, file, hmem, by simp, by simp, hcut⟩))

/-- **A step keeps the files consistent.** -/
theorem CacheConsistent.run (h : CacheConsistent json lib saved d) {step : CacheStep}
    (hsafe : step.Safe json d)
    (hsaved : ∀ info snapshot, step.call = .save info snapshot → (info, snapshot) ∈ saved) :
    CacheConsistent json lib saved (step.run json lib d) := by
  obtain ⟨call, stop⟩ := step
  cases call with
  | save info snapshot =>
    have hmem := hsaved info snapshot rfl
    cases stop with
    | none =>
      rw [run_save]
      exact consistent_of_files hmem d prefix_rfl
    | some stop =>
      change CacheConsistent json lib saved (applyUntil d
        ((CacheCall.save info snapshot).ops json lib) stop)
      obtain hd | ⟨file, hcut, hne, hd⟩ | ⟨hafter, hd⟩ | ⟨file, hcut, hd⟩ :=
        applyUntil_save json lib d info snapshot stop <;> rw [hd]
      · exact h
      · exact .inr (.inr (.inl ⟨file, info, by simp, hcut, hne⟩))
      · exact .inr (.inl (by simpa using hsafe hafter))
      · exact consistent_of_files hmem d hcut
  | invalidate =>
    cases stop with
    | none => exact .inl rfl
    | some stop =>
      change CacheConsistent json lib saved (applyUntil d (CacheCall.invalidate.ops json lib) stop)
      obtain hd | hd := applyUntil_invalidate json lib d stop
      · rw [hd]
        exact h
      · exact .inl hd

/-- **A history keeps the files consistent.** -/
theorem CacheConsistent.runCache (h : CacheConsistent json lib saved d) {steps : List CacheStep}
    (hsafe : SafeCacheHistory json lib d steps) (hsaved : savedPairs steps ⊆ saved) :
    CacheConsistent json lib saved (runCache json lib d steps) := by
  induction steps generalizing d with
  | nil => exact h
  | cons step steps ih =>
    have hstep : ∀ info snapshot, step.call = .save info snapshot → (info, snapshot) ∈ saved := by
      intro info snapshot hcall
      refine hsaved ?_
      simp [savedPairs, hcall]
    have hsteps : savedPairs steps ⊆ saved := fun p hp => hsaved (by
      rw [savedPairs, filterMap_cons]
      split
      · exact hp
      · exact mem_cons_of_mem _ hp)
    exact ih (h.run hsafe.1 hstep) hsafe.2 hsteps

/-! ## What `load` finds -/

/-- What `load` may return: an error, nothing, or metadata with a snapshot saved with it, whose
relations may come in another order. -/
inductive LoadsSaved (saved : List (StampedMeta × IdbSnapshot)) :
    Except CacheError (Option (StampedMeta × IdbSnapshot)) → Prop
  | error (e : CacheError) : LoadsSaved saved (.error e)
  | absent : LoadsSaved saved (.ok none)
  | pair {info : StampedMeta} {snapshot relations : IdbSnapshot} (hmem : (info, snapshot) ∈ saved)
      (hperm : relations.Perm snapshot) : LoadsSaved saved (.ok (some (info, relations)))

theorem readMeta_cut {info : StampedMeta} (hcut : file.text <+: json.toStringPretty info)
    (hne : file.text ≠ json.toStringPretty info) : ∃ e, readMeta json file = .error e := by
  rw [readMeta]
  split
  · exact ⟨_, rfl⟩
  · obtain ⟨e, he⟩ := json.fromStr_cut info file.text hcut hne
    exact ⟨.json e, by rw [he]⟩

theorem readMeta_whole (info : StampedMeta) :
    readMeta json ⟨json.toStringPretty info, false⟩ = .ok info := by
  simp [readMeta, json.fromStr_toStringPretty]

/-- The relations of a file that may be cut are the saved ones. -/
theorem perm_of_readIdb {snapshot relations : IdbSnapshot} (hs : Storable lib snapshot)
    (hcut : file.text <+: writeSimpleRow lib snapshot) (h : readIdb lib dbg file = .ok relations) :
    relations.Perm snapshot := by
  unfold readIdb at h
  split at h
  next data hdata =>
    cases h
    rw [readSimpleRow_cut hs hcut hdata]
    exact HashMap.toPairs_insertAll hs.nodup
  · cases h

theorem load_of_consistent (h : CacheConsistent json lib saved d)
    (hstorable : ∀ p ∈ saved, Storable lib p.2) : LoadsSaved saved (load json lib dbg d) := by
  unfold load
  split
  next info idb hinfo hidb =>
    obtain h | h | ⟨file, info', h, hcut, hne⟩ | ⟨info', snapshot, file, hmem, h, hfile, hcut⟩ := h
    · rw [h] at hinfo
      cases hinfo
    · rw [h] at hidb
      cases hidb
    · cases hinfo.symm.trans h
      obtain ⟨e, he⟩ := readMeta_cut hcut hne
      rw [he]
      exact .error e
    · cases hinfo.symm.trans h
      cases hidb.symm.trans hfile
      rw [readMeta_whole, ok_bind]
      cases hread : readIdb lib dbg idb with
      | error e => exact .error e
      | ok relations => exact .pair hmem (perm_of_readIdb (hstorable _ hmem) hcut hread)
  · exact .absent

/-- **What `load` returns was saved together**, after every history whose stops are safe. -/
theorem load_of_safe_history (json : MetaJson) (lib : TextLib) (dbg : AstDebug)
    (steps : List CacheStep) (hsafe : SafeCacheHistory json lib (fun _ => none) steps)
    (hstorable : ∀ p ∈ savedPairs steps, Storable lib p.2) :
    LoadsSaved (savedPairs steps)
      (load json lib dbg (runCache json lib (fun _ => none) steps)) := by
  have hstart : CacheConsistent json lib (savedPairs steps) fun _ => none := .inl rfl
  exact load_of_consistent (hstart.runCache hsafe (List.Subset.refl _)) hstorable

end History

instance : DecidableEq (StampedMeta × IdbSnapshot) := inferInstance

/-- A snapshot of one fact. -/
def pSnapshot (n : Int64) : IdbSnapshot := [("p", [[.number n]])]

/-- Metadata with a hash of 32 bytes and one byte of fingerprint. -/
def pMeta (b : UInt8) : StampedMeta := ⟨⟨replicate 32 0, [b]⟩, 0⟩

/-- One save, and another one that stops after some file operations. -/
def twoSaves (after : Nat) : List CacheStep :=
  [⟨.save (pMeta 1) (pSnapshot 1), none⟩, ⟨.save (pMeta 2) (pSnapshot 2), some ⟨after, false⟩⟩]

theorem storable_pSnapshot (n : Int64) : Storable .bare (pSnapshot n) where
  toWritable := writable_single (by decide +kernel) (by simp)
  kept := by simp [pSnapshot, IsKept]
  distinct := by simp [pSnapshot]

/-- A stop inside the second snapshot: it is not loaded. -/
theorem load_of_safe_history_two :
    LoadsSaved (savedPairs (twoSaves 139))
      (load .strict .bare .bare (runCache .strict .bare (fun _ => none) (twoSaves 139))) := by
  have hsafe : SafeCacheHistory .strict .bare (fun _ => none) (twoSaves 139) := by
    simp only [twoSaves, SafeCacheHistory, CacheStep.Safe, true_and, and_true]
    have hlen : (MetaJson.strict.toStringPretty (pMeta 2)).length = 134 := by decide +kernel
    rw [hlen]
    nofun
  have hstorable : ∀ p ∈ savedPairs (twoSaves 139), Storable .bare p.2 := by
    intro p hp
    simp only [savedPairs, twoSaves, filterMap_cons, filterMap_nil, mem_cons,
      not_mem_nil, or_false] at hp
    obtain rfl | rfl := hp
    · exact storable_pSnapshot 1
    · exact storable_pSnapshot 2
  exact load_of_safe_history .strict .bare .bare (twoSaves 139) hsafe hstorable

/-- **A stop between the metadata and the snapshot leaves new metadata with an old snapshot.** -/
theorem load_mixes_saves :
    load .strict .bare .bare (runCache .strict .bare (fun _ => none) (twoSaves 135)) =
        .ok (some (pMeta 2, pSnapshot 1)) ∧
      ¬ LoadsSaved (savedPairs (twoSaves 135))
        (load .strict .bare .bare (runCache .strict .bare (fun _ => none) (twoSaves 135))) := by
  have hload : load .strict .bare .bare (runCache .strict .bare (fun _ => none) (twoSaves 135)) =
      .ok (some (pMeta 2, pSnapshot 1)) := by decide +kernel
  refine ⟨hload, ?_⟩
  rw [hload]
  rintro (_ | _ | ⟨hmem, hperm⟩)
  simp only [savedPairs, twoSaves, filterMap_cons, filterMap_nil, mem_cons,
    Prod.mk.injEq, not_mem_nil, or_false] at hmem
  obtain ⟨hmeta, -⟩ | ⟨-, rfl⟩ := hmem
  · cases hmeta
  · have heq := perm_singleton.mp hperm
    cases heq

end Mangle

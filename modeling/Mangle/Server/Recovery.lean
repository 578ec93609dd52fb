import Mangle.Server.Snapshot
import Mangle.Server.SnapshotFiles
import Mangle.Wal.LogStore

/-!
# Server/Recovery — a snapshot and the rest of the log

`FsmStore`: the state machine of the consensus log.  A snapshot builder takes the progress when it
is made and the programs when it runs, so that the snapshot may hold the effects of entries which
are applied to it again.  On the abstract store a second application changes nothing
(`replay_idempotent`): a load or a delete forgets what was before, and a mutation says of each of
its facts whether it is there.

* `recovery_replays` — a restored node that applies the rest of the log has the programs and facts
  of one that applied the whole log;
* `recovery_revives_fact` — an insertion that the node dropped for its arity is restored;
* `replicas_agree` — nodes that apply the same commands hold the same facts.
-/

namespace Mangle

open Machinery List

/-! ## Replaying commands -/

/-- Operations decide the presence of a fact, or leave it as it is. -/
theorem foldl_effect_cases (ops : List MutationOp) (rel : String) (t : Tuple) :
    (∀ F G : String → Set Tuple, t ∈ ops.foldl MutationOp.effect F rel ↔
        t ∈ ops.foldl MutationOp.effect G rel) ∨
      ∀ F : String → Set Tuple, t ∈ ops.foldl MutationOp.effect F rel ↔ t ∈ F rel := by
  induction ops with
  | nil => exact .inr fun F => Iff.rfl
  | cons op ops ih =>
    obtain hconst | hkeep := ih
    · exact .inl fun F G => hconst _ _
    simp only [foldl_cons, hkeep]
    unfold MutationOp.effect
    by_cases hop : op.relation = rel ∧ op.tuple = t
    · obtain ⟨rfl, rfl⟩ := hop
      cases op.kind <;> simp
    · right
      intro F
      by_cases hrel : rel = op.relation
      · subst hrel
        have ht : t ≠ op.tuple := fun heq => hop ⟨rfl, heq.symm⟩
        cases op.kind <;> simp [ht]
      · cases op.kind <;> simp [hrel]

/-- **Operations that are executed again** change nothing. -/
theorem foldl_effect_idempotent (ops : List MutationOp) (F : String → Set Tuple) :
    ops.foldl MutationOp.effect (ops.foldl MutationOp.effect F) =
      ops.foldl MutationOp.effect F := by
  funext rel
  ext t
  obtain hconst | hkeep := foldl_effect_cases ops rel t
  · exact hconst _ _
  · exact hkeep _

namespace Cluster

variable (w : Cluster)

open Classical in
/-- A command on the program of one name. -/
noncomputable def stepAt (n : String) (a : Option AbsProgram) : Command → Option AbsProgram
  | .mutate program ops =>
      if program = n then
        a.map fun p => if ∀ op ∈ ops, op.relation ∉ w.heads p.source then
          ⟨p.source, ops.foldl MutationOp.effect p.facts⟩ else p
      else a
  | .loadProgram name source =>
      if name = n ∧ w.Loads name source then some ⟨source, sourceFacts (w.sources name)⟩ else a
  | .deleteProgram name => if name = n then none else a
  | .noop => a

/-- Commands act on each program alone. -/
theorem step_eq (A : AbsStore) (cmd : Command) (n : String) :
    w.step A cmd n = w.stepAt n (A n) cmd := by
  cases cmd with
  | mutate program ops =>
    by_cases hn : program = n
    · subst hn
      cases hA : A program with
      | none => simp [step, stepAt, hA]
      | some a =>
        by_cases hops : ∀ op ∈ ops, op.relation ∉ w.heads a.source
        · simp only [step, hA, if_pos hops, Function.update_self, stepAt, if_true, Option.map_some]
        · simp only [step, hA, if_neg hops, stepAt, if_true, Option.map_some]
    · rw [stepAt, if_neg hn]
      cases hA : A program with
      | none => simp only [step, hA]
      | some a =>
        simp only [step, hA]
        split
        · rw [Function.update_of_ne (Ne.symm hn)]
        · rfl
  | loadProgram name source =>
    by_cases hloads : w.Loads name source
    · by_cases hn : name = n
      · subst hn
        simp [step, stepAt, hloads]
      · simp [step, stepAt, hloads, hn, Function.update_of_ne (Ne.symm hn)]
    · simp [step, stepAt, hloads]
  | deleteProgram name =>
    by_cases hn : name = n
    · subst hn
      simp [step, stepAt]
    · simp [step, stepAt, hn, Function.update_of_ne (Ne.symm hn)]
  | noop => rfl

theorem foldl_step_eq (cmds : List Command) (A : AbsStore) (n : String) :
    cmds.foldl w.step A n = cmds.foldl (w.stepAt n) (A n) := by
  induction cmds generalizing A with
  | nil => rfl
  | cons cmd cmds ih => rw [foldl_cons, ih, step_eq, foldl_cons]

/-- Commands decide what a program is, or execute operations on it that depend on its source. -/
theorem foldl_stepAt_cases (n : String) (cmds : List Command) :
    (∀ a b, cmds.foldl (w.stepAt n) a = cmds.foldl (w.stepAt n) b) ∨
      ∃ ops : String → List MutationOp, ∀ a : Option AbsProgram, cmds.foldl (w.stepAt n) a =
        a.map fun p => ⟨p.source, (ops p.source).foldl MutationOp.effect p.facts⟩ := by
  induction cmds with
  | nil => exact .inr ⟨fun _ => [], fun a => by cases a <;> rfl⟩
  | cons cmd cmds ih =>
    obtain hconst | ⟨ops, hops⟩ := ih
    · exact .inl fun a b => hconst _ _
    simp only [foldl_cons]
    cases cmd with
    | mutate program new =>
      refine .inr ⟨fun source => (if program = n ∧ ∀ op ∈ new, op.relation ∉ w.heads source then new
        else []) ++ ops source, fun a => ?_⟩
      rw [hops, stepAt]
      by_cases hn : program = n
      · cases a with
        | none => simp [hn]
        | some p =>
          by_cases hfree : ∀ op ∈ new, op.relation ∉ w.heads p.source
          · simp only [hn, if_true, Option.map_some, if_pos hfree, true_and, foldl_append]
          · simp only [hn, if_true, Option.map_some, if_neg hfree, true_and, nil_append]
      · simp [hn]
    | loadProgram name source =>
      by_cases hload : name = n ∧ w.Loads name source
      · exact .inl fun a b => by rw [stepAt, stepAt, if_pos hload, if_pos hload]
      · exact .inr ⟨ops, fun a => by rw [stepAt, if_neg hload, hops]⟩
    | deleteProgram name =>
      by_cases hn : name = n
      · exact .inl fun a b => by rw [stepAt, stepAt, if_pos hn, if_pos hn]
      · exact .inr ⟨ops, fun a => by rw [stepAt, if_neg hn, hops]⟩
    | noop => exact .inr ⟨ops, fun a => hops a⟩

/-- **Commands that are executed again** change nothing. -/
theorem replay_idempotent (cmds : List Command) (A : AbsStore) :
    cmds.foldl w.step (cmds.foldl w.step A) = cmds.foldl w.step A := by
  funext n
  rw [foldl_step_eq, foldl_step_eq]
  obtain hconst | ⟨ops, hops⟩ := w.foldl_stepAt_cases n cmds
  · exact hconst _ _
  · rw [hops, hops, Option.map_map]
    congr 1
    funext p
    simp only [Function.comp_apply, foldl_effect_idempotent]

/-- Commands that continue a run from an earlier point of it. -/
theorem foldl_step_overlap (c₁ c₂ c₃ : List Command) (A : AbsStore) :
    (c₂ ++ c₃).foldl w.step ((c₁ ++ c₂).foldl w.step A) = (c₁ ++ c₂ ++ c₃).foldl w.step A := by
  simp only [foldl_append, replay_idempotent]

end Cluster

/-- **Nodes that apply the same commands hold the same facts**, also if some are applied again. -/
theorem replicas_agree {w : Cluster} {st st' : ProgramStore} {steps steps' : List (Node × Command)}
    {c₁ c₂ c₃ : List Command} (hw : w.Tame) (hst : st.programs = ∅ ∧ st.idbCache = none)
    (hst' : st'.programs = ∅ ∧ st'.idbCache = none) (hsteps : w.CompleteAll st steps)
    (hsteps' : w.CompleteAll st' steps') (hcmds : steps.map Prod.snd = c₁ ++ c₂ ++ c₃)
    (hcmds' : steps'.map Prod.snd = c₁ ++ c₂ ++ (c₂ ++ c₃)) :
    (st.run steps).SameFacts (st'.run steps') := by
  have hempty {st : ProgramStore} (h : st.programs = ∅ ∧ st.idbCache = none) :
      Refines w st fun _ => none := ⟨h.2, fun name => by rw [h.1]; exact .none⟩
  have h := (hempty hst).run hw hsteps
  have h' := (hempty hst').run hw hsteps'
  rw [hcmds', foldl_append, w.foldl_step_overlap, ← hcmds] at h'
  exact h.sameFacts hw h'

/-- The program is loaded and `p(2)` inserted; the second node inserts it again, and both retract
`p(1)`. -/
theorem replicas_agree_moved : (ProgramStore.new.run moveSteps).SameFacts
    (ProgramStore.new.run (moveSteps.take 2 ++ moveSteps.tail)) := by
  have hnode : copyCluster.Member copyNode := ⟨rfl, rfl, rfl⟩
  refine @replicas_agree _ _ _ _ _ [_] [_] [_] copyCluster_tame ⟨rfl, rfl⟩ ⟨rfl, rfl⟩
    moveSteps_complete ⟨hnode, rfl, trivial, hnode, by simp [Cluster.Allows, copyCluster],
    ⟨fun l hl => (by cases hl), fun prog hprog _ => ?_⟩, hnode,
    by simp [Cluster.Allows, copyCluster], ⟨fun l hl => (by cases hl), fun prog hprog _ => ?_⟩,
    hnode, by simp [Cluster.Allows], ⟨fun l hl => (by cases hl), fun prog hprog _ => ?_⟩,
    trivial⟩ rfl rfl
  all_goals
    cases hprog
    exact ⟨_, _, rfl, rfl⟩

/-! ## The state machine -/

/-- `FsmProgress`. -/
structure FsmProgress where
  lastApplied : Option LogId
  lastMembership : StoredMembership

/-- `FsmStore`: the programs and the progress. -/
structure FsmStore where
  store : ProgramStore
  progress : FsmProgress

namespace FsmStore

/-- One entry of `apply`. -/
def applyEntry (node : Node) (fsm : FsmStore) (entry : Entry) :
    Except StoreError ApplyOutcome × FsmStore :=
  match entry.payload with
  | .blank => (.ok .noop, { fsm with progress := { fsm.progress with
      lastApplied := some entry.logId } })
  | .normal cmd =>
      let (result, store) := fsm.store.apply node cmd
      (result, ⟨store, { fsm.progress with lastApplied := some entry.logId }⟩)
  | .membership m => (.ok .noop, { fsm with progress :=
      ⟨some entry.logId, ⟨some entry.logId, m⟩⟩ })

/-- `apply`, on nodes as they are at the moment of each entry. -/
def apply (fsm : FsmStore) : List (Node × Entry) →
    List (Except StoreError ApplyOutcome) × FsmStore
  | [] => ([], fsm)
  | (node, entry) :: entries =>
      let (result, fsm) := fsm.applyEntry node entry
      let (results, fsm) := fsm.apply entries
      (result :: results, fsm)

end FsmStore

/-- `SnapshotBuilder`. -/
structure SnapshotBuilder where
  progress : FsmProgress

/-- `get_snapshot_builder`: the progress is that of this moment. -/
def FsmStore.getSnapshotBuilder (fsm : FsmStore) : SnapshotBuilder := ⟨fsm.progress⟩

/-- What `build_snapshot` writes: the programs are those of this moment. -/
def SnapshotBuilder.buildSnapshot (builder : SnapshotBuilder) (order : HashOrder)
    (snapshotId : String) (fsm : FsmStore) : Snapshot × SnapshotMeta :=
  (fsm.store.snapshotState order,
    ⟨snapshotId, builder.progress.lastApplied, builder.progress.lastMembership⟩)

/-- `install_snapshot_state`, as `restore` calls it. -/
def ProgramStore.installed (say : StoreError → String) (node : Node) (st : ProgramStore)
    (snap : Snapshot) : Except String ProgramStore :=
  match st.installSnapshotState node snap with
  | (.ok (), st) => .ok st
  | (.error e, _) => .error (say e)

/-- The state machine after `restore`. -/
def Restored.fsm (r : Restored ProgramStore) : FsmStore :=
  ⟨r.state, r.lastApplied, r.lastMembership⟩

/-- The entry comes after the last applied one. -/
def Entry.isAfter (last : Option LogId) (entry : Entry) : Bool :=
  match last with
  | none => true
  | some id => id.index < entry.index

/-- The commands of entries. -/
def commandsOf (entries : List (Node × Entry)) : List (Node × Command) :=
  entries.filterMap fun x =>
    match x.2.payload with
    | .normal cmd => some (x.1, cmd)
    | _ => none

theorem commandsOf_cons (node : Node) (entry : Entry) (entries : List (Node × Entry)) :
    commandsOf ((node, entry) :: entries) =
      match entry.payload with
      | .normal cmd => (node, cmd) :: commandsOf entries
      | _ => commandsOf entries := by
  rw [commandsOf, filterMap_cons]
  cases entry.payload <;> rfl

theorem commandsOf_append (entries entries' : List (Node × Entry)) :
    commandsOf (entries ++ entries') = commandsOf entries ++ commandsOf entries' :=
  filterMap_append

/-- The commands of entries do not depend on the nodes. -/
theorem map_snd_commandsOf {entries entries' : List (Node × Entry)}
    (h : entries.map Prod.snd = entries'.map Prod.snd) :
    (commandsOf entries).map Prod.snd = (commandsOf entries').map Prod.snd := by
  have hcmds (entries : List (Node × Entry)) : (commandsOf entries).map Prod.snd =
      (entries.map Prod.snd).filterMap fun e =>
        match e.payload with
        | .normal cmd => some cmd
        | _ => none := by
    rw [commandsOf, map_filterMap, filterMap_map]
    congr 1
    funext x
    simp only [Function.comp_apply]
    cases x.2.payload <;> rfl
  rw [hcmds, hcmds, h]

namespace FsmStore

variable {fsm : FsmStore} {node : Node} {entry : Entry} {entries : List (Node × Entry)}

theorem lastApplied_applyEntry :
    (fsm.applyEntry node entry).2.progress.lastApplied = some entry.logId := by
  rw [applyEntry]
  cases entry.payload <;> rfl

/-- **The programs** after entries are those after their commands. -/
theorem store_apply : (fsm.apply entries).2.store = fsm.store.run (commandsOf entries) := by
  induction entries generalizing fsm with
  | nil => rfl
  | cons x entries ih =>
    obtain ⟨node, entry⟩ := x
    rw [apply]
    simp only [ih]
    rw [applyEntry, commandsOf_cons]
    cases entry.payload <;> rfl

/-- **The progress** after entries is the last of them. -/
theorem lastApplied_apply : (fsm.apply entries).2.progress.lastApplied =
    ((entries.getLast?.map fun x => x.2.logId).or fsm.progress.lastApplied) := by
  induction entries generalizing fsm with
  | nil => rfl
  | cons x entries ih =>
    rw [apply]
    simp only [ih, lastApplied_applyEntry]
    cases entries with
    | nil => rfl
    | cons y entries =>
      rw [List.getLast?_cons_cons, List.getLast?_eq_some_getLast (cons_ne_nil y entries)]
      rfl

end FsmStore

/-- **The entries after the last applied one** are those that were not applied. -/
theorem filter_isAfter {applied rest : List Entry}
    (h : (applied ++ rest).Pairwise fun e e' => e.index < e'.index) :
    (applied ++ rest).filter (Entry.isAfter (applied.getLast?.map Entry.logId)) = rest := by
  obtain rfl | ⟨init, last, rfl⟩ := eq_nil_or_concat applied
  · simp [Entry.isAfter]
  · obtain ⟨hinit, hrest, hcross⟩ := pairwise_append.mp h
    rw [concat_eq_append] at hinit hcross ⊢
    have hlast : ((init ++ [last]).getLast?.map Entry.logId) = some last.logId := by simp
    rw [hlast, filter_append, filter_eq_nil_iff.mpr, filter_eq_self.mpr,
      nil_append]
    · intro e he
      exact decide_eq_true (hcross last (by simp) e he)
    · intro e he
      obtain he | he := mem_append.mp he
      · have hlt := (pairwise_append.mp hinit).2.2 e he last mem_cons_self
        exact fun hafter => UInt64.lt_asymm hlt (of_decide_eq_true hafter)
      · obtain rfl := mem_singleton.mp he
        simp [Entry.isAfter, Entry.index]

/-! ## Recovery -/

/-- Commands of a cluster without external sources with tuples of `S`: nothing that is retracted is
external. -/
theorem Cluster.accountsAll_of_noSources {w : Cluster} {S : String → String → Set Tuple}
    (hsources : ∀ name, w.sources name = []) {st : ProgramStore} {steps : List (Node × Command)}
    (hS : ∀ x ∈ steps, ∀ program ops, x.2 = .mutate program ops →
      ∀ op ∈ ops, op.tuple ∈ S program op.relation) : w.AccountsAll S st steps := by
  have hclear (name : String) (l : FactLedger) (ops : List MutationOp) :
      l.ClearAll (sourceFacts (w.sources name)) ops := by
    induction ops generalizing l with
    | nil => trivial
    | cons op ops ih => exact ⟨fun _ _ => by simp [hsources, sourceFacts], ih _⟩
  induction steps generalizing st with
  | nil => trivial
  | cons x steps ih =>
    obtain ⟨node, cmd⟩ := x
    refine ⟨?_, ih fun y hy => hS y (mem_cons_of_mem _ hy)⟩
    cases cmd with
    | mutate program ops =>
      exact ⟨hS _ mem_cons_self program ops rfl, fun prog _ => hclear program _ _⟩
    | loadProgram name source => trivial
    | deleteProgram name => trivial
    | noop => trivial

theorem Cluster.CompleteAll.append {w : Cluster} {st : ProgramStore}
    {steps steps' : List (Node × Command)} :
    w.CompleteAll st (steps ++ steps') ↔
      w.CompleteAll st steps ∧ w.CompleteAll (st.run steps) steps' := by
  induction steps generalizing st with
  | nil => exact (and_iff_right trivial).symm
  | cons x steps ih =>
    simp only [cons_append, Cluster.CompleteAll, ih, and_assoc]
    rfl

/-- **Recovery.**  The entries `l₁` were applied when the builder was made, and `l₂` before it ran,
by a cluster without external sources, on order-free programs and over tuples that `Value::cmp`
orders linearly.  A node that restores the snapshot and applies the entries after its last log id
has the programs and facts of one that applied `l₁`, `l₂` and `l₃`. -/
theorem recovery_replays {w : Cluster} {S : String → String → Set Tuple}
    {start fresh : ProgramStore}
    {membership : StoredMembership} {l₁ l₂ l₃ replayed : List (Node × Entry)} {node : Node}
    {order : HashOrder} {snapshotId : String} {display : Value → String} {pb : Protobuf PSnapshot}
    {raft : Openraft} {say : StoreError → String} {dir : SnapDir} {snap : Snapshot}
    {info : SnapshotMeta} (hw : w.Tame) (hsources : ∀ name, w.sources name = [])
    (hS : ∀ p rel, OrdSet.LinearOn Value.cmpList (S p rel))
    (hwf : ∀ p rel, ∀ t ∈ S p rel, t.wellFormed = true)
    (hempty : start.programs = ∅) (hcache : start.idbCache = none) (hfresh : fresh.idbCache = none)
    (hnode : w.Member node)
    (htuples : ∀ x ∈ commandsOf (l₁ ++ l₂), ∀ program ops, x.2 = .mutate program ops →
      ∀ op ∈ ops, op.tuple ∈ S program op.relation)
    (horder : ((l₁ ++ l₂ ++ l₃).map Prod.snd).Pairwise fun e e' => e.index < e'.index)
    (hruns : w.CompleteAll start (commandsOf (l₁ ++ l₂ ++ l₃)))
    (hbuilt : ((⟨start, none, membership⟩ : FsmStore).apply l₁).2.getSnapshotBuilder.buildSnapshot
      order snapshotId ((⟨start, none, membership⟩ : FsmStore).apply (l₁ ++ l₂)).2 = (snap, info))
    (hpb : pb.RoundTrips (snap.toProto display)) (hmeta : (encodeMeta info).length < 2 ^ 64)
    (hreplayed : replayed.map Prod.snd =
      ((l₁ ++ l₂ ++ l₃).map Prod.snd).filter (Entry.isAfter info.lastLogId))
    (hagain : ∀ st, fresh.installSnapshotState node snap = (.ok (), st) →
      w.CompleteAll st (commandsOf replayed)) :
    ∃ r, restore pb (fresh.installed say node) raft
        (applyOps dir (buildOps display pb snap info)) = .ok (some r) ∧
      ((⟨start, none, membership⟩ : FsmStore).apply (l₁ ++ l₂ ++ l₃)).2.store.SameFacts
        (r.fsm.apply replayed).2.store := by
  obtain ⟨rfl, rfl⟩ := Prod.mk.inj hbuilt.symm
  rw [FsmStore.store_apply] at hpb hagain ⊢
  have hstart : Told w S start fun _ => none := by
    refine ⟨⟨hcache, fun name => ?_⟩, fun name prog hprog => ?_⟩
    · rw [hempty]
      exact .none
    · rw [hempty] at hprog
      cases hprog
  obtain ⟨hruns₁₂, -⟩ := Cluster.CompleteAll.append.mp (commandsOf_append (l₁ ++ l₂) l₃ ▸ hruns)
  have htold := hstart.run hS hw hruns₁₂ (Cluster.accountsAll_of_noSources hsources htuples)
  obtain ⟨st, hok, hst⟩ := htold.installSnapshotState hS hw hnode hfresh order
  have hinstalled : fresh.installed say node
      ((start.run (commandsOf (l₁ ++ l₂))).snapshotState order) = .ok st := by
    rw [ProgramStore.installed, hok]
  obtain ⟨st', hst', hrestore⟩ := (written_build (d := dir)
    ⟨htold.wellFormed hwf order, hpb, ⟨st, hinstalled⟩, hmeta⟩).restore raft
  obtain rfl := Except.ok.inj (hinstalled.symm.trans hst')
  refine ⟨_, hrestore, ?_⟩
  have hlast : ((⟨start, none, membership⟩ : FsmStore).apply l₁).2.progress.lastApplied =
      (l₁.map Prod.snd).getLast?.map Entry.logId := by
    rw [FsmStore.lastApplied_apply, Option.or_none, List.getLast?_map, Option.map_map]
    rfl
  have hcmds : (commandsOf replayed).map Prod.snd = (commandsOf (l₂ ++ l₃)).map Prod.snd := by
    have hsplit : (l₁ ++ l₂ ++ l₃).map Prod.snd =
        l₁.map Prod.snd ++ (l₂ ++ l₃).map Prod.snd := by
      rw [append_assoc, map_append]
    rw [hsplit] at horder hreplayed
    refine map_snd_commandsOf (hreplayed.trans ?_)
    simp only [FsmStore.getSnapshotBuilder, hlast]
    exact filter_isAfter horder
  have hfinal := hstart.refines.run hw hruns
  have hagain' := hst.run hw (hagain st hok)
  rw [hcmds] at hagain'
  simp only [commandsOf_append, map_append, w.foldl_step_overlap] at hagain' hfinal
  simp only [FsmStore.store_apply, commandsOf_append]
  exact hfinal.sameFacts hw hagain'

/-- A node with the program that copies, and without external facts. -/
def emptyNode : Node := { copyNode with sources := fun _ => [] }

/-- Nodes like it, of any engine. -/
def emptyCluster : Cluster := { copyCluster with sources := emptyNode.sources }

theorem emptyCluster_tame : emptyCluster.Tame where
  orderFree := copyCluster_tame.orderFree
  supply _ _ _ _ _ := ⟨fun _ hsrc => (by cases hsrc), fun _ hsrc => (by cases hsrc)⟩

/-- The entry of a command. -/
def entryAt (index : UInt64) (cmd : Command) : Entry := ⟨⟨⟨1, 1⟩, index⟩, .normal cmd⟩

/-- The entries before the snapshot: a program is loaded, and gets `p(1)`. -/
def loadLog : List (Node × Entry) :=
  [(emptyNode, ⟨⟨⟨1, 1⟩, 1⟩, .blank⟩), (emptyNode, entryAt 2 (.loadProgram "m" copyText)),
    (emptyNode, entryAt 3 (.mutate "m" [⟨.insert, "p", [.number 1]⟩]))]

/-- An entry that is applied before the snapshot is built. -/
def insertLog : List (Node × Entry) :=
  [(emptyNode, entryAt 4 (.mutate "m" [⟨.insert, "p", [.number 2]⟩]))]

/-- An entry that is applied after it. -/
def retractLog : List (Node × Entry) :=
  [(emptyNode, entryAt 5 (.mutate "m" [⟨.retract, "p", [.number 1]⟩]))]

/-- A new state machine. -/
def newFsm : FsmStore := ⟨.new, none, noMembership⟩

/-- The snapshot whose builder was made after `l₁`, and which was built after `l₂`. -/
def builtAfter (l₁ l₂ : List (Node × Entry)) : Snapshot × SnapshotMeta :=
  (newFsm.apply l₁).2.getSnapshotBuilder.buildSnapshot .insertion "" (newFsm.apply (l₁ ++ l₂)).2

/-- A protobuf library for that snapshot and the bytes of its message. -/
def pbAfter (l₁ l₂ : List (Node × Entry)) (bytes : List UInt8) : Protobuf PSnapshot :=
  .only ((builtAfter l₁ l₂).1.toProto fun _ => "") bytes

/-- The directory with that snapshot. -/
def dirAfter (l₁ l₂ : List (Node × Entry)) (bytes : List UInt8) : SnapDir :=
  applyOps (fun _ => none)
    (buildOps (fun _ => "") (pbAfter l₁ l₂ bytes) (builtAfter l₁ l₂).1 (builtAfter l₁ l₂).2)

/-- The message of a snapshot with the program that copies, `p(1)` and `p(2)`. -/
def copySnapshotBytes : List UInt8 :=
  [0x0A, 38, 0x0A, 1, 0x6D, 0x12, 13] ++ utf8 copyText ++
    [0x1A, 18, 0x0A, 7, 0x0A, 1, 0x70, 0x12, 2, 0x08, 2, 0x0A, 7, 0x0A, 1, 0x70, 0x12, 2, 0x08, 4]

/-- The insertion of `p(2)` is in the snapshot, and is applied to it again. -/
theorem recovery_replays_insert : ∃ r, restore (pbAfter loadLog insertLog copySnapshotBytes)
      (ProgramStore.new.installed (fun _ => "") emptyNode) .filling
      (dirAfter loadLog insertLog copySnapshotBytes) = .ok (some r) ∧
    (newFsm.apply (loadLog ++ insertLog ++ retractLog)).2.store.SameFacts
      (r.fsm.apply (insertLog ++ retractLog)).2.store := by
  have hnode : emptyCluster.Member emptyNode := ⟨rfl, rfl, rfl⟩
  have hwf : ∀ t ∈ twoNumbers, t.wellFormed = true := by decide
  have hruns : emptyCluster.CompleteAll .new (commandsOf (loadLog ++ insertLog ++ retractLog)) := by
    refine ⟨hnode, rfl, trivial, hnode, by simp [Cluster.Allows, emptyCluster, copyCluster],
      ⟨fun l hl => (by cases hl), fun prog hprog _ => ?_⟩, hnode,
      by simp [Cluster.Allows, emptyCluster, copyCluster],
      ⟨fun l hl => (by cases hl), fun prog hprog _ => ?_⟩, hnode, by simp [Cluster.Allows],
      ⟨fun l hl => (by cases hl), fun prog hprog _ => ?_⟩, trivial⟩ <;>
    · cases hprog
      exact ⟨_, _, rfl, rfl⟩
  have hagain : ∀ st, ProgramStore.new.installSnapshotState emptyNode
      (builtAfter loadLog insertLog).1 = (.ok (), st) →
        emptyCluster.CompleteAll st (commandsOf (insertLog ++ retractLog)) := by
    intro st hst
    obtain rfl := (Prod.mk.inj hst).2
    refine ⟨hnode, by simp [Cluster.Allows, emptyCluster, copyCluster],
      ⟨fun l hl => (by cases hl), fun prog hprog _ => ?_⟩, hnode, by simp [Cluster.Allows],
      ⟨fun l hl => (by cases hl), fun prog hprog _ => ?_⟩, trivial⟩ <;>
    · cases hprog
      exact ⟨_, _, rfl, rfl⟩
  refine recovery_replays emptyCluster_tame (fun _ => rfl) (fun _ _ => twoNumbers_linear)
    (fun _ _ => hwf) rfl rfl rfl hnode ?_ (by decide) hruns rfl
    (Protobuf.roundTrips_only _ _) (by decide) (by decide) hagain
  intro x hx program ops hops op hop
  obtain rfl | rfl | rfl : x = (emptyNode, .loadProgram "m" copyText) ∨
      x = (emptyNode, .mutate "m" [⟨.insert, "p", [.number 1]⟩]) ∨
      x = (emptyNode, .mutate "m" [⟨.insert, "p", [.number 2]⟩]) := by
    simpa [commandsOf, loadLog, insertLog, entryAt] using hx
  · cases hops
  · cases hops
    obtain rfl := mem_singleton.mp hop
    exact mem_cons_self
  · cases hops
    obtain rfl := mem_singleton.mp hop
    exact mem_cons_of_mem _ mem_cons_self

/-- A program without clauses gets `p(1)`, loses it, and drops `p(1, 2)`. -/
def droppedLog : List (Node × Entry) :=
  [(factsNode, entryAt 1 (.loadProgram "m" "")),
    (factsNode, entryAt 2 (.mutate "m" [⟨.insert, "p", [.number 1]⟩])),
    (factsNode, entryAt 3 (.mutate "m" [⟨.retract, "p", [.number 1]⟩])),
    (factsNode, entryAt 4 (.mutate "m" [⟨.insert, "p", [.number 1, .number 2]⟩]))]

/-- The message of a snapshot with a program without clauses and `p(1, 2)`. -/
def pairSnapshotBytes : List UInt8 :=
  [0x0A, 18, 0x0A, 1, 0x6D, 0x1A, 13, 0x0A, 11, 0x0A, 1, 0x70, 0x12, 2, 0x08, 2, 0x12, 2, 0x08, 4]

/-- **A dropped fact is restored**: the node drops `p(1, 2)`, for `p` has the arity of `p(1)`; the
ledger has it, and a new node takes it. -/
theorem recovery_revives_fact : ∃ r prog prog', restore (pbAfter droppedLog [] pairSnapshotBytes)
      (ProgramStore.new.installed (fun _ => "") factsNode) .filling
      (dirAfter droppedLog [] pairSnapshotBytes) = .ok (some r) ∧
    (newFsm.apply droppedLog).2.store.programs.lookup "m" = some prog ∧
    (r.fsm.apply []).2.store.programs.lookup "m" = some prog' ∧
    (droppedLog.map Prod.snd).filter (Entry.isAfter r.lastApplied) = [] ∧
    prog.db.query "p" = some [] ∧ prog'.db.query "p" = some [[.number 1, .number 2]] :=
  ⟨_, _, _, rfl, rfl, rfl, by decide, rfl, rfl⟩

end Mangle

import Mangle.Server.Ledger

/-!
# Server/Apply — commands

All that a command can do (`apply_cases`), and two consequences:

* `ProgramStore.Sound.apply` — every command leaves databases that are sound;
* `ProgramStore.apply_error` — a command that is refused leaves the store as it was.
-/

namespace Mangle

open Machinery

variable {c : Tiers}

/-- The operations of a command that are applied. -/
def Database.effective (db : Database) (ops : List MutationOp) : List MutationOp :=
  (ProgramStore.classify (fun rel => (db.query rel).getD []) ops).1

/-- The number of operations that are skipped. -/
def Database.skipped (db : Database) (ops : List MutationOp) : Nat :=
  (ProgramStore.classify (fun rel => (db.query rel).getD []) ops).2

namespace ProgramStore

variable {node : Node} {st st' : ProgramStore} {program : String} {ops : List MutationOp}

/-- Every database of the store is sound. -/
def Sound (st : ProgramStore) : Prop :=
  ∀ name prog, st.programs.lookup name = some prog → ∃ c, prog.db.Sound c

@[simp] theorem programs_keepCache (st : ProgramStore) (name : String) (mode : IdbMode) :
    (st.keepCache name mode).programs = st.programs := by
  unfold keepCache
  split <;> rfl

theorem programs_put (st : ProgramStore) (name : String) (prog : StoredProgram) :
    (st.put name prog).programs = st.programs.insert name prog :=
  programs_keepCache _ _ _

/-- The program that is found after a change of one. -/
theorem lookup_put (st : ProgramStore) (name n : String) (prog : StoredProgram) :
    (st.put name prog).programs.lookup n =
      if n = name then some prog else st.programs.lookup n := by
  rw [programs_put]
  by_cases h : n = name
  · subst h
    rw [if_pos rfl, AList.lookup_insert]
  · rw [if_neg h, AList.lookup_insert_ne h]

/-! ## What a command does -/

/-- The table of facts of a sound database. -/
theorem membership_eq {db : Database} (h : db.Sound c) (ops : List MutationOp) :
    membership db ops = .ok fun rel => (db.query rel).getD [] := by
  rw [membership, if_pos]
  exact List.all_eq_true.mpr fun op _ => by rw [h.scan]; rfl

/-- The answer to a mutation that is committed. -/
def answer (prog : StoredProgram) (ops : List MutationOp) :
    Except StoreError Unit × ProgramStore → Except StoreError ApplyOutcome × ProgramStore
  | (.ok (), st) => (.ok (.mutated (prog.db.effective ops).length (prog.db.skipped ops)), st)
  | (.error e, st) => (.error e, st)

theorem answer_snd (prog : StoredProgram) (ops : List MutationOp)
    (x : Except StoreError Unit × ProgramStore) : (answer prog ops x).2 = x.2 := by
  obtain ⟨_ | _, st⟩ := x <;> rfl

/-- **A mutation** is refused, or has nothing to do, or is committed. -/
theorem applyMutate_cases (h : st.Sound) (node : Node) (program : String) (ops : List MutationOp) :
    (∃ msg, st.applyMutate node program ops = (.error (.message msg), st) ∧
      ∀ prog ∈ st.programs.lookup program, ∃ op ∈ ops, op.relation ∈ prog.db.idbRelations) ∨
    ∃ prog, st.programs.lookup program = some prog ∧
      (∀ op ∈ ops, op.relation ∉ prog.db.idbRelations) ∧
      (prog.db.effective ops = [] ∧
          st.applyMutate node program ops = (.ok (.mutated 0 (prog.db.skipped ops)), st) ∨
        st.applyMutate node program ops =
          answer prog ops (st.commit node program prog (prog.db.effective ops))) := by
  unfold applyMutate
  cases hprog : st.programs.lookup program with
  | none => exact .inl ⟨_, rfl, fun _ h => (by cases h)⟩
  | some prog =>
    obtain ⟨c, hsound⟩ := h program prog hprog
    dsimp only
    cases hfind : ops.find? fun op => !prog.db.isMutableRelation op.relation with
    | some op =>
      refine .inl ⟨_, rfl, ?_⟩
      rintro _ ⟨⟩
      refine ⟨op, List.mem_of_find?_eq_some hfind, ?_⟩
      simpa [Database.isMutableRelation] using List.find?_some hfind
    | none =>
      refine .inr ⟨prog, rfl, fun op hop => ?_, ?_⟩
      · simpa [Database.isMutableRelation] using List.find?_eq_none.mp hfind op hop
      · simp only [membership_eq hsound]
        by_cases hnil : prog.db.effective ops = []
        · refine .inl ⟨hnil, ?_⟩
          rw [Database.effective] at hnil
          simp only [hnil, List.isEmpty_nil, if_true]
          rfl
        · refine .inr ?_
          rw [Database.effective] at hnil ⊢
          simp only [List.isEmpty_iff, hnil, if_false]
          rfl

/-- **A commit**, also one that fails, changes the database of one program by a batch. -/
theorem commit_eq (node : Node) (st : ProgramStore) (program : String) (prog : StoredProgram)
    (applied : List MutationOp) : ∃ ledger,
      (st.commit node program prog applied).2.programs =
        st.programs.insert program ⟨prog.source, prog.predicates,
          (prog.db.batch node.en applied).2, ledger⟩ := by
  rw [commit]
  rcases hbatch : prog.db.batch node.en applied with ⟨⟨⟩ | ⟨⟩, db⟩
  · exact ⟨prog.ledger, programs_put ..⟩
  · exact ⟨_, programs_put ..⟩

/-! ## Soundness -/

theorem Sound.insert (h : st.Sound) (prog : StoredProgram) (hprog : prog.db.Sound c)
    {programs : HashMap String StoredProgram} (heq : programs = st.programs.insert program prog) :
    ∀ name p, programs.lookup name = some p → ∃ c, p.db.Sound c := by
  rw [heq]
  exact HashMap.forall_insert h ⟨c, hprog⟩

theorem Sound.commit (h : st.Sound) {prog : StoredProgram} (hprog : prog.db.Sound c) (node : Node)
    (program : String) (applied : List MutationOp) :
    (st.commit node program prog applied).2.Sound := by
  obtain ⟨ledger, heq⟩ := commit_eq node st program prog applied
  obtain ⟨c', hsound, -⟩ := hprog.batch node.en applied
  exact h.insert ⟨prog.source, prog.predicates, _, ledger⟩ hsound heq

/-- What a successful opening is. -/
theorem openProgram_ok {name source : String} {db : Database}
    (hok : st.openProgram node name source = .ok db) : ∃ unit, node.parse source = .ok unit ∧
      Database.open' node.en (st.idbMode name) unit (node.sources name) = .ok db := by
  simp only [openProgram, bind_eq_ok] at hok
  obtain ⟨unit, hunit, hopen⟩ := hok
  refine ⟨unit, ?_, ?_⟩
  · cases hx : node.parse source <;> simp_all [ofCompile, ofDb]
  · cases hx : Database.open' node.en (st.idbMode name) unit (node.sources name) <;>
      simp_all [ofDb]

/-- **All a command does**: nothing, or it commits a mutation, loads a program or deletes one. -/
theorem apply_cases (h : st.Sound) (node : Node) (cmd : Command) :
    (st.apply node cmd).2 = st ∨
    (∃ program ops prog, cmd = .mutate program ops ∧ st.programs.lookup program = some prog ∧
      (∀ op ∈ ops, op.relation ∉ prog.db.idbRelations) ∧ st.apply node cmd =
        answer prog ops (st.commit node program prog (prog.db.effective ops))) ∨
    (∃ name prog c r, prog.db.Sound c ∧ prog.ledger = .empty ∧
      st.apply node cmd = (.ok r, st.put name prog)) ∨
    ∃ name r, st.apply node cmd = (.ok r, { st with programs := st.programs.erase name }) := by
  cases cmd with
  | mutate program ops =>
    obtain ⟨msg, heq, -⟩ | ⟨prog, hprog, hfree, ⟨-, heq⟩ | heq⟩ :=
      applyMutate_cases h node program ops
    · exact .inl (congrArg Prod.snd heq)
    · exact .inl (congrArg Prod.snd heq)
    · exact .inr (.inl ⟨program, ops, prog, rfl, hprog, hfree, heq⟩)
  | loadProgram name source =>
    cases hx : st.openProgram node name source with
    | error e => exact .inl (by rw [ProgramStore.apply, load, hx])
    | ok db =>
      obtain ⟨unit, -, hopen⟩ := openProgram_ok hx
      obtain ⟨-, c, hdb⟩ := Database.Sound.of_open hopen
      exact .inr (.inr (.inl ⟨name, ⟨source, sortedNames node.en.rt.order db, db, .empty⟩, c, _,
        hdb, rfl, by rw [ProgramStore.apply, load, hx]⟩))
  | deleteProgram name =>
    cases hx : st.programs.lookup name with
    | none => exact .inl (by rw [ProgramStore.apply, hx])
    | some prog => exact .inr (.inr (.inr ⟨name, _, by rw [ProgramStore.apply, hx]⟩))
  | noop => exact .inl rfl

/-- **Every command leaves sound databases.** -/
theorem Sound.apply (h : st.Sound) (node : Node) (cmd : Command) : (st.apply node cmd).2.Sound := by
  obtain heq | ⟨program, ops, prog, -, hprog, -, heq⟩ | ⟨name, prog, c, r, hdb, -, heq⟩ |
    ⟨name, r, heq⟩ := apply_cases h node cmd <;> rw [heq]
  · exact h
  · obtain ⟨c, hdb⟩ := h program prog hprog
    rw [answer_snd]
    exact h.commit hdb node program (prog.db.effective ops)
  · exact h.insert prog hdb (programs_put ..)
  · exact HashMap.forall_erase h name

/-! ## Commands that fail -/

/-- Lines of the program can be written to the log. -/
def LogWorks (node : Node) (log : Option MutationLog) (program : String) : Prop :=
  ∀ l ∈ log, program ∈ l.persistPrograms → node.logError = none

/-- If lines can be written, all operations are noted. -/
theorem record_of_logWorks {log : Option MutationLog} (h : LogWorks node log program)
    (ledger : FactLedger) (ops : List MutationOp) :
    ∃ log', record node program ledger log ops =
      (.ok (), ops.foldl FactLedger.note ledger, log') := by
  induction ops generalizing ledger log with
  | nil => cases log <;> exact ⟨_, rfl⟩
  | cons op ops ih =>
    cases log with
    | none => exact ih h (ledger.note op)
    | some log =>
      have happend : ∃ log', log.append node program op = (.ok (), log') ∧
          log'.persistPrograms = log.persistPrograms := by
        unfold MutationLog.append
        split
        · exact ⟨log, rfl, rfl⟩
        · next hmem =>
          rw [h log rfl (not_not.mp hmem)]
          exact ⟨_, rfl, rfl⟩
      obtain ⟨log', hlog', hpersist⟩ := happend
      have hworks : LogWorks node (some log') program := by
        rintro l ⟨⟩ hmem
        exact h log rfl (hpersist ▸ hmem)
      obtain ⟨log'', hrest⟩ := ih hworks (ledger.note op)
      refine ⟨log'', ?_⟩
      rw [record, hlog']
      exact hrest

/-- A mutation after which the program runs and lines can be written. -/
def Completes (node : Node) (st : ProgramStore) : Command → Prop
  | .mutate program ops => LogWorks node st.mutationLog program ∧
      ∀ prog ∈ st.programs.lookup program, (∀ op ∈ ops, prog.db.isMutableRelation op.relation) →
        (prog.db.writeAll (prog.db.effective ops)).2.Runs node.en
  | _ => True

/-- **A commit succeeds** where the program runs. -/
theorem commit_of_runs {prog : StoredProgram} {applied : List MutationOp} (hdb : prog.db.Sound c)
    (hlog : LogWorks node st.mutationLog program)
    (hruns : (prog.db.writeAll applied).2.Runs node.en) :
    ∃ db st', prog.db.batch node.en applied = (.ok (), db) ∧
      st.commit node program prog applied = (.ok (), st') ∧
      st'.programs = st.programs.insert program
        ⟨prog.source, prog.predicates, db, applied.foldl FactLedger.note prog.ledger⟩ := by
  obtain ⟨db, hdb'⟩ := hdb.batch_of_runs hruns
  obtain ⟨log', hrec⟩ := record_of_logWorks hlog prog.ledger applied
  refine ⟨db, { st.put program ⟨prog.source, prog.predicates, db,
    applied.foldl FactLedger.note prog.ledger⟩ with mutationLog := log' }, hdb', ?_,
    programs_put ..⟩
  rw [commit, hdb', hrec]

/-- **A command that completes or is refused leaves no trace of a failure.** -/
theorem apply_error (h : st.Sound) {cmd : Command} (hruns : st.Completes node cmd) {e : StoreError}
    (herr : st.apply node cmd = (.error e, st')) : st' = st := by
  obtain heq | ⟨program, ops, prog, rfl, hprog, hfree, heq⟩ | ⟨name, prog, c, r, -, -, heq⟩ |
    ⟨name, r, heq⟩ := apply_cases h node cmd
  · rw [← heq, herr]
  · obtain ⟨c, hsound⟩ := h program prog hprog
    have hmut : ∀ op ∈ ops, prog.db.isMutableRelation op.relation = true := fun op hop =>
      decide_eq_true (hfree op hop)
    obtain ⟨-, st₁, -, hcommit, -⟩ := commit_of_runs hsound hruns.1 (hruns.2 prog hprog hmut)
    rw [heq, hcommit] at herr
    cases herr
  · rw [heq] at herr
    cases herr
  · rw [heq] at herr
    cases herr

end ProgramStore

end Mangle

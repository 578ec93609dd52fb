import Mangle.Server.Classify

/-!
# Server/Accounting — what a mutation counts, and what the ledger says

Over whole runs of commands that complete and in which nothing is dropped, every ledger says what
is there (`ProgramStore.Holds.run`).

* `mutation_accounting` — the counts of a mutation are those of the changes, and the ledger says
  what is there, just when no insertion meets another arity;
* `mutation_counts_dropped_fact` — an insertion that is counted and noted, and dropped.
-/

namespace Mangle

open Machinery

/-! ## Commands -/

namespace ProgramStore

variable {S : String → String → Set Tuple} {node : Node} {st st' : ProgramStore} {program : String}
  {ops : List MutationOp} {c : Tiers}

/-- What is recorded when nothing fails. -/
theorem record_ok {ledger ledger' : FactLedger} {log log' : Option MutationLog}
    (hok : record node program ledger log ops = (.ok (), ledger', log')) :
    ledger' = ops.foldl FactLedger.note ledger := by
  induction ops generalizing ledger log with
  | nil => cases log <;> exact (Prod.mk.inj (Prod.mk.inj hok).2).1.symm
  | cons op ops ih =>
    cases log with
    | none => exact ih hok
    | some log =>
      rw [record] at hok
      rcases hx : log.append node program op with ⟨⟨⟩ | ⟨⟩, log₁⟩
      · rw [hx] at hok
        cases hok
      · rw [hx] at hok
        exact ih hok

/-- What a successful commit is. -/
theorem commit_ok {prog : StoredProgram} {applied : List MutationOp}
    (hok : st.commit node program prog applied = (.ok (), st')) :
    ∃ db, prog.db.batch node.en applied = (.ok (), db) ∧ st'.programs = st.programs.insert program
      ⟨prog.source, prog.predicates, db, applied.foldl FactLedger.note prog.ledger⟩ := by
  rw [commit] at hok
  rcases hbatch : prog.db.batch node.en applied with ⟨⟨⟩ | ⟨⟩, db⟩
  · rw [hbatch] at hok
    cases hok
  · rw [hbatch] at hok
    rcases hrec : record node program prog.ledger st.mutationLog applied with ⟨r, ledger, log⟩
    simp only [hrec] at hok
    obtain ⟨rfl, rfl⟩ := Prod.mk.inj hok
    exact ⟨db, rfl, record_ok hrec ▸ programs_put ..⟩

/-- Every database is sound, and every ledger says what is there. -/
def Holds (S : String → String → Set Tuple) (st : ProgramStore) : Prop :=
  ∀ name prog, st.programs.lookup name = some prog →
    ∃ c, prog.db.Sound c ∧ prog.ledger.Holds (S name) prog.db.unit c

theorem Holds.sound (h : st.Holds S) : st.Sound := fun name prog hprog => by
  obtain ⟨c, hsound, -⟩ := h name prog hprog
  exact ⟨c, hsound⟩

/-- The program after a commit in which nothing is dropped. -/
theorem ledger_commit (hS : ∀ p rel, OrdSet.LinearOn Value.cmpList (S p rel)) {prog : StoredProgram}
    {db : Database} (hdb : prog.db.Sound c) (hl : prog.ledger.Holds (S program) prog.db.unit c)
    (hops : ∀ op ∈ ops, op.tuple ∈ S program op.relation)
    (hfree : ∀ op ∈ ops, op.relation ∉ prog.db.idbRelations) (htakes : prog.db.TakesAll ops)
    (hbatch : prog.db.batch node.en (prog.db.effective ops) = (.ok (), db)) :
    ∃ c', db.Sound c' ∧ ((prog.db.effective ops).foldl FactLedger.note prog.ledger).Holds
      (S program) db.unit c' := by
  obtain ⟨c', hsound, hsame, hunit⟩ := hdb.batch node.en (prog.db.effective ops)
  rw [hbatch] at hsound hunit
  have hmem {op : MutationOp} (hop : op ∈ prog.db.effective ops) : op ∈ ops :=
    mem_of_mem_classify hop
  have hledger := hl.notes hdb (hS program)
    (fun op hop => ⟨hops op (hmem hop), (hdb.idb _).not.mp (hfree op (hmem hop))⟩)
    (appliesAll_effective hdb htakes)
  refine ⟨c', hsound, ?_⟩
  rw [hunit]
  exact hledger.congr fun rel hrel t => by rw [hsame.visible rel hrel]

/-- A mutation of tuples of `S` in which nothing is dropped. -/
def Keeps (S : String → String → Set Tuple) (st : ProgramStore) : Command → Prop
  | .mutate program ops => (∀ op ∈ ops, op.tuple ∈ S program op.relation) ∧
      ∀ prog ∈ st.programs.lookup program, prog.db.TakesAll ops
  | _ => True

/-- Commands that complete, and in which nothing is dropped. -/
def KeepsAll (S : String → String → Set Tuple) : ProgramStore → List (Node × Command) → Prop
  | _, [] => True
  | st, (node, cmd) :: steps =>
      st.Completes node cmd ∧ st.Keeps S cmd ∧ KeepsAll S (st.apply node cmd).2 steps

theorem Holds.insert (h : st.Holds S) (prog : StoredProgram) (hdb : prog.db.Sound c)
    (hl : prog.ledger.Holds (S program) prog.db.unit c)
    (heq : st'.programs = st.programs.insert program prog) : st'.Holds S := by
  rw [Holds, heq]
  exact HashMap.forall_insert h ⟨c, hdb, hl⟩

/-- **A command** that completes, and in which nothing is dropped. -/
theorem Holds.apply (h : st.Holds S) (hS : ∀ p rel, OrdSet.LinearOn Value.cmpList (S p rel))
    {cmd : Command} (hruns : st.Completes node cmd) (hkeeps : st.Keeps S cmd) :
    (st.apply node cmd).2.Holds S := by
  obtain heq | ⟨program, ops, prog, rfl, hprog, hfree, heq⟩ | ⟨name, prog, c, r, hdb, hl, heq⟩ |
    ⟨name, r, heq⟩ := apply_cases h.sound node cmd <;> rw [heq]
  · exact h
  · obtain ⟨c, hdb, hl⟩ := h program prog hprog
    have hmut : ∀ op ∈ ops, prog.db.isMutableRelation op.relation = true := fun op hop =>
      decide_eq_true (hfree op hop)
    obtain ⟨db, st₁, hbatch, hcommit, hst₁⟩ := commit_of_runs hdb hruns.1 (hruns.2 prog hprog hmut)
    obtain ⟨c', hdb', hl'⟩ := ledger_commit hS hdb hl hkeeps.1 hfree (hkeeps.2 prog hprog) hbatch
    rw [hcommit]
    exact h.insert _ hdb' hl' hst₁
  · exact h.insert prog hdb (hl ▸ FactLedger.holds_empty _ _ _) (programs_put ..)
  · exact HashMap.forall_erase h name

theorem Holds.run (h : st.Holds S) (hS : ∀ p rel, OrdSet.LinearOn Value.cmpList (S p rel))
    {steps : List (Node × Command)} (hsteps : st.KeepsAll S steps) : (st.run steps).Holds S := by
  induction steps generalizing st with
  | nil => exact h
  | cons x steps ih =>
    obtain ⟨hruns, hkeeps, hrest⟩ := hsteps
    exact ih (h.apply hS hruns hkeeps) hrest

end ProgramStore

/-- Every replicated tuple of the ledger is a fact, and no retracted one is. -/
def StoredProgram.LedgerTrue (prog : StoredProgram) : Prop :=
  ∀ rel, (∀ t ∈ prog.ledger.replicated.of rel, t ∈ (prog.db.query rel).getD []) ∧
    ∀ t ∈ prog.ledger.retracted.of rel, t ∉ (prog.db.query rel).getD []

theorem FactLedger.Holds.ledgerTrue {S : String → Set Tuple} (prog : StoredProgram) {c : Tiers}
    (hdb : prog.db.Sound c) (hl : prog.ledger.Holds S prog.db.unit c) : prog.LedgerTrue := by
  intro rel
  rw [hdb.scan]
  exact ⟨(hl.sets rel).present, (hl.sets rel).absent⟩

/-- **Mutation accounting**, after commands that complete, and in which nothing is dropped, over
tuples that `Value::cmp` orders linearly.  A mutation counts every operation once; its count of
applied operations is that of the changes and the ledger says what is there just when no insertion
meets another arity. -/
theorem mutation_accounting {S : String → String → Set Tuple} {st : ProgramStore}
    {steps : List (Node × Command)} {node : Node} {program : String} {ops : List MutationOp}
    {applied skipped : Nat} {st' : ProgramStore}
    (hS : ∀ p rel, OrdSet.LinearOn Value.cmpList (S p rel)) (hempty : st.programs = ∅)
    (hsteps : st.KeepsAll S steps) (hops : ∀ op ∈ ops, op.tuple ∈ S program op.relation)
    (hok : (st.run steps).apply node (.mutate program ops) =
      (.ok (.mutated applied skipped), st')) :
    applied + skipped = ops.length ∧
      ∃ prog prog', (st.run steps).programs.lookup program = some prog ∧
        st'.programs.lookup program = some prog' ∧
        (applied = prog.db.changes ops ∧ prog'.LedgerTrue ↔ prog.db.TakesAll ops) := by
  have hholds : (st.run steps).Holds S := by
    refine ProgramStore.Holds.run (fun name prog hprog => ?_) hS hsteps
    rw [hempty] at hprog
    cases hprog
  rw [ProgramStore.apply] at hok
  obtain ⟨msg, heq, -⟩ | ⟨prog, hprog, hfree, hcases⟩ :=
    ProgramStore.applyMutate_cases hholds.sound node program ops
  · rw [heq] at hok
    cases hok
  obtain ⟨c, hdb, hl⟩ := hholds program prog hprog
  have hagree := ProgramStore.agrees_query hdb
  have hcount := ProgramStore.length_classify (fun rel => (prog.db.query rel).getD []) ops
  have hchanges : (prog.db.effective ops).length = prog.db.changes ops ↔ prog.db.TakesAll ops := by
    rw [hdb.changes_eq, hdb.takesAll_iff]
    exact hagree.changes_eq_iff hdb
  obtain ⟨hnil, heq⟩ | heq := hcases
  · rw [heq] at hok
    cases hok
    have hzero : (prog.db.effective ops).length = 0 := by rw [hnil]; rfl
    refine ⟨by rw [← hcount, ← Database.effective, hzero]; rfl, prog, prog, hprog, hprog, ?_⟩
    rw [← hchanges, hzero]
    exact and_iff_left (FactLedger.Holds.ledgerTrue prog hdb hl)
  · rw [heq] at hok
    rcases hcommit : (st.run steps).commit node program prog (prog.db.effective ops) with
      ⟨⟨⟩ | ⟨⟩, st₁⟩
    · rw [hcommit] at hok
      cases hok
    · rw [hcommit] at hok
      cases hok
      obtain ⟨db, hbatch, hst'⟩ := ProgramStore.commit_ok hcommit
      refine ⟨hcount, prog, ⟨prog.source, prog.predicates, db, _⟩, hprog,
        by rw [hst', AList.lookup_insert], ?_⟩
      rw [← hchanges]
      refine and_iff_left_of_imp fun hsame => ?_
      obtain ⟨c', hdb', hl'⟩ := ProgramStore.ledger_commit hS hdb hl hops hfree
        (hchanges.mp hsame) hbatch
      exact FactLedger.Holds.ledgerTrue ⟨prog.source, prog.predicates, db, _⟩ hdb' hl'

/-- A node whose only program text, the empty one, has no clauses. -/
def factsNode : Node where
  en := .bare
  parse source := if source = "" then .ok [] else .error "syntax error"
  sources _ := []
  logError := none

/-- A program without clauses is loaded, and gets the fact `p(1)`. -/
def oneFactSteps : List (Node × Command) :=
  [(factsNode, .loadProgram "m" ""), (factsNode, .mutate "m" [⟨.insert, "p", [.number 1]⟩])]

/-- Two tuples of numbers. -/
def twoNumbers : List Tuple := [[.number 1], [.number 2]]

theorem twoNumbers_linear : OrdSet.LinearOn Value.cmpList {t | t ∈ twoNumbers} where
  eq_iff := by
    simp only [Set.mem_ofPred_eq]
    decide
  gt_iff := by
    simp only [Set.mem_ofPred_eq]
    decide
  trans := by
    simp only [Set.mem_ofPred_eq]
    decide

/-- One operation that changes the facts, and one that does not. -/
theorem mutation_accounting_two : ∃ st',
    (ProgramStore.new.run oneFactSteps).apply factsNode
      (.mutate "m" [⟨.insert, "p", [.number 2]⟩, ⟨.insert, "p", [.number 1]⟩]) =
        (.ok (.mutated 1 1), st') ∧
    ∃ prog prog', (ProgramStore.new.run oneFactSteps).programs.lookup "m" = some prog ∧
      st'.programs.lookup "m" = some prog' ∧
      (1 = prog.db.changes [⟨.insert, "p", [.number 2]⟩, ⟨.insert, "p", [.number 1]⟩] ∧
        prog'.LedgerTrue ↔
        prog.db.TakesAll [⟨.insert, "p", [.number 2]⟩, ⟨.insert, "p", [.number 1]⟩]) := by
  obtain ⟨st', hok⟩ : ∃ st', (ProgramStore.new.run oneFactSteps).apply factsNode
      (.mutate "m" [⟨.insert, "p", [.number 2]⟩, ⟨.insert, "p", [.number 1]⟩]) =
        (.ok (.mutated 1 1), st') := ⟨_, rfl⟩
  have hsteps : ProgramStore.new.KeepsAll (fun _ _ => {t | t ∈ twoNumbers}) oneFactSteps := by
    refine ⟨trivial, trivial, ⟨fun l hl => (by cases hl), fun prog hprog _ => ?_⟩,
      ⟨by decide, fun prog hprog => ?_⟩, trivial⟩
    · cases hprog
      exact ⟨_, _, rfl, rfl⟩
    · cases hprog
      exact ⟨fun _ _ n hn => (by cases hn), fun _ _ => trivial⟩
  exact ⟨st', hok, (mutation_accounting (fun _ _ => twoNumbers_linear) rfl hsteps
    (by decide) hok).2⟩

/-- **A fact that is dropped is counted and noted**: `p(1, 2)` after `p(1)`. -/
theorem mutation_counts_dropped_fact : ∃ prog prog' st',
    (ProgramStore.new.run oneFactSteps).apply factsNode
      (.mutate "m" [⟨.insert, "p", [.number 1, .number 2]⟩]) = (.ok (.mutated 1 0), st') ∧
    (ProgramStore.new.run oneFactSteps).programs.lookup "m" = some prog ∧
    st'.programs.lookup "m" = some prog' ∧
    prog.db.changes [⟨.insert, "p", [.number 1, .number 2]⟩] = 0 ∧
    [.number 1, .number 2] ∈ prog'.ledger.replicated.of "p" ∧
    prog'.db.query "p" = some [[.number 1]] :=
  ⟨_, _, _, rfl, rfl, rfl, by decide, by decide, rfl⟩

end Mangle

import Mangle.Server.Accounting

/-!
# Server/Replay — the mutation log, read again

A persistent program writes every applied operation to a file of facts.  Reading it again takes all
the insertions and removes whatever was ever retracted, so a fact that was retracted and came back
is missing.

* `log_replays` — the file gives the facts back just when none of them was retracted before;
* `log_forgets_fact` — `p(1)` is inserted, retracted and inserted again.
-/

namespace Mangle

open Machinery List

variable {t : Tuple} {rel : String}

/-! ## Histories of operations -/

/-- Whether a fact is there after operations on an empty relation. -/
def present (ops : List MutationOp) (rel : String) (t : Tuple) : Bool :=
  ops.foldl (fun b op => if op.relation = rel ∧ op.tuple = t then op.kind = .insert else b) false

/-- A retraction has found the fact. -/
def Retracted (ops : List MutationOp) (rel : String) (t : Tuple) : Prop :=
  ∃ before after, ops = before ++ ⟨.retract, rel, t⟩ :: after ∧ present before rel t = true

theorem present_concat (ops : List MutationOp) (op : MutationOp) (rel : String) (t : Tuple) :
    present (ops ++ [op]) rel t =
      if op.relation = rel ∧ op.tuple = t then decide (op.kind = .insert)
      else present ops rel t := by
  simp [present]

variable {op : MutationOp} {ops : List MutationOp}

/-- What an operation makes of the facts. -/
theorem present_concat_iff :
    present (ops ++ [op]) rel t = true ↔
      match op.kind with
      | .insert => present ops rel t = true ∨ rel = op.relation ∧ t = op.tuple
      | .retract => present ops rel t = true ∧ ¬(rel = op.relation ∧ t = op.tuple) := by
  rw [present_concat]
  by_cases hhit : rel = op.relation ∧ t = op.tuple
  · rw [if_pos ⟨hhit.1.symm, hhit.2.symm⟩]
    cases op.kind <;> simp [hhit]
  · rw [if_neg fun h => hhit ⟨h.1.symm, h.2.symm⟩]
    cases op.kind <;> simp [hhit]

theorem retracted_concat :
    Retracted (ops ++ [op]) rel t ↔
      Retracted ops rel t ∨ op = ⟨.retract, rel, t⟩ ∧ present ops rel t = true := by
  constructor
  · rintro ⟨before, after, heq, hpresent⟩
    obtain rfl | ⟨after, last, rfl⟩ := eq_nil_or_concat after
    · obtain ⟨rfl, hop⟩ := append_inj' heq rfl
      exact .inr ⟨(List.cons.inj hop).1, hpresent⟩
    · refine .inl ⟨before, after, ?_, hpresent⟩
      rw [concat_eq_append, ← cons_append, ← append_assoc] at heq
      exact (append_inj' heq rfl).1
  · rintro (⟨before, after, rfl, hpresent⟩ | ⟨rfl, hpresent⟩)
    · exact ⟨before, after ++ [op], by simp, hpresent⟩
    · exact ⟨ops, [], rfl, hpresent⟩

/-- A fact that is present was inserted. -/
theorem mem_of_present (h : present ops rel t = true) :
    ⟨.insert, rel, t⟩ ∈ ops := by
  induction ops using List.reverseRecOn with
  | nil => cases h
  | append_singleton ops op ih =>
    rw [present_concat] at h
    split at h
    · next heq =>
      obtain ⟨rfl, rfl⟩ := heq
      obtain ⟨kind, rel, t⟩ := op
      obtain rfl : kind = .insert := of_decide_eq_true h
      simp
    · exact mem_append_left _ (ih h)

/-- Of the operations `ops`, those that changed something are `applied`. -/
structure Applied (ops applied : List MutationOp) : Prop where
  present : ∀ rel t, present applied rel t = present ops rel t
  inserted : ∀ rel t, ⟨.insert, rel, t⟩ ∈ applied ↔ Mangle.present ops rel t = true ∨
    Retracted ops rel t
  retracted : ∀ rel t, ⟨.retract, rel, t⟩ ∈ applied ↔ Retracted ops rel t

namespace Applied

variable {ops applied : List MutationOp} {op : MutationOp}

theorem nil : Applied [] [] where
  present _ _ := rfl
  inserted rel t := by simp [Mangle.present, Retracted]
  retracted rel t := by simp [Retracted]

/-- An operation that changes something. -/
theorem effective (h : Applied ops applied)
    (heff : Mangle.present ops op.relation op.tuple = decide (op.kind = .retract)) :
    Applied (ops ++ [op]) (applied ++ [op]) where
  present rel t := by rw [present_concat, present_concat, h.present]
  inserted rel t := by
    rw [mem_append, h.inserted, mem_singleton, present_concat, retracted_concat]
    obtain ⟨kind, r, u⟩ := op
    by_cases heq : r = rel ∧ u = t
    · obtain ⟨rfl, rfl⟩ := heq
      cases kind <;> simp_all
    · have hne : (⟨kind, r, u⟩ : MutationOp) ≠ ⟨.insert, rel, t⟩ := fun h => heq (by cases h; simp)
      have hne' : (⟨kind, r, u⟩ : MutationOp) ≠ ⟨.retract, rel, t⟩ := fun h =>
        heq (by cases h; simp)
      simp [heq, hne.symm, hne']
  retracted rel t := by
    rw [mem_append, h.retracted, mem_singleton, retracted_concat]
    refine or_congr_right ⟨?_, fun hop => hop.1.symm⟩
    rintro rfl
    exact ⟨rfl, heff⟩

/-- An operation that changes nothing. -/
theorem skip (h : Applied ops applied)
    (hno : Mangle.present ops op.relation op.tuple = decide (op.kind = .insert)) :
    Applied (ops ++ [op]) applied where
  present rel t := by
    rw [present_concat, h.present]
    split
    · next heq => rw [← hno, heq.1, heq.2]
    · rfl
  inserted rel t := by
    rw [h.inserted, present_concat, retracted_concat]
    obtain ⟨kind, r, u⟩ := op
    by_cases heq : r = rel ∧ u = t
    · obtain ⟨rfl, rfl⟩ := heq
      cases kind <;> simp_all
    · have hne : (⟨kind, r, u⟩ : MutationOp) ≠ ⟨.retract, rel, t⟩ := fun h =>
        heq (by cases h; simp)
      simp [heq, hne]
  retracted rel t := by
    rw [h.retracted, retracted_concat]
    refine (or_iff_left_of_imp ?_).symm
    rintro ⟨rfl, hpresent⟩
    rw [hpresent] at hno
    cases hno

variable {facts : String → List Tuple}

/-- The operation changes the table just when it changes what is present. -/
theorem effective_iff
    (hfacts : ∀ t, t ∈ facts op.relation ↔ Mangle.present ops op.relation t = true) :
    ProgramStore.Effective facts op ↔
      Mangle.present ops op.relation op.tuple = decide (op.kind = .retract) := by
  rw [ProgramStore.Effective]
  cases op.kind <;> simp [hfacts]

theorem mem_tableAfter
    (hfacts : ∀ t, t ∈ facts rel ↔ Mangle.present ops rel t = true) (t : Tuple) :
    t ∈ ProgramStore.tableAfter facts op rel ↔ Mangle.present (ops ++ [op]) rel t = true := by
  rw [present_concat_iff]
  cases hkind : op.kind with
  | insert => rw [ProgramStore.mem_tableAfter_insert hkind, hfacts]
  | retract => rw [ProgramStore.mem_tableAfter_retract hkind, hfacts]

theorem mem (h : Applied ops applied) (hop : op ∈ applied) : op ∈ ops := by
  have hretracted {rel : String} {t : Tuple} (hr : Retracted ops rel t) :
      ⟨.insert, rel, t⟩ ∈ ops ∧ ⟨.retract, rel, t⟩ ∈ ops := by
    obtain ⟨before, after, rfl, hpresent⟩ := hr
    exact ⟨mem_append_left _ (mem_of_present hpresent), by simp⟩
  obtain ⟨_ | _, rel, t⟩ := op
  · exact ((h.inserted rel t).mp hop).elim mem_of_present fun hr => (hretracted hr).1
  · exact (hretracted ((h.retracted rel t).mp hop)).2

/-- **The operations a mutation applies**, as its table of facts sorts them. -/
theorem classify (h : Applied ops applied) {heads : List String}
    (hfacts : ∀ rel, rel ∉ heads → ∀ t, t ∈ facts rel ↔ Mangle.present ops rel t = true)
    {new : List MutationOp} (hnew : ∀ op ∈ new, op.relation ∉ heads) :
    Applied (ops ++ new) (applied ++ (ProgramStore.classify facts new).1) := by
  induction new generalizing ops applied facts with
  | nil => simpa [ProgramStore.classify] using h
  | cons op new ih =>
    have hop := hfacts op.relation (hnew op mem_cons_self)
    have hrest : ∀ op ∈ new, op.relation ∉ heads := fun o ho => hnew o (mem_cons_of_mem _ ho)
    rw [append_cons]
    by_cases heff : ProgramStore.Effective facts op
    · rw [ProgramStore.classify_of_effective heff, append_cons applied]
      exact ih (h.effective ((effective_iff hop).mp heff))
        (fun rel hrel => mem_tableAfter (hfacts rel hrel)) hrest
    · have hno : Mangle.present ops op.relation op.tuple = decide (op.kind = .insert) := by
        rw [effective_iff hop] at heff
        cases hkind : op.kind <;> simp_all
      rw [ProgramStore.classify_of_not_effective heff]
      refine ih (h.skip hno) (fun rel hrel t => ?_) hrest
      rw [present_concat, hfacts rel hrel]
      split
      · next heq => rw [← hno, heq.1, heq.2]
      · rfl

end Applied

/-! ## The facts after the applied operations -/

/-- The facts of the relations without clauses are those present after the operations, which have
the arities of their relations. -/
structure Reflects (heads : List String) (applied : List MutationOp) (c : Tiers) : Prop where
  visible : ∀ rel, rel ∉ heads → ∀ t, t ∈ c.visible rel ↔ present applied rel t = true
  arity : ∀ op ∈ applied, c.arity op.relation = some op.tuple.length
  free : ∀ op ∈ applied, op.relation ∉ heads

namespace Reflects

variable {heads : List String} {applied new : List MutationOp} {c c' : Tiers} {db : Database}

theorem write (h : Reflects heads applied c) (hdb : db.Sound c)
    (hop : c.Applies op) (hfree : op.relation ∉ heads) :
    Reflects heads (applied ++ [op]) (c.write op) where
  visible rel hrel t := by
    rw [present_concat_iff]
    cases hkind : op.kind with
    | insert =>
      rw [hdb.merged.mem_write_insert hkind, h.visible _ hrel, and_iff_right (hop.insert hkind).2]
    | retract => rw [hdb.rep.toValid.mem_write_retract hkind, h.visible _ hrel]
  arity o ho := by
    obtain ho | ho := mem_append.mp ho
    · exact ProgramStore.arity_write (h.arity o ho)
    obtain rfl := mem_singleton.mp ho
    cases hkind : o.kind with
    | insert =>
      rw [ProgramStore.arity_write_insert hdb.merged hkind, if_pos ⟨rfl, hop.insert hkind⟩]
    | retract =>
      rw [Tiers.arity_write_retract hkind]
      exact hdb.rep.toValid.fits _ _ (Tiers.mem_all_of_visible (hop.retract hkind))
  free o ho := (mem_append.mp ho).elim (h.free o) fun ho =>
    mem_singleton.mp ho ▸ hfree

theorem writes (h : Reflects heads applied c) (hdb : db.Sound c) (hnew : c.AppliesAll new)
    (hfree : ∀ op ∈ new, op.relation ∉ heads) :
    Reflects heads (applied ++ new) (new.foldl Tiers.write c) := by
  induction new generalizing applied c db with
  | nil => simpa using h
  | cons op new ih =>
    obtain ⟨s, -, hdb'⟩ := hdb.write op
    rw [foldl_cons, append_cons]
    exact ih (h.write hdb hnew.1 (hfree op mem_cons_self)) hdb' hnew.2 fun o ho =>
      hfree o (mem_cons_of_mem _ ho)

/-- A recomputation leaves the relations without clauses alone. -/
theorem congr {unit : List Rule} (h : Reflects (unit.map Rule.pred) applied c)
    (hsame : c.SameFacts unit c') : Reflects (unit.map Rule.pred) applied c' where
  visible rel hrel := by rw [hsame.visible rel hrel]; exact h.visible rel hrel
  arity op hop := (hsame.arity _ (h.free op hop)).trans (h.arity op hop)
  free := h.free

end Reflects

/-! ## The file of a program -/

namespace ProgramStore

variable {node : Node} {st : ProgramStore} {m : String} {heads : List String}
  {ops new : List MutationOp}

/-- **A persistent program's lines** go to the end of its file. -/
theorem record_persistent {log : MutationLog} (hm : m ∈ log.persistPrograms)
    (hworks : node.logError = none) (ledger : FactLedger) (ops : List MutationOp) :
    ∃ log', record node m ledger (some log) ops =
        (.ok (), ops.foldl FactLedger.note ledger, some log') ∧
      m ∈ log'.persistPrograms ∧ log'.files.get m = log.files.get m ++ ops.map MutationOp.line := by
  induction ops generalizing log ledger with
  | nil => exact ⟨log, rfl, hm, by simp⟩
  | cons op ops ih =>
    have happend : log.append node m op =
        (.ok (), { log with files := log.files.modify m (· ++ [op.line]) }) := by
      rw [MutationLog.append, if_neg (not_not.mpr hm), hworks]
    obtain ⟨log', hrest, hm', hget⟩ :=
      @ih { log with files := log.files.modify m (· ++ [op.line]) } hm (ledger.note op)
    refine ⟨log', by rw [record, happend]; exact hrest, hm', ?_⟩
    rw [hget, HashMap.get_modify, if_pos rfl, map_cons, append_assoc,
      singleton_append]

/-- The operations of a command that is not refused. -/
def accepted (heads : List String) (ops : List MutationOp) : List MutationOp :=
  if ∀ op ∈ ops, op.relation ∉ heads then ops else []

/-- The file of the program has the applied operations of `ops`, and they lead to its facts. -/
def Logs (m : String) (heads : List String) (st : ProgramStore) (ops : List MutationOp) : Prop :=
  ∃ prog c log applied, st.programs.lookup m = some prog ∧ prog.db.unit.map Rule.pred = heads ∧
    prog.db.Sound c ∧ Reflects heads applied c ∧ Applied ops applied ∧
    st.mutationLog = some log ∧ m ∈ log.persistPrograms ∧
    log.files.get m = applied.map MutationOp.line

/-- **A mutation** that completes, and in which nothing is dropped. -/
theorem Logs.apply (h : st.Logs m heads ops) (hsound : st.Sound)
    (hruns : st.Completes node (.mutate m new))
    (htakes : ∀ prog ∈ st.programs.lookup m, prog.db.TakesAll new) :
    (st.apply node (.mutate m new)).2.Logs m heads (ops ++ accepted heads new) := by
  obtain ⟨prog, c, log, applied, hprog, hheads, hdb, hrefl, happl, hlog, hm, hfile⟩ := h
  have hidb (rel : String) : rel ∈ prog.db.idbRelations ↔ rel ∈ heads := hheads ▸ hdb.idb rel
  rw [ProgramStore.apply, accepted]
  obtain ⟨msg, heq, hrefused⟩ | ⟨prog', hprog', hmut, hcases⟩ := applyMutate_cases hsound node m new
  · obtain ⟨op, hop, hrel⟩ := hrefused prog hprog
    rw [if_neg fun hall => hall op hop ((hidb _).mp hrel), append_nil, heq]
    exact ⟨prog, c, log, applied, hprog, hheads, hdb, hrefl, happl, hlog, hm, hfile⟩
  obtain rfl : prog' = prog := Option.some.inj (hprog'.symm.trans hprog)
  have hall : ∀ op ∈ new, op.relation ∉ heads := fun op hop => (hidb _).not.mp (hmut op hop)
  have happl' : Applied (ops ++ new) (applied ++ prog'.db.effective new) := by
    refine happl.classify (fun rel hrel t => ?_) hall
    rw [hdb.scan, Option.getD_some, hrefl.visible rel hrel, happl.present]
  rw [if_pos hall]
  obtain ⟨hnil, heq⟩ | heq := hcases
  · rw [hnil, append_nil] at happl'
    rw [heq]
    exact ⟨prog', c, log, applied, hprog, hheads, hdb, hrefl, happl', hlog, hm, hfile⟩
  · have hrun := hruns.2 prog' hprog fun op hop => decide_eq_true (hmut op hop)
    obtain ⟨db, hbatch⟩ := hdb.batch_of_runs hrun
    obtain ⟨log', hrec, hm', hfile'⟩ := record_persistent hm (hruns.1 log hlog hm) prog'.ledger
      (prog'.db.effective new)
    have hcommit : st.commit node m prog' (prog'.db.effective new) = (.ok (), { st.put m
        { prog' with db, ledger := (prog'.db.effective new).foldl FactLedger.note prog'.ledger }
        with mutationLog := some log' }) := by
      rw [commit, hbatch, hlog, hrec]
    obtain ⟨c', hdb', hsame, hunit⟩ := hdb.batch node.en (prog'.db.effective new)
    rw [hbatch] at hdb' hunit
    have hrefl' := hrefl.writes hdb (appliesAll_effective hdb (htakes prog' hprog)) fun op hop =>
      hall op (mem_of_mem_classify hop)
    rw [heq, hcommit]
    subst hheads
    refine ⟨_, c', log', applied ++ prog'.db.effective new, (lookup_put ..).trans (if_pos rfl), ?_,
      hdb', hrefl'.congr hsame, happl', rfl, hm', ?_⟩
    · exact congrArg _ hunit
    · rw [hfile', hfile, map_append]

/-- Mutations of one program, as commands. -/
def mutations (m : String) (steps : List (Node × List MutationOp)) : List (Node × Command) :=
  steps.map fun x => (x.1, .mutate m x.2)

/-- The operations of the commands that are not refused. -/
def acceptedOps (heads : List String) (steps : List (Node × List MutationOp)) : List MutationOp :=
  steps.flatMap fun x => accepted heads x.2

variable {steps : List (Node × List MutationOp)}

theorem free_of_mem_acceptedOps
    (hop : op ∈ acceptedOps heads steps) : op.relation ∉ heads := by
  obtain ⟨x, -, hx⟩ := mem_flatMap.mp hop
  rw [accepted] at hx
  split at hx
  · next hfree => exact hfree op hx
  · cases hx

theorem Logs.run (h : st.Logs m heads ops)
    (hsound : st.Sound) (hsteps : st.KeepsAll (fun _ _ => Set.univ) (mutations m steps)) :
    (st.run (mutations m steps)).Logs m heads (ops ++ acceptedOps heads steps) := by
  induction steps generalizing st ops with
  | nil =>
    rw [acceptedOps, flatMap_nil, append_nil]
    exact h
  | cons x steps ih =>
    obtain ⟨hruns, hkeeps, hrest⟩ := hsteps
    rw [acceptedOps, flatMap_cons, ← append_assoc]
    exact ih (h.apply hsound hruns hkeeps.2) (hsound.apply _ _) hrest

end ProgramStore

/-! ## Reading the file -/

/-- The lines are clauses that state the facts they were written from, and pass the checks. -/
structure ParsesBack (en : Engine) (clause : String × Tuple → Rule)
    (lines : List (String × Tuple)) : Prop where
  states : ∀ line ∈ lines, (clause line).States en.rt line.1 line.2
  check : en.check (lines.map clause) = .ok ()

/-- The directory of a program: its file, if there is one. -/
def MutationLog.directory (clause : String × Tuple → Rule) (log : MutationLog) (program : String) :
    List EdbFile :=
  match log.files.lookup program with
  | none => []
  | some lines => [.clauses (lines.map clause)]

section

variable {en : Engine} {clause : String × Tuple → Rule} {lines : List (String × Tuple)}
  {applied : List MutationOp}

theorem ParsesBack.stated_iff (h : ParsesBack en clause lines) :
    Stated en.rt (lines.map clause) rel t ↔ (rel, t) ∈ lines := by
  constructor
  · rintro ⟨r, hr, hst⟩
    obtain ⟨line, hline, rfl⟩ := mem_map.mp hr
    have hst' := h.states line hline
    have hrel : rel = line.1 := hst.pred.symm.trans hst'.pred
    have ht : t = line.2 := Except.ok.inj (hst.value.symm.trans hst'.value)
    rwa [hrel, ht]
  · exact fun hline => ⟨clause (rel, t), mem_map_of_mem hline, h.states _ hline⟩

theorem mem_lines_insert (hrel : retractBase rel = none) :
    (rel, t) ∈ applied.map MutationOp.line ↔ ⟨.insert, rel, t⟩ ∈ applied := by
  rw [mem_map]
  constructor
  · rintro ⟨⟨kind, r, u⟩, hop, heq⟩
    cases kind with
    | insert => cases heq; exact hop
    | retract =>
      cases heq
      rw [retractBase_eq_some.mpr rfl] at hrel
      cases hrel
  · exact fun hop => ⟨_, hop, rfl⟩

variable (hnames : ∀ op ∈ applied, retractBase op.relation = none)

include hnames

theorem mem_lines_retract :
    (retractPrefix ++ rel, t) ∈ applied.map MutationOp.line ↔ ⟨.retract, rel, t⟩ ∈ applied := by
  rw [mem_map]
  constructor
  · rintro ⟨⟨kind, r, u⟩, hop, heq⟩
    obtain ⟨hr, rfl⟩ := Prod.mk.inj heq
    cases kind with
    | insert =>
      have hno := hnames _ hop
      rw [retractBase_eq_some.mpr hr] at hno
      cases hno
    | retract =>
      obtain rfl := retractPrefix_append_inj hr
      exact hop
  · exact fun hop => ⟨_, hop, rfl⟩

/-- Lines with one name are of operations of one relation. -/
theorem relation_of_line {op' : MutationOp} (hop : op ∈ applied) (hop' : op' ∈ applied)
    (heq : op.line.1 = op'.line.1) : op.relation = op'.relation := by
  have hno := hnames op hop
  have hno' := hnames op' hop'
  obtain ⟨_ | _, r, u⟩ := op <;> obtain ⟨_ | _, r', u'⟩ := op' <;>
    simp only [MutationOp.line] at heq hno hno' ⊢
  · exact heq
  · rw [retractBase_eq_some.mpr heq] at hno
    cases hno
  · rw [retractBase_eq_some.mpr heq.symm] at hno'
    cases hno'
  · exact retractPrefix_append_inj heq

/-- **Reading the file of applied operations**: what was inserted and never retracted. -/
theorem loadData_lines (hparse : ParsesBack en clause (applied.map MutationOp.line)) {c : Tiers}
    (harity : ∀ op ∈ applied, c.arity op.relation = some op.tuple.length) :
    ∃ tables, loadData en [.clauses ((applied.map MutationOp.line).map clause)] = .ok tables ∧
      ∀ rel t, retractBase rel = none → (t ∈ tables.get rel ↔
        ⟨.insert, rel, t⟩ ∈ applied ∧ ⟨.retract, rel, t⟩ ∉ applied) := by
  have hclause {r : Rule} (hr : r ∈ (applied.map MutationOp.line).map clause) :
      ∃ op ∈ applied, r.States en.rt op.line.1 op.line.2 := by
    obtain ⟨line, hline, rfl⟩ := mem_map.mp hr
    obtain ⟨op, hop, rfl⟩ := mem_map.mp hline
    exact ⟨op, hop, hparse.states _ hline⟩
  have hlen (op : MutationOp) : op.line.2 = op.tuple := by
    obtain ⟨_ | _, r, u⟩ := op <;> rfl
  obtain ⟨tables, hok, hmem⟩ := @loadData_facts en ((applied.map MutationOp.line).map clause)
    (fun r hr => by
      obtain ⟨op, -, hst⟩ := hclause hr
      exact ⟨op.line.2, hst.pred ▸ hst⟩)
    (fun r hr r' hr' heq => by
      obtain ⟨op, hop, hst⟩ := hclause hr
      obtain ⟨op', hop', hst'⟩ := hclause hr'
      have hrel := relation_of_line hnames hop hop' (hst.pred.symm.trans (heq.trans hst'.pred))
      have harity' := (harity op hop).symm.trans (hrel ▸ harity op' hop')
      rw [← length_evalTerms hst.value, ← length_evalTerms hst'.value, hlen, hlen]
      exact Option.some.inj harity')
    hparse.check
    (fun r hr base hbase => by
      obtain ⟨op, hop, hst⟩ := hclause hr
      have hno := hnames op hop
      obtain ⟨_ | _, rel, u⟩ := op <;> simp only [MutationOp.line] at hst hno
      · rw [← hst.pred, hbase] at hno
        cases hno
      · rw [hst.pred, retractBase_eq_some.mpr rfl] at hbase
        rwa [← Option.some.inj hbase])
  refine ⟨tables, hok, fun rel t hrel => ?_⟩
  rw [hmem rel t hrel, hparse.stated_iff, hparse.stated_iff, mem_lines_insert hrel,
    mem_lines_retract hnames]

end

/-- **The mutation log replays**: after mutations that complete, and in which nothing is dropped, of
a program that started without facts, its directory gives back the facts of every mutated relation
just when none that is there had been retracted. -/
theorem log_replays {st : ProgramStore} {m : String} {prog : StoredProgram} {log : MutationLog}
    {steps : List (Node × List MutationOp)} {ops : List MutationOp} {en : Engine}
    {clause : String × Tuple → Rule} (hsound : st.Sound)
    (hprog : st.programs.lookup m = some prog)
    (hempty : ∀ rel, rel ∉ prog.db.unit.map Rule.pred → prog.db.query rel = some [])
    (hlog : st.mutationLog = some log) (hm : m ∈ log.persistPrograms)
    (hfile : log.files.lookup m = none)
    (hsteps : st.KeepsAll (fun _ _ => Set.univ) (ProgramStore.mutations m steps))
    (hops : ops = ProgramStore.acceptedOps (prog.db.unit.map Rule.pred) steps)
    (hnames : ∀ op ∈ ops, retractBase op.relation = none)
    (hparse : ∀ log' ∈ (st.run (ProgramStore.mutations m steps)).mutationLog,
      ParsesBack en clause (log'.files.get m)) :
    ∃ prog' log' tables,
      (st.run (ProgramStore.mutations m steps)).programs.lookup m = some prog' ∧
      (st.run (ProgramStore.mutations m steps)).mutationLog = some log' ∧
      loadData en (log'.directory clause m) = .ok tables ∧
      ((∀ op ∈ ops, ∀ t, t ∈ tables.get op.relation ↔ t ∈ (prog'.db.query op.relation).getD []) ↔
        ∀ op ∈ ops, present ops op.relation op.tuple = true →
          ¬ Retracted ops op.relation op.tuple) := by
  obtain ⟨c, hdb⟩ := hsound m prog hprog
  have hstart : st.Logs m (prog.db.unit.map Rule.pred) [] := by
    refine ⟨prog, c, log, [], hprog, rfl, hdb, ⟨fun rel hrel t => ?_, ?_, ?_⟩, .nil, hlog, hm, ?_⟩
    · rw [Option.some.inj ((hdb.scan rel).symm.trans (hempty rel hrel))]
      simp [present]
    · simp
    · simp
    · simp [HashMap.get, hfile]
  have hend := hstart.run hsound hsteps
  rw [nil_append, ← hops] at hend
  obtain ⟨prog', c', log', applied, hprog', hheads, hdb', hrefl, happl, hlog', -, hfile'⟩ := hend
  have hread := hparse log' hlog'
  rw [hfile'] at hread
  obtain ⟨tables, hok, hmem⟩ : ∃ tables, loadData en (log'.directory clause m) = .ok tables ∧
      ∀ rel t, retractBase rel = none → (t ∈ tables.get rel ↔
        ⟨.insert, rel, t⟩ ∈ applied ∧ ⟨.retract, rel, t⟩ ∉ applied) := by
    unfold MutationLog.directory
    cases hlines : log'.files.lookup m with
    | none =>
      obtain rfl : applied = [] := by simpa [HashMap.get, hlines] using hfile'.symm
      refine ⟨_, rfl, fun rel t hrel => ?_⟩
      rw [get_retracted en.rt.order (fun key hkey => (by cases hkey)) hrel]
      simp
    | some lines =>
      obtain rfl : lines = applied.map MutationOp.line := by
        simpa [HashMap.get, hlines] using hfile'
      exact loadData_lines (fun op hop => hnames op (happl.mem hop)) hread hrefl.arity
  refine ⟨prog', log', tables, hprog', hlog', hok, ?_⟩
  have hfree : ∀ op ∈ ops, op.relation ∉ prog.db.unit.map Rule.pred := fun op hop =>
    ProgramStore.free_of_mem_acceptedOps (hops ▸ hop)
  have hiff : ∀ op ∈ ops, ∀ t, (t ∈ tables.get op.relation ↔
      t ∈ (prog'.db.query op.relation).getD []) ↔
        (present ops op.relation t = true → ¬ Retracted ops op.relation t) := by
    intro op hop t
    rw [hmem _ _ (hnames op hop), hdb'.scan, Option.getD_some, hrefl.visible _ (hfree op hop),
      happl.present, happl.inserted, happl.retracted]
    tauto
  constructor
  · exact fun h op hop => (hiff op hop op.tuple).mp (h op hop op.tuple)
  · intro h op hop t
    refine (hiff op hop t).mpr fun hpresent => ?_
    exact h _ (mem_of_present hpresent) hpresent

/-- The term of a number. -/
def numberTerm : Value → Option Term
  | .number n => some (.number n)
  | _ => none

/-- The clause of a line of numbers. -/
def numbersClause (line : String × Tuple) : Rule :=
  ⟨line.1, line.2.filterMap numberTerm, [], []⟩

/-- Lines of numbers parse back. -/
theorem parsesBack_numbers {lines : List (String × Tuple)}
    (h : ∀ line ∈ lines, ∀ v ∈ line.2, (numberTerm v).isSome) :
    ParsesBack .bare numbersClause lines := by
  have hterms : ∀ (t : Tuple), (∀ v ∈ t, (numberTerm v).isSome) →
      Term.allVarsList (t.filterMap numberTerm) = [] ∧
        evalTerms .bare (fun _ => .null) (t.filterMap numberTerm) = .ok t := by
    intro t ht
    induction t with
    | nil => exact ⟨rfl, rfl⟩
    | cons v t ih =>
      obtain ⟨hvars, hval⟩ := ih fun w hw => ht w (mem_cons_of_mem _ hw)
      have hv := ht v mem_cons_self
      cases v with
      | number n =>
        refine ⟨hvars, ?_⟩
        simp only [filterMap_cons, numberTerm, evalTerms, evalTerm, hval, ok_bind]
        rfl
      | _ => cases hv
  exact ⟨fun line hline => ⟨rfl, rfl, rfl, (hterms _ (h line hline)).1,
    (hterms _ (h line hline)).2⟩, rfl⟩

/-- A program without clauses is loaded, whose mutations are logged. -/
def loggedStore : ProgramStore :=
  ({ ProgramStore.new with mutationLog := some ⟨["m"], ∅⟩ }.apply factsNode
    (.loadProgram "m" "")).2

/-- `p(1)` and `p(2)` are inserted, and `p(1)` is retracted. -/
def keptSteps : List (Node × List MutationOp) :=
  [(factsNode, [⟨.insert, "p", [.number 1]⟩, ⟨.insert, "p", [.number 2]⟩]),
    (factsNode, [⟨.retract, "p", [.number 1]⟩])]

/-- `p(1)` is inserted, retracted and inserted again. -/
def backSteps : List (Node × List MutationOp) :=
  [(factsNode, [⟨.insert, "p", [.number 1]⟩]), (factsNode, [⟨.retract, "p", [.number 1]⟩]),
    (factsNode, [⟨.insert, "p", [.number 1]⟩])]

theorem keptSteps_keepsAll :
    loggedStore.KeepsAll (fun _ _ => Set.univ) (ProgramStore.mutations "m" keptSteps) := by
  refine ⟨⟨fun _ _ _ => rfl, fun prog hprog _ => ?_⟩, ⟨fun _ _ => trivial, fun prog hprog => ?_⟩,
    ⟨fun _ _ _ => rfl, fun prog hprog _ => ?_⟩, ⟨fun _ _ => trivial, fun prog hprog => ?_⟩, trivial⟩
  · cases hprog
    exact ⟨_, _, rfl, rfl⟩
  · cases hprog
    refine ⟨fun _ _ n hn => (by cases hn), fun db' hdb' => ?_⟩
    cases hdb'
    exact ⟨fun _ _ n hn => (by cases hn; rfl), fun _ _ => trivial⟩
  · cases hprog
    exact ⟨_, _, rfl, rfl⟩
  · cases hprog
    exact ⟨fun hkind => (by cases hkind), fun _ _ => trivial⟩

/-- The file gives back `p(2)`, as `p(1)` has not come back. -/
theorem log_replays_kept : ∃ prog' log' tables,
    (loggedStore.run (ProgramStore.mutations "m" keptSteps)).programs.lookup "m" = some prog' ∧
    (loggedStore.run (ProgramStore.mutations "m" keptSteps)).mutationLog = some log' ∧
    loadData .bare (log'.directory numbersClause "m") = .ok tables ∧
    ∀ t, t ∈ tables.get "p" ↔ t ∈ (prog'.db.query "p").getD [] := by
  have hsound : loggedStore.Sound := by
    have hnew : ProgramStore.Sound { ProgramStore.new with mutationLog := some ⟨["m"], ∅⟩ } :=
      fun _ _ hp => (by cases hp)
    exact hnew.apply _ _
  obtain ⟨prog', log', tables, hprog', hlog', hok, hiff⟩ := log_replays hsound rfl
    (fun rel _ => rfl) rfl (by decide) rfl keptSteps_keepsAll rfl (by decide) fun log' hlog' => by
      cases hlog'
      exact parsesBack_numbers (by decide)
  refine ⟨prog', log', tables, hprog', hlog', hok, ?_⟩
  refine hiff.mpr ?_ ⟨.insert, "p", [.number 1]⟩ (by decide)
  have hno : ∀ op ∈ ProgramStore.acceptedOps [] keptSteps,
      present (ProgramStore.acceptedOps [] keptSteps) op.relation op.tuple = true →
        ⟨.retract, op.relation, op.tuple⟩ ∉ ProgramStore.acceptedOps [] keptSteps := by decide
  rintro op hop hpresent ⟨before, after, heq, -⟩
  refine hno op hop hpresent ?_
  rw [show ProgramStore.acceptedOps [] keptSteps = _ from heq]
  simp

/-- **A fact that comes back is missing** from what the file gives back. -/
theorem log_forgets_fact : ∃ prog' log' tables,
    (loggedStore.run (ProgramStore.mutations "m" backSteps)).programs.lookup "m" = some prog' ∧
    (loggedStore.run (ProgramStore.mutations "m" backSteps)).mutationLog = some log' ∧
    ParsesBack .bare numbersClause (log'.files.get "m") ∧
    loadData .bare (log'.directory numbersClause "m") = .ok tables ∧
    prog'.db.query "p" = some [[.number 1]] ∧ tables.get "p" = [] :=
  ⟨_, _, _, rfl, rfl, parsesBack_numbers (by decide), rfl, rfl, rfl⟩

end Mangle

import Mathlib.Data.Option.Basic
import Mangle.Db.OrderFree
import Mangle.Server.Classify

/-!
# Server/Abstract — a store of sets

The abstract store knows of a program its source and, for each relation without clauses, a set of
facts.  A command acts on it whatever the order of hash tables and rows: a mutation inserts and
removes, a load resets to the facts of the external sources.

* `Changes` — all that a command which completes can do, to a store and to the abstract one;
* `Refines.run` — a store stays the abstract store's, over whole runs.
-/

namespace Mangle

open Machinery

variable {name : String}

/-! ## The abstract store -/

/-- A program of the abstract store. -/
@[ext] structure AbsProgram where
  source : String
  facts : String → Set Tuple

/-- The abstract store. -/
abbrev AbsStore := String → Option AbsProgram

/-- What the nodes have in common: the parser and the external sources, the engines they may be, the
program texts in use, and the arity of each relation of a program. -/
structure Cluster where
  parse : String → Except String (List Rule)
  sources : String → List EdbSource
  engines : Set Engine
  texts : Set String
  arity : String → String → Nat

namespace Cluster

/-- A node of the cluster. -/
structure Member (w : Cluster) (node : Node) : Prop where
  parse : node.parse = w.parse
  sources : node.sources = w.sources
  engine : node.en ∈ w.engines

/-- The programs are order free, and the sources leave the relations with clauses alone. -/
structure Tame (w : Cluster) : Prop where
  orderFree : ∀ source ∈ w.texts, ∀ unit, w.parse source = .ok unit → OrderFree w.engines unit
  supply : ∀ source ∈ w.texts, ∀ unit, w.parse source = .ok unit → ∀ name,
    EdbSource.Supply unit (w.arity name) (w.sources name)

/-- A command that loads one of the texts, or inserts tuples of the arity of their relation. -/
def Allows (w : Cluster) : Command → Prop
  | .mutate program ops =>
      ∀ op ∈ ops, op.kind = .insert → op.tuple.length = w.arity program op.relation
  | .loadProgram _ source => source ∈ w.texts
  | .deleteProgram _ | .noop => True

/-- The relations with clauses in a source. -/
def heads (w : Cluster) (source : String) : List String :=
  ((w.parse source).toOption.getD []).map Rule.pred

theorem heads_eq {w : Cluster} {source : String} {unit : List Rule}
    (h : w.parse source = .ok unit) : w.heads source = unit.map Rule.pred := by
  rw [heads, h]
  rfl

/-- The source can be loaded under a name. -/
def Loads (w : Cluster) (name source : String) : Prop :=
  ∃ en ∈ w.engines, ∃ unit db, w.parse source = .ok unit ∧
    Database.open' en .inMemory unit (w.sources name) = .ok db

open Classical in
/-- A command on the abstract store. -/
noncomputable def step (w : Cluster) (A : AbsStore) : Command → AbsStore
  | .mutate program ops =>
      match A program with
      | none => A
      | some a =>
          if ∀ op ∈ ops, op.relation ∉ w.heads a.source then
            Function.update A program (some ⟨a.source, ops.foldl MutationOp.effect a.facts⟩)
          else A
  | .loadProgram name source =>
      if w.Loads name source then
        Function.update A name (some ⟨source, sourceFacts (w.sources name)⟩)
      else A
  | .deleteProgram name => Function.update A name none
  | .noop => A

end Cluster

/-! ## Effects -/

variable {facts : String → List Tuple} {F : String → Set Tuple}

/-- An insertion of what is there, or a retraction of what is not, has no effect. -/
theorem effect_of_not_effective
    {op : MutationOp} (hfacts : ∀ t, t ∈ facts op.relation ↔ t ∈ F op.relation)
    (hno : ¬ ProgramStore.Effective facts op) : op.effect F = F := by
  rw [ProgramStore.Effective] at hno
  unfold MutationOp.effect
  cases hkind : op.kind with
  | insert =>
    simp only [hkind, not_not, hfacts] at hno
    simp [Set.insert_eq_of_mem hno]
  | retract =>
    simp only [hkind, hfacts] at hno
    simp [Set.sdiff_singleton_eq_self hno]

/-- The table after an operation is that of its effect. -/
theorem mem_tableAfter_effect
    {op : MutationOp} {rel : String} (hfacts : ∀ t, t ∈ facts rel ↔ t ∈ F rel) (t : Tuple) :
    t ∈ ProgramStore.tableAfter facts op rel ↔ t ∈ op.effect F rel := by
  unfold MutationOp.effect
  cases hkind : op.kind with
  | insert =>
    rw [ProgramStore.mem_tableAfter_insert hkind, hfacts]
    by_cases hrel : rel = op.relation
    · subst hrel
      simp [or_comm]
    · simp [hrel]
  | retract =>
    rw [ProgramStore.mem_tableAfter_retract hkind, hfacts]
    by_cases hrel : rel = op.relation
    · subst hrel
      simp
    · simp [hrel]

/-- **The skipped operations have no effect.** -/
theorem foldl_effect_classify
    {heads : List String} {ops : List MutationOp}
    (hfacts : ∀ rel, rel ∉ heads → ∀ t, t ∈ facts rel ↔ t ∈ F rel)
    (hops : ∀ op ∈ ops, op.relation ∉ heads) :
    (ProgramStore.classify facts ops).1.foldl MutationOp.effect F =
      ops.foldl MutationOp.effect F := by
  induction ops generalizing facts F with
  | nil => rfl
  | cons op ops ih =>
    have hop := hfacts op.relation (hops op List.mem_cons_self)
    have hrest : ∀ op ∈ ops, op.relation ∉ heads := fun o ho => hops o (List.mem_cons_of_mem _ ho)
    by_cases heff : ProgramStore.Effective facts op
    · rw [ProgramStore.classify_of_effective heff, List.foldl_cons, List.foldl_cons]
      exact ih (fun rel hrel => mem_tableAfter_effect (hfacts rel hrel)) hrest
    · rw [ProgramStore.classify_of_not_effective heff, List.foldl_cons,
        effect_of_not_effective hop heff]
      exact ih hfacts hrest

/-! ## Refinement -/

/-- The program's facts are those of the abstract one, and the others are derived from them. -/
structure Stands (w : Cluster) (name : String) (prog : StoredProgram) (a : AbsProgram) : Prop where
  source : prog.source = a.source
  text : a.source ∈ w.texts
  loads : w.Loads name a.source
  db : ∃ unit, w.parse a.source = .ok unit ∧ prog.db.Over unit (w.arity name) a.facts ∧
    ∃ en ∈ w.engines, prog.db.IsView en

/-- **The store holds the abstract one's facts**, without a cache. -/
structure Refines (w : Cluster) (st : ProgramStore) (A : AbsStore) : Prop where
  cache : st.idbCache = none
  programs : ∀ name, Option.Rel (Stands w name) (st.programs.lookup name) (A name)

section

variable {w : Cluster} {node : Node} {st : ProgramStore} {A : AbsStore}

theorem Refines.of_some (h : Refines w st A) {prog : StoredProgram}
    (hprog : st.programs.lookup name = some prog) :
    ∃ a, A name = some a ∧ Stands w name prog a := by
  have := h.programs name
  rw [hprog] at this
  cases hA : A name with
  | none =>
    rw [hA] at this
    cases this
  | some a =>
    rw [hA] at this
    cases this with
    | some hst => exact ⟨a, rfl, hst⟩

theorem Refines.of_none (h : Refines w st A) (hprog : st.programs.lookup name = none) :
    A name = none := by
  have := h.programs name
  rw [hprog] at this
  cases hA : A name with
  | none => rfl
  | some a =>
    rw [hA] at this
    cases this

theorem Refines.sound (h : Refines w st A) : st.Sound := fun name prog hprog => by
  obtain ⟨a, -, hst⟩ := h.of_some hprog
  obtain ⟨unit, -, hover, -⟩ := hst.db
  exact hover.sound

/-- **What a command does** that completes, to the programs and to the abstract store. -/
inductive Changes (w : Cluster) (node : Node) (st : ProgramStore) (A : AbsStore) :
    Command → HashMap String StoredProgram → AbsStore → Prop
  | nothing {cmd : Command} : Changes w node st A cmd st.programs A
  | mutated {program : String} {ops : List MutationOp} {prog : StoredProgram} {a : AbsProgram}
      {unit : List Rule} {db : Database} (hprog : st.programs.lookup program = some prog)
      (hA : A program = some a) (hst : Stands w program prog a)
      (hunit : w.parse a.source = .ok unit)
      (hfree : ∀ op ∈ ops, op.relation ∉ unit.map Rule.pred)
      (hbatch : prog.db.batch node.en (prog.db.effective ops) = (.ok (), db)) :
      Changes w node st A (.mutate program ops)
        (st.programs.insert program ⟨prog.source, prog.predicates, db,
          (prog.db.effective ops).foldl FactLedger.note prog.ledger⟩)
        (Function.update A program (some ⟨a.source, ops.foldl MutationOp.effect a.facts⟩))
  | loaded {name source : String} {unit : List Rule} {db : Database} {predicates : List String}
      (hunit : w.parse source = .ok unit)
      (hopen : Database.open' node.en .inMemory unit (w.sources name) = .ok db) :
      Changes w node st A (.loadProgram name source)
        (st.programs.insert name ⟨source, predicates, db, .empty⟩)
        (Function.update A name (some ⟨source, sourceFacts (w.sources name)⟩))
  | deleted {name : String} :
      Changes w node st A (.deleteProgram name) (st.programs.erase name)
        (Function.update A name none)

/-- Opening succeeds just when the source can be loaded. -/
theorem Refines.openProgram (h : Refines w st A) (hw : w.Tame) (hnode : w.Member node)
    (name : String) {source : String} (htext : source ∈ w.texts) :
    (∃ unit db, st.openProgram node name source = .ok db ∧ w.parse source = .ok unit ∧
        Database.open' node.en .inMemory unit (w.sources name) = .ok db ∧ w.Loads name source) ∨
      (∃ e, st.openProgram node name source = .error e) ∧ ¬ w.Loads name source := by
  have hmode : st.idbMode name = .inMemory := by rw [ProgramStore.idbMode, h.cache]
  cases hx : st.openProgram node name source with
  | ok db =>
    obtain ⟨unit, hunit, hopen⟩ := ProgramStore.openProgram_ok hx
    rw [hnode.parse] at hunit
    rw [hmode, hnode.sources] at hopen
    exact .inl ⟨unit, db, rfl, hunit, hopen, node.en, hnode.engine, unit, db, hunit, hopen⟩
  | error e =>
    refine .inr ⟨⟨e, rfl⟩, ?_⟩
    rintro ⟨en, hen, unit, db, hunit, hopen⟩
    obtain ⟨db', hopen'⟩ := Database.exists_open (hw.orderFree source htext unit hunit) hen
      hnode.engine hopen
    rw [ProgramStore.openProgram, hnode.parse, hnode.sources, hunit, hmode] at hx
    simp [ofCompile, ofDb, hopen'] at hx

/-- **All that a command does** which completes. -/
theorem Refines.changes (h : Refines w st A) (hw : w.Tame) (hnode : w.Member node) {cmd : Command}
    (hallow : w.Allows cmd) (hruns : st.Completes node cmd) :
    Changes w node st A cmd (st.apply node cmd).2.programs (w.step A cmd) := by
  cases cmd with
  | mutate program ops =>
    rw [ProgramStore.apply]
    obtain ⟨msg, heq, hrefused⟩ | ⟨prog, hprog, hmut, hcases⟩ :=
      ProgramStore.applyMutate_cases h.sound node program ops
    · have hstep : w.step A (.mutate program ops) = A := by
        cases hprog : st.programs.lookup program with
        | none => simp [Cluster.step, h.of_none hprog]
        | some prog =>
          obtain ⟨a, hA, hst⟩ := h.of_some hprog
          obtain ⟨unit, hunit, hover, -⟩ := hst.db
          obtain ⟨op, hop, hrel⟩ := hrefused prog hprog
          have hhead : op.relation ∈ w.heads a.source := by
            rw [Cluster.heads_eq hunit]
            exact (hover.idb _).mp hrel
          simp only [Cluster.step, hA]
          exact if_neg fun hall => hall op hop hhead
      rw [heq, hstep]
      exact .nothing
    · obtain ⟨a, hA, hst⟩ := h.of_some hprog
      obtain ⟨unit, hunit, hover, -⟩ := hst.db
      have hfree : ∀ op ∈ ops, op.relation ∉ unit.map Rule.pred := fun op hop =>
        (hover.idb _).not.mp (hmut op hop)
      have hstep : w.step A (.mutate program ops) = Function.update A program
          (some ⟨a.source, ops.foldl MutationOp.effect a.facts⟩) := by
        simp only [Cluster.step, hA]
        refine if_pos fun op hop => ?_
        rw [Cluster.heads_eq hunit]
        exact hfree op hop
      have heffect := @foldl_effect_classify (fun rel => (prog.db.query rel).getD []) a.facts _ ops
        (fun rel hrel t => hover.mem_facts hrel t) hfree
      rw [hstep]
      obtain ⟨hnil, heq⟩ | heq := hcases
      · have hsame : ops.foldl MutationOp.effect a.facts = a.facts := by
          rw [← heffect, show (ProgramStore.classify _ ops).1 = [] from hnil]
          rfl
        rw [heq, hsame, Function.update_eq_self_iff.mpr hA.symm]
        exact .nothing
      · obtain ⟨c, hdb⟩ := hover.sound
        obtain ⟨db, st', hbatch, hcommit, hst'⟩ := ProgramStore.commit_of_runs hdb hruns.1
          (hruns.2 prog hprog fun op hop => decide_eq_true (hmut op hop))
        rw [heq, hcommit, ProgramStore.answer, hst']
        exact .mutated hprog hA hst hunit hfree hbatch
  | loadProgram name source =>
    rw [ProgramStore.apply, ProgramStore.load]
    obtain ⟨unit, db, hok, hunit, hopen, hloads⟩ | ⟨⟨e, herr⟩, hno⟩ :=
      h.openProgram hw hnode name hallow
    · simp only [hok, Cluster.step, if_pos hloads, ProgramStore.programs_put]
      exact .loaded hunit hopen
    · simp only [herr, Cluster.step, if_neg hno]
      exact .nothing
  | deleteProgram name =>
    rw [ProgramStore.apply, Cluster.step]
    cases hprog : st.programs.lookup name with
    | none =>
      rw [Function.update_eq_self_iff.mpr (h.of_none hprog).symm]
      exact .nothing
    | some prog => exact .deleted
  | noop => exact .nothing

theorem ProgramStore.idbCache_put (h : st.idbCache = none) (name : String) (prog : StoredProgram) :
    (st.put name prog).idbCache = none := by
  simp [put, keepCache, h]

/-- A command makes no cache. -/
theorem ProgramStore.idbCache_apply (h : st.idbCache = none) (hsound : st.Sound) (node : Node)
    (cmd : Command) : (st.apply node cmd).2.idbCache = none := by
  obtain heq | ⟨program, ops, prog, -, -, -, heq⟩ | ⟨name, prog, c, r, -, -, heq⟩ |
    ⟨name, r, heq⟩ := apply_cases hsound node cmd <;> rw [heq]
  · exact h
  · rw [answer_snd, commit]
    split <;> exact idbCache_put h _ _
  · exact idbCache_put h name prog
  · exact h

/-! ## Runs -/

theorem Refines.insert (h : Refines w st A) {st' : ProgramStore} {prog : StoredProgram}
    {a : AbsProgram} (hcache : st'.idbCache = none)
    (heq : st'.programs = st.programs.insert name prog) (hst : Stands w name prog a) :
    Refines w st' (Function.update A name (some a)) := by
  refine ⟨hcache, fun n => ?_⟩
  rw [heq]
  by_cases hn : n = name
  · subst hn
    rw [AList.lookup_insert, Function.update_self]
    exact .some hst
  · rw [AList.lookup_insert_ne hn, Function.update_of_ne hn]
    exact h.programs n

/-- **A command** that completes acts on the store as on the abstract one. -/
theorem Refines.apply (h : Refines w st A) (hw : w.Tame) (hnode : w.Member node) {cmd : Command}
    (hallow : w.Allows cmd) (hruns : st.Completes node cmd) :
    Refines w (st.apply node cmd).2 (w.step A cmd) := by
  have hcache := ProgramStore.idbCache_apply h.cache h.sound node cmd
  have hchanges := h.changes hw hnode hallow hruns
  generalize hA : w.step A cmd = A' at hchanges
  generalize hp : (st.apply node cmd).2.programs = programs at hchanges
  cases hchanges with
  | nothing => exact ⟨hcache, fun name => hp ▸ h.programs name⟩
  | @mutated program ops prog a unit db hprog hA' hst hunit hfree hbatch =>
    obtain ⟨unit', hunit', hover, -⟩ := hst.db
    obtain rfl := Except.ok.inj (hunit'.symm.trans hunit)
    have heffect := @foldl_effect_classify (fun rel => (prog.db.query rel).getD []) a.facts _ ops
      (fun rel hrel t => hover.mem_facts hrel t) hfree
    have hmem {op : MutationOp} (hop : op ∈ prog.db.effective ops) : op ∈ ops :=
      ProgramStore.mem_of_mem_classify hop
    obtain ⟨hover', hview⟩ := hover.batch
      (fun op hop => ⟨hfree op (hmem hop), hallow op (hmem hop)⟩) hbatch
    rw [Database.effective, heffect] at hover'
    exact h.insert hcache hp ⟨hst.source, hst.text, hst.loads, unit', hunit, hover', node.en,
      hnode.engine, hview⟩
  | @loaded name source unit db predicates hunit hopen =>
    obtain ⟨hover, hview⟩ := Database.over_open (hw.supply source hallow unit hunit name) hopen
    exact h.insert hcache hp ⟨rfl, hallow, ⟨node.en, hnode.engine, unit, db, hunit, hopen⟩, unit,
      hunit, hover, node.en, hnode.engine, hview⟩
  | @deleted name =>
    refine ⟨hcache, fun n => ?_⟩
    rw [hp]
    by_cases hn : n = name
    · subst hn
      rw [AList.lookup_erase, Function.update_self]
      exact .none
    · rw [AList.lookup_erase_ne hn, Function.update_of_ne hn]
      exact h.programs n

/-- Commands of the cluster that complete, one after the other. -/
def Cluster.CompleteAll (w : Cluster) : ProgramStore → List (Node × Command) → Prop
  | _, [] => True
  | st, (node, cmd) :: steps => w.Member node ∧ w.Allows cmd ∧ st.Completes node cmd ∧
      w.CompleteAll (st.apply node cmd).2 steps

/-- **A run** acts on the store as on the abstract one. -/
theorem Refines.run {steps : List (Node × Command)} (h : Refines w st A) (hw : w.Tame)
    (hsteps : w.CompleteAll st steps) :
    Refines w (st.run steps) ((steps.map Prod.snd).foldl w.step A) := by
  induction steps generalizing st A with
  | nil => exact h
  | cons x steps ih =>
    obtain ⟨hnode, hallow, hruns, hrest⟩ := hsteps
    exact ih (h.apply hw hnode hallow hruns) hrest

end

end Mangle

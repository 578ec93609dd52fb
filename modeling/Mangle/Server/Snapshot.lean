import Mangle.Server.Abstract
import Mangle.Server.Accounting

/-!
# Server/Snapshot — the state as a snapshot, and back

A snapshot holds the sources of the programs and their ledgers.  Installing it loads every program
again, inserts what its ledger calls replicated and removes what it calls retracted.  The ledger
forgets the retraction of an external fact that had been inserted again.

* `snapshot_restores` — the programs and facts come back, if no command retracts a fact that is both
  replicated and external;
* `snapshot_forgets_retraction` — an external fact is retracted, inserted and retracted again.
-/

namespace Mangle

open Machinery List

variable {rel name : String} {t : Tuple} {prog : StoredProgram} {a : AbsProgram}

/-! ## Ledgers in a snapshot -/

namespace FactSets

/-- The tuples of the sets, in order. -/
def entries (sets : FactSets) : List SnapshotLedgerEntry :=
  sets.toList.flatMap fun e => e.2.map fun t => ⟨e.1, t⟩

/-- The sets of a list of tuples. -/
def ofEntries (es : List SnapshotLedgerEntry) : FactSets :=
  es.foldl (fun sets e => sets.add e.relation e.tuple) ∅

theorem mem_entries {sets : FactSets} : ⟨rel, t⟩ ∈ sets.entries ↔ t ∈ sets.of rel := by
  simp only [entries, mem_flatMap, mem_map, Prod.exists, SnapshotLedgerEntry.mk.injEq,
    Std.ExtTreeMap.mem_toList_iff_getElem?_eq_some, of]
  constructor
  · rintro ⟨r, set, hset, u, hu, rfl, rfl⟩
    simpa [hset] using hu
  · intro ht
    cases hset : sets[rel]? with
    | none => simp [hset] at ht
    | some set => exact ⟨rel, set, hset, t, by simpa [hset] using ht, rfl, rfl⟩

/-- The sets of a list whose tuples are ordered linearly. -/
theorem mem_of_ofEntries {S : String → Set Tuple}
    (hS : ∀ rel, OrdSet.LinearOn Value.cmpList (S rel)) {es : List SnapshotLedgerEntry}
    (hes : ∀ e ∈ es, e.tuple ∈ S e.relation) : t ∈ (ofEntries es).of rel ↔ ⟨rel, t⟩ ∈ es := by
  -- the sets grow by one entry after the other, and stay within `S`
  suffices h : ∀ sets : FactSets, (∀ r, ∀ u ∈ sets.of r, u ∈ S r) →
      (t ∈ (es.foldl (fun sets e => sets.add e.relation e.tuple) sets).of rel ↔
        t ∈ sets.of rel ∨ ⟨rel, t⟩ ∈ es) by
    have hempty (r : String) : FactSets.of ∅ r = [] := by simp [FactSets.of]
    rw [ofEntries, h ∅ fun r u hu => by simp [hempty] at hu, hempty]
    simp
  induction es with
  | nil => simp
  | cons e es ih =>
    intro sets hsets
    obtain ⟨r, a⟩ := e
    have ha : a ∈ S r := hes ⟨r, a⟩ mem_cons_self
    have hmem (r' : String) (u : Tuple) :
        u ∈ (sets.add r a).of r' ↔ r' = r ∧ u = a ∨ u ∈ sets.of r' := by
      rw [of_add]
      split
      · rename_i heq
        subst heq
        simp [OrdSet.mem_insert (hS _) ha (hsets _)]
      · rename_i hne
        simp [hne]
    rw [foldl_cons, ih (fun e he => hes e (mem_cons_of_mem _ he)) _ fun r' u hu => ?_,
      hmem, mem_cons, SnapshotLedgerEntry.mk.injEq]
    · tauto
    · obtain ⟨rfl, rfl⟩ | hu := (hmem r' u).mp hu
      · exact ha
      · exact hsets r' u hu

end FactSets

namespace FactLedger

/-- `ledger_to_snapshot`. -/
def toSnapshot (l : FactLedger) : SnapshotLedger := ⟨l.replicated.entries, l.retracted.entries⟩

/-- `ledger_from_snapshot`. -/
def fromSnapshot (l : SnapshotLedger) : FactLedger :=
  ⟨.ofEntries l.replicated, .ofEntries l.retracted⟩

/-- The writes that replay a ledger. -/
def replay (l : FactLedger) : List MutationOp :=
  (l.replicated.entries.map fun e => ⟨.insert, e.relation, e.tuple⟩) ++
    l.retracted.entries.map fun e => ⟨.retract, e.relation, e.tuple⟩

end FactLedger

/-! ## Snapshots of a store -/

namespace ProgramStore

/-- `snapshot_state`, with the programs in the order of a hash table. -/
def snapshotState (order : HashOrder) (st : ProgramStore) : Snapshot :=
  ⟨(order.perm st.programs.entries).map fun e => ⟨e.1, e.2.source, e.2.ledger.toSnapshot⟩⟩

/-- What `install_snapshot_state` does for one program. -/
def installProgram (node : Node) (st : ProgramStore) (p : SnapshotProgram) :
    Except StoreError Unit × ProgramStore :=
  match st.load node p.name p.source with
  | (.error e, st) => (.error e, st)
  | (.ok _, st) =>
      match st.programs.lookup p.name with
      | none => (.error (.db (.run .panic)), st)
      | some prog =>
          let ledger := FactLedger.fromSnapshot p.ledger
          if ledger.isEmpty then (.ok (), st.put p.name { prog with ledger := ledger }) else
            match prog.db.batch node.en ledger.replay with
            | (.error e, db) => (.error (.db e), st.put p.name { prog with db := db })
            | (.ok (), db) => (.ok (), st.put p.name { prog with db := db, ledger := ledger })

/-- The programs of a snapshot, up to the first that fails. -/
def installAll (node : Node) : ProgramStore → List SnapshotProgram →
    Except StoreError Unit × ProgramStore
  | st, [] => (.ok (), st)
  | st, p :: ps =>
      match st.installProgram node p with
      | (.ok (), st) => st.installAll node ps
      | (.error e, st) => (.error e, st)

/-- `install_snapshot_state`. -/
def installSnapshotState (node : Node) (st : ProgramStore) (snap : Snapshot) :
    Except StoreError Unit × ProgramStore :=
  { st with programs := ∅ }.installAll node snap.programs

end ProgramStore

/-! ## What the ledger accounts for -/

namespace FactLedger

variable {S : String → Set Tuple} {E : String → Set Tuple} {unit : List Rule} {l : FactLedger}
  {c d : Tiers} {op : MutationOp} {ops : List MutationOp}

/-- **The facts are the external ones `E` and the replicated ones, without the retracted ones.** -/
def Sourced (E : String → Set Tuple) (unit : List Rule) (l : FactLedger) (c : Tiers) : Prop :=
  ∀ rel : String, rel ∉ unit.map Rule.pred → ∀ t,
    (t ∈ c.visible rel → t ∈ E rel ∨ t ∈ l.replicated.of rel) ∧
      (t ∈ E rel → t ∈ c.visible rel ∨ t ∈ l.retracted.of rel)

/-- No operation retracts a fact that is replicated and external. -/
def ClearAll (E : String → Set Tuple) : FactLedger → List MutationOp → Prop
  | _, [] => True
  | l, op :: ops => (op.kind = .retract → op.tuple ∈ l.replicated.of op.relation →
      op.tuple ∉ E op.relation) ∧ ClearAll E (l.note op) ops

theorem Sourced.congr (h : l.Sourced E unit c)
    (hvis : ∀ rel : String, rel ∉ unit.map Rule.pred → ∀ t, t ∈ d.visible rel ↔ t ∈ c.visible rel) :
    l.Sourced E unit d := fun rel hrel t => by
  rw [hvis rel hrel]
  exact h rel hrel t

/-- A noted operation, unless it retracts a fact that is replicated and external. -/
theorem Sourced.note (h : l.Sourced E unit c) (hl : l.Holds S unit c)
    (hS : OrdSet.LinearOn Value.cmpList (S op.relation)) (hop : op.tuple ∈ S op.relation)
    (hm : c.Merged) (hv : c.Valid) (htakes : op.kind = .insert → c.Takes op)
    (hclear : op.kind = .retract → op.tuple ∈ l.replicated.of op.relation →
      op.tuple ∉ E op.relation) :
    (l.note op).Sourced E unit (c.write op) := by
  intro rel hrel t
  have ht := h rel hrel t
  cases hkind : op.kind with
  | insert =>
    have hnote := hl.mem_noteInsert hS hop hkind rel t
    rw [hnote.1, hnote.2, hm.mem_write_insert hkind, and_iff_right (htakes hkind)]
    refine ⟨fun hin => hin.elim (fun hin => (ht.1 hin).imp_right .inr) fun hhit => .inr (.inl hhit),
      fun hE => ?_⟩
    by_cases hhit : rel = op.relation ∧ t = op.tuple
    · exact .inl (.inr hhit)
    · exact (ht.2 hE).imp .inl fun hx => ⟨hx, hhit⟩
  | retract =>
    have hnote := hl.mem_noteRetract hS hop hkind rel t
    rw [hnote.1, hnote.2, hv.mem_write_retract hkind]
    refine ⟨fun hin => (ht.1 hin.1).imp_right fun hr => ⟨hr, hin.2⟩, fun hE => ?_⟩
    by_cases hhit : rel = op.relation ∧ t = op.tuple
    · obtain ⟨rfl, rfl⟩ := hhit
      exact .inr (.inr ⟨fun hr => hclear hkind hr hE, rfl, rfl⟩)
    · exact (ht.2 hE).imp (fun hin => ⟨hin, hhit⟩) .inl

/-- **Noted operations**, each of which changes the facts. -/
theorem Sourced.notes {db : Database} (h : l.Sourced E unit c) (hl : l.Holds S unit c)
    (hdb : db.Sound c) (hS : ∀ rel, OrdSet.LinearOn Value.cmpList (S rel))
    (hops : ∀ op ∈ ops, op.tuple ∈ S op.relation ∧ op.relation ∉ unit.map Rule.pred)
    (happlies : c.AppliesAll ops) (hclear : l.ClearAll E ops) :
    (ops.foldl FactLedger.note l).Sourced E unit (ops.foldl Tiers.write c) := by
  induction ops generalizing db c l with
  | nil => exact h
  | cons op ops ih =>
    obtain ⟨_, -, hw⟩ := hdb.write op
    obtain ⟨hop, hfree⟩ := hops op mem_cons_self
    have htakes : op.kind = .insert → c.Takes op := fun hkind => (happlies.1.insert hkind).2
    have hnote := hl.note (hS _) hop hfree hdb.merged hdb.rep.toValid htakes
    exact ih (h.note hl (hS _) hop hdb.merged hdb.rep.toValid htakes hclear.1) hnote hw
      (fun o ho => hops o (mem_cons_of_mem _ ho)) happlies.2 hclear.2

/-- The sets of a ledger come back from its snapshot. -/
theorem Holds.mem_fromSnapshot (h : l.Holds S unit c)
    (hS : ∀ rel, OrdSet.LinearOn Value.cmpList (S rel)) (rel : String) (t : Tuple) :
    (t ∈ (fromSnapshot l.toSnapshot).replicated.of rel ↔ t ∈ l.replicated.of rel) ∧
      (t ∈ (fromSnapshot l.toSnapshot).retracted.of rel ↔ t ∈ l.retracted.of rel) := by
  constructor
  · refine (FactSets.mem_of_ofEntries hS fun e he => ?_).trans FactSets.mem_entries
    exact (h.sets e.relation).known_replicated _ (FactSets.mem_entries.mp he)
  · refine (FactSets.mem_of_ofEntries hS fun e he => ?_).trans FactSets.mem_entries
    exact (h.sets e.relation).known_retracted _ (FactSets.mem_entries.mp he)

theorem mem_replay : op ∈ l.replay ↔
    op.kind = .insert ∧ op.tuple ∈ l.replicated.of op.relation ∨
      op.kind = .retract ∧ op.tuple ∈ l.retracted.of op.relation := by
  obtain ⟨kind, rel, t⟩ := op
  simp only [replay, mem_append, mem_map, MutationOp.mk.injEq, ← FactSets.mem_entries]
  constructor
  · rintro (⟨e, he, rfl, rfl, rfl⟩ | ⟨e, he, rfl, rfl, rfl⟩)
    · exact .inl ⟨rfl, he⟩
    · exact .inr ⟨rfl, he⟩
  · rintro (⟨rfl, he⟩ | ⟨rfl, he⟩)
    · exact .inl ⟨_, he, rfl, rfl, rfl⟩
    · exact .inr ⟨_, he, rfl, rfl, rfl⟩

theorem replay_of_isEmpty (h : l.isEmpty = true) : l.replay = [] := by
  simp only [isEmpty, Bool.and_eq_true, Std.ExtTreeMap.isEmpty_iff] at h
  simp [replay, FactSets.entries, h.1, h.2]

end FactLedger

theorem foldl_effect_insert (es : List SnapshotLedgerEntry) (F : String → Set Tuple) (rel : String)
    (t : Tuple) : t ∈ (es.map fun e => (⟨.insert, e.relation, e.tuple⟩ : MutationOp)).foldl
      MutationOp.effect F rel ↔ t ∈ F rel ∨ ⟨rel, t⟩ ∈ es := by
  induction es generalizing F with
  | nil => simp
  | cons e es ih =>
    obtain ⟨r, a⟩ := e
    rw [map_cons, foldl_cons, ih, mem_cons, SnapshotLedgerEntry.mk.injEq, ← or_assoc]
    refine or_congr_left ?_
    by_cases hrel : rel = r
    · subst hrel
      simp [MutationOp.effect, or_comm]
    · simp [MutationOp.effect, hrel]

theorem foldl_effect_retract (es : List SnapshotLedgerEntry) (F : String → Set Tuple) (rel : String)
    (t : Tuple) : t ∈ (es.map fun e => (⟨.retract, e.relation, e.tuple⟩ : MutationOp)).foldl
      MutationOp.effect F rel ↔ t ∈ F rel ∧ ⟨rel, t⟩ ∉ es := by
  induction es generalizing F with
  | nil => simp
  | cons e es ih =>
    obtain ⟨r, a⟩ := e
    rw [map_cons, foldl_cons, ih, mem_cons, SnapshotLedgerEntry.mk.injEq, not_or,
      ← and_assoc]
    refine and_congr_left fun _ => ?_
    by_cases hrel : rel = r
    · subst hrel
      simp [MutationOp.effect]
    · simp [MutationOp.effect, hrel]

/-- **Replaying a ledger** adds what is replicated, then removes what is retracted. -/
theorem mem_foldl_replay (l : FactLedger) (E : String → Set Tuple) (rel : String) (t : Tuple) :
    t ∈ l.replay.foldl MutationOp.effect E rel ↔
      (t ∈ E rel ∨ t ∈ l.replicated.of rel) ∧ t ∉ l.retracted.of rel := by
  rw [FactLedger.replay, foldl_append, foldl_effect_retract, foldl_effect_insert,
    FactSets.mem_entries, FactSets.mem_entries]

/-! ## Databases over the same facts -/

section

variable {unit : List Rule} {arity : String → Nat} {F G : String → Set Tuple} {db : Database}
  {ops : List MutationOp}

theorem Database.Over.congr (h : db.Over unit arity F)
    (hF : ∀ rel, rel ∉ unit.map Rule.pred → F rel = G rel) : db.Over unit arity G := by
  obtain ⟨c, hrep, hfacts⟩ := h.facts
  refine ⟨h.unit_eq, h.edb, h.idb, c, hrep, hfacts.merged, hfacts.fits, hfacts.arities,
    fun rel hrel t => ?_⟩
  rw [← hF rel hrel]
  exact hfacts.facts rel hrel t

/-- Insertions of the arity of their relation are taken. -/
theorem Database.Over.takesAll (h : db.Over unit arity F)
    (hops : ∀ op ∈ ops, op.relation ∉ unit.map Rule.pred ∧
      (op.kind = .insert → op.tuple.length = arity op.relation)) : db.TakesAll ops := by
  induction ops generalizing db F with
  | nil => trivial
  | cons op ops ih =>
    obtain ⟨hfree, harity⟩ := hops op mem_cons_self
    refine ⟨fun hkind _ n hn => ?_, fun db' hok =>
      ih (h.write hfree harity hok) fun o ho => hops o (mem_cons_of_mem _ ho)⟩
    obtain ⟨c, hrep, hfacts⟩ := h.facts
    rw [hrep.arity] at hn
    exact (hfacts.arities _ hfree n hn).trans (harity hkind).symm

/-- The facts have the arity of their relation. -/
theorem Database.Over.length_eq (h : db.Over unit arity F) (hrel : rel ∉ unit.map Rule.pred)
    (ht : t ∈ F rel) : t.length = arity rel := by
  obtain ⟨c, hrep, hfacts⟩ := h.facts
  have hin : t ∈ c.all rel := mem_append_left _ ((hfacts.facts rel hrel t).mpr ht)
  exact hfacts.arities rel hrel _ (hrep.fits _ _ hin)

end

/-! ## Stores whose ledgers account for their facts -/

/-- A mutation with tuples of `S` that retracts no fact which is replicated and external. -/
def Cluster.Accounts (w : Cluster) (S : String → String → Set Tuple) (st : ProgramStore) :
    Command → Prop
  | .mutate program ops => (∀ op ∈ ops, op.tuple ∈ S program op.relation) ∧
      ∀ prog ∈ st.programs.lookup program,
        prog.ledger.ClearAll (sourceFacts (w.sources program)) (prog.db.effective ops)
  | _ => True

/-- Such commands, one after the other. -/
def Cluster.AccountsAll (w : Cluster) (S : String → String → Set Tuple) :
    ProgramStore → List (Node × Command) → Prop
  | _, [] => True
  | st, (node, cmd) :: steps => w.Accounts S st cmd ∧ w.AccountsAll S (st.apply node cmd).2 steps

/-- The ledger of a program accounts for its facts. -/
def StoredProgram.Told (w : Cluster) (S : String → String → Set Tuple) (name : String)
    (prog : StoredProgram) : Prop :=
  ∃ c, prog.db.Sound c ∧ prog.ledger.Holds (S name) prog.db.unit c ∧
    prog.ledger.Sourced (sourceFacts (w.sources name)) prog.db.unit c

/-- The store is that of the abstract one, and its ledgers account for its facts. -/
structure Told (w : Cluster) (S : String → String → Set Tuple) (st : ProgramStore) (A : AbsStore) :
    Prop where
  refines : Refines w st A
  ledgers : ∀ name prog, st.programs.lookup name = some prog → prog.Told w S name

section

variable {w : Cluster} {S : String → String → Set Tuple} {node : Node} {st : ProgramStore}
  {A : AbsStore} {unit : List Rule}

/-- A program that was just opened. -/
theorem StoredProgram.told_open {source : String} {db : Database}
    (hsupply : EdbSource.Supply unit (w.arity name) (w.sources name))
    (hopen : Database.open' node.en .inMemory unit (w.sources name) = .ok db)
    (predicates : List String) : StoredProgram.Told w S name ⟨source, predicates, db, .empty⟩ := by
  obtain ⟨hover, -⟩ := Database.over_open hsupply hopen
  obtain ⟨c, hdb⟩ := hover.sound
  refine ⟨c, hdb, FactLedger.holds_empty _ _ _, fun rel hrel t => ?_⟩
  have hrel : rel ∉ unit.map Rule.pred := by rwa [← hover.unit_eq]
  have hvis := hover.mem_facts hrel t
  rw [hdb.rep.facts] at hvis
  exact ⟨fun ht => .inl (hvis.mp ht), fun ht => .inl (hvis.mpr ht)⟩

section

variable (hS : ∀ p rel, OrdSet.LinearOn Value.cmpList (S p rel))

include hS

/-- A program after a batch. -/
theorem StoredProgram.Told.batch {db : Database} {ops : List MutationOp} (h : prog.Told w S name)
    (hops : ∀ op ∈ ops, op.tuple ∈ S name op.relation ∧ op.relation ∉ prog.db.unit.map Rule.pred)
    (htakes : prog.db.TakesAll ops)
    (hclear : prog.ledger.ClearAll (sourceFacts (w.sources name)) (prog.db.effective ops))
    (hbatch : prog.db.batch node.en (prog.db.effective ops) = (.ok (), db)) :
    StoredProgram.Told w S name ⟨prog.source, prog.predicates, db,
      (prog.db.effective ops).foldl FactLedger.note prog.ledger⟩ := by
  obtain ⟨c, hdb, hl, hsourced⟩ := h
  obtain ⟨c', hsound, hsame, hunit⟩ := hdb.batch node.en (prog.db.effective ops)
  rw [hbatch] at hsound hunit
  have hops' : ∀ op ∈ prog.db.effective ops, op.tuple ∈ S name op.relation ∧
      op.relation ∉ prog.db.unit.map Rule.pred := fun op hop =>
    hops op (ProgramStore.mem_of_mem_classify hop)
  have happlies := ProgramStore.appliesAll_effective hdb htakes
  have hvis : ∀ rel : String, rel ∉ prog.db.unit.map Rule.pred → ∀ t, t ∈ c'.visible rel ↔
      t ∈ ((prog.db.effective ops).foldl Tiers.write c).visible rel := fun rel hrel t => by
    rw [hsame.visible rel hrel]
  refine ⟨c', hsound, ?_, ?_⟩ <;> rw [hunit]
  · exact (hl.notes hdb (hS name) hops' happlies).congr hvis
  · exact (hsourced.notes hl hdb (hS name) hops' happlies hclear).congr hvis

/-- **A command** that completes and is accounted for. -/
theorem Told.apply (h : Told w S st A) (hw : w.Tame) (hnode : w.Member node) {cmd : Command}
    (hallow : w.Allows cmd) (hruns : st.Completes node cmd) (hacc : w.Accounts S st cmd) :
    Told w S (st.apply node cmd).2 (w.step A cmd) := by
  refine ⟨h.refines.apply hw hnode hallow hruns, ?_⟩
  have hchanges := h.refines.changes hw hnode hallow hruns
  generalize w.step A cmd = A' at hchanges
  generalize (st.apply node cmd).2.programs = programs at hchanges
  cases hchanges with
  | nothing => exact h.ledgers
  | @mutated program ops prog a unit db hprog hA' hst hunit hfree hbatch =>
    obtain ⟨unit', hunit', hover, -⟩ := hst.db
    obtain rfl := Except.ok.inj (hunit'.symm.trans hunit)
    refine HashMap.forall_insert h.ledgers ((h.ledgers program prog hprog).batch hS
      (fun op hop => ⟨hacc.1 op hop, ?_⟩) ?_ (hacc.2 prog hprog) hbatch)
    · rw [hover.unit_eq]
      exact hfree op hop
    · exact hover.takesAll fun op hop => ⟨hfree op hop, hallow op hop⟩
  | @loaded name source unit db predicates hunit hopen =>
    exact HashMap.forall_insert h.ledgers
      (StoredProgram.told_open (hw.supply source hallow unit hunit name) hopen predicates)
  | @deleted name => exact HashMap.forall_erase h.ledgers name

/-- **A run** of such commands. -/
theorem Told.run {steps : List (Node × Command)} (h : Told w S st A) (hw : w.Tame)
    (hsteps : w.CompleteAll st steps)
    (hacc : w.AccountsAll S st steps) :
    Told w S (st.run steps) ((steps.map Prod.snd).foldl w.step A) := by
  induction steps generalizing st A with
  | nil => exact h
  | cons x steps ih =>
    obtain ⟨hnode, hallow, hruns, hrest⟩ := hsteps
    exact ih (h.apply hS hw hnode hallow hruns hacc.1) hrest hacc.2

/-! ## Installing -/

/-- **The facts of a program**, from its ledger. -/
theorem Stands.facts_eq (hover : prog.db.Over unit (w.arity name) a.facts)
    (htold : prog.Told w S name) (hrel : rel ∉ unit.map Rule.pred) :
    (FactLedger.fromSnapshot prog.ledger.toSnapshot).replay.foldl MutationOp.effect
      (sourceFacts (w.sources name)) rel = a.facts rel := by
  obtain ⟨c, hdb, hl, hsourced⟩ := htold
  ext t
  have hvis := hover.mem_facts hrel t
  rw [hdb.rep.facts] at hvis
  have hsnap := hl.mem_fromSnapshot (hS name) rel t
  have hsets := hl.sets rel
  rw [hover.unit_eq] at hsourced
  rw [mem_foldl_replay, hsnap.1, hsnap.2, ← hvis]
  constructor
  · rintro ⟨hE | hr, hx⟩
    · exact ((hsourced rel hrel t).2 hE).resolve_right hx
    · exact hsets.present t hr
  · exact fun hin => ⟨(hsourced rel hrel t).1 hin, fun hx => hsets.absent t hx hin⟩

/-- What is replayed has no clauses, and the arity of its relation. -/
theorem Stands.replay_allowed (hover : prog.db.Over unit (w.arity name) a.facts)
    (htold : prog.Told w S name) :
    ∀ op ∈ (FactLedger.fromSnapshot prog.ledger.toSnapshot).replay,
      op.relation ∉ unit.map Rule.pred ∧
        (op.kind = .insert → op.tuple.length = w.arity name op.relation) := by
  obtain ⟨c, hdb, hl, -⟩ := htold
  intro op hop
  have hsnap := hl.mem_fromSnapshot (hS name) op.relation op.tuple
  rw [FactLedger.mem_replay, hsnap.1, hsnap.2] at hop
  have hfree : op.relation ∉ unit.map Rule.pred := fun hhead => by
    rw [← hover.unit_eq] at hhead
    obtain ⟨h₁, h₂⟩ := hl.free op.relation hhead
    simp [h₁, h₂] at hop
  refine ⟨hfree, fun hkind => hover.length_eq hfree ?_⟩
  have hr : op.tuple ∈ prog.ledger.replicated.of op.relation := by simpa [hkind] using hop
  rw [← hover.mem_facts hfree, hdb.rep.facts]
  exact (hl.sets op.relation).present op.tuple hr

/-- **A program is installed** as it stood. -/
theorem Refines.installProgram (h : Refines w st A) (hw : w.Tame) (hnode : w.Member node)
    (hst : Stands w name prog a) (htold : prog.Told w S name) :
    ∃ st', st.installProgram node ⟨name, prog.source, prog.ledger.toSnapshot⟩ = (.ok (), st') ∧
      Refines w st' (Function.update A name (some a)) := by
  obtain ⟨unit, hunit, hover, en, hen, hview⟩ := hst.db
  obtain ⟨unit', db, hok, hunit', hopen, hloads⟩ | ⟨-, hno⟩ :=
    h.openProgram hw hnode name hst.text
  swap
  · exact absurd hst.loads hno
  obtain rfl := Except.ok.inj (hunit'.symm.trans hunit)
  have hfree := hw.orderFree a.source hst.text unit' hunit
  obtain ⟨hover₀, hview₀⟩ := Database.over_open (hw.supply a.source hst.text unit' hunit name) hopen
  have hfacts : ∀ rel, rel ∉ unit'.map Rule.pred → _ = a.facts rel := fun rel hrel =>
    Stands.facts_eq hS hover htold hrel
  have hops := Stands.replay_allowed hS hover htold
  set ledger := FactLedger.fromSnapshot prog.ledger.toSnapshot with hledger
  have hcache (prog' : StoredProgram) (n : String) (p : StoredProgram) :
      ((st.put name prog').put n p).idbCache = none :=
    ProgramStore.idbCache_put (ProgramStore.idbCache_put h.cache _ _) _ _
  have hprograms (p p' : StoredProgram) :
      ((st.put name p).put name p').programs = st.programs.insert name p' := by
    rw [ProgramStore.programs_put, ProgramStore.programs_put, AList.insert_insert]
  rw [← hst.source] at hok
  rw [ProgramStore.installProgram, ProgramStore.load]
  simp only [hok, ProgramStore.lookup_put, if_pos]
  by_cases hempty : ledger.isEmpty = true
  · rw [if_pos hempty]
    have hover' : db.Over unit' (w.arity name) a.facts := hover₀.congr fun rel hrel => by
      rw [← hfacts rel hrel, FactLedger.replay_of_isEmpty hempty]
      rfl
    exact ⟨_, rfl, h.insert (hcache _ _ _) (hprograms _ _)
      ⟨hst.source, hst.text, hloads, unit', hunit, hover', node.en, hnode.engine, hview₀⟩⟩
  · rw [if_neg hempty]
    obtain ⟨c, hdb⟩ := hover₀.sound
    obtain ⟨s, hs, -⟩ := hdb.writeAll ledger.replay
    have hover₁ := (hover₀.writeAll hops hs).congr hfacts
    have hruns : (db.writeAll ledger.replay).2.Runs node.en := by
      rw [hs]
      exact hview.runs hfree hen hnode.engine hover hover₁
    obtain ⟨db', hbatch⟩ := hdb.batch_of_runs hruns
    obtain ⟨hover', hview'⟩ := hover₀.batch hops hbatch
    rw [hbatch]
    exact ⟨_, rfl, h.insert (hcache _ _ _) (hprograms _ _)
      ⟨hst.source, hst.text, hloads, unit', hunit, hover'.congr hfacts, node.en, hnode.engine,
        hview'⟩⟩

/-- **The programs of a store are installed** as they stood, over what is there. -/
theorem Refines.installAll {st₀ : ProgramStore} {A₀ : AbsStore} (h₀ : Refines w st₀ A₀)
    (hw : w.Tame) (hnode : w.Member node)
    (h : Told w S st A) {es : List (Sigma fun _ : String => StoredProgram)}
    (hes : ∀ e ∈ es, st.programs.lookup e.1 = some e.2) :
    ∃ st', st₀.installAll node (es.map fun e => ⟨e.1, e.2.source, e.2.ledger.toSnapshot⟩) =
        (.ok (), st') ∧
      Refines w st' fun n => if n ∈ es.map Sigma.fst then A n else A₀ n := by
  induction es generalizing st₀ A₀ with
  | nil => exact ⟨st₀, rfl, by simpa using h₀⟩
  | cons e es ih =>
    obtain ⟨name, prog⟩ := e
    have hprog : st.programs.lookup name = some prog := hes ⟨name, prog⟩ mem_cons_self
    obtain ⟨a, hA, hst⟩ := h.refines.of_some hprog
    obtain ⟨st₁, hok, h₁⟩ := h₀.installProgram hS hw hnode hst (h.ledgers name prog hprog)
    obtain ⟨st', hok', h'⟩ := ih h₁ fun e he => hes e (mem_cons_of_mem _ he)
    refine ⟨st', ?_, ?_⟩
    · rw [map_cons, ProgramStore.installAll, hok]
      exact hok'
    · convert h' using 1
      funext n
      by_cases hn : n = name
      · subst hn
        simp [hA]
      · simp only [map_cons, mem_cons, hn, false_or, Function.update_of_ne hn]

/-- **A snapshot is installed**: the new store is that of the abstract one too. -/
theorem Told.installSnapshotState {fresh : ProgramStore} (h : Told w S st A) (hw : w.Tame)
    (hnode : w.Member node) (hcache : fresh.idbCache = none) (order : HashOrder) :
    ∃ st', fresh.installSnapshotState node (st.snapshotState order) = (.ok (), st') ∧
      Refines w st' A := by
  have hempty : Refines w { fresh with programs := ∅ } fun _ => none := ⟨hcache, fun _ => .none⟩
  have hmem (e : Sigma fun _ : String => StoredProgram) :
      e ∈ order.perm st.programs.entries ↔ st.programs.lookup e.1 = some e.2 := by
    rw [(order.perm_perm _).mem_iff]
    exact AList.mem_lookup_iff.symm
  obtain ⟨st', hok, h'⟩ := hempty.installAll hS hw hnode h fun e he => (hmem e).mp he
  refine ⟨st', hok, ?_⟩
  convert h' using 1
  funext n
  split_ifs with hn
  · rfl
  · refine h.refines.of_none (Option.eq_none_iff_forall_ne_some.mpr fun prog hprog => hn ?_)
    exact mem_map.mpr ⟨⟨n, prog⟩, (hmem _).mpr hprog, rfl⟩

end

/-- A snapshot of well-formed tuples. -/
theorem Told.wellFormed (h : Told w S st A) (hwf : ∀ p rel, ∀ t ∈ S p rel, t.wellFormed = true)
    (order : HashOrder) : (st.snapshotState order).wellFormed = true := by
  rw [Snapshot.wellFormed, all_eq_true]
  intro p hp
  obtain ⟨⟨name, prog⟩, he, rfl⟩ := mem_map.mp hp
  rw [(order.perm_perm _).mem_iff] at he
  obtain ⟨c, -, hl, -⟩ := h.ledgers name prog (AList.mem_lookup_iff.mpr he)
  rw [SnapshotLedger.wellFormed, all_eq_true]
  intro e he
  refine hwf name e.relation e.tuple ((hl.sets e.relation).known e.tuple ?_)
  rw [mem_append, ← FactSets.mem_entries, ← FactSets.mem_entries]
  exact mem_append.mp he

/-! ## Snapshot and restore -/

/-- The programs have the same source, and the same facts in every relation. -/
def StoredProgram.SameFacts (prog prog' : StoredProgram) : Prop :=
  prog.source = prog'.source ∧ ∀ rel, ∃ l l', prog.db.query rel = some l ∧
    prog'.db.query rel = some l' ∧ ∀ t, t ∈ l ↔ t ∈ l'

/-- The stores hold the same programs, with the same facts. -/
def ProgramStore.SameFacts (st st' : ProgramStore) : Prop :=
  ∀ name, Option.Rel StoredProgram.SameFacts (st.programs.lookup name) (st'.programs.lookup name)

/-- **Two stores of one abstract store** hold the same programs and facts. -/
theorem Refines.sameFacts {st' : ProgramStore} (hw : w.Tame) (h : Refines w st A)
    (h' : Refines w st' A) : st.SameFacts st' := by
  intro name
  cases hprog : st.programs.lookup name with
  | none =>
    have hA := h.of_none hprog
    have hrel := h'.programs name
    rw [hA] at hrel
    cases hprog' : st'.programs.lookup name with
    | none => exact .none
    | some prog' =>
      rw [hprog'] at hrel
      cases hrel
  | some prog =>
    obtain ⟨a, hA, hst⟩ := h.of_some hprog
    cases hprog' : st'.programs.lookup name with
    | none =>
      rw [h'.of_none hprog'] at hA
      cases hA
    | some prog' =>
      obtain ⟨a', hA', hst'⟩ := h'.of_some hprog'
      obtain rfl := Option.some.inj (hA.symm.trans hA')
      obtain ⟨unit, hunit, hover, en, hen, hview⟩ := hst.db
      obtain ⟨unit', hunit', hover', en', hen', hview'⟩ := hst'.db
      obtain rfl := Except.ok.inj (hunit'.symm.trans hunit)
      obtain ⟨c, hdb⟩ := hover.sound
      obtain ⟨c', hdb'⟩ := hover'.sound
      refine .some ⟨hst.source.trans hst'.source.symm, fun rel =>
        ⟨_, _, hdb.scan rel, hdb'.scan rel, fun t => ?_⟩⟩
      rw [← hdb.rep.facts, ← hdb'.rep.facts]
      exact hover.sameQuery (hw.orderFree a.source hst.text unit' hunit) hen hen' hview hover'
        hview' rel t

end

/-- The text of the program that copies. -/
def copyText : String := "q(X) :- p(X)."

/-- A node with the program that copies, and with the external fact `p(1)`. -/
def copyNode : Node where
  en := .bare
  parse source := if source = copyText then .ok copyUnit else .error "syntax error"
  sources _ := [oneSource]
  logError := none

/-- Nodes like it, of any engine. -/
def copyCluster : Cluster where
  parse := copyNode.parse
  sources := copyNode.sources
  engines := {en | en.check copyUnit = .ok ()}
  texts := {copyText}
  arity _ _ := 1

theorem copyCluster_tame : copyCluster.Tame where
  orderFree source hsource unit hunit := by
    obtain rfl : source = copyText := hsource
    obtain rfl : copyUnit = unit := Except.ok.inj hunit
    exact copyUnit_orderFree
  supply source hsource unit hunit name := by
    obtain rfl : source = copyText := hsource
    obtain rfl : copyUnit = unit := Except.ok.inj hunit
    refine ⟨fun src hsrc rel hrel => ?_, fun src hsrc rel hrel t ht => ?_⟩
    · obtain rfl := mem_singleton.mp hsrc
      obtain rfl := mem_singleton.mp hrel
      decide
    · obtain rfl := mem_singleton.mp hsrc
      obtain rfl := mem_singleton.mp hrel
      obtain rfl := mem_singleton.mp ht
      rfl

/-- The program is loaded, and its facts become `p(2)`. -/
def moveSteps : List (Node × Command) :=
  [(copyNode, .loadProgram "m" copyText), (copyNode, .mutate "m" [⟨.insert, "p", [.number 2]⟩]),
    (copyNode, .mutate "m" [⟨.retract, "p", [.number 1]⟩])]

theorem moveSteps_complete : copyCluster.CompleteAll .new moveSteps := by
  have hnode : copyCluster.Member copyNode := ⟨rfl, rfl, rfl⟩
  refine ⟨hnode, rfl, trivial, hnode, by simp [Cluster.Allows, copyCluster],
    ⟨fun l hl => (by cases hl), fun prog hprog _ => ?_⟩, hnode, by simp [Cluster.Allows],
    ⟨fun l hl => (by cases hl), fun prog hprog _ => ?_⟩, trivial⟩
  all_goals
    cases hprog
    exact ⟨_, _, rfl, rfl⟩

/-- The external fact `p(1)` is retracted, inserted and retracted. -/
def backAndForth : List (Node × Command) :=
  [(copyNode, .loadProgram "m" copyText), (copyNode, .mutate "m" [⟨.retract, "p", [.number 1]⟩]),
    (copyNode, .mutate "m" [⟨.insert, "p", [.number 1]⟩]),
    (copyNode, .mutate "m" [⟨.retract, "p", [.number 1]⟩])]

end Mangle

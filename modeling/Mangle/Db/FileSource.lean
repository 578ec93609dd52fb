import Mangle.Db.Facts
import Mangle.Driver.FactProgram

/-!
# Db/FileSource — facts in a directory

`FileEdbSource`: what a directory of data files and Mangle sources holds.  A source is compiled and
run on its own, and every relation it has then is a table.  At the end a table `__retract__p` goes,
and takes its tuples out of `p`.

* `loadData_facts` — what the directory with one file of facts holds.
-/

namespace Mangle

open Machinery List

/-- A file of the directory: tables of rows (`.mgr`), or clauses (`.mg`). -/
inductive EdbFile where
  | rows (tables : List (String × List Tuple))
  | clauses (unit : List Rule)

/-- The rows by relation. -/
abbrev FactTables := HashMap String (List Tuple)

/-- The table of a relation that has rows. -/
def addTable (s : MemStore) (tables : FactTables) (rel : Name) : Except DbError FactTables := do
  let rows ← orPanicked (s.scan rel)
  pure (if rows.isEmpty then tables else tables.insert rel.text rows)

/-- `execute_source_for_facts`. -/
def executeSourceForFacts (en : Engine) (unit : List Rule) : Except DbError FactTables := do
  let prog ← ofCompile (compileSource en unit)
  let s ← ofRun (prog.execute en.rt en.cfg .new)
  let names := s.relationNames en.rt.order
  let idbNames := prog.intensional.map Name.named
  (names ++ idbNames.filter (· ∉ names)).foldlM (addTable s) ∅

/-- The tables with those of one more file. -/
def loadFile (en : Engine) (tables : FactTables) : EdbFile → Except DbError FactTables
  | .rows data => .ok (data.foldl (fun tables t => tables.modify t.1 (· ++ t.2)) tables)
  | .clauses unit => do
      pure (tables.appendAll (← executeSourceForFacts en unit) fun _ rows => rows)

/-- What the name of a relation of retractions starts with. -/
def retractPrefix : String := "__retract__"

/-- The relation that a relation of retractions is for. -/
def retractBase (key : String) : Option String :=
  (key.toList.dropPrefix? retractPrefix.toList).map String.ofList

/-- Take the retractions for a relation out of the tables and out of its rows. -/
def applyRetractions (tables : FactTables) (base : String) : FactTables :=
  match tables.lookup (retractPrefix ++ base) with
  | none => tables
  | some retractions =>
      HashMap.update (tables.erase (retractPrefix ++ base)) base (·.filter (· ∉ retractions))

/-- `load_data`. -/
def loadData (en : Engine) (files : List EdbFile) : Except DbError FactTables := do
  let tables ← files.foldlM (loadFile en) ∅
  pure (((en.rt.order.perm tables.keys).filterMap retractBase).foldl applyRetractions tables)

/-! ## Names of relations of retractions -/

theorem retractBase_eq_some {key base : String} :
    retractBase key = some base ↔ key = retractPrefix ++ base := by
  rw [retractBase, Option.map_eq_some_iff]
  constructor
  · rintro ⟨l, hl, rfl⟩
    obtain ⟨p, hkey, hp⟩ := List.dropPrefix?_eq_some_iff.mp hl
    refine String.toList_inj.mp ?_
    rw [hkey, eq_of_beq hp, String.toList_append, String.toList_ofList]
  · rintro rfl
    exact ⟨base.toList, List.dropPrefix?_eq_some_iff.mpr
      ⟨retractPrefix.toList, String.toList_append, beq_self_eq_true _⟩, String.ofList_toList⟩

theorem retractPrefix_append_inj {a b : String} (h : retractPrefix ++ a = retractPrefix ++ b) :
    a = b :=
  Option.some.inj ((retractBase_eq_some.mpr rfl).symm.trans (retractBase_eq_some.mpr h))

/-! ## Retractions -/

section

variable {tables : FactTables} {base rel : String}

/-- The retractions for one relation leave the tables of the others alone. -/
theorem get_applyRetractions (hbase : retractBase base = none) (hrel : retractBase rel = none) :
    (applyRetractions tables base).get rel =
      if rel = base then (tables.get rel).filter (· ∉ tables.get (retractPrefix ++ rel))
      else tables.get rel := by
  have hne (r : String) (hr : retractBase r = none) : r ≠ retractPrefix ++ base := fun heq => by
    rw [retractBase_eq_some.mpr heq] at hr
    cases hr
  unfold applyRetractions
  cases hkey : tables.lookup (retractPrefix ++ base) with
  | none =>
    have hnil : tables.get (retractPrefix ++ base) = [] := by rw [HashMap.get, hkey]; rfl
    by_cases heq : rel = base
    · simp [heq, hnil]
    · simp [heq]
  | some retractions =>
    have hget : tables.get (retractPrefix ++ base) = retractions := by rw [HashMap.get, hkey]; rfl
    dsimp only
    rw [HashMap.get_update _ _ _ rfl, HashMap.get_erase, HashMap.get_erase, if_neg (hne base hbase),
      if_neg (hne rel hrel)]
    by_cases heq : rel = base
    · rw [if_pos heq, if_pos heq, heq, hget]
    · rw [if_neg heq, if_neg heq]

theorem get_applyRetractions_key (hbase : retractBase base = none) (hne : rel ≠ base) :
    (applyRetractions tables base).get (retractPrefix ++ rel) =
      tables.get (retractPrefix ++ rel) := by
  have hkey : retractPrefix ++ rel ≠ retractPrefix ++ base := fun h =>
    hne (retractPrefix_append_inj h)
  have hkey' : retractPrefix ++ rel ≠ base := fun h => by
    rw [retractBase_eq_some.mpr h.symm] at hbase
    cases hbase
  unfold applyRetractions
  split
  · rfl
  · rw [HashMap.get_update _ _ _ rfl, if_neg hkey', HashMap.get_erase, if_neg hkey]

theorem get_foldl_applyRetractions {bases : List String} (hnodup : bases.Nodup)
    (hbases : ∀ base ∈ bases, retractBase base = none) (hrel : retractBase rel = none) :
    (bases.foldl applyRetractions tables).get rel =
      if rel ∈ bases then (tables.get rel).filter (· ∉ tables.get (retractPrefix ++ rel))
      else tables.get rel := by
  induction bases generalizing tables with
  | nil => rfl
  | cons base bases ih =>
    obtain ⟨hnot, hnodup⟩ := nodup_cons.mp hnodup
    have hbase := hbases base mem_cons_self
    rw [foldl_cons, ih hnodup fun b hb => hbases b (mem_cons_of_mem _ hb),
      get_applyRetractions hbase hrel]
    by_cases heq : rel = base
    · rw [if_pos heq, if_neg (heq ▸ hnot), if_pos (by rw [heq]; exact mem_cons_self)]
    · rw [if_neg heq, get_applyRetractions_key hbase heq]
      simp [heq]

/-- The tables of retractions that are applied go. -/
theorem get_applyRetractions_self (hbase : retractBase base = none) :
    (applyRetractions tables base).get (retractPrefix ++ base) = [] := by
  have hne : retractPrefix ++ base ≠ base := fun h => by
    rw [retractBase_eq_some.mpr h.symm] at hbase
    cases hbase
  unfold applyRetractions
  cases hkey : tables.lookup (retractPrefix ++ base) with
  | none =>
    dsimp only
    rw [HashMap.get, hkey]
    rfl
  | some retractions =>
    dsimp only
    rw [HashMap.get_update _ _ _ rfl, if_neg hne, HashMap.get_erase, if_pos rfl]

theorem get_foldl_applyRetractions_key {bases : List String}
    (hbases : ∀ base ∈ bases, retractBase base = none)
    (hnil : rel ∉ bases → tables.get (retractPrefix ++ rel) = []) :
    (bases.foldl applyRetractions tables).get (retractPrefix ++ rel) = [] := by
  induction bases generalizing tables with
  | nil => exact hnil not_mem_nil
  | cons base bases ih =>
    have hbase := hbases base mem_cons_self
    refine ih (fun b hb => hbases b (mem_cons_of_mem _ hb)) fun hno => ?_
    by_cases heq : rel = base
    · rw [heq]
      exact get_applyRetractions_self hbase
    · rw [get_applyRetractions_key hbase heq]
      exact hnil (not_mem_cons_of_ne_of_not_mem heq hno)

theorem mem_retracted_bases {order : HashOrder} :
    base ∈ (order.perm tables.keys).filterMap retractBase ↔
      retractPrefix ++ base ∈ tables.keys := by
  simp only [mem_filterMap, (order.perm_perm _).mem_iff, retractBase_eq_some, exists_eq_right]

section

variable (order : HashOrder) (hkeys : ∀ key ∈ tables.keys, ∀ base,
  retractBase key = some base → retractBase base = none)

include hkeys

/-- **What is retracted is gone**, if no relation of retractions is retracted from. -/
theorem get_retracted (hrel : retractBase rel = none) :
    (((order.perm tables.keys).filterMap retractBase).foldl applyRetractions tables).get rel =
      (tables.get rel).filter (· ∉ tables.get (retractPrefix ++ rel)) := by
  have hnodup : ((order.perm tables.keys).filterMap retractBase).Nodup := by
    refine List.Nodup.filterMap (fun a b base ha hb => ?_)
      ((order.perm_perm _).nodup_iff.mpr tables.keys_nodup)
    exact (retractBase_eq_some.mp ha).trans (retractBase_eq_some.mp hb).symm
  rw [get_foldl_applyRetractions hnodup (fun base hbase =>
    hkeys _ (mem_retracted_bases.mp hbase) base (retractBase_eq_some.mpr rfl)) hrel]
  split
  · rfl
  · next hno =>
    have hnil : tables.get (retractPrefix ++ rel) = [] :=
      HashMap.get_of_notMem fun h => hno (mem_retracted_bases.mpr (AList.mem_keys.mp h))
    simp [hnil]

/-- No relation of retractions is left. -/
theorem get_retracted_key (base : String) :
    (((order.perm tables.keys).filterMap retractBase).foldl applyRetractions tables).get
      (retractPrefix ++ base) = [] :=
  get_foldl_applyRetractions_key
    (fun base hbase => hkeys _ (mem_retracted_bases.mp hbase) base (retractBase_eq_some.mpr rfl))
    fun hno => HashMap.get_of_notMem fun h => hno (mem_retracted_bases.mpr (AList.mem_keys.mp h))

end

end

/-! ## The tables of a source -/

variable {en : Engine} {unit : List Rule}

section

variable {s : MemStore} {c : Tiers}

/-- Relations with rows have different texts. -/
def Tiers.Distinct (c : Tiers) : Prop :=
  ∀ n m, c.visible n ≠ [] → c.visible m ≠ [] → n.text = m.text → n = m

theorem foldlM_addTable (h : Rep s c) (hdist : c.Distinct) (names : List Name)
    {tables : FactTables} (hne : ∀ rel ∈ tables, tables.get rel ≠ []) :
    ∃ tables', names.foldlM (addTable s) tables = .ok tables' ∧
      (∀ rel ∈ tables', tables'.get rel ≠ []) ∧
      (∀ n ∈ names, c.visible n ≠ [] → tables'.get n.text = c.visible n) ∧
      ∀ rel, (∀ n ∈ names, c.visible n ≠ [] → n.text ≠ rel) → tables'.get rel = tables.get rel := by
  induction names generalizing tables with
  | nil => exact ⟨tables, rfl, hne, by simp, fun _ _ => rfl⟩
  | cons n names ih =>
    have hadd : addTable s tables n = .ok
        (if (c.visible n).isEmpty then tables else tables.insert n.text (c.visible n)) := by
      rw [addTable, h.scan]
      rfl
    rw [foldlM_cons, hadd, ok_bind]
    by_cases hnil : c.visible n = []
    · rw [hnil, isEmpty_nil, if_pos rfl]
      obtain ⟨tables', hok, hrest, hget, hother⟩ := ih hne
      refine ⟨tables', hok, hrest, fun m hm hrows => ?_, fun rel hrel =>
        hother rel fun m hm => hrel m (mem_cons_of_mem _ hm)⟩
      obtain rfl | hm := mem_cons.mp hm
      · exact absurd hnil hrows
      · exact hget m hm hrows
    · rw [show (c.visible n).isEmpty = false by simpa using hnil, if_neg Bool.false_ne_true]
      have hne' : ∀ rel ∈ tables.insert n.text (c.visible n),
          HashMap.get (tables.insert n.text (c.visible n)) rel ≠ [] := by
        intro rel hrel
        rw [HashMap.get_insert]
        split
        · exact hnil
        · next hrel' => exact hne rel ((AList.mem_insert _).mp hrel |>.resolve_left hrel')
      obtain ⟨tables', hok, hrest, hget, hother⟩ := ih hne'
      refine ⟨tables', hok, hrest, fun m hm hrows => ?_, fun rel hrel => ?_⟩
      · by_cases hm' : m ∈ names
        · exact hget m hm' hrows
        · obtain rfl := (mem_cons.mp hm).resolve_right hm'
          -- no later name has the text of this one
          rw [hother _ fun m' hmem hrows' htext => hm' (hdist m' m hrows' hrows htext ▸ hmem),
            HashMap.get_insert, if_pos rfl]
      · rw [hother rel fun m hm => hrel m (mem_cons_of_mem _ hm), HashMap.get_insert,
          if_neg (hrel n mem_cons_self hnil).symm]

/-- **The tables of a source** are the relations with rows, by their texts. -/
theorem executeSourceForFacts_ok {prog : Program} (hcomp : compileSource en unit = .ok prog)
    (hexec : prog.execute en.rt en.cfg .new = .ok s) (h : Rep s c) (hdist : c.Distinct) :
    ∃ tables, executeSourceForFacts en unit = .ok tables ∧
      (∀ rel ∈ tables, tables.get rel ≠ []) ∧
      ∀ rel t, t ∈ tables.get rel ↔ ∃ n, n.text = rel ∧ t ∈ c.visible n := by
  have hnames (n : Name) (hn : c.visible n ≠ []) : n ∈ s.relationNames en.rt.order := by
    by_contra hno
    obtain ⟨hs, hd⟩ := h.mem_relationNames en.rt.order hno
    exact hn (by rw [Tiers.visible, hs, hd]; rfl)
  obtain ⟨tables, hok, hne, hget, hother⟩ := @foldlM_addTable s c h hdist
    (s.relationNames en.rt.order ++
      (prog.intensional.map Name.named).filter (· ∉ s.relationNames en.rt.order)) ∅
    fun rel hrel => absurd hrel (AList.notMem_empty rel)
  refine ⟨tables, ?_, hne, fun rel t => ⟨fun ht => ?_, ?_⟩⟩
  · simp only [executeSourceForFacts, hcomp, ofCompile, ok_bind, hexec, ofRun]
    exact hok
  · by_contra hno
    rw [hother rel fun n hn hrows htext => ?_] at ht
    · cases ht
    · rw [← htext, hget n hn hrows] at ht
      exact hno ⟨n, htext, ht⟩
  · rintro ⟨n, rfl, ht⟩
    have hrows := ne_nil_of_mem ht
    rwa [hget n (mem_append_left _ (hnames n hrows)) hrows]

end

/-- **The directory of one source** holds the facts of its tables that are not retracted. -/
theorem loadData_clauses {tables : FactTables} (hok : executeSourceForFacts en unit = .ok tables)
    (hkeys : ∀ key ∈ tables, ∀ base, retractBase key = some base → retractBase base = none) :
    ∃ tables', loadData en [.clauses unit] = .ok tables' ∧
      (∀ base, tables'.get (retractPrefix ++ base) = []) ∧
      ∀ rel t, retractBase rel = none → (t ∈ tables'.get rel ↔
        t ∈ tables.get rel ∧ t ∉ tables.get (retractPrefix ++ rel)) := by
  have hget (rel : String) :
      HashMap.get (HashMap.appendAll ∅ tables fun _ rows => rows) rel = tables.get rel :=
    HashMap.get_appendAll ∅ tables _ rel rfl
  have hkeys' : ∀ key ∈ (HashMap.appendAll ∅ tables fun _ rows => rows).keys, ∀ base,
      retractBase key = some base → retractBase base = none := fun key hkey =>
    hkeys key ((HashMap.mem_appendAll.mp (AList.mem_keys.mpr hkey)).resolve_left
      (AList.notMem_empty key))
  refine ⟨_, by simp only [loadData, foldlM_cons, foldlM_nil, loadFile, hok]; rfl,
    get_retracted_key en.rt.order hkeys', fun rel t hrel => ?_⟩
  rw [get_retracted en.rt.order hkeys' hrel]
  simp only [mem_filter, decide_eq_true_iff, hget]

/-! ## A file of facts -/

/-- A clause of the file states the fact. -/
def Stated (rt : Runtime) (unit : List Rule) (rel : String) (t : Tuple) : Prop :=
  ∃ r ∈ unit, r.States rt rel t

/-- The tables of a file of facts. -/
theorem executeSourceForFacts_facts (hfacts : ∀ r ∈ unit, ∃ t, r.States en.rt r.pred t)
    (harity : SameArity unit) (hcheck : en.check unit = .ok ()) :
    ∃ tables, executeSourceForFacts en unit = .ok tables ∧
      (∀ rel ∈ tables, tables.get rel ≠ []) ∧
      ∀ rel t, t ∈ tables.get rel ↔ Stated en.rt unit rel t := by
  obtain ⟨prog, hcomp⟩ := exists_compile_facts
    (fun r hr => (hfacts r hr).elim fun _ h => h.premises) harity hcheck
  obtain ⟨s, c, hexec, hrep, -, hmem⟩ :=
    @execute_facts en.rt en.cfg unit prog (compileSource_ok hcomp) hfacts
  have hnamed (n : Name) (hn : c.visible n ≠ []) : ∃ rel : String, n = rel := by
    obtain ⟨t, ht⟩ := exists_mem_of_ne_nil _ hn
    obtain ⟨r, -, rfl, -⟩ := (hmem n t).mp ht
    exact ⟨r.pred, rfl⟩
  have hdist : c.Distinct := fun n m hn hm htext => by
    obtain ⟨p, rfl⟩ := hnamed n hn
    obtain ⟨q, rfl⟩ := hnamed m hm
    exact congrArg Name.named htext
  obtain ⟨tables, hok, hne, hget⟩ := executeSourceForFacts_ok hcomp hexec hrep hdist
  refine ⟨tables, hok, hne, fun rel t => (hget rel t).trans ⟨?_, ?_⟩⟩
  · rintro ⟨n, rfl, ht⟩
    obtain ⟨r, hr, rfl, hst⟩ := (hmem n t).mp ht
    exact ⟨r, hr, hst⟩
  · rintro ⟨r, hr, hst⟩
    obtain rfl := hst.pred
    exact ⟨r.pred, rfl, (hmem _ t).mpr ⟨r, hr, rfl, hst⟩⟩

/-- **The directory of one file of facts** holds the facts that are stated and not retracted. -/
theorem loadData_facts (hfacts : ∀ r ∈ unit, ∃ t, r.States en.rt r.pred t)
    (harity : SameArity unit) (hcheck : en.check unit = .ok ())
    (hnames : ∀ r ∈ unit, ∀ base, retractBase r.pred = some base → retractBase base = none) :
    ∃ tables, loadData en [.clauses unit] = .ok tables ∧
      ∀ rel t, retractBase rel = none → (t ∈ tables.get rel ↔
        Stated en.rt unit rel t ∧ ¬ Stated en.rt unit (retractPrefix ++ rel) t) := by
  obtain ⟨tables, hok, hne, hmem⟩ := executeSourceForFacts_facts hfacts harity hcheck
  obtain ⟨tables', hload, -, hget⟩ := loadData_clauses hok fun key hkey base hbase => by
    obtain ⟨t, ht⟩ := exists_mem_of_ne_nil _ (hne key hkey)
    obtain ⟨r, hr, hst⟩ := (hmem key t).mp ht
    exact hnames r hr base (hst.pred ▸ hbase)
  exact ⟨tables', hload, fun rel t hrel => by rw [hget rel t hrel, hmem, hmem]⟩

end Mangle

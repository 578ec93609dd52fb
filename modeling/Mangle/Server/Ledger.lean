import Mangle.Db.Sound
import Mangle.Server.ProgramStore

/-!
# Server/Ledger — what the ledger says

The ledger of a program names the facts that came by commands and the facts of other origin that
were retracted.  `FactLedger.Holds.note`: it keeps saying what is there as long as operations are
noted that the store has taken, and tuples are compared by a linear order.
-/

namespace Mangle

open Machinery

/-! ## Sets by relation -/

namespace FactSets

theorem of_add (sets : FactSets) (rel r : String) (t : Tuple) :
    (sets.add rel t).of r =
      if r = rel then OrdSet.insert Value.cmpList t (sets.of rel) else sets.of r := by
  by_cases h : r = rel
  · subst h
    simp [of, add]
  · simp [of, add, Std.ExtTreeMap.getElem?_insert, h, Ne.symm h]

theorem of_insert (sets : FactSets) (rel r : String) (set : List Tuple) :
    FactSets.of (Std.ExtTreeMap.insert sets rel set) r = if r = rel then set else sets.of r := by
  by_cases h : r = rel
  · subst h
    simp [of]
  · simp [of, Std.ExtTreeMap.getElem?_insert, h, Ne.symm h]

theorem of_modify (sets : FactSets) (rel r : String) (f : List Tuple → List Tuple)
    (hf : f [] = []) : FactSets.of (Std.ExtTreeMap.modify sets rel f) r =
      if r = rel then f (sets.of rel) else sets.of r := by
  by_cases h : r = rel
  · subst h
    cases hx : sets[r]? <;> simp [of, hx, hf]
  · simp [of, Std.ExtTreeMap.getElem?_modify, h, Ne.symm h]

end FactSets

/-! ## One relation -/

/-- What is asked of the sets of one relation: the replicated tuples are facts, the retracted ones
are not. -/
structure SetsHold (S : Set Tuple) (replicated retracted facts : List Tuple) : Prop where
  sorted : OrdSet.Sorted Value.cmpList replicated
  known : ∀ t ∈ replicated ++ retracted, t ∈ S
  present : ∀ t ∈ replicated, t ∈ facts
  absent : ∀ t ∈ retracted, t ∉ facts

namespace SetsHold

variable {S : Set Tuple} {replicated retracted facts facts' : List Tuple}

theorem congr (h : SetsHold S replicated retracted facts) (hf : ∀ t, t ∈ facts' ↔ t ∈ facts) :
    SetsHold S replicated retracted facts' where
  sorted := h.sorted
  known := h.known
  present t ht := (hf t).mpr (h.present t ht)
  absent t ht hin := h.absent t ht ((hf t).mp hin)

theorem nil (S : Set Tuple) (facts : List Tuple) : SetsHold S [] [] facts :=
  ⟨.nil, fun _ ht => (by cases ht), fun _ ht => (by cases ht), fun _ ht => (by cases ht)⟩

theorem known_replicated (h : SetsHold S replicated retracted facts) : ∀ t ∈ replicated, t ∈ S :=
  fun t ht => h.known t (List.mem_append_left _ ht)

theorem known_retracted (h : SetsHold S replicated retracted facts) : ∀ t ∈ retracted, t ∈ S :=
  fun t ht => h.known t (List.mem_append_right _ ht)

end SetsHold

/-! ## The ledger -/

namespace FactLedger

variable {S : String → Set Tuple} {unit : List Rule} {l : FactLedger} {c d : Tiers}
  {op : MutationOp}

/-- **The ledger says what is there**, and its relations have no clauses. -/
structure Holds (S : String → Set Tuple) (unit : List Rule) (l : FactLedger) (c : Tiers) :
    Prop where
  sets : ∀ rel : String, SetsHold (S rel) (l.replicated.of rel) (l.retracted.of rel) (c.visible rel)
  free : ∀ rel ∈ unit.map Rule.pred, l.replicated.of rel = [] ∧ l.retracted.of rel = []

theorem holds_empty (S : String → Set Tuple) (unit : List Rule) (c : Tiers) :
    empty.Holds S unit c := by
  have hof (rel : String) : FactSets.of ∅ rel = [] := by simp [FactSets.of]
  refine ⟨fun rel => ?_, fun rel _ => ⟨hof rel, hof rel⟩⟩
  simp only [empty, hof]
  exact .nil _ _

/-- The ledger speaks of relations without clauses only. -/
theorem Holds.congr (h : l.Holds S unit c)
    (hvis : ∀ rel : String, rel ∉ unit.map Rule.pred → ∀ t, t ∈ d.visible rel ↔ t ∈ c.visible rel) :
    l.Holds S unit d where
  sets rel := by
    by_cases hrel : rel ∈ unit.map Rule.pred
    · obtain ⟨h₁, h₂⟩ := h.free rel hrel
      rw [h₁, h₂]
      exact .nil _ _
    · exact (h.sets rel).congr (hvis rel hrel)
  free := h.free

/-- The sets after an insertion is noted. -/
theorem Holds.mem_noteInsert (h : l.Holds S unit c)
    (hS : OrdSet.LinearOn Value.cmpList (S op.relation)) (hop : op.tuple ∈ S op.relation)
    (hkind : op.kind = .insert) (rel : String) (t : Tuple) :
    (t ∈ (l.note op).replicated.of rel ↔
        rel = op.relation ∧ t = op.tuple ∨ t ∈ l.replicated.of rel) ∧
      (t ∈ (l.note op).retracted.of rel ↔
        t ∈ l.retracted.of rel ∧ ¬(rel = op.relation ∧ t = op.tuple)) := by
  rw [FactLedger.note, hkind]
  simp only [noteInsert]
  rw [FactSets.of_add, FactSets.of_modify _ _ _ _ rfl]
  by_cases hrel : rel = op.relation
  · subst hrel
    simp [OrdSet.mem_insert hS hop (h.sets _).known_replicated]
  · simp [hrel]

/-- The sets after a retraction is noted. -/
theorem Holds.mem_noteRetract (h : l.Holds S unit c)
    (hS : OrdSet.LinearOn Value.cmpList (S op.relation)) (hop : op.tuple ∈ S op.relation)
    (hkind : op.kind = .retract) (rel : String) (t : Tuple) :
    (t ∈ (l.note op).replicated.of rel ↔
        t ∈ l.replicated.of rel ∧ ¬(rel = op.relation ∧ t = op.tuple)) ∧
      (t ∈ (l.note op).retracted.of rel ↔ t ∈ l.retracted.of rel ∨
        op.tuple ∉ l.replicated.of op.relation ∧ rel = op.relation ∧ t = op.tuple) := by
  have hsets := h.sets op.relation
  have hfst := OrdSet.remove_fst hS hop hsets.known_replicated hsets.sorted
  have hmem := OrdSet.mem_remove hS hop hsets.known_replicated hsets.sorted
  rw [FactLedger.note, hkind]
  simp only [noteRetract]
  rcases hx : OrdSet.remove Value.cmpList op.tuple (l.replicated.of op.relation) with ⟨found, set⟩
  rw [hx] at hfst hmem
  cases found with
  | true =>
    have hin : op.tuple ∈ l.replicated.of op.relation := hfst.mp rfl
    simp only [FactSets.of_insert]
    by_cases hrel : rel = op.relation
    · subst hrel
      simp [hin, hmem]
    · simp [hrel]
  | false =>
    have hout : op.tuple ∉ l.replicated.of op.relation := by simpa using hfst
    simp only [FactSets.of_add]
    by_cases hrel : rel = op.relation
    · subst hrel
      have hne : t ∈ l.replicated.of op.relation → t ≠ op.tuple := fun ht heq => hout (heq ▸ ht)
      simpa [OrdSet.mem_insert hS hop hsets.known_retracted, hout, or_comm] using hne
    · simp [hrel]

/-- The sets of the other relations stay. -/
theorem note_of_ne {rel : String} (hrel : rel ≠ op.relation) :
    (l.note op).replicated.of rel = l.replicated.of rel ∧
      (l.note op).retracted.of rel = l.retracted.of rel := by
  unfold note noteInsert noteRetract
  cases op.kind with
  | insert =>
    dsimp only
    rw [FactSets.of_add, FactSets.of_modify _ _ _ _ rfl, if_neg hrel, if_neg hrel]
    exact ⟨rfl, rfl⟩
  | retract =>
    dsimp only
    split <;> simp [FactSets.of_insert, FactSets.of_add, hrel]

/-- The replicated tuples stay in order. -/
theorem Holds.sorted_note (h : l.Holds S unit c)
    (hS : OrdSet.LinearOn Value.cmpList (S op.relation)) (hop : op.tuple ∈ S op.relation)
    (rel : String) : OrdSet.Sorted Value.cmpList ((l.note op).replicated.of rel) := by
  have hsets := h.sets rel
  by_cases hrel : rel = op.relation
  swap
  · rw [(note_of_ne hrel).1]
    exact hsets.sorted
  subst hrel
  unfold note noteInsert noteRetract
  cases op.kind with
  | insert =>
    rw [FactSets.of_add, if_pos rfl]
    exact OrdSet.sorted_insert hS hop hsets.known_replicated hsets.sorted
  | retract =>
    dsimp only
    split
    · rename_i hx
      rw [FactSets.of_insert, if_pos rfl]
      have hset := OrdSet.sorted_remove (a := op.tuple) hsets.sorted
      rwa [hx] at hset
    · exact hsets.sorted

/-- **A noted operation.** -/
theorem Holds.note (h : l.Holds S unit c) (hS : OrdSet.LinearOn Value.cmpList (S op.relation))
    (hop : op.tuple ∈ S op.relation) (hfree : op.relation ∉ unit.map Rule.pred) (hm : c.Merged)
    (hv : c.Valid) (htakes : op.kind = .insert → c.Takes op) :
    (l.note op).Holds S unit (c.write op) := by
  have hhit {rel : String} {t : Tuple} : rel = op.relation ∧ t = op.tuple → t ∈ S rel := by
    rintro ⟨rfl, rfl⟩
    exact hop
  refine ⟨fun rel => ?_, fun rel hrel => ?_⟩
  swap
  · have hne := note_of_ne (l := l) fun heq => hfree (heq ▸ hrel)
    rw [hne.1, hne.2]
    exact h.free rel hrel
  have hsets := h.sets rel
  cases hkind : op.kind with
  | insert =>
    have hnote := h.mem_noteInsert hS hop hkind rel
    refine ⟨h.sorted_note hS hop rel, fun t ht => ?_, fun t ht => ?_, fun t ht => ?_⟩
    · rw [List.mem_append, (hnote t).1, (hnote t).2] at ht
      obtain (hin | ht) | ⟨ht, -⟩ := ht
      exacts [hhit hin, hsets.known_replicated t ht, hsets.known_retracted t ht]
    · rw [hm.mem_write_insert hkind]
      exact ((hnote t).1.mp ht).symm.imp (hsets.present t) fun hin => ⟨htakes hkind, hin⟩
    · obtain ⟨ht, hne⟩ := (hnote t).2.mp ht
      rw [hm.mem_write_insert hkind]
      exact not_or.mpr ⟨hsets.absent t ht, fun hin => hne hin.2⟩
  | retract =>
    have hnote := h.mem_noteRetract hS hop hkind rel
    refine ⟨h.sorted_note hS hop rel, fun t ht => ?_, fun t ht => ?_, fun t ht => ?_⟩
    · rw [List.mem_append, (hnote t).1, (hnote t).2] at ht
      obtain ⟨ht, -⟩ | ht | ⟨-, hin⟩ := ht
      exacts [hsets.known_replicated t ht, hsets.known_retracted t ht, hhit hin]
    · exact (hv.mem_write_retract hkind t).mpr (((hnote t).1.mp ht).imp_left (hsets.present t))
    · rw [hv.mem_write_retract hkind]
      rintro ⟨hin, hne⟩
      exact ((hnote t).2.mp ht).elim (hsets.absent t · hin) fun hx => hne hx.2

/-- **Noted operations**, each of which changes the facts. -/
theorem Holds.notes {db : Database} (h : l.Holds S unit c) (hdb : db.Sound c)
    (hS : ∀ rel, OrdSet.LinearOn Value.cmpList (S rel)) {ops : List MutationOp}
    (hops : ∀ op ∈ ops, op.tuple ∈ S op.relation ∧ op.relation ∉ unit.map Rule.pred)
    (happlies : c.AppliesAll ops) :
    (ops.foldl FactLedger.note l).Holds S unit (ops.foldl Tiers.write c) := by
  induction ops generalizing db c l with
  | nil => exact h
  | cons op ops ih =>
    obtain ⟨_, -, hw⟩ := hdb.write op
    obtain ⟨hop, hfree⟩ := hops op (List.mem_cons_self ..)
    have hnote := h.note (hS _) hop hfree hdb.merged hdb.rep.toValid fun hkind =>
      (happlies.1.insert hkind).2
    exact ih hnote hw (fun o ho => hops o (List.mem_cons_of_mem _ ho)) happlies.2

end FactLedger

end Mangle

import Mathlib.Data.List.Lattice
import Mathlib.Data.List.Perm.Subperm
import Mangle.Machinery.Support
import Mangle.Store.MemStore

/-!
# Db/Provenance — deletion by counting derivations

A `ProvenanceIndex` lists the recorded derivations of every derived fact and, the other way, the
facts that depend on a fact.  `delete_phase` strikes out the derivations that use the retracted fact
and deletes the facts that have none left, one after the other.

* `Deleting.retire`, `Deleting.pop` — what holds between the steps of the loop;
* `delete_phase_exact` — the loop ends, the index keeps the other derivations, and the deleted facts
  are those that have lost their last well-founded derivation just when no set of facts supports
  itself without one.

A fact that depends on itself through a cycle keeps a derivation although nothing is left to start
the cycle from (`delete_phase_keeps_cycle`).
-/

namespace Mangle

open Machinery List

variable {n : Nat}

/-! ## The index -/

/-- `FactKey`. -/
structure FactKey where
  relation : String
  tuple : Tuple
  deriving DecidableEq

/-- `Derivation`. -/
structure Derivation where
  ruleId : Nat
  premises : List FactKey
  deriving DecidableEq

/-- `ProvenanceIndex`. -/
structure ProvenanceIndex where
  derivations : HashMap FactKey (List Derivation)
  dependents : HashMap FactKey (List FactKey)

variable {struck : FactKey → FactKey → Bool} {st : DeleteState} {g : FactKey}

namespace ProvenanceIndex

/-- `ProvenanceIndex::new`. -/
def new : ProvenanceIndex := ⟨∅, ∅⟩

/-- `record`. -/
def record (ix : ProvenanceIndex) (derived : FactKey) (ruleId : Nat) (premises : List FactKey) :
    ProvenanceIndex where
  dependents := premises.foldl (fun m p => m.modify p (·.insert derived)) ix.dependents
  derivations := ix.derivations.modify derived (· ++ [⟨ruleId, premises⟩])

/-- `get_derivations`. -/
def getDerivations (ix : ProvenanceIndex) (fact : FactKey) : Option (List Derivation) :=
  ix.derivations.lookup fact

/-- The state of the loop of `delete_phase`; the worklist is a stack. -/
structure DeleteState where
  derivations : HashMap FactKey (List Derivation)
  toDelete : List FactKey
  worklist : List FactKey

/-- Strike out the derivations of a dependent that use a fact. -/
def retire (fact : FactKey) (st : DeleteState) (dependent : FactKey) : DeleteState :=
  if dependent ∈ st.toDelete then st else
    match st.derivations.lookup dependent with
    | none => st
    | some derivations =>
        let rest := derivations.filter fun d => fact ∉ d.premises
        if rest = [] then
          ⟨st.derivations.insert dependent rest, dependent :: st.toDelete, dependent :: st.worklist⟩
        else { st with derivations := st.derivations.insert dependent rest }

/-- Take a fact from the worklist. -/
def pop (order : HashOrder) (dependents : HashMap FactKey (List FactKey)) (fact : FactKey)
    (rest : List FactKey) (st : DeleteState) : DeleteState :=
  (order.perm (dependents.get fact)).foldl (retire fact) { st with worklist := rest }

/-- The loop of `delete_phase`; `none` when the fuel runs out. -/
def deleteLoop (order : HashOrder) (dependents : HashMap FactKey (List FactKey)) :
    Nat → DeleteState → Option DeleteState
  | 0, st => if st.worklist = [] then some st else none
  | fuel + 1, st =>
      match st.worklist with
      | [] => some st
      | fact :: rest => deleteLoop order dependents fuel (pop order dependents fact rest st)

/-- `delete_phase`: the deleted facts, and the index afterwards. -/
def deletePhase (order : HashOrder) (ix : ProvenanceIndex) (retracted : FactKey) :
    Option (List FactKey × ProvenanceIndex) := do
  let st ← deleteLoop order ix.dependents (ix.derivations.keys.length + 1)
    ⟨ix.derivations, [], [retracted]⟩
  let dependents := (order.perm st.toDelete).foldl (fun m a => m.erase a) ix.dependents
  pure (st.toDelete,
    { derivations := (order.perm st.toDelete).foldl (fun m a => m.erase a) st.derivations
      dependents := dependents.keys.foldl (fun m k =>
        m.update k (·.filter (· ∉ st.toDelete))) dependents })

/-! ## Recorded derivations -/

/-- The arguments of a call of `record`. -/
structure Record where
  derived : FactKey
  ruleId : Nat
  premises : List FactKey
  deriving DecidableEq

/-- The index built by calls of `record`. -/
def recorded (records : List Record) : ProvenanceIndex :=
  records.foldl (fun ix r => ix.record r.derived r.ruleId r.premises) .new

/-- The ways in which a fact has been derived. -/
def ways (records : List Record) (a : FactKey) : Set (List FactKey) :=
  {ps | ∃ r ∈ records, r.derived = a ∧ r.premises = ps}

/-- The index of the records. -/
structure Indexes (records : List Record) (ix : ProvenanceIndex) : Prop where
  derivations : ∀ a, ix.derivations.get a =
    (records.filter (·.derived = a)).map fun r => ⟨r.ruleId, r.premises⟩
  keys : ∀ a, a ∈ ix.derivations ↔ ∃ r ∈ records, r.derived = a
  dependents : ∀ r ∈ records, ∀ p ∈ r.premises, r.derived ∈ ix.dependents.get p

/-- The dependents after one fact has been entered for every premise. -/
theorem mem_enter {premises : List FactKey} {m : HashMap FactKey (List FactKey)}
    {derived a p : FactKey} :
    a ∈ (premises.foldl (fun m p => m.modify p (·.insert derived)) m).get p ↔
      a ∈ m.get p ∨ p ∈ premises ∧ a = derived := by
  induction premises generalizing m with
  | nil => simp
  | cons q premises ih =>
    rw [foldl_cons, ih, HashMap.get_modify]
    by_cases hp : p = q
    · subst hp
      simp only [if_true, mem_insert_iff, mem_cons_self, true_and]
      tauto
    · simp [hp]

theorem indexes_recorded (records : List Record) : Indexes records (recorded records) := by
  induction records using List.reverseRecOn with
  | nil => exact ⟨fun _ => rfl, fun a => by simp [recorded, new], fun r hr => by cases hr⟩
  | append_singleton records r ih =>
    have hstep : recorded (records ++ [r]) =
        (recorded records).record r.derived r.ruleId r.premises := by
      rw [recorded, foldl_append]
      rfl
    rw [hstep]
    refine ⟨fun a => ?_, fun a => ?_, fun r' hr' p hp => ?_⟩
    · rw [record, HashMap.get_modify, ih.derivations, ih.derivations, filter_append,
        map_append]
      by_cases ha : a = r.derived
      · simp [ha]
      · simp [ha, Ne.symm ha]
    · rw [record, HashMap.mem_modify, ih.keys]
      simp [or_comm, eq_comm]
    · rw [record, mem_enter]
      obtain hr' | hr' := mem_append.mp hr'
      · exact .inl (ih.dependents r' hr' p hp)
      · obtain rfl := mem_singleton.mp hr'
        exact .inr ⟨hp, rfl⟩

namespace Indexes

variable {records : List Record} {ix : ProvenanceIndex} {a : FactKey}

variable (h : Indexes records ix)

include h

theorem mem_ways {ps : List FactKey} :
    ps ∈ ways records a ↔ ∃ d ∈ ix.derivations.get a, d.premises = ps := by
  rw [h.derivations]
  constructor
  · rintro ⟨r, hr, rfl, rfl⟩
    exact ⟨_, mem_map.mpr ⟨r, mem_filter.mpr ⟨hr, by simp⟩, rfl⟩, rfl⟩
  · rintro ⟨d, hd, rfl⟩
    obtain ⟨r, hr, rfl⟩ := mem_map.mp hd
    obtain ⟨hr, ha⟩ := mem_filter.mp hr
    exact ⟨r, hr, of_decide_eq_true ha, rfl⟩

theorem ways_nonempty : (ways records a).Nonempty ↔ a ∈ ix.derivations := by
  rw [h.keys]
  constructor
  · rintro ⟨_, r, hr, ha, -⟩
    exact ⟨r, hr, ha⟩
  · rintro ⟨r, hr, ha⟩
    exact ⟨_, r, hr, ha, rfl⟩

theorem lookup_ne_nil : ix.derivations.lookup a ≠ some [] := by
  intro hnil
  obtain ⟨r, hr, rfl⟩ := (h.keys a).mp (AList.lookup_isSome.mp (by simp [hnil]))
  have hget : ix.derivations.get r.derived = [] := by rw [HashMap.get, hnil]; rfl
  rw [h.derivations, map_eq_nil_iff, filter_eq_nil_iff] at hget
  exact hget r hr (by simp)

/-- The dependents of a fact are all there. -/
theorem mem_dependents {d : Derivation} (hd : d ∈ ix.derivations.get a) {p : FactKey}
    (hp : p ∈ d.premises) : a ∈ ix.dependents.get p := by
  rw [h.derivations] at hd
  obtain ⟨r, hr, rfl⟩ := mem_map.mp hd
  obtain ⟨hr, ha⟩ := mem_filter.mp hr
  exact of_decide_eq_true ha ▸ h.dependents r hr p hp

end Indexes

/-! ## The loop -/

section

variable {records : List Record} {ix : ProvenanceIndex} {f : FactKey}

/-- Between the steps of the loop.  Derivations that use `p` have been struck out at `a` where
`struck a p`; the dependents of the facts in `done` have been visited, `n` pops so far. -/
structure Deleting (records : List Record) (ix : ProvenanceIndex) (f : FactKey)
    (done : List FactKey)
    (struck : FactKey → FactKey → Bool) (n : Nat) (st : DeleteState) : Prop where
  waiting : ∀ p, p = f ∨ p ∈ st.toDelete → p ∈ done ∨ p ∈ st.worklist
  lost : ∀ p, p ∈ done ∨ p ∈ st.worklist → p = f ∨ p ∈ st.toDelete
  struck_lost : ∀ a p, struck a p = true → p = f ∨ p ∈ st.toDelete
  kept : ∀ a, a ∉ st.toDelete → st.derivations.lookup a =
    (ix.derivations.lookup a).map (·.filter fun d => d.premises.all fun p => !struck a p)
  alive : ∀ a, a ∉ st.toDelete → st.derivations.lookup a ≠ some []
  derived : ∀ a ∈ st.toDelete, a ∈ ix.derivations
  disjoint : ∀ S, SelfSupporting (ways records) {f} S → ∀ a ∈ S, a ∉ st.toDelete
  nodup : st.toDelete.Nodup
  balance : st.toDelete.length + 1 = st.worklist.length + n

/-- A fact all of whose derivations use what is lost belongs to no set that supports itself. -/
theorem Indexes.notMem_of_lost (h : Indexes records ix) (hf : f ∉ ix.derivations)
    {lost : List FactKey} (hderived : ∀ p ∈ lost, p ∈ ix.derivations) {S : Set FactKey}
    (hS : SelfSupporting (ways records) {f} S) (hdisjoint : ∀ p ∈ S, p ∉ lost) {a : FactKey}
    (hall : ∀ d ∈ ix.derivations.get a, ∃ p ∈ d.premises, p = f ∨ p ∈ lost) : a ∉ S := by
  intro ha
  obtain ⟨ps, hps, hsupport⟩ := hS a ha
  obtain ⟨d, hd, rfl⟩ := h.mem_ways.mp hps
  obtain ⟨p, hp, hlost⟩ := hall d hd
  obtain rfl | hlost := hlost
  · obtain hin | hleft := hsupport p hp
    · obtain ⟨qs, hqs, -⟩ := hS p hin
      exact hf (h.ways_nonempty.mp ⟨qs, hqs⟩)
    · exact hleft.2 rfl
  · obtain hin | hleft := hsupport p hp
    · exact hdisjoint p hin hlost
    · exact (h.ways_nonempty.mpr (hderived p hlost)).ne_empty hleft.1

/-- Striking out more. -/
theorem filter_struck (struck : FactKey → Bool) (g : FactKey) (ds : List Derivation) :
    (ds.filter fun d => d.premises.all fun p => !(struck p || p == g)) =
      (ds.filter fun d => d.premises.all fun p => !struck p).filter fun d => g ∉ d.premises := by
  rw [filter_filter]
  refine filter_congr fun d _ => ?_
  rw [Bool.eq_iff_iff]
  simp only [all_eq_true, Bool.not_eq_true', Bool.or_eq_false_iff, beq_eq_false_iff_ne,
    Bool.and_eq_true, decide_eq_true_eq]
  constructor
  · intro h
    exact ⟨fun hg => (h g hg).2 rfl, fun p hp => (h p hp).1⟩
  · rintro ⟨hg, hall⟩ p hp
    refine ⟨hall p hp, ?_⟩
    rintro rfl
    exact hg hp

variable {done : List FactKey}

section

variable (hix : Indexes records ix)

include hix

/-- **One dependent** of a lost fact is visited. -/
theorem Deleting.retire (hf : f ∉ ix.derivations) (h : Deleting records ix f done struck n st)
    (hg : g ∈ done) (a : FactKey) :
    Deleting records ix f done (fun b p => struck b p || (b == a && p == g)) n (retire g st a) := by
  have hstruck {T : List FactKey} (hT : st.toDelete ⊆ T) (b p : FactKey)
      (hbp : (struck b p || (b == a && p == g)) = true) : p = f ∨ p ∈ T := by
    rw [Bool.or_eq_true, Bool.and_eq_true, beq_iff_eq, beq_iff_eq] at hbp
    obtain hbp | ⟨-, rfl⟩ := hbp
    · exact (h.struck_lost b p hbp).imp_right (hT ·)
    · exact (h.lost p (.inl hg)).imp_right (hT ·)
  have hkept {b : FactKey} (hb : b ∉ st.toDelete) (hba : b ≠ a) : st.derivations.lookup b =
      (ix.derivations.lookup b).map
        (·.filter fun d => d.premises.all fun p => !(struck b p || (b == a && p == g))) := by
    have hne : (b == a) = false := beq_eq_false_iff_ne.mpr hba
    rw [h.kept b hb]
    simp only [hne, Bool.false_and, Bool.or_false]
  rw [ProvenanceIndex.retire]
  by_cases hdel : a ∈ st.toDelete
  · rw [if_pos hdel]
    exact { h with
      struck_lost := hstruck (List.Subset.refl _)
      kept := fun b hb => hkept hb fun heq => hb (heq ▸ hdel) }
  rw [if_neg hdel]
  cases hlook : st.derivations.lookup a with
  | none =>
    refine { h with struck_lost := hstruck (List.Subset.refl _), kept := fun b hb => ?_ }
    by_cases hba : b = a
    · have hnone : ix.derivations.lookup a = none := by
        simpa [hlook] using (h.kept a hdel).symm
      rw [hba, hlook, hnone]
      rfl
    · exact hkept hb hba
  | some ds =>
    obtain ⟨ds₀, hds₀, hds⟩ : ∃ ds₀, ix.derivations.lookup a = some ds₀ ∧
        ds₀.filter (fun d => d.premises.all fun p => !struck a p) = ds := by
      simpa [hlook, Option.map_eq_some_iff] using (h.kept a hdel).symm
    have hrest := filter_struck (struck a) g ds₀
    rw [hds] at hrest
    by_cases hempty : ds.filter (fun d => g ∉ d.premises) = []
    · -- Every derivation of the dependent has been struck out.
      have hall : ∀ d ∈ ix.derivations.get a, ∃ p ∈ d.premises, p = f ∨ p ∈ st.toDelete := by
        intro d hd
        rw [HashMap.get, hds₀, Option.getD_some] at hd
        have hout := filter_eq_nil_iff.mp (hrest.trans hempty) d hd
        simp only [all_eq_true, Bool.not_eq_true', not_forall, Bool.not_eq_false] at hout
        obtain ⟨p, hp, hpg⟩ := hout
        exact ⟨p, hp, hstruck (List.Subset.refl _) a p (by simpa using hpg)⟩
      have hsub : st.toDelete ⊆ a :: st.toDelete := subset_cons_self ..
      have ha : a ∈ ix.derivations := AList.lookup_isSome.mp (by simp [hds₀])
      simp only [hempty, if_true]
      refine ⟨fun p hp => ?_, fun p hp => ?_, hstruck hsub, fun b hb => ?_, fun b hb => ?_,
        forall_mem_cons.mpr ⟨ha, h.derived⟩, fun S hS b hb => ?_,
        nodup_cons.mpr ⟨hdel, h.nodup⟩, ?_⟩
      · rw [mem_cons, or_left_comm] at hp
        obtain rfl | hp := hp
        · exact .inr mem_cons_self
        · exact (h.waiting p hp).imp_right (mem_cons_of_mem _)
      · rw [mem_cons, or_left_comm] at hp
        obtain rfl | hp := hp
        · exact .inr mem_cons_self
        · exact (h.lost p hp).imp_right (hsub ·)
      · obtain ⟨hba, hb⟩ := not_or.mp (mem_cons.not.mp hb)
        rw [AList.lookup_insert_ne hba]
        exact hkept hb hba
      · obtain ⟨hba, hb⟩ := not_or.mp (mem_cons.not.mp hb)
        rw [AList.lookup_insert_ne hba]
        exact h.alive b hb
      · refine mem_cons.not.mpr (not_or.mpr ⟨?_, h.disjoint S hS b hb⟩)
        rintro rfl
        exact hix.notMem_of_lost hf h.derived hS (h.disjoint S hS) hall hb
      · simp only [length_cons]
        have := h.balance
        omega
    · simp only [hempty, if_false]
      refine { h with
        struck_lost := hstruck (List.Subset.refl _)
        kept := fun b hb => ?_
        alive := fun b hb => ?_ }
      · by_cases hba : b = a
        · subst hba
          simp only [AList.lookup_insert, hds₀, Option.map_some, beq_self_eq_true, Bool.true_and,
            hrest]
        · rw [AList.lookup_insert_ne hba]
          exact hkept hb hba
      · by_cases hba : b = a
        · subst hba
          rw [AList.lookup_insert]
          exact fun heq => hempty (Option.some.inj heq)
        · rw [AList.lookup_insert_ne hba]
          exact h.alive b hb

/-- The dependents of a lost fact, one after the other. -/
theorem Deleting.retireAll
    (hf : f ∉ ix.derivations) (h : Deleting records ix f done struck n st) (hg : g ∈ done)
    (as : List FactKey) :
    Deleting records ix f done (fun b p => struck b p || (as.contains b && p == g)) n
      (as.foldl (ProvenanceIndex.retire g) st) := by
  induction as generalizing st struck with
  | nil => simpa using h
  | cons a as ih =>
    have h₁ := h.retire hix hf hg a
    have h₂ := ih h₁
    have heq : (fun b p => (struck b p || (b == a && p == g)) || (as.contains b && p == g)) =
        fun b p => struck b p || ((a :: as).contains b && p == g) := by
      funext b p
      rw [contains_cons, Bool.or_assoc, Bool.and_or_distrib_right]
    exact heq ▸ h₂

omit hix in
/-- What has been struck out matters for recorded premises only. -/
theorem Deleting.congr {struck' : FactKey → FactKey → Bool}
    (h : Deleting records ix f done struck n st)
    (hsame : ∀ a, ∀ d ∈ ix.derivations.get a, ∀ p ∈ d.premises, struck' a p = struck a p)
    (hlost : ∀ a p, struck' a p = true → p = f ∨ p ∈ st.toDelete) :
    Deleting records ix f done struck' n st := by
  refine { h with struck_lost := hlost, kept := fun a ha => ?_ }
  rw [h.kept a ha]
  cases hlook : ix.derivations.lookup a with
  | none => rfl
  | some ds =>
    have hds : ix.derivations.get a = ds := by rw [HashMap.get, hlook]; rfl
    refine congrArg some (filter_congr fun d hd => ?_)
    rw [Bool.eq_iff_iff, all_eq_true, all_eq_true]
    exact forall₂_congr fun p hp => by rw [hsame a d (hds ▸ hd) p hp]

/-- **A fact is taken from the worklist**: afterwards no derivation uses it. -/
theorem Deleting.pop {rest : List FactKey} (hf : f ∉ ix.derivations)
    (h : Deleting records ix f done (fun _ p => done.contains p) n st)
    (hwork : st.worklist = g :: rest) (order : HashOrder) :
    Deleting records ix f (g :: done) (fun _ p => (g :: done).contains p) (n + 1)
      (ProvenanceIndex.pop order ix.dependents g rest st) := by
  have hpopped : Deleting records ix f (g :: done) (fun _ p => done.contains p) (n + 1)
      { st with worklist := rest } := by
    have hmem (p : FactKey) : p ∈ g :: done ∨ p ∈ rest ↔ p ∈ done ∨ p ∈ st.worklist := by
      rw [hwork, mem_cons, mem_cons]
      tauto
    have hlen : st.toDelete.length + 1 = rest.length + (n + 1) := by
      have hb := h.balance
      rw [hwork, length_cons] at hb
      omega
    exact { h with
      waiting := fun p hp => (hmem p).mpr (h.waiting p hp)
      lost := fun p hp => h.lost p ((hmem p).mp hp)
      balance := hlen }
  have hvisited := hpopped.retireAll hix hf mem_cons_self (order.perm (ix.dependents.get g))
  refine hvisited.congr (fun a d hd p hp => ?_) fun a p hp => ?_
  · -- A derivation that uses the fact is one of a dependent.
    rw [contains_cons, Bool.or_comm]
    by_cases hpg : p = g
    · subst hpg
      have hmem : a ∈ order.perm (ix.dependents.get p) :=
        (order.perm_perm _).mem_iff.mpr (hix.mem_dependents hd hp)
      simp [hmem]
    · have hne : (p == g) = false := beq_eq_false_iff_ne.mpr hpg
      simp only [hne, Bool.and_false, Bool.or_false]
  · rw [contains_iff_mem] at hp
    exact hvisited.lost p (.inl hp)

/-- The loop begins. -/
theorem Indexes.start :
    Deleting records ix f [] (fun _ p => [].contains p) 0 ⟨ix.derivations, [], [f]⟩ where
  waiting p hp := by simpa using hp
  lost p hp := by simpa using hp
  struck_lost a p hp := by simp at hp
  kept a _ := by
    have hall : (fun d : Derivation => d.premises.all fun p => !([] : List FactKey).contains p) =
        fun _ => true := by
      funext d
      simp
    cases ix.derivations.lookup a with
    | none => rfl
    | some ds => rw [hall, Option.map_some, filter_true]
  alive a _ := hix.lookup_ne_nil
  derived a ha := by simp at ha
  disjoint S _ a _ := not_mem_nil
  nodup := nodup_nil
  balance := rfl

/-- **The loop ends**, with every lost fact visited. -/
theorem Deleting.deleteLoop (hf : f ∉ ix.derivations) (order : HashOrder)
    {fuel : Nat}
    (h : Deleting records ix f done (fun _ p => done.contains p) n st)
    (hfuel : fuel + n = ix.derivations.keys.length + 1) :
    ∃ done st', ProvenanceIndex.deleteLoop order ix.dependents fuel st = some st' ∧
      st'.worklist = [] ∧ ∃ n, Deleting records ix f done (fun _ p => done.contains p) n st' := by
  induction fuel generalizing n done st with
  | zero =>
    -- Every pop but the first is that of a deleted fact.
    have hkeys : st.toDelete.length ≤ ix.derivations.keys.length :=
      (List.Nodup.subperm h.nodup fun a ha => h.derived a ha).length_le
    have hwork : st.worklist = [] := by
      have hb := h.balance
      exact length_eq_zero_iff.mp (by omega)
    exact ⟨done, st, by rw [ProvenanceIndex.deleteLoop, if_pos hwork], hwork, n, h⟩
  | succ fuel ih =>
    rw [ProvenanceIndex.deleteLoop]
    cases hwork : st.worklist with
    | nil => exact ⟨done, st, rfl, hwork, n, h⟩
    | cons g rest => exact ih (h.pop hix hf hwork order) (by omega)

end

/-! ## The phase -/

/-- Removing entries from a map. -/
theorem lookup_foldl_erase {β : Type} (m : HashMap FactKey β) (as : List FactKey) (a : FactKey) :
    (as.foldl (fun m a => m.erase a) m).lookup a = if a ∈ as then none else m.lookup a := by
  induction as generalizing m with
  | nil => rfl
  | cons b as ih =>
    rw [foldl_cons, ih]
    by_cases hb : a = b
    · subst hb
      simp
    · simp [hb, AList.lookup_erase_ne hb]

/-- The derivations that use neither the retracted fact nor a deleted one. -/
def remaining (f : FactKey) (deleted : List FactKey) (ds : List Derivation) : List Derivation :=
  ds.filter fun d => d.premises.all fun p => decide (p ≠ f ∧ p ∉ deleted)

/-- What `delete_phase` does, in terms of sets that support themselves. -/
theorem Indexes.deletePhase (hix : Indexes records ix) (hf : f ∉ ix.derivations)
    (order : HashOrder) : ∃ deleted ix', ix.deletePhase order f = some (deleted, ix') ∧
      (∀ a, ix'.getDerivations a =
        if a ∈ deleted then none else (ix.getDerivations a).map (remaining f deleted)) ∧
      (∀ a ∈ deleted, (ways records a).Nonempty) ∧
      (∀ S, SelfSupporting (ways records) {f} S → ∀ a ∈ S, a ∉ deleted) ∧
      SelfSupporting (ways records) {f} {a | (ways records a).Nonempty ∧ a ∉ deleted} := by
  obtain ⟨done, st, hloop, hwork, n, h⟩ := hix.start.deleteLoop hix hf order rfl
  have hdone (p : FactKey) : p ∈ done ↔ p = f ∨ p ∈ st.toDelete := by
    refine ⟨fun hp => h.lost p (.inl hp), fun hp => ?_⟩
    simpa [hwork] using h.waiting p hp
  have hkept (a : FactKey) (ha : a ∉ st.toDelete) :
      st.derivations.lookup a = (ix.derivations.lookup a).map (remaining f st.toDelete) := by
    have hpred : (fun d : Derivation => d.premises.all fun p => !done.contains p) =
        fun d => d.premises.all fun p => decide (p ≠ f ∧ p ∉ st.toDelete) := by
      funext d
      congr 1
      funext p
      rw [Bool.eq_iff_iff, Bool.not_eq_true', ← Bool.not_eq_true, contains_iff_mem, hdone,
        decide_eq_true_iff, not_or]
    rw [h.kept a ha, hpred]
    rfl
  refine ⟨st.toDelete, _, by rw [ProvenanceIndex.deletePhase, hloop]; rfl, fun a => ?_,
    fun a ha => hix.ways_nonempty.mpr (h.derived a ha), h.disjoint, ?_⟩
  · rw [getDerivations, lookup_foldl_erase]
    simp only [(order.perm_perm _).mem_iff]
    split
    · rfl
    · next ha => exact hkept a ha
  · rintro a ⟨hne, ha⟩
    obtain ⟨ds, hds⟩ := Option.isSome_iff_exists.mp
      (AList.lookup_isSome.mpr (hix.ways_nonempty.mp hne))
    have hrest : st.derivations.lookup a = some (remaining f st.toDelete ds) := by
      rw [hkept a ha, hds]
      rfl
    obtain ⟨d, hd⟩ := exists_mem_of_ne_nil _ fun hnil => h.alive a ha (hrest.trans (hnil ▸ rfl))
    obtain ⟨hd, hall⟩ := mem_filter.mp hd
    refine ⟨d.premises, hix.mem_ways.mpr ⟨d, by rwa [HashMap.get, hds], rfl⟩, fun p hp => ?_⟩
    obtain ⟨hpf, hpd⟩ := of_decide_eq_true (all_eq_true.mp hall p hp)
    by_cases hbase : (ways records p).Nonempty
    · exact .inl ⟨hbase, hpd⟩
    · exact .inr ⟨Set.not_nonempty_iff_eq_empty.mp hbase, hpf⟩

end

end ProvenanceIndex

open ProvenanceIndex in
/-- **Deletion.**  After any calls of `record`, `delete_phase` of a fact without derivations ends
and leaves the derivations of the other facts that use neither it nor a deleted fact.  It returns
the derived facts without a well-founded derivation from the other base facts just when every set of
facts that supports itself has such derivations. -/
theorem delete_phase_exact (order : HashOrder) {records : List Record} {f : FactKey}
    (hf : ways records f = ∅) :
    ∃ deleted ix', (recorded records).deletePhase order f = some (deleted, ix') ∧
      (∀ a, ix'.getDerivations a = if a ∈ deleted then none
        else ((recorded records).getDerivations a).map (remaining f deleted)) ∧
      ((∀ a, a ∈ deleted ↔ (ways records a).Nonempty ∧ ¬ Derives (ways records) {f} a) ↔
        Grounded (ways records) {f}) := by
  have hix := indexes_recorded records
  have hbase : f ∉ (recorded records).derivations := fun hmem =>
    (hix.ways_nonempty.mpr hmem).ne_empty hf
  obtain ⟨deleted, ix', hphase, hkept, hderived, hdisjoint, hrest⟩ := hix.deletePhase hbase order
  exact ⟨deleted, ix', hphase, hkept, unsupported_eq_iff hderived hdisjoint hrest⟩

open ProvenanceIndex in
/-- Premises of lower rank than what they derive make no cycle. -/
theorem ProvenanceIndex.grounded_of_rank {records : List Record} (rank : FactKey → Nat)
    (hrank : ∀ r ∈ records, ∀ p ∈ r.premises, rank p < rank r.derived) (lost : Set FactKey) :
    Grounded (ways records) lost := by
  intro S hS a ha
  refine hS.derives (Subrelation.wf ?_ (measure rank).wf) ha
  rintro p _ ⟨_, ⟨r, hr, rfl, rfl⟩, hp⟩
  exact hrank r hr p hp

/-- A path from 1 over 2 to 3. -/
def pathRecords : List ProvenanceIndex.Record :=
  [⟨⟨"reachable", [.number 1, .number 2]⟩, 0, [⟨"edge", [.number 1, .number 2]⟩]⟩,
    ⟨⟨"reachable", [.number 2, .number 3]⟩, 0, [⟨"edge", [.number 2, .number 3]⟩]⟩,
    ⟨⟨"reachable", [.number 1, .number 3]⟩, 1,
      [⟨"reachable", [.number 1, .number 2]⟩, ⟨"edge", [.number 2, .number 3]⟩]⟩]

open ProvenanceIndex in
theorem delete_phase_exact_path :
    ∃ deleted ix', (recorded pathRecords).deletePhase .insertion ⟨"edge", [.number 1, .number 2]⟩ =
        some (deleted, ix') ∧
      ∀ a, a ∈ deleted ↔ (ways pathRecords a).Nonempty ∧
        ¬ Derives (ways pathRecords) {⟨"edge", [.number 1, .number 2]⟩} a := by
  have hbase : ways pathRecords ⟨"edge", [.number 1, .number 2]⟩ = ∅ := by
    have hno : ∀ r ∈ pathRecords, r.derived ≠ ⟨"edge", [.number 1, .number 2]⟩ := by decide
    exact Set.eq_empty_of_forall_notMem fun ps ⟨r, hr, hder, _⟩ => hno r hr hder
  obtain ⟨deleted, ix', hphase, -, hiff⟩ := delete_phase_exact .insertion hbase
  -- the longer paths are derived from the shorter ones
  refine ⟨deleted, ix', hphase, hiff.mpr (grounded_of_rank (fun a =>
    if a.relation = "edge" then 0 else
      if a.tuple = [.number 1, .number 3] then 2 else 1) (by decide) _)⟩

/-- `a` from the base fact `f`, and `a` and `b` from each other. -/
def cycleRecords : List ProvenanceIndex.Record :=
  [⟨⟨"a", []⟩, 0, [⟨"f", []⟩]⟩, ⟨⟨"a", []⟩, 1, [⟨"b", []⟩]⟩, ⟨⟨"b", []⟩, 2, [⟨"a", []⟩]⟩]

open ProvenanceIndex in
/-- **A cycle outlives its only base fact**: when `f` is retracted nothing is deleted, although
neither `a` nor `b` has a derivation any more. -/
theorem delete_phase_keeps_cycle :
    (∀ a, (ways cycleRecords a).Nonempty → Derives (ways cycleRecords) ∅ a) ∧
      ways cycleRecords ⟨"f", []⟩ = ∅ ∧
      (∃ ix', (recorded cycleRecords).deletePhase .insertion ⟨"f", []⟩ = some ([], ix')) ∧
      ∀ a, (ways cycleRecords a).Nonempty → ¬ Derives (ways cycleRecords) {⟨"f", []⟩} a := by
  have hbase : ways cycleRecords ⟨"f", []⟩ = ∅ := by
    have hno : ∀ r ∈ cycleRecords, r.derived ≠ ⟨"f", []⟩ := by decide
    exact Set.eq_empty_of_forall_notMem fun ps ⟨r, hr, hder, _⟩ => hno r hr hder
  have hf : Derives (ways cycleRecords) ∅ ⟨"f", []⟩ := .base ⟨hbase, Set.notMem_empty _⟩
  have ha : Derives (ways cycleRecords) ∅ ⟨"a", []⟩ :=
    .step ⟨⟨⟨"a", []⟩, 0, [⟨"f", []⟩]⟩, by decide, rfl, rfl⟩ (by simpa using hf)
  have hb : Derives (ways cycleRecords) ∅ ⟨"b", []⟩ :=
    .step ⟨⟨⟨"b", []⟩, 2, [⟨"a", []⟩]⟩, by decide, rfl, rfl⟩ (by simpa using ha)
  refine ⟨?_, hbase, ⟨_, rfl⟩, ?_⟩
  · rintro a ⟨_, r, hr, rfl, -⟩
    have hcases : r.derived = ⟨"a", []⟩ ∨ r.derived = ⟨"b", []⟩ := by
      revert r
      decide
    obtain h | h := hcases <;> rw [h]
    · exact ha
    · exact hb
  · -- Every derivation has a premise that is `f` or derived itself.
    have hpremise : ∀ r ∈ cycleRecords, ∃ p ∈ r.premises,
        p = ⟨"f", []⟩ ∨ ∃ r' ∈ cycleRecords, r'.derived = p := by decide
    have hleft : ∀ a, Derives (ways cycleRecords) {⟨"f", []⟩} a →
        IsLeft (ways cycleRecords) {⟨"f", []⟩} a := by
      intro a hder
      induction hder with
      | base h => exact h
      | step h _ ih =>
        obtain ⟨r, hr, rfl, rfl⟩ := h
        obtain ⟨p, hp, hpf | ⟨r', hr', hder⟩⟩ := hpremise r hr
        · exact absurd hpf (ih p hp).2
        · exact absurd (ih p hp).1 (Set.Nonempty.ne_empty ⟨_, r', hr', hder, rfl⟩)
    exact fun a hne hder => hne.ne_empty (hleft a hder).1

end Mangle

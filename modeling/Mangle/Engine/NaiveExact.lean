import Mathlib.Data.Set.Card
import Mangle.Engine.Naive

/-!
# Engine/NaiveExact — what the naive engine leaves

Positive programs, their least model, and what `Naive::eval` leaves of it.

* `naive_exact_iff` — **the engine returns on every positive program**; and where every rule has a
  premise with a match among the given facts, it leaves the least model exactly if the given facts
  are closed under the rules;
* `naive_misses_consequence` — one rule over one fact derives nothing.
-/

namespace Mangle.Naive

open Machinery List

section Exact

variable {κ : Type} {tables : Tables κ}

/-! ## The least model -/

mutual

/-- The instance of a term under an assignment. -/
def BaseTerm.ground (σ : Nat → κ) : BaseTerm κ → BaseTerm κ
  | .const c => .const c
  | .var v => .const (σ v)
  | .applyFn f args => .applyFn f (BaseTerm.groundList σ args)

/-- The instance of arguments. -/
def BaseTerm.groundList (σ : Nat → κ) : List (BaseTerm κ) → List (BaseTerm κ)
  | [] => []
  | a :: as => a.ground σ :: BaseTerm.groundList σ as

end

/-- The instance of an atom. -/
def Atom.ground (σ : Nat → κ) (a : Atom κ) : Atom κ := ⟨a.sym, BaseTerm.groundList σ a.args⟩

/-- The facts are closed under a positive rule. -/
def Rule.Closes (rule : Rule κ) (M : Set (Atom κ)) : Prop :=
  ∀ σ, (∀ query, .atom query ∈ rule.premises → query.ground σ ∈ M) → rule.head.ground σ ∈ M

/-- The least set of facts that includes the given ones and is closed under the rules. -/
def leastModel (rules : List (Rule κ)) (base : Set (Atom κ)) : Set (Atom κ) :=
  ⋂₀ {M | base ⊆ M ∧ ∀ rule ∈ rules, rule.Closes M}

/-- The facts of tables. -/
def factsOf (tables : Tables κ) : Set (Atom κ) := {a | a ∈ tables.get a.sym}

theorem base_subset_leastModel (rules : List (Rule κ)) (base : Set (Atom κ)) :
    base ⊆ leastModel rules base := fun _ ha _ hM => hM.1 ha

variable {rules : List (Rule κ)}

theorem closes_leastModel {base : Set (Atom κ)} {rule : Rule κ}
    (hrule : rule ∈ rules) : rule.Closes (leastModel rules base) :=
  fun σ hbody M hM => hM.2 rule hrule σ fun query hquery => hbody query hquery M hM

/-! ## Positive programs -/

/-- A variable or a constant. -/
def BaseTerm.Flat : BaseTerm κ → Prop
  | .const _ | .var _ => True
  | .applyFn _ _ => False

/-- An atom over variables and constants, with as many arguments as its predicate, and a table. -/
structure Atom.Fits (arity : Nat → Nat) (tables : Tables κ) (a : Atom κ) : Prop where
  table : a.sym ∈ tables
  length : a.args.length = arity a.sym
  flat : ∀ t ∈ a.args, t.Flat

/-- Facts and positive rules over tables. -/
structure WellFormed (arity : Nat → Nat) (rules : List (Rule κ)) (tables : Tables κ) : Prop where
  heads : ∀ rule ∈ rules, rule.head.Fits arity tables
  premises : ∀ rule ∈ rules, ∀ premise ∈ rule.premises,
    ∃ query, premise = .atom query ∧ query.Fits arity tables
  facts : ∀ rule ∈ rules, rule.premises = [] → ∀ t ∈ rule.head.args, ∃ c, t = .const c
  tables : ∀ sym, ∀ fact ∈ tables.get sym, fact.sym = sym ∧ fact.args.length = arity sym

/-- The initial facts and those of the program. -/
def givenFacts (rules : List (Rule κ)) (tables : Tables κ) : Set (Atom κ) :=
  factsOf tables ∪ {a | ∃ rule ∈ rules, rule.premises = [] ∧ rule.head = a}

theorem groundList_of_const (σ : Nat → κ) {args : List (BaseTerm κ)}
    (h : ∀ t ∈ args, ∃ c, t = .const c) : BaseTerm.groundList σ args = args := by
  induction args with
  | nil => rfl
  | cons t args ih =>
    rw [forall_mem_cons] at h
    obtain ⟨⟨c, rfl⟩, h⟩ := h
    rw [BaseTerm.groundList, BaseTerm.ground, ih h]

variable {arity : Nat → Nat}

/-- A set that is closed under the rules holds the facts of the program. -/
theorem givenFacts_subset (hwf : WellFormed arity rules tables) [Nonempty κ] {M : Set (Atom κ)}
    (hbase : factsOf tables ⊆ M) (hclosed : ∀ rule ∈ rules, rule.Closes M) :
    givenFacts rules tables ⊆ M := by
  rintro a (ha | ⟨rule, hrule, hnil, rfl⟩)
  · exact hbase ha
  · have σ : Nat → κ := fun _ => Classical.arbitrary κ
    have hhead := hclosed rule hrule σ (by simp [hnil])
    rwa [Atom.ground, groundList_of_const σ (hwf.facts rule hrule hnil)] at hhead

/-- The heads that are not in the tables. -/
def missing (rules : List (Rule κ)) (tables : Tables κ) : Set (Atom κ) :=
  {a | ∃ rule ∈ rules, rule.head = a} \ factsOf tables

theorem finite_missing (rules : List (Rule κ)) (tables : Tables κ) :
    (missing rules tables).Finite := by
  have hheads : {a | ∃ rule ∈ rules, rule.head = a} = {a | a ∈ rules.map Rule.head} := by
    ext a
    simp
  rw [missing, hheads]
  exact (finite_toSet _).sdiff

/-! ## What the engine does with a rule -/

section Run

variable [BEq κ]

/-- A premise of the rule has a match among the facts. -/
def Rule.Matched (rule : Rule κ) (M : Set (Atom κ)) : Prop :=
  ∃ query, .atom query ∈ rule.premises ∧ ∃ fact ∈ M, fact.sym = query.sym ∧
    fact.matches query.args = true

/-- Whether a table has a match for the query. -/
def hasMatch (tables : Tables κ) (query : Atom κ) : Bool :=
  (tables.get query.sym).any (·.matches query.args)

theorem hasMatch_iff (hwf : WellFormed arity rules tables) (query : Atom κ) :
    hasMatch tables query = true ↔
      ∃ fact ∈ factsOf tables, fact.sym = query.sym ∧ fact.matches query.args = true := by
  rw [hasMatch, any_eq_true]
  constructor
  · rintro ⟨fact, hfact, hmatch⟩
    obtain ⟨hsym, -⟩ := hwf.tables _ fact hfact
    have hmem : fact ∈ tables.get fact.sym := hsym ▸ hfact
    exact ⟨fact, hmem, hsym, hmatch⟩
  · rintro ⟨fact, hfact, hsym, hmatch⟩
    exact ⟨fact, hsym ▸ hfact, hmatch⟩

/-- The tables with a fact, if it is new. -/
def insertFact (tables : Tables κ) (fact : Atom κ) : Tables κ :=
  if (tables.get fact.sym).contains fact then tables else tables.modify fact.sym (· ++ [fact])

variable {fact : Atom κ}

theorem add_eq (h : fact.sym ∈ tables) :
    add tables fact =
      .ok (insertFact tables fact, !(tables.get fact.sym).contains fact) := by
  obtain ⟨table, htable⟩ := Option.isSome_iff_exists.mp (AList.lookup_isSome.mpr h)
  have hget : tables.get fact.sym = table := by simp [HashMap.get, htable]
  rw [add, htable, insertFact, hget]
  dsimp only
  split
  next hnew => rw [hnew]; rfl
  next hnew =>
    rw [HashMap.modify, hget]
    simp at hnew
    simp [hnew]

theorem mem_insertFact (h : fact.sym ∈ tables) (sym : Nat) :
    sym ∈ insertFact tables fact ↔ sym ∈ tables := by
  rw [insertFact]
  split
  · exact Iff.rfl
  · rw [HashMap.mem_modify]
    exact ⟨fun hor => hor.elim (· ▸ h) id, .inr⟩

variable [LawfulBEq κ]

theorem receive_matched {query args : List (BaseTerm κ)} (hflat : ∀ t ∈ query, t.Flat)
    (hlen : args.length = query.length)
    (h : (args.zip query).all (fun p => matchesArg p.1 p.2) = true) (s : Subst κ) :
    ∃ s', receive query args s = (s', .matched) := by
  induction query generalizing args s with
  | nil => exact ⟨s, rfl⟩
  | cons q query ih =>
    obtain ⟨t, args, rfl⟩ := exists_cons_of_length_pos (by rw [hlen]; simp)
    rw [forall_mem_cons] at hflat
    rw [zip_cons_cons, all_cons, Bool.and_eq_true] at h
    rw [length_cons, length_cons, Nat.add_right_cancel_iff] at hlen
    cases q with
    | var v => exact ih hflat.2 hlen h.2 _
    | const c =>
      have heq : t = .const c := LawfulBEq.eq_of_beq h.1
      rw [receive, heq, if_pos (beq_self_eq_true _)]
      exact ih hflat.2 hlen h.2 s
    | applyFn f as => exact hflat.1.elim

/-- **The loop over a table**: it finds a fact exactly if there is a match, and does nothing
otherwise. -/
theorem scan_eq {query : List (BaseTerm κ)} (hflat : ∀ t ∈ query, t.Flat) {facts : List (Atom κ)}
    (hlen : ∀ fact ∈ facts, fact.args.length = query.length) (s : Subst κ) (found : Bool) :
    ∃ s', scan query facts (s, found) = .ok (s', found || facts.any (·.matches query)) ∧
      (facts.any (·.matches query) = false → s' = s) := by
  induction facts generalizing s found with
  | nil => exact ⟨s, by simp [scan], fun _ => rfl⟩
  | cons fact facts ih =>
    rw [forall_mem_cons] at hlen
    rw [scan, any_cons]
    split
    next hmatch =>
      obtain ⟨s₁, h₁⟩ := receive_matched hflat hlen.1 hmatch s
      obtain ⟨s₂, h₂, -⟩ := ih hlen.2 s₁ true
      refine ⟨s₂, ?_, by simp [hmatch]⟩
      dsimp only
      rw [h₁]
      dsimp only
      rw [h₂, hmatch]
      simp
    next hmatch =>
      obtain ⟨s₁, h₁, hs₁⟩ := ih hlen.2 s found
      have hfalse : fact.matches query = false := by simpa using hmatch
      exact ⟨s₁, by rw [h₁, hfalse, Bool.false_or], by simpa [hfalse] using hs₁⟩

theorem mem_get_insertFact {a : Atom κ} {sym : Nat} :
    a ∈ (insertFact tables fact).get sym ↔ a ∈ tables.get sym ∨ sym = fact.sym ∧ a = fact := by
  rw [insertFact]
  split
  next hold =>
    rw [contains_iff_mem] at hold
    constructor
    · exact .inl
    · rintro (h | ⟨rfl, rfl⟩)
      · exact h
      · exact hold
  · rw [HashMap.get_modify]
    split
    next heq =>
      subst heq
      simp
    next hne => simp [hne]

theorem factsOf_insertFact (tables : Tables κ) (fact : Atom κ) :
    factsOf (insertFact tables fact) = factsOf tables ∪ {fact} := by
  ext a
  simp only [factsOf, Set.mem_ofPred_eq, mem_get_insertFact, Set.mem_union, Set.mem_singleton_iff]
  exact or_congr_right ⟨And.right, fun h => ⟨by rw [h], h⟩⟩

variable (hwf : WellFormed arity rules tables)

include hwf

/-- **The loop over the premises**: all pass exactly if none has a match, and then nothing is
entered in the substitution. -/
theorem evalPremises_eq {premises : List (Premise κ)}
    (hfits : ∀ premise ∈ premises, ∃ query, premise = .atom query ∧ query.Fits arity tables) :
    ∃ ok s, evalPremises tables premises ∅ = .ok (ok, s) ∧ (ok = true → s = ∅) ∧
      (ok = true ↔ ∀ query, .atom query ∈ premises → hasMatch tables query = false) := by
  induction premises with
  | nil => exact ⟨true, ∅, rfl, fun _ => rfl, by simp⟩
  | cons premise premises ih =>
    rw [forall_mem_cons] at hfits
    obtain ⟨⟨query, rfl, hquery⟩, hfits⟩ := hfits
    obtain ⟨s₁, h₁, hs₁⟩ := scan_eq hquery.flat
      (fun fact hfact => (hwf.tables _ fact hfact).2.trans hquery.length.symm) ∅ false
    have hatom : evalPremise tables ∅ (.atom query) = .ok (!hasMatch tables query, s₁) := by
      rw [evalPremise, evalAtom, Atom.applySubst_empty, h₁, ok_bind]
      rfl
    rw [evalPremises, hatom, ok_bind]
    dsimp only
    cases hany : hasMatch tables query with
    | true => exact ⟨false, s₁, rfl, nofun, by simp [hany]⟩
    | false =>
      obtain rfl := hs₁ hany
      obtain ⟨ok, s, h, hs, hok⟩ := ih hfits
      exact ⟨ok, s, h, hs, by simp [hok, hany]⟩

/-- A head in the tables keeps the program well formed. -/
theorem WellFormed.insertFact (hfact : fact.Fits arity tables) :
    WellFormed arity rules (insertFact tables fact) := by
  have hfits {a : Atom κ} (ha : a.Fits arity tables) :
      a.Fits arity (Naive.insertFact tables fact) :=
    ⟨(mem_insertFact hfact.table _).mpr ha.table, ha.length, ha.flat⟩
  refine ⟨fun rule hrule => hfits (hwf.heads rule hrule), fun rule hrule premise hpremise => ?_,
    hwf.facts, fun sym a ha => ?_⟩
  · obtain ⟨query, rfl, hquery⟩ := hwf.premises rule hrule premise hpremise
    exact ⟨query, rfl, hfits hquery⟩
  · obtain ha | ⟨rfl, rfl⟩ := mem_get_insertFact.mp ha
    · exact hwf.tables sym a ha
    · exact ⟨rfl, hfact.length⟩

/-- **What the engine does with a rule**: it adds the head of a rule without a match. -/
theorem evalRule_eq {rule : Rule κ} (hrule : rule ∈ rules) (added : Bool) :
    (evalRule (tables, added) rule = .ok (tables, added) ∧
        (rule.premises = [] ∨ rule.Matched (factsOf tables))) ∨
      evalRule (tables, added) rule =
          .ok (insertFact tables rule.head, !(tables.get rule.head.sym).contains rule.head) ∧
        rule.premises ≠ [] ∧ ¬ rule.Matched (factsOf tables) := by
  unfold evalRule
  split
  next hempty => exact .inl ⟨rfl, .inl (List.isEmpty_iff.mp hempty)⟩
  next hne =>
    obtain ⟨ok, s, h, hs, hok⟩ := evalPremises_eq hwf (hwf.premises rule hrule)
    have hmatched : ok = true ↔ ¬ rule.Matched (factsOf tables) := by
      rw [hok]
      constructor
      · rintro hnone ⟨query, hquery, hfact⟩
        have hany := (hasMatch_iff hwf query).mpr hfact
        rw [hnone query hquery] at hany
        cases hany
      · intro hnone query hquery
        by_contra hany
        rw [Bool.not_eq_false] at hany
        exact hnone ⟨query, hquery, (hasMatch_iff hwf query).mp hany⟩
    rw [h, ok_bind]
    dsimp only
    cases ok with
    | true =>
      obtain rfl := hs rfl
      refine .inr ⟨?_, fun hnil => hne (by rw [hnil]; rfl), hmatched.mp rfl⟩
      rw [if_pos rfl, Atom.applySubst_empty, add_eq (hwf.heads rule hrule).table]
    | false =>
      refine .inl ⟨rfl, .inr ?_⟩
      by_contra hnone
      cases hmatched.mpr hnone

/-! ## Rounds -/

/-- **What a round does**: the tables grow, and if it says that it added something, then the head of
some rule is new. -/
theorem foldlM_evalRule {todo : List (Rule κ)} (hsub : todo ⊆ rules) (added : Bool) :
    ∃ tables' added', todo.foldlM evalRule (tables, added) = .ok (tables', added') ∧
      WellFormed arity rules tables' ∧ factsOf tables ⊆ factsOf tables' ∧
      (added' = true → added = true ∨ ∃ rule ∈ todo, rule.head ∈ factsOf tables' \ factsOf tables) ∧
      ((∀ rule ∈ todo, rule.premises = [] ∨ rule.Matched (factsOf tables)) →
        tables' = tables ∧ added' = added) := by
  induction todo generalizing tables added with
  | nil => exact ⟨tables, added, rfl, hwf, subset_rfl, .inl, fun _ => ⟨rfl, rfl⟩⟩
  | cons rule todo ih =>
    rw [cons_subset] at hsub
    rw [foldlM_cons]
    obtain ⟨hrule, hmatched⟩ | ⟨hrule, hne, hnone⟩ := evalRule_eq hwf hsub.1 added
    · obtain ⟨tables', added', h, hwf', hgrow, hadded, hsame⟩ := ih hwf hsub.2 added
      refine ⟨tables', added', by rw [hrule, ok_bind, h], hwf', hgrow,
        fun htrue => ?_, fun hall => ?_⟩
      · obtain h | ⟨rule', hrule', hnew⟩ := hadded htrue
        · exact .inl h
        · exact .inr ⟨rule', mem_cons_of_mem _ hrule', hnew⟩
      · exact hsame fun rule' hrule' => hall rule' (mem_cons_of_mem _ hrule')
    · obtain ⟨tables', added', h, hwf', hgrow, hadded, -⟩ :=
        ih (hwf.insertFact (hwf.heads rule hsub.1)) hsub.2
          (!(tables.get rule.head.sym).contains rule.head)
      rw [factsOf_insertFact, Set.union_subset_iff] at hgrow
      refine ⟨tables', added', by rw [hrule, ok_bind, h], hwf', hgrow.1,
        fun htrue => ?_, fun hall => ?_⟩
      · refine .inr ?_
        obtain hnew | ⟨rule', hrule', hin, hout⟩ := hadded htrue
        · rw [Bool.not_eq_true', contains_eq_mem, decide_eq_false_iff_not] at hnew
          exact ⟨rule, mem_cons_self, hgrow.2 rfl, hnew⟩
        · refine ⟨rule', mem_cons_of_mem _ hrule', hin, fun hold => hout ?_⟩
          rw [factsOf_insertFact]
          exact .inl hold
      · exact absurd (hall rule mem_cons_self) (by simp [hne, hnone])

/-- **The loop ends**: every round but the last adds a head of the program. -/
theorem evalLoop_returns :
    ∃ out n, (∀ fuel, n ≤ fuel → evalLoop rules fuel tables = .ok out) ∧
      ((∀ rule ∈ rules, rule.premises = [] ∨ rule.Matched (factsOf tables)) → out = tables) := by
  induction hcard : (missing rules tables).ncard using Nat.strong_induction_on
    generalizing tables with
  | _ k ih =>
    obtain ⟨tables', added, hround, hwf', hgrow, hadded, hsame⟩ :=
      foldlM_evalRule hwf (List.Subset.refl rules) false
    have hstep (fuel : Nat) : evalLoop rules (fuel + 1) tables =
        if added then evalLoop rules fuel tables' else .ok tables' := by
      rw [evalLoop, round, hround, ok_bind]
      rfl
    cases added with
    | false =>
      refine ⟨tables', 1, fun fuel hfuel => ?_, fun hall => (hsame hall).1⟩
      obtain ⟨fuel, rfl⟩ : ∃ k, fuel = k + 1 := ⟨fuel - 1, by omega⟩
      rw [hstep, if_neg (by simp)]
    | true =>
      obtain hfalse | ⟨rule, hrule, hin, hout⟩ := hadded rfl
      · cases hfalse
      have hlt : (missing rules tables').ncard < k := by
        rw [← hcard]
        refine Set.ncard_lt_ncard ⟨Set.sdiff_subset_sdiff_right hgrow, fun hsub => ?_⟩
          (finite_missing rules tables)
        exact (hsub ⟨⟨rule, hrule, rfl⟩, hout⟩).2 hin
      obtain ⟨out, n, hout', -⟩ := ih _ hlt hwf' rfl
      refine ⟨out, n + 1, fun fuel hfuel => ?_, fun hall => ?_⟩
      · obtain ⟨fuel, rfl⟩ : ∃ k, fuel = k + 1 := ⟨fuel - 1, by omega⟩
        rw [hstep, if_pos rfl]
        exact hout' fuel (by omega)
      · cases (hsame hall).2

/-- The facts of the program are added to the tables. -/
theorem addFacts_eq {todo : List (Rule κ)} (hsub : todo ⊆ rules) :
    ∃ tables', addFacts todo tables = .ok tables' ∧ WellFormed arity rules tables' ∧
      factsOf tables' = givenFacts todo tables := by
  unfold addFacts
  induction todo generalizing tables with
  | nil => exact ⟨tables, rfl, hwf, by simp [givenFacts]⟩
  | cons rule todo ih =>
    rw [cons_subset] at hsub
    rw [foldlM_cons]
    split
    next hempty =>
      rw [add_eq (hwf.heads rule hsub.1).table, ok_bind]
      obtain ⟨tables', h, hwf', hfacts⟩ := ih (hwf.insertFact (hwf.heads rule hsub.1)) hsub.2
      refine ⟨tables', h, hwf', ?_⟩
      rw [hfacts, givenFacts, givenFacts, factsOf_insertFact]
      ext a
      simp only [Set.mem_union, Set.mem_singleton_iff, Set.mem_ofPred_eq, exists_mem_cons_iff,
        List.isEmpty_iff.mp hempty, true_and, or_assoc, eq_comm]
    next hempty =>
      obtain ⟨tables', h, hwf', hfacts⟩ := ih hwf hsub.2
      refine ⟨tables', h, hwf', ?_⟩
      rw [hfacts, givenFacts, givenFacts]
      ext a
      have hne : rule.premises ≠ [] := fun hnil => hempty (by rw [hnil]; rfl)
      simp only [Set.mem_union, Set.mem_ofPred_eq, exists_mem_cons_iff, hne, false_and, false_or]

end Run

/-! ## The least model -/

/-- `eval` returns the tables, after some number of rounds. -/
def Returns [BEq κ] (p : Program κ) (tables out : Tables κ) : Prop :=
  ∃ n, ∀ fuel, n ≤ fuel → eval fuel p tables = .ok out

/-- The tables of the intensional predicates hold the least model over the initial tables. -/
def HoldsLeastModel (p : Program κ) (tables out : Tables κ) : Prop :=
  ∀ e ∈ p, ∀ a : Atom κ, a.sym = e.1 →
    (a ∈ out.get e.1 ↔ a ∈ leastModel p.rules (factsOf tables))

/-- The given facts are the least model exactly if they are closed under the rules. -/
theorem holdsLeastModel_iff [Nonempty κ] {p : Program κ} {out : Tables κ}
    (hkeys : ∀ e ∈ p, ∀ rule ∈ e.2, rule.head.sym = e.1) (hwf : WellFormed arity p.rules tables)
    (hout : factsOf out = givenFacts p.rules tables) :
    HoldsLeastModel p tables out ↔ ∀ rule ∈ p.rules, rule.Closes (givenFacts p.rules tables) := by
  have hgiven : givenFacts p.rules tables ⊆ leastModel p.rules (factsOf tables) :=
    givenFacts_subset hwf (base_subset_leastModel _ _) fun _ => closes_leastModel
  have hmem (a : Atom κ) : a ∈ out.get a.sym ↔ a ∈ givenFacts p.rules tables := by
    rw [← hout]
    exact Iff.rfl
  constructor
  · intro hexact rule hrule σ hbody
    obtain ⟨e, he, hrule'⟩ := mem_flatMap.mp hrule
    have hhead := closes_leastModel hrule σ fun query hquery => hgiven (hbody query hquery)
    have hsym : (rule.head.ground σ).sym = e.1 := hkeys e he rule hrule'
    rw [← hexact e he _ hsym, ← hsym, hmem] at hhead
    exact hhead
  · intro hclosed e _ a hsym
    rw [← hsym, hmem]
    exact ⟨fun ha => hgiven ha, fun ha => ha _ ⟨Set.subset_union_left, hclosed⟩⟩

/-- **The engine returns on every positive program**; where every rule has a premise with a match
among the given facts, it leaves the least model exactly if the given facts are closed under the
rules. -/
theorem naive_exact_iff [BEq κ] [LawfulBEq κ] [Nonempty κ] {arity : Nat → Nat} {p : Program κ}
    {tables : Tables κ} (hkeys : ∀ e ∈ p, ∀ rule ∈ e.2, rule.head.sym = e.1)
    (hwf : WellFormed arity p.rules tables) :
    ∃ out, Returns p tables out ∧
      ((∀ rule ∈ p.rules, rule.premises ≠ [] → rule.Matched (givenFacts p.rules tables)) →
        (HoldsLeastModel p tables out ↔
          ∀ rule ∈ p.rules, rule.Closes (givenFacts p.rules tables))) := by
  obtain ⟨tables', hadd, hwf', hfacts⟩ := addFacts_eq hwf (List.Subset.refl p.rules)
  obtain ⟨out, n, hloop, hsame⟩ := evalLoop_returns hwf'
  refine ⟨out, ⟨n, fun fuel hfuel => ?_⟩, fun hmatched => ?_⟩
  · rw [eval, hadd, ok_bind]
    exact hloop fuel hfuel
  · have hout : out = tables' := hsame fun rule hrule => by
      rw [hfacts]
      exact or_iff_not_imp_left.mpr (hmatched rule hrule)
    rw [← hout] at hfacts
    exact holdsLeastModel_iff hkeys hwf hfacts

end Exact

/-- The rule `reach(X) :- edge(X).` -/
def copyRule : Rule Nat := ⟨⟨1, [.var 0]⟩, [.atom ⟨0, [.var 0]⟩]⟩

/-- The program of that rule. -/
def copyProgram : Program Nat := [(1, [copyRule])]

/-- The tables of the fact `edge(7)` and of facts of `reach`. -/
def edgeTables (reach : List (Atom Nat)) : Tables Nat :=
  AList.insert 1 reach (AList.insert 0 [⟨0, [.const 7]⟩] ∅)

theorem mem_get_edgeTables {reach : List (Atom Nat)} {sym : Nat} {a : Atom Nat}
    (h : a ∈ (edgeTables reach).get sym) :
    (sym = 1 ∧ a ∈ reach) ∨ (sym = 0 ∧ a = ⟨0, [.const 7]⟩) := by
  rw [edgeTables, HashMap.get_insert, HashMap.get_insert] at h
  split at h
  next hsym => exact .inl ⟨hsym, h⟩
  · split at h
    next hsym => exact .inr ⟨hsym, mem_singleton.mp h⟩
    · simp at h

theorem edge_mem_factsOf (reach : List (Atom Nat)) :
    (⟨0, [.const 7]⟩ : Atom Nat) ∈ factsOf (edgeTables reach) := by
  change _ ∈ (edgeTables reach).get 0
  rw [edgeTables, HashMap.get_insert, HashMap.get_insert]
  exact mem_cons_self

theorem wellFormed_copyProgram (reach : List (Atom Nat))
    (hreach : ∀ a ∈ reach, a.sym = 1 ∧ a.args.length = 1) :
    WellFormed (fun _ => 1) copyProgram.rules (edgeTables reach) := by
  have hrules : copyProgram.rules = [copyRule] := rfl
  have hfits (sym : Nat) (h : sym ∈ edgeTables reach) :
      Atom.Fits (fun _ => 1) (edgeTables reach) ⟨sym, [.var 0]⟩ :=
    ⟨h, rfl, by simp [BaseTerm.Flat]⟩
  refine ⟨?_, ?_, ?_, fun sym a ha => ?_⟩
  · simpa [hrules, copyRule] using hfits 1 (by rw [edgeTables, AList.mem_insert]; exact .inl rfl)
  · simpa [hrules, copyRule] using hfits 0
      (by rw [edgeTables, AList.mem_insert, AList.mem_insert]; exact .inr (.inl rfl))
  · simp [hrules, copyRule]
  · obtain ⟨rfl, ha⟩ | ⟨rfl, rfl⟩ := mem_get_edgeTables ha
    · exact hreach a ha
    · exact ⟨rfl, rfl⟩

/-- What the rule derives is there already. -/
theorem naive_exact_copied :
    ∃ out, Returns copyProgram (edgeTables [⟨1, [.const 7]⟩]) out ∧
      HoldsLeastModel copyProgram (edgeTables [⟨1, [.const 7]⟩]) out := by
  have hkeys : ∀ e ∈ copyProgram, ∀ rule ∈ e.2, rule.head.sym = e.1 := by
    simp [copyProgram, copyRule]
  have hrules : ∀ rule ∈ copyProgram.rules, rule = copyRule := fun rule => mem_singleton.mp
  obtain ⟨out, hreturns, hexact⟩ :=
    naive_exact_iff hkeys (wellFormed_copyProgram [⟨1, [.const 7]⟩] (by simp))
  refine ⟨out, hreturns, (hexact fun rule hrule _ => ?_).mpr fun rule hrule σ hbody => ?_⟩
  · rw [hrules rule hrule]
    exact ⟨⟨0, [.var 0]⟩, mem_cons_self, _, .inl (edge_mem_factsOf _), rfl, rfl⟩
  · obtain rfl := hrules rule hrule
    have hedge := hbody ⟨0, [.var 0]⟩ mem_cons_self
    obtain hedge | ⟨rule, hrule, hnil, -⟩ := hedge
    · obtain ⟨hsym, -⟩ | ⟨-, heq⟩ := mem_get_edgeTables hedge
      · cases hsym
      · have hσ : σ 0 = 7 := by
          simpa [Atom.ground, BaseTerm.groundList, BaseTerm.ground] using heq
        refine .inl ?_
        rw [copyRule, Atom.ground, BaseTerm.groundList, BaseTerm.groundList, BaseTerm.ground, hσ]
        change _ ∈ (edgeTables _).get 1
        rw [edgeTables, HashMap.get_insert, if_pos rfl]
        exact mem_cons_self
    · rw [hrules rule hrule] at hnil
      cases hnil

/-- **One rule over one fact derives nothing.** -/
theorem naive_misses_consequence :
    Returns copyProgram (edgeTables []) (edgeTables []) ∧
      ¬ HoldsLeastModel copyProgram (edgeTables []) (edgeTables []) := by
  constructor
  · refine ⟨1, fun fuel hfuel => ?_⟩
    obtain ⟨fuel, rfl⟩ : ∃ k, fuel = k + 1 := ⟨fuel - 1, by omega⟩
    rfl
  · intro h
    have hrule : copyRule ∈ copyProgram.rules := mem_cons_self
    have hreach : (⟨1, [.const 7]⟩ : Atom Nat) ∈
        leastModel copyProgram.rules (factsOf (edgeTables [])) := by
      refine closes_leastModel hrule (fun _ => 7) fun query hquery => ?_
      obtain rfl : query = ⟨0, [.var 0]⟩ := by simpa [copyRule] using hquery
      exact base_subset_leastModel _ _ (edge_mem_factsOf [])
    have hout := (h (1, [copyRule]) mem_cons_self ⟨1, [.const 7]⟩ rfl).mpr hreach
    obtain ⟨-, hmem⟩ | ⟨hsym, -⟩ := mem_get_edgeTables hout
    · cases hmem
    · cases hsym

/-- Without an edge the rule fires, and adds its head with the variable. -/
example : (eval 2 copyProgram (AList.insert 1 [] (AList.insert 0 [] ∅))).map (HashMap.get · 1) =
    .ok [⟨1, [.var 0]⟩] := rfl

end Mangle.Naive

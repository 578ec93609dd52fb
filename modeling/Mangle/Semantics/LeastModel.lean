import Mathlib.Order.Bounds.Basic
import Mangle.Semantics.Satisfaction

/-!
# Semantics/LeastModel — the models of positive rules

What a program of positive rules means, apart from how it is run: the least set of facts that
includes the given ones and is closed under the rules.

* `isLeast_stratum` — a least model of later rules over one of earlier rules is one of both, when
  the earlier rules do not read what the later ones define.
-/

namespace Mangle

/-- The tuples of each predicate. -/
abbrev Facts := String → Set Tuple

/-- The scan-visible facts. -/
def Tiers.facts (c : Tiers) : Facts := fun pred => {t | t ∈ c.visible (pred : Name)}

/-- A term without function application. -/
def Term.Flat : Term → Prop
  | .app .. => False
  | _ => True

instance : DecidablePred Term.Flat
  | .app .. => .isFalse id
  | .var _ | .number _ | .float _ | .string _ | .name _ | .time _ | .duration _ | .bool _
  | .bytes _ => .isTrue trivial

/-- An atom of a stored predicate over variables and constants. -/
def Premise.FlatAtom : Premise → Prop
  | .atom pred args => atomKind pred = .stored ∧ ∀ t ∈ args, t.Flat
  | .negAtom .. | .eq .. | .ineq .. => False

instance : DecidablePred Premise.FlatAtom
  | .atom .. => inferInstanceAs (Decidable (_ ∧ _))
  | .negAtom .. | .eq .. | .ineq .. => .isFalse id

/-- **A positive rule**: atoms of stored predicates over variables and constants, each variable of
the head among those of the body, and no transform. -/
structure Rule.Positive (rule : Rule) : Prop where
  body : ∀ p ∈ rule.premises, p.FlatAtom
  head : ∀ t ∈ rule.args, t.Flat
  safe : ∀ x ∈ Term.allVarsList rule.args, x ∈ premiseVars rule.premises
  noTransform : rule.transform = []

instance : DecidablePred Rule.Positive := fun rule =>
  decidable_of_iff ((∀ p ∈ rule.premises, p.FlatAtom) ∧ (∀ t ∈ rule.args, t.Flat) ∧
    (∀ x ∈ Term.allVarsList rule.args, x ∈ premiseVars rule.premises) ∧ rule.transform = [])
    ⟨fun ⟨h₁, h₂, h₃, h₄⟩ => ⟨h₁, h₂, h₃, h₄⟩, fun h => ⟨h.body, h.head, h.safe, h.noTransform⟩⟩

theorem Premise.FlatAtom.exists_atom : ∀ {p : Premise}, p.FlatAtom →
    ∃ pred args, p = .atom pred args ∧ atomKind pred = .stored ∧ ∀ t ∈ args, t.Flat
  | .atom pred args, h => ⟨pred, args, rfl, h⟩

/-- The substitution satisfies the body over the facts. -/
def Rule.BodyHolds (rt : Runtime) (rule : Rule) (M : Facts) (σ : Subst) : Prop :=
  ∀ pred args, .atom pred args ∈ rule.premises → ∃ vs, evalTerms rt σ args = .ok vs ∧ vs ∈ M pred

/-- What a rule derives from facts in one step. -/
def Rule.consequences (rt : Runtime) (rule : Rule) (M : Facts) : Set Tuple :=
  {t | ∃ σ, rule.BodyHolds rt M σ ∧ evalTerms rt σ rule.args = .ok t}

/-- The facts include the given ones and are closed under the rules. -/
structure IsModel (rt : Runtime) (rules : Set Rule) (base M : Facts) : Prop where
  base : base ≤ M
  closed : ∀ r ∈ rules, r.consequences rt M ⊆ M r.pred

section

variable {rt : Runtime} {rules : Set Rule} {base M N : Facts} {rule : Rule}

theorem Rule.consequences_mono
    (h : ∀ pred args, .atom pred args ∈ rule.premises → M pred ⊆ N pred) :
    rule.consequences rt M ⊆ rule.consequences rt N := by
  rintro t ⟨σ, hbody, ht⟩
  refine ⟨σ, fun pred args hp => ?_, ht⟩
  obtain ⟨vs, hvs, hmem⟩ := hbody pred args hp
  exact ⟨vs, hvs, h pred args hp hmem⟩

theorem evalTerms_flat {rt' : Runtime} {σ : Subst} {ts : List Term} (h : ∀ t ∈ ts, t.Flat) :
    evalTerms rt σ ts = evalTerms rt' σ ts := by
  induction ts with
  | nil => rfl
  | cons t ts ih =>
    rw [evalTerms, evalTerms, ih fun u hu => h u (List.mem_cons_of_mem _ hu)]
    cases t with
    | app => exact absurd (h _ List.mem_cons_self) id
    | _ => rfl

/-- **A positive rule calls no function**, so its consequences are those of any runtime. -/
theorem Rule.Positive.consequences_eq (hpos : rule.Positive) (rt rt' : Runtime) :
    rule.consequences rt M = rule.consequences rt' M := by
  have hbody {σ : Subst} : rule.BodyHolds rt M σ ↔ rule.BodyHolds rt' M σ :=
    forall₃_congr fun pred args hp => by rw [evalTerms_flat (hpos.body _ hp).2]
  ext t
  exact exists_congr fun σ => by rw [hbody, evalTerms_flat hpos.head]

/-- **What the rules do not define stays as it was given.** -/
theorem least_eq_base (h : M ∈ lowerBounds {N | IsModel rt rules base N}) (hbase : base ≤ M)
    {pred : String} (hp : ∀ r ∈ rules, r.pred ≠ pred) : M pred = base pred := by
  refine Set.Subset.antisymm ?_ (hbase pred)
  -- everything is a model that leaves this predicate alone
  have hmodel : IsModel rt rules base (Function.update (fun _ => Set.univ) pred (base pred)) := by
    refine ⟨fun q => ?_, fun r hr => ?_⟩
    · rcases eq_or_ne q pred with rfl | hne
      · rw [Function.update_self]
      · rw [Function.update_of_ne hne]
        exact Set.subset_univ _
    · rw [Function.update_of_ne (hp r hr)]
      exact Set.subset_univ _
  have hle := h hmodel pred
  rwa [Function.update_self] at hle

/-- **Least models of strata compose.** -/
theorem isLeast_stratum {earlier later : Set Rule}
    (hM : IsLeast {N | IsModel rt earlier base N} M) (hN : IsLeast {N | IsModel rt later M N} N)
    (hread : ∀ r ∈ earlier, ∀ pred args, .atom pred args ∈ r.premises →
      ∀ r' ∈ later, r'.pred ≠ pred) :
    IsLeast {N | IsModel rt (earlier ∪ later) base N} N := by
  refine ⟨⟨hM.1.base.trans hN.1.base, ?_⟩, ?_⟩
  · rintro r (hr | hr)
    · refine ((Rule.consequences_mono fun pred args hp => ?_).trans (hM.1.closed r hr)).trans
        (hN.1.base r.pred)
      exact (least_eq_base hN.2 hN.1.base (hread r hr pred args hp)).le
    · exact hN.1.closed r hr
  · intro K hK
    have hMK : M ≤ K := hM.2 ⟨hK.base, fun r hr => hK.closed r (Or.inl hr)⟩
    exact hN.2 ⟨hMK, fun r hr => hK.closed r (Or.inr hr)⟩

/-- Soundness composes without any condition. -/
theorem lowerBounds_stratum {earlier later : Set Rule}
    (hM : M ∈ lowerBounds {N | IsModel rt earlier base N})
    (hN : N ∈ lowerBounds {N | IsModel rt later M N}) :
    N ∈ lowerBounds {N | IsModel rt (earlier ∪ later) base N} := by
  intro K hK
  have hMK : M ≤ K := hM ⟨hK.base, fun r hr => hK.closed r (Or.inl hr)⟩
  exact hN ⟨hMK, fun r hr => hK.closed r (Or.inr hr)⟩

end

end Mangle

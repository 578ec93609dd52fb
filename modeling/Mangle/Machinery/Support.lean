import Mathlib.Data.Set.Basic
import Mathlib.Order.WellFounded

/-!
# Machinery/Support — two readings of support

Facts of any type, each with the ways it follows from lists of premises; a base fact has none.  When
some base facts are lost, a fact may be said to have support if it has a derivation down to base
facts that are left (`Derives`), or if it belongs to a set whose members each follow from the set
and the base facts that are left (`SelfSupporting`).

* `selfSupporting_derives` — a derivation gives support in the second sense;
* `SelfSupporting.derives` — the converse, where no fact is among its own premises, however remote;
* `unsupported_eq_iff` — giving up the facts without support in the second sense is giving up those
  without a derivation just when the two readings agree.
-/

namespace Machinery

variable {α : Type*} (ways : α → Set (List α)) (lost : Set α)

/-- A base fact that is left. -/
def IsLeft (a : α) : Prop := ways a = ∅ ∧ a ∉ lost

/-- There is a derivation down to base facts that are left. -/
inductive Derives : α → Prop
  | base {a : α} (h : IsLeft ways lost a) : Derives a
  | step {a : α} {ps : List α} (h : ps ∈ ways a) (hps : ∀ p ∈ ps, Derives p) : Derives a

/-- Every fact of the set follows from the set and the base facts that are left. -/
def SelfSupporting (S : Set α) : Prop :=
  ∀ a ∈ S, ∃ ps ∈ ways a, ∀ p ∈ ps, p ∈ S ∨ IsLeft ways lost p

/-- Support of either kind is the same. -/
def Grounded : Prop := ∀ S, SelfSupporting ways lost S → ∀ a ∈ S, Derives ways lost a

variable {ways lost}

/-- **What has a derivation supports itself.** -/
theorem selfSupporting_derives :
    SelfSupporting ways lost {a | (ways a).Nonempty ∧ Derives ways lost a} := by
  rintro a ⟨hne, hder⟩
  cases hder with
  | base h => exact absurd h.1 hne.ne_empty
  | step h hps =>
    refine ⟨_, h, fun p hp => ?_⟩
    cases hps p hp with
    | base h => exact .inr h
    | step h' hps' => exact .inl ⟨⟨_, h'⟩, .step h' hps'⟩

/-- **Without cycles**, what supports itself has a derivation. -/
theorem SelfSupporting.derives {S : Set α} (h : SelfSupporting ways lost S)
    (hwf : WellFounded fun p a => ∃ ps ∈ ways a, p ∈ ps) {a : α} (ha : a ∈ S) :
    Derives ways lost a := by
  induction a using hwf.induction with
  | _ a ih =>
    obtain ⟨ps, hps, hall⟩ := h a ha
    refine .step hps fun p hp => ?_
    obtain hp' | hp' := hall p hp
    · exact ih p ⟨ps, hps, hp⟩ hp'
    · exact .base hp'

/-- **The facts to give up.**  Let `D` be facts that belong to no set that supports itself, such
that the other derived facts form one.  They are the facts without a derivation just when the two
readings of support agree. -/
theorem unsupported_eq_iff {D : Set α} (hderived : ∀ a ∈ D, (ways a).Nonempty)
    (hdisjoint : ∀ S, SelfSupporting ways lost S → ∀ a ∈ S, a ∉ D)
    (hrest : SelfSupporting ways lost {a | (ways a).Nonempty ∧ a ∉ D}) :
    (∀ a, a ∈ D ↔ (ways a).Nonempty ∧ ¬ Derives ways lost a) ↔ Grounded ways lost := by
  constructor
  · intro hD S hS a ha
    obtain ⟨ps, hps, -⟩ := hS a ha
    by_contra hno
    exact hdisjoint S hS a ha ((hD a).mpr ⟨⟨ps, hps⟩, hno⟩)
  · intro hground a
    refine ⟨fun ha => ⟨hderived a ha, fun hder => ?_⟩, fun ⟨hne, hno⟩ => ?_⟩
    · exact hdisjoint _ selfSupporting_derives a ⟨hderived a ha, hder⟩ ha
    · by_contra ha
      exact hno (hground _ hrest a ⟨hne, ha⟩)

end Machinery

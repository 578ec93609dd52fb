import Mangle.Planner.Atoms

/-!
# Planner/Solutions — what satisfies a premise

The substitutions that a planned premise has to run the rest of the plan for are those that satisfy
it by facts the plan reads: what this comes to for each kind of premise, and that only the values of
the premise's variables matter (`satAt_eqOn`).
-/

namespace Mangle

open Machinery List

variable {l r t : Term} {args : List Term} {x : String}

/-- Whether the values pass a predicate. -/
def testAtom (c : Tiers) (pred : String) (vs : Tuple) : Result Bool :=
  match atomKind pred with
  | .comparison op => match vs with
      | [x, y] => .ok (evalCmp op x y)
      | _ => .ok false
  | .call | .matchField | .listMember => evalBuiltinPredicate pred vs
  | .stored => .ok (decide (vs ∈ c.visible pred))

variable {rt : Runtime} {c : Tiers} {cfg : PlanConfig} {bound : List Name} {X : Set String}
  {pred : String} {σ τ : Subst}

theorem evalTerms_pair_iff {vs : List Value} :
    evalTerms rt τ [l, r] = .ok vs ↔
      ∃ x y, vs = [x, y] ∧ evalTerm rt τ l = .ok x ∧ evalTerm rt τ r = .ok y := by
  constructor
  · intro h
    obtain ⟨x, y, hx, hy, rfl⟩ := evalTerms_pair h
    exact ⟨x, y, rfl, hx, hy⟩
  · rintro ⟨x, y, rfl, hx, hy⟩
    simp [evalTerms, hx, hy, pure, Except.pure]

/-- Outside stored relations a plan reads no new facts. -/
theorem satAt_iff_sat {p : Premise}
    (hp : ∀ pred args, p = .atom pred args → atomKind pred ≠ .stored) :
    SatAt rt c τ cfg X p ↔ Sat rt c τ p :=
  and_iff_left fun pred args heq hscan => absurd hscan.1 (hp pred args heq)

theorem satAt_iff_sat_of_kind (hkind : atomKind pred ≠ .stored) :
    SatAt rt c τ cfg X (.atom pred args) ↔ Sat rt c τ (.atom pred args) :=
  satAt_iff_sat fun _ _ heq => by rwa [← (Premise.atom.inj heq).1]

theorem eqAsBinding_some {e : Term} (h : eqAsBinding bound l r = some (x, e)) :
    l = .var x ∧ x ∉ namedIn bound ∧ e = r := by
  obtain ⟨y, hy, heq⟩ := Option.map_eq_some_iff.mp h
  obtain ⟨rfl, rfl⟩ := Prod.mk.inj heq
  obtain ⟨rfl, hb⟩ := unboundVar_eq_some.mp hy
  exact ⟨rfl, hb, rfl⟩

theorem eqAsBinding_none (h : eqAsBinding bound l r = none) (hl : l = .var x) :
    x ∈ namedIn bound := by
  by_contra hx
  rw [eqAsBinding, unboundVar_eq_some.mpr ⟨hl, hx⟩] at h
  cases h

/-- The term a premise binds or checks, once it is no variable to bind. -/
theorem TermReady.known (h : TermReady (namedIn bound) t) (hnone : unboundVar bound t = none) :
    Known (namedIn bound) t.allVars := by
  rcases h with ⟨x, rfl⟩ | h
  · intro y hy
    rw [mem_singleton.mp hy]
    by_contra hx
    rw [unboundVar_eq_some.mpr ⟨rfl, hx⟩] at hnone
    cases hnone
  · exact h

theorem sat_matchField (hkind : atomKind pred = .matchField) {out : Term} {field : String} :
    Sat rt c τ (.atom pred [t, .name field, out]) ↔
      ∃ v w, evalTerm rt τ t = .ok v ∧ evalTerm rt τ out = .ok w ∧
        w ∈ (structField field v).toList := by
  simp only [Sat, Holds, hkind, Option.mem_toList]
  constructor
  · rintro ⟨_, hvs, s, f, w, rfl, hfield⟩
    simp only [evalTerms_cons_ok, evalTerm, Except.ok.injEq, Value.name.injEq] at hvs
    obtain ⟨hs, rfl, hw, -⟩ := hvs
    exact ⟨s, w, hs, hw, hfield⟩
  · rintro ⟨v, w, hv, hw, hfield⟩
    refine ⟨[v, .name field, w], ?_, v, field, w, rfl, hfield⟩
    simp [evalTerms, evalTerm, hv, hw, pure, Except.pure]

theorem sat_listMember (hkind : atomKind pred = .listMember) {elem list : Term} :
    Sat rt c τ (.atom pred [elem, list]) ↔
      ∃ v w, evalTerm rt τ list = .ok v ∧ evalTerm rt τ elem = .ok w ∧ w ∈ listElems v := by
  simp only [Sat, Holds, hkind, evalTerms_pair_iff]
  constructor
  · rintro ⟨_, ⟨w, v, rfl, hw, hv⟩, w', v', heq, hmem⟩
    simp only [List.cons.injEq, and_true] at heq
    obtain ⟨rfl, rfl⟩ := heq
    exact ⟨v, w, hv, hw, hmem⟩
  · rintro ⟨v, w, hv, hw, hmem⟩
    exact ⟨_, ⟨w, v, rfl, hw, hv⟩, w, v, rfl, hmem⟩

/-- The facts an atom over a stored relation is satisfied by. -/
theorem satAt_stored (hkind : atomKind pred = .stored) :
    SatAt rt c τ cfg X (.atom pred args) ↔ ∃ row, evalTerms rt τ args = .ok row ∧
      row ∈ c.visible pred ∧ (ScansDelta cfg X pred args → row ∈ c.delta pred) := by
  simp only [SatAt, Sat, Holds, hkind]
  constructor
  · rintro ⟨⟨row, hrow, hvis⟩, hdelta⟩
    refine ⟨row, hrow, hvis, fun hscan => ?_⟩
    obtain ⟨row', hrow', hmem⟩ := hdelta pred args rfl hscan
    rw [hrow] at hrow'
    exact Except.ok.inj hrow' ▸ hmem
  · rintro ⟨row, hrow, hvis, hdelta⟩
    refine ⟨⟨row, hrow, hvis⟩, fun pred' args' heq hscan => ?_⟩
    obtain ⟨rfl, rfl⟩ := Premise.atom.inj heq
    exact ⟨row, hrow, hdelta hscan⟩

/-! ## Variables -/

/-- Satisfaction depends on the premise's variables only. -/
theorem sat_eqOn {p : Premise} (h : ∀ x ∈ p.allVars, τ x = σ x) :
    Sat rt c τ p ↔ Sat rt c σ p := by
  cases p with
  | atom pred args | negAtom pred args => simp only [Sat, @evalTerms_congr rt τ σ args h]
  | eq l r | ineq l r =>
    have hl := @evalTerm_congr rt τ σ l fun x hx => h x (mem_append_left _ hx)
    have hr := @evalTerm_congr rt τ σ r fun x hx => h x (mem_append_right _ hx)
    simp only [Sat, hl, hr]

theorem satAt_eqOn {p : Premise} (h : ∀ x ∈ p.allVars, τ x = σ x) :
    SatAt rt c τ cfg X p ↔ SatAt rt c σ cfg X p := by
  refine and_congr (sat_eqOn h) (forall₂_congr fun pred args => forall_congr' fun heq => ?_)
  subst heq
  rw [evalTerms_congr h]

end Mangle

import Mangle.Analysis.BindingsSound
import Mangle.Planner.Correct

/-!
# Planner/Negation — built-in predicates and their negations

A positive built-in premise is planned as a filter, or as a loop over the fields of a struct or the
elements of a list; its negation is planned as a filter with a condition of its own.  Each runs what
follows it for the substitutions that satisfy the premise, so the two are compared at `Sat`.

They complement each other but for `:match_field`: the loop looks at the first field of a name, the
condition at every one (`HidesField`).

* `sat_iff_not_sat_negAtom` — which of the two premises is satisfied.
* `probe_runs` — a planned premise runs what follows it exactly when it is satisfied.
* `negated_complements` — the continuations of the two plans, run from the same environment.
-/

namespace Mangle

open Machinery List

variable {rt : Runtime} {c : Tiers} {pred : String} {args : List Term} {v : Value} {σ : Subst}
  {p : Premise}

/-! ## Satisfied premises -/

/-- The atom has the arguments that the planner asks for. -/
def WellShaped (pred : String) (args : List Term) : Prop :=
  match atomKind pred with
  | .comparison _ | .call | .listMember => args.length = 2
  | .matchField => ∃ s field out, args = [s, .name field, out]
  | .stored => True

variable {bound : List Name} {cfg : PlanConfig}

theorem wellShaped_of_plan {k : List Name → PlanM Op} {ps : List Premise} {st : PlanState}
    {r : Op × PlanState}
    (h : planJoinSequence cfg k (.atom pred args :: ps) bound st = .ok r) :
    WellShaped pred args := by
  unfold planJoinSequence at h
  unfold WellShaped
  cases hkind : atomKind pred with
  | stored => trivial
  | matchField =>
    simp only [hkind] at h
    split at h
    · exact ⟨_, _, _, rfl⟩
    · cases h
    · cases h
  | _ =>
    simp only [hkind] at h
    split at h
    · rfl
    · cases h

theorem exists_pair {α : Type} {l : List α} (h : l.length = 2) : ∃ a b, l = [a, b] := by
  match l, h with
  | [a, b], _ => exact ⟨a, b, rfl⟩

/-- A struct that has the value for the field, but only behind another field of the same name. -/
def HidesField (pred : String) (vs : Tuple) : Prop :=
  ∃ pairs field v, atomKind pred = .matchField ∧ vs = [.compound .struct pairs, .name field, v] ∧
    (.name field, v) ∈ chunks2 pairs ∧ lookupKey (.name field) pairs ≠ some v

/-- The first pair of a name is one of the pairs. -/
theorem mem_chunks2_of_lookupKey {key : Value} {pairs : List Value}
    (h : lookupKey key pairs = some v) : (key, v) ∈ chunks2 pairs := by
  obtain ⟨⟨k, w⟩, hfind, rfl⟩ := Option.map_eq_some_iff.mp h
  obtain rfl : k = key := by simpa using List.find?_some hfind
  exact mem_of_find?_eq_some hfind

variable {field : String}

theorem holds_matchField {s : Value} :
    Holds c ":match_field" [s, .name field, v] ↔ structField field s = some v := by
  change (∃ s' f w, [s, Value.name field, v] = [s', .name f, w] ∧ structField f s' = some w) ↔ _
  simp

/-- The condition of `!:match_field` looks at every pair. -/
theorem fails_matchField {pairs : List Value} :
    Fails c ":match_field" [.compound .struct pairs, .name field, v] ↔
      (.name field, v) ∉ chunks2 pairs := by
  change Except.ok ((chunks2 pairs).any fun p => p.1 = .name field ∧ p.2 = v) = Except.ok false ↔ _
  rw [Except.ok.injEq, any_eq_false]
  simp only [decide_eq_true_eq, Prod.forall]
  constructor
  · exact fun h hmem => h _ _ hmem ⟨rfl, rfl⟩
  · rintro h k w hmem ⟨rfl, rfl⟩
    exact h hmem

/-- **`:match_field` holds where it does not fail**, unless the field is hidden. -/
theorem matchField_holds_iff {s : Value} :
    (Holds c ":match_field" [s, .name field, v] ↔ ¬Fails c ":match_field" [s, .name field, v]) ↔
      ¬HidesField ":match_field" [s, .name field, v] := by
  rw [holds_matchField]
  by_cases hs : ∃ pairs, s = .compound .struct pairs
  · obtain ⟨pairs, rfl⟩ := hs
    have hhides : HidesField ":match_field" [.compound .struct pairs, .name field, v] ↔
        (.name field, v) ∈ chunks2 pairs ∧ lookupKey (.name field) pairs ≠ some v := by
      constructor
      · rintro ⟨_, _, _, -, heq, h⟩
        cases heq
        exact h
      · exact fun h => ⟨_, _, _, rfl, rfl, h⟩
    rw [fails_matchField, not_not, hhides, structField]
    constructor
    · exact fun h ⟨hmem, hne⟩ => hne (h.mpr hmem)
    · exact fun h => ⟨mem_chunks2_of_lookupKey, fun hmem => by_contra fun hne => h ⟨hmem, hne⟩⟩
  · have hnone : structField field s = none := by
      unfold structField
      split
      · exact absurd ⟨_, rfl⟩ hs
      · rfl
    have hfails : Fails c ":match_field" [s, .name field, v] := by
      change evalBuiltinPredicate ":match_field" [s, .name field, v] = .ok false
      cases s with
      | compound kind elems =>
        cases kind with
        | struct => exact absurd ⟨elems, rfl⟩ hs
        | _ => rfl
      | _ => rfl
    have hhides : ¬HidesField ":match_field" [s, .name field, v] := by
      rintro ⟨pairs, _, _, -, heq, -⟩
      exact hs ⟨pairs, (List.cons.inj heq).1⟩
    simp [hnone, hfails, hhides]

/-- **A built-in predicate holds where it does not fail**, unless a field is hidden. -/
theorem holds_iff_not_fails {vs : Tuple} {b : Bool} (hkind : atomKind pred ≠ .stored)
    (hlen : vs.length = args.length) (hshape : WellShaped pred args)
    (hfield : ∀ s field v, args = [s, .name field, v] → vs[1]? = some (.name field))
    (htest : testAtom c pred vs = .ok b) :
    (Holds c pred vs ↔ ¬Fails c pred vs) ↔ ¬HidesField pred vs := by
  unfold WellShaped at hshape
  cases hk : atomKind pred with
  | comparison o =>
    simp only [hk] at hshape
    obtain ⟨x, y, rfl⟩ := exists_pair (hlen.trans hshape)
    simp [Holds, Fails, HidesField, hk]
  | call =>
    simp only [hk] at hshape
    simp only [testAtom, hk] at htest
    simp [Holds, Fails, HidesField, hk, htest, hlen.trans hshape]
  | listMember =>
    obtain rfl := atomKind_eq_listMember.mp hk
    simp only [hk] at hshape
    obtain ⟨x, l, rfl⟩ := exists_pair (hlen.trans hshape)
    simp [Holds, Fails, HidesField, hk, evalBuiltinPredicate]
  | matchField =>
    obtain rfl := atomKind_eq_matchField.mp hk
    simp only [hk] at hshape
    obtain ⟨s, field, out, rfl⟩ := hshape
    obtain ⟨s, f, v, rfl⟩ := length_eq_three.mp hlen
    obtain rfl : f = .name field := by simpa using hfield _ _ _ rfl
    exact matchField_holds_iff
  | stored => exact absurd hk hkind

/-- **Which of the two premises is satisfied**, where both have been evaluated. -/
theorem sat_iff_not_sat_negAtom {vs : Tuple} {b : Bool} (hkind : atomKind pred ≠ .stored)
    (hshape : WellShaped pred args) (hvs : evalTerms rt σ args = .ok vs)
    (htest : testAtom c pred vs = .ok b) :
    (Sat rt c σ (.atom pred args) ↔ ¬Sat rt c σ (.negAtom pred args)) ↔ ¬HidesField pred vs := by
  rw [← holds_iff_not_fails hkind (length_evalTerms hvs) hshape ?_ htest]
  · simp [Sat, hvs]
  · rintro s field v rfl
    obtain ⟨x, f, y, rfl⟩ := length_eq_three.mp (length_evalTerms hvs)
    simp only [evalTerms_cons_ok, evalTerm, Except.ok.injEq] at hvs
    simp [hvs.2.1]

/-! ## Planned premises -/

/-- A continuation that records that it ran. -/
def probe (mark : Name) : List Name → PlanM Op := fun _ => pure (.insert mark [])

/-- The plan of a premise without variables to bind does not depend on the other names. -/
theorem planJoinSequence_probe_congr {mark : Name} {bound bound' : List Name}
    (hkind : atomKind pred ≠ .stored) (h : ∀ t ∈ args, unboundVar bound t = none)
    (h' : ∀ t ∈ args, unboundVar bound' t = none) :
    planJoinSequence cfg (probe mark) [.atom pred args] bound =
        planJoinSequence cfg (probe mark) [.atom pred args] bound' ∧
      planJoinSequence cfg (probe mark) [.negAtom pred args] bound =
        planJoinSequence cfg (probe mark) [.negAtom pred args] bound' := by
  have hrequire : ∀ {b : List Name} (context : String), (∀ t ∈ args, unboundVar b t = none) →
      requireBoundArgs args b context = pure () := by
    intro b context hb
    refine if_neg ?_
    simp only [any_eq_true, not_exists, not_and]
    exact fun t ht => by simp [hb t ht]
  have hargs := fun context => (hrequire context h).trans (hrequire context h').symm
  have hnil : planJoinSequence cfg (probe mark) [] bound =
      planJoinSequence cfg (probe mark) [] bound' := by
    unfold planJoinSequence
    rfl
  constructor <;> unfold planJoinSequence <;> cases hk : atomKind pred
  all_goals first | exact absurd hk hkind | simp only [hnil, hargs]
  · split
    · rename_i out
      rw [h out (by simp), h' out (by simp)]
    · rfl
    · rfl
  · split
    · rename_i elem list
      rw [h elem (by simp), h' elem (by simp)]
    · rfl

theorem unboundVar_eq_none
    (h : ∀ x ∈ Term.allVarsList args, (x : Name) ∈ bound) :
    ∀ t ∈ args, unboundVar bound t = none := by
  intro t ht
  by_contra hne
  obtain ⟨x, hx⟩ := Option.ne_none_iff_exists'.mp hne
  obtain ⟨rfl, hnot⟩ := unboundVar_eq_some.mp hx
  exact hnot (h x (mem_allVarsList.mpr ⟨_, ht, by simp [Term.allVars]⟩))

/-- The first insertion of a list is counted. -/
theorem insertAll_pos {s : MemStore} {mark : Name} {es : List Emit}
    (hnew : (s.insert mark []).1 = true) (hes : ∀ e ∈ es, e = (mark, [])) :
    0 < (MemStore.insertAll es s).1 ↔ es ≠ [] := by
  cases es with
  | nil => simp [MemStore.insertAll]
  | cons e es =>
    obtain rfl := hes e (by simp)
    simp only [MemStore.insertAll, hnew, if_true]
    exact iff_of_true (by omega) (by simp)

/-- Premises whose variables are known can be evaluated. -/
theorem evaluable_of_known {X : Set String} (h : Known X p.allVars) : Evaluable X p := by
  cases p with
  | atom pred args =>
    have harg : ∀ t ∈ args, Known X t.allVars := fun t ht x hx =>
      h x (mem_allVarsList.mpr ⟨t, ht, hx⟩)
    cases hk : atomKind pred with
    | comparison o | call =>
      simp only [Evaluable, hk]
      exact h
    | matchField =>
      simp only [Evaluable, hk]
      rintro s field out rfl
      exact ⟨harg s (by simp), Or.inr (harg out (by simp))⟩
    | listMember =>
      simp only [Evaluable, hk]
      rintro elem list rfl
      exact ⟨harg list (by simp), Or.inr (harg elem (by simp))⟩
    | stored =>
      simp only [Evaluable, hk]
      exact fun x hx => Or.inl (h x hx)
  | negAtom pred args => exact h
  | eq l r => exact Or.inr (Or.inr h)
  | ineq l r => exact h

/-- **A planned premise runs what follows it exactly when it is satisfied**; a negated one has been
tested. -/
theorem probe_runs {mark : Name} {st st' : PlanState}
    {op : Op} {ρ env : Env} {s s' : MemStore} {n : Nat}
    (hp : p = .atom pred args ∨ p = .negAtom pred args) (hkind : atomKind pred ≠ .stored)
    (hbound : ∀ x ∈ Term.allVarsList args, (x : Name) ∈ bound)
    (hρ : ∀ x ∈ Term.allVarsList args, ρ x = some (σ x))
    (hplan : planJoinSequence cfg (probe mark) [p] bound st = .ok (op, st')) (hrep : Rep s c)
    (hidx : Indexed s) (hnew : (s.insert mark []).1 = true)
    (hrun : execOp rt op ρ s = .ok (n, env, s')) :
    (0 < n ↔ Sat rt c σ p) ∧ (p = .negAtom pred args →
      ∃ vs b, evalTerms rt σ args = .ok vs ∧ testAtom c pred vs = .ok b) := by
  let known := (Term.allVarsList args).map Name.named
  have hvars : ∀ x ∈ Term.allVarsList args, (x : Name) ∈ known := fun x hx =>
    mem_map_of_mem hx
  have hpvars : Known (namedIn known) p.allVars := by
    rcases hp with rfl | rfl <;> exact hvars
  have hplan : planJoinSequence cfg (probe mark) [p] known st = .ok (op, st') := by
    obtain ⟨hpos, hneg⟩ := @planJoinSequence_probe_congr _ _ cfg mark _ _ hkind
      (unboundVar_eq_none hbound) (unboundVar_eq_none hvars)
    rcases hp with rfl | rfl
    · rwa [← hpos]
    · rwa [← hneg]
  let S : Site := ⟨known, fun _ _ => .number 0, st, st', op⟩
  have hnamed : ∀ v ∈ S.bound, ∃ x ∈ Term.allVarsList args, v = .named x := fun v hv => by
    obtain ⟨x, hx, rfl⟩ := mem_map.mp hv
    exact ⟨x, hx, rfl⟩
  have hS : S.Knows := by
    refine ⟨fun pre id hmem => ?_, fun v hv => ?_⟩
    · obtain ⟨x, -, heq⟩ := hnamed _ hmem
      cases heq
    · obtain ⟨x, hx, rfl⟩ := hnamed v hv
      intro y hy
      rw [mem_singleton.mp hy]
      exact hvars x hx
  have hdenotes : S.Denotes rt ρ σ := fun v hv => by
    obtain ⟨x, hx, rfl⟩ := hnamed v hv
    exact ⟨σ x, rfl, hρ x hx⟩
  have hev : Evaluable (namedIn known) p := evaluable_of_known hpvars
  obtain ⟨S', hprobe, -, -, hred⟩ : Leads rt c {mark} S _ _ _ :=
    leads_premise hS hev (by simp) hplan
  unfold planJoinSequence at hprobe
  obtain ⟨hop, hstop⟩ := planM_pure_ok.mp hprobe
  have hS' : S'.Shaped {mark} := by
    refine ⟨by rw [hstop], ?_, ?_⟩
    · rw [← hop]
      exact .insert rfl (by simp)
    · rw [← hop]
      simp [Op.assigned]
  have hmark : ∀ τ es, S'.Yields rt c τ es → es = [(mark, [])] := by
    rintro τ es ⟨ρ', -, hden⟩
    rw [← hop] at hden
    exact (Except.ok.inj hden).symm
  have hsim := execOp_den rt c (hred.shaped hS').wellScoped ρ ρ s (fun _ _ => rfl)
    (.of_rep hrep hidx)
  rw [hrun] at hsim
  obtain ⟨es, hden, -, -, hins⟩ := hsim.ok_right
  have hy : S.Yields rt c σ es := ⟨ρ, hdenotes, hden⟩
  have hsat : SatAt rt c σ cfg (namedIn S.bound) p ↔ Sat rt c σ p := by
    refine satAt_iff_sat fun pred' args' heq => ?_
    rcases hp with rfl | rfl
    · rwa [← (Premise.atom.inj heq).1]
    · cases heq
  have hes : ∀ e ∈ es, e = (mark, []) ∧ Sat rt c σ p := fun e he => by
    obtain ⟨τ, es', heq, hτ, hy', he'⟩ := hred.sound hS' σ es hy e he
    rw [hmark τ es' hy'] at he'
    refine ⟨mem_singleton.mp he', hsat.mp ((satAt_eqOn fun x hx => heq ?_).mp hτ)⟩
    exact hpvars x hx
  have hn : n = (MemStore.insertAll es s).1 := (Prod.mk.inj hins).1
  refine ⟨?_, ?_⟩
  · rw [hn, insertAll_pos hnew fun e he => (hes e he).1]
    constructor
    · intro hne
      obtain ⟨e, he⟩ := exists_mem_of_ne_nil es hne
      exact (hes e he).2
    · intro hp
      obtain ⟨es', hy', hsub⟩ := hred.complete hS' σ es hy (hsat.mpr hp)
      rw [hmark σ es' hy'] at hsub
      exact ne_nil_of_mem (hsub (mem_singleton_self _))
  · rintro rfl
    exact (@leads_negAtom [] rt c {mark} S cfg _ pred args hS hev hplan).2 σ es hy

/-- The values of a rule's variables. -/
def Env.values (ρ : Env) : Subst := fun x => (ρ x).getD .null

/-- **Negated built-ins complement positive ones**, unless a field is hidden.  The two premises are
planned and run from one environment that gives values to their variables, and neither fails: then
what follows the positive one runs exactly when what follows the negated one does not. -/
theorem negated_complements {cfg : PlanConfig} {mark : Name} {bound : List Name}
    {st st' st₁ st₂ : PlanState} {op op' : Op} {ρ env env' : Env} {s s₁ s₂ : MemStore} {n n' : Nat}
    (hkind : atomKind pred ≠ .stored) (hbound : ∀ x ∈ Term.allVarsList args, (x : Name) ∈ bound)
    (hvalue : ∀ x ∈ Term.allVarsList args, (ρ x).isSome)
    (hpos : planJoinSequence cfg (probe mark) [.atom pred args] bound st = .ok (op, st₁))
    (hneg : planJoinSequence cfg (probe mark) [.negAtom pred args] bound st' = .ok (op', st₂))
    (hrep : Rep s c) (hidx : Indexed s) (hnew : (s.insert mark []).1 = true)
    (hrun : execOp rt op ρ s = .ok (n, env, s₁)) (hrun' : execOp rt op' ρ s = .ok (n', env', s₂)) :
    (0 < n ↔ ¬0 < n') ↔ ∀ vs, evalTerms rt ρ.values args = .ok vs → ¬HidesField pred vs := by
  have hρ : ∀ x ∈ Term.allVarsList args, ρ x = some (ρ.values x) := fun x hx => by
    obtain ⟨v, hv⟩ := Option.isSome_iff_exists.mp (hvalue x hx)
    simp [Env.values, hv]
  obtain ⟨hn, -⟩ := probe_runs (Or.inl rfl) hkind hbound hρ hpos hrep hidx hnew hrun
  obtain ⟨hn', htest⟩ := probe_runs (Or.inr rfl) hkind hbound hρ hneg hrep hidx hnew hrun'
  obtain ⟨vs, b, hvs, htest⟩ := htest rfl
  rw [hn, hn', sat_iff_not_sat_negAtom hkind (wellShaped_of_plan hpos) hvs htest]
  simp [hvs]

/-! ## Runs -/

/-- The environment that gives one value to every variable. -/
def Env.const (v : Value) : Env := fun _ => some v

/-- `X` and the list `[1, 2]`. -/
def memberArgs : List Term := [.var "X", .app (.fn "fn:list") [.number 1, .number 2]]

/-- A value that is an element of a list. -/
theorem negated_complements_member : ∃ op op' st st' out out',
    planJoinSequence ⟨none, false⟩ (probe "ran") [.atom ":list:member" memberArgs] ["X"] ⟨0, []⟩ =
        .ok (op, st) ∧
      planJoinSequence ⟨none, false⟩ (probe "ran") [.negAtom ":list:member" memberArgs] ["X"]
        ⟨0, []⟩ = .ok (op', st') ∧
      execOp .bare op (.const (.number 2)) .new = .ok (1, out) ∧
      execOp .bare op' (.const (.number 2)) .new = .ok (0, out') ∧ (0 < 1 ↔ ¬0 < 0) := by
  have hcomp := @negated_complements .bare .empty ":list:member" memberArgs ⟨none, false⟩ "ran"
    ["X"] ⟨0, []⟩ ⟨0, []⟩ _ _ _ _ (.const (.number 2)) _ _ .new _ _ 1 0 (by decide) (by decide)
    (by decide) rfl rfl .new .new rfl rfl rfl
  refine ⟨_, _, _, _, _, _, rfl, rfl, rfl, rfl, hcomp.mpr ?_⟩
  rintro vs - ⟨_, _, _, hkind, -⟩
  cases hkind

/-- **A hidden field**: in the struct `{/a: 1, /a: 2}` the loop finds 1 under `/a` and the condition
finds 2, so that neither the premise `:match_field(S, /a, 2)` nor its negation is satisfied. -/
theorem hidden_field_neither : ∃ op op' st st' out out',
    planJoinSequence ⟨none, false⟩ (probe "ran")
        [.atom ":match_field" [.var "S", .name "/a", .number 2]] ["S"] ⟨0, []⟩ = .ok (op, st) ∧
      planJoinSequence ⟨none, false⟩ (probe "ran")
        [.negAtom ":match_field" [.var "S", .name "/a", .number 2]] ["S"] ⟨0, []⟩ =
          .ok (op', st') ∧
      execOp .bare op (.const (.compound .struct
        [.name "/a", .number 1, .name "/a", .number 2])) .new = .ok (0, out) ∧
      execOp .bare op' (.const (.compound .struct
        [.name "/a", .number 1, .name "/a", .number 2])) .new = .ok (0, out') :=
  ⟨_, _, _, _, _, _, rfl, rfl, rfl, rfl⟩

end Mangle

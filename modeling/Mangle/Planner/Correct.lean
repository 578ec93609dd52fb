import Mangle.Planner.Reduce

/-!
# Planner/Correct — a plan inserts what its rule derives

Every premise is planned as an operation that runs the rest of the body for the substitutions that
satisfy it.  `Leads rt c W S P plan X` says so of one planning step: the operation at `S` runs what
`plan` makes at some later site, where the variables `X` have values.  `planJoinSequence_leads`
proves it of a body that can be evaluated in planning order; so the plan does not depend on whether
two atoms were joined by a hash table.

* `planRule_execute` — the plan of a rule without transforms inserts the head's tuple for exactly
  the substitutions that satisfy the body.
-/

namespace Mangle

open Machinery List

variable {p : Premise} {st st' : PlanState} {op : Op} {ρ : Env} {lo ro : Operand}
  {ps : List Premise}

/-- The operation at `S` runs what `plan` makes at a later site, for the substitutions with the
property `P`. -/
def Leads (rt : Runtime) (c : Tiers) (W : Set Name) (S : Site) (P : Subst → Prop)
    (plan : List Name → PlanM Op) (X : Set String) : Prop :=
  ∃ S' : Site, plan S'.bound S'.start = .ok (S'.op, S'.stop) ∧ S'.Knows ∧ namedIn S'.bound = X ∧
    Reduces rt c W S P S'

section Premises

variable {rt : Runtime} {c : Tiers} {W : Set Name} {S : Site} {plan : List Name → PlanM Op}
  {X X' : Set String}

theorem Leads.congr {P P' : Subst → Prop} (h : Leads rt c W S P plan X) (hP : ∀ τ, P τ ↔ P' τ)
    (hX : X = X') : Leads rt c W S P' plan X' := by
  rwa [← funext fun τ => propext (hP τ), ← hX]

/-! ## Known variables -/

/-- After a premise whose variables are known, the same are. -/
theorem known_after (hp : Known X p.allVars) : X = X ∪ {x | x ∈ p.allVars} :=
  (Set.union_eq_left.mpr hp).symm

/-- …and after one that binds a variable, that one too. -/
theorem insert_after {x : String} (hx : x ∈ p.allVars) (hp : ∀ y ∈ p.allVars, y = x ∨ y ∈ X) :
    insert x X = X ∪ {x | x ∈ p.allVars} := by
  ext y
  constructor
  · rintro (rfl | hy)
    · exact Or.inr hx
    · exact Or.inl hy
  · rintro (hy | hy)
    · exact Or.inr hy
    · exact hp y hy

theorem Site.Knows.later (h : S.Knows) (hst : S.start.fresh ≤ st.fresh) :
    Site.Knows { S with start := st, stop := st', op := op } :=
  ⟨h.below.mono hst, h.closed⟩

theorem Site.Knows.bind {x : String} (h : S.Knows)
    (hst : S.start.fresh ≤ st.fresh) :
    Site.Knows { S with bound := (x : Name) :: S.bound, start := st, stop := st', op := op } where
  below := (h.below.mono hst).cons_named x
  closed v hv := by
    rcases mem_cons.mp hv with rfl | hv
    · intro y hy
      rw [mem_singleton.mp hy]
      exact mem_cons_self
    · exact fun y hy => mem_cons_of_mem _ (h.closed v hv y hy)

/-! ## Premises that check -/

/-- **A premise planned as a condition on two terms.** -/
theorem leads_condition {l r : Term} {cond : Operand → Operand → Condition}
    {f : List Value → Result Bool} (hS : S.Knows)
    (h : (do
      let body ← plan S.bound
      withEval2 l r fun lo ro => pure (.filter (cond lo ro) body)) S.start = .ok (S.op, S.stop))
    (hknown : Known (namedIn S.bound) (l.allVars ++ r.allVars))
    (hread : ∀ (B : Set Name) lo ro, lo.Reads B → ro.Reads B → (cond lo ro).Reads B)
    (heval : ∀ ρ lo ro x y, evalOperand ρ lo = .ok x → evalOperand ρ ro = .ok y →
      evalCond c.reader ρ (cond lo ro) = f [x, y]) :
    Leads rt c W S (fun τ => ∃ vs, evalTerms rt τ [l, r] = .ok vs ∧ f vs = .ok true) plan
        (namedIn S.bound) ∧
      ∀ σ es, S.Yields rt c σ es → ∃ vs b, evalTerms rt σ [l, r] = .ok vs ∧ f vs = .ok b := by
  obtain ⟨body, st₁, hbody, h⟩ := planM_bind_ok.mp h
  obtain ⟨lets, lo, ro, st₂, inner, hemit, hk, hop⟩ := withEval2_ok h
  obtain ⟨rfl, rfl⟩ := planM_pure_ok.mp hk
  obtain ⟨hred, hrun⟩ := @Reduces.filter rt c W S st₁ body [l, r] lets [lo, ro] (cond lo ro)
    f hS hemit hop (by simpa [Term.allVarsList] using hknown)
    (fun B hops => hread B lo ro (hops lo (by simp)) (hops ro (by simp)))
    fun ρ vs hvs => by
      obtain ⟨x, y, rfl, hx, hy⟩ := evalOperands_pair hvs
      exact heval ρ lo ro x y hx hy
  exact ⟨⟨{ S with stop := st₁, op := body }, hbody, hS.later le_rfl, rfl, hred⟩, hrun⟩

/-- The outcome of a comparison of two values. -/
def testPair (o : CmpOp) : List Value → Result Bool
  | [x, y] => .ok (evalCmp o x y)
  | _ => .ok false

theorem testPair_iff {o : CmpOp} {l r : Term} {τ : Subst} :
    (∃ vs, evalTerms rt τ [l, r] = .ok vs ∧ testPair o vs = .ok true) ↔
      ∃ x y, evalTerm rt τ l = .ok x ∧ evalTerm rt τ r = .ok y ∧ evalCmp o x y = true := by
  simp only [evalTerms_pair_iff]
  constructor
  · rintro ⟨_, ⟨x, y, rfl, hx, hy⟩, h⟩
    exact ⟨x, y, hx, hy, Except.ok.inj h⟩
  · rintro ⟨x, y, hx, hy, h⟩
    exact ⟨_, ⟨x, y, rfl, hx, hy⟩, congrArg Except.ok h⟩

theorem evalCond_cmp {r : Reader} {o : CmpOp} {x y : Value} (hx : evalOperand ρ lo = .ok x)
    (hy : evalOperand ρ ro = .ok y) : evalCond r ρ (.cmp o lo ro) = .ok (evalCmp o x y) := by
  simp only [evalCond, hx, hy, ok_bind]
  rfl

theorem evalCond_call {r : Reader} {pred : String} {x y : Value} (hx : evalOperand ρ lo = .ok x)
    (hy : evalOperand ρ ro = .ok y) :
    evalCond r ρ (.call pred [lo, ro]) = evalBuiltinPredicate pred [x, y] := by
  simp only [evalCond, evalOperands, mapM_cons, mapM_nil, hx, hy]
  rfl

theorem reads_call {B : Set Name} {pred : String} (hpred : pred ≠ ":match_field") (hl : lo.Reads B)
    (hr : ro.Reads B) : (Condition.call pred [lo, ro]).Reads B := by
  refine ⟨by simp [builtinArgs, hpred], fun a ha => ?_⟩
  simp only [mem_cons, not_mem_nil, or_false] at ha
  rcases ha with rfl | rfl
  · exact hl
  · exact hr

/-- The outcome of a negated condition. -/
theorem evalCond_not {r : Reader} {cond : Condition} {v : Result Bool} (h : evalCond r ρ cond = v) :
    evalCond r ρ (.not cond) = v >>= fun b => .ok (!b) := by
  simp only [evalCond, h]
  rfl

/-- **How a premise is planned** in front of others: they run for what satisfies it. -/
def LeadsPremise (rt : Runtime) (c : Tiers) (W : Set Name) (cfg : PlanConfig)
    (k : List Name → PlanM Op) (ps : List Premise) (S : Site) (p : Premise) : Prop :=
  planJoinSequence cfg k (p :: ps) S.bound S.start = .ok (S.op, S.stop) →
    Leads rt c W S (SatAt rt c · cfg (namedIn S.bound) p) (planJoinSequence cfg k ps)
      (namedIn S.bound ∪ {x | x ∈ p.allVars})

section Checks

variable {cfg : PlanConfig} {k : List Name → PlanM Op} {l r : Term} {pred : String}
  {args : List Term}

/-- **A comparison or another built-in predicate.** -/
theorem leads_builtin (hkind : (∃ o, atomKind pred = .comparison o) ∨ atomKind pred = .call)
    (hS : S.Knows) (hev : Evaluable (namedIn S.bound) (.atom pred args)) :
    LeadsPremise rt c W cfg k ps S (.atom pred args) := by
  intro h
  have hknown : Known (namedIn S.bound) (Premise.atom pred args).allVars := by
    rcases hkind with ⟨o, hkind⟩ | hkind <;> simpa [Evaluable, hkind, Premise.allVars] using hev
  unfold planJoinSequence at h
  rcases hkind with ⟨o, hkind⟩ | hkind
  all_goals
    simp only [hkind] at h
    split at h
    case h_2 => cases h
    rename_i l r
    have hlr : Known (namedIn S.bound) (l.allVars ++ r.allVars) := by
      simpa [Premise.allVars, Term.allVarsList] using hknown
  · refine (leads_condition (f := testPair o) hS h hlr (fun _ _ _ hl hr => ⟨hl, hr⟩)
      (fun _ _ _ _ _ => evalCond_cmp)).1.congr (fun τ => ?_) (known_after hknown)
    rw [satAt_iff_sat_of_kind (by simp [hkind]), testPair_iff]
    simp only [Sat, Holds, hkind, evalTerms_pair_iff]
    constructor
    · rintro ⟨x, y, hx, hy, h⟩
      exact ⟨_, ⟨x, y, rfl, hx, hy⟩, x, y, rfl, h⟩
    · rintro ⟨_, ⟨x, y, rfl, hx, hy⟩, x', y', heq, h⟩
      cases heq
      exact ⟨x, y, hx, hy, h⟩
  · refine (leads_condition (f := evalBuiltinPredicate pred) hS h hlr (fun _ _ _ => reads_call ?_)
      (fun _ _ _ _ _ => evalCond_call)).1.congr (fun τ => ?_) (known_after hknown)
    · rintro rfl
      cases hkind
    · rw [satAt_iff_sat_of_kind (by simp [hkind])]
      simp only [Sat, Holds, hkind]
      exact exists_congr fun vs => and_congr_right fun hvs =>
        (and_iff_right (length_evalTerms hvs)).symm

/-- **An inequality.** -/
theorem leads_ineq (hS : S.Knows) (hev : Evaluable (namedIn S.bound) (.ineq l r)) :
    LeadsPremise rt c W cfg k ps S (.ineq l r) := by
  intro h
  refine (leads_condition (f := testPair .neq) hS h hev (fun _ _ _ hl hr => ⟨hl, hr⟩)
    fun _ _ _ _ _ => evalCond_cmp).1.congr (fun τ => ?_) (known_after hev)
  rw [satAt_iff_sat (by simp), testPair_iff]
  simp [Sat, evalCmp]

/-- An equality that binds a variable to the value of a term. -/
theorem leads_binding {x : String} {e : Term} (hS : S.Knows) (hx : x ∉ namedIn S.bound)
    (he : Known (namedIn S.bound) e.allVars)
    (h : instToExpr e (fun expr => do
      let body ← plan ((x : Name) :: S.bound)
      pure (.bind x expr body)) S.start = .ok (S.op, S.stop)) :
    Leads rt c W S (fun τ => evalTerm rt τ e = .ok (τ x)) plan (insert x (namedIn S.bound)) := by
  rw [instToExpr_eq] at h
  obtain ⟨⟨lets, expr⟩, st₁, hemit, h⟩ := planM_bind_ok.mp h
  obtain ⟨inner, hinner, hop⟩ := planM_map_ok.mp h
  obtain ⟨body, hbody, rfl⟩ := planM_map_ok.mp hinner
  exact ⟨_, hbody, hS.bind (emitExpr_emitted hemit).le, namedIn_cons x,
    @Reduces.bindExpr lets x e rt c W S st₁ body expr hS hemit hop.symm hx he⟩

/-- **An equality**, which binds a variable or checks. -/
theorem leads_eq (hS : S.Knows) (hev : Evaluable (namedIn S.bound) (.eq l r)) :
    LeadsPremise rt c W cfg k ps S (.eq l r) := by
  intro h
  unfold planJoinSequence at h
  cases hl : eqAsBinding S.bound l r with
  | some p =>
    obtain ⟨x, e⟩ := p
    simp only [hl, Option.some_or] at h
    obtain ⟨rfl, hx, rfl⟩ := eqAsBinding_some hl
    have he : Known (namedIn S.bound) e.allVars := by
      rcases hev with ⟨y, -, -, he⟩ | ⟨y, -, -, hy⟩ | hall
      · exact he
      · exact absurd (hy x (by simp [Term.allVars])) hx
      · exact absurd (hall x (by simp [Term.allVars])) hx
    refine (leads_binding hS hx he h).congr (fun τ => ?_) (insert_after ?_ fun y hy => ?_)
    · rw [satAt_iff_sat (by simp)]
      simp [Sat, evalTerm]
    · simp [Premise.allVars, Term.allVars]
    · simp only [Premise.allVars, Term.allVars, singleton_append, mem_cons] at hy
      exact hy.imp_right (he y)
  | none =>
    simp only [hl, Option.none_or] at h
    cases hr : eqAsBinding S.bound r l with
    | some p =>
      obtain ⟨x, e⟩ := p
      simp only [hr] at h
      obtain ⟨rfl, hx, rfl⟩ := eqAsBinding_some hr
      have he : Known (namedIn S.bound) e.allVars := by
        rcases hev with ⟨y, hy, hyb, -⟩ | ⟨y, -, -, he⟩ | hall
        · exact absurd (eqAsBinding_none hl hy) hyb
        · exact he
        · exact absurd (hall x (by simp [Term.allVars])) hx
      refine (leads_binding hS hx he h).congr (fun τ => ?_) (insert_after ?_ fun y hy => ?_)
      · rw [satAt_iff_sat (by simp)]
        simp [Sat, evalTerm]
      · simp [Premise.allVars, Term.allVars]
      · simp only [Premise.allVars, Term.allVars, mem_append, mem_singleton] at hy
        exact hy.symm.imp_right (he y)
    | none =>
      simp only [hr] at h
      have hall : Known (namedIn S.bound) (l.allVars ++ r.allVars) := by
        rcases hev with ⟨y, hy, hyb, -⟩ | ⟨y, hy, hyb, -⟩ | hall
        · exact absurd (eqAsBinding_none hl hy) hyb
        · exact absurd (eqAsBinding_none hr hy) hyb
        · exact hall
      refine (leads_condition (f := testPair .eq) hS h hall (fun _ _ _ hl hr => ⟨hl, hr⟩)
        fun _ _ _ _ _ => evalCond_cmp).1.congr (fun τ => ?_) (known_after hall)
      rw [satAt_iff_sat (by simp), testPair_iff]
      simp only [Sat, evalCmp, decide_eq_true_eq]
      constructor
      · rintro ⟨x, _, hx, hy, rfl⟩
        exact ⟨x, hx, hy⟩
      · rintro ⟨x, hx, hy⟩
        exact ⟨x, x, hx, hy, rfl⟩

/-! ## Premises that walk a struct or a list -/

/-- **A premise that walks the candidates of a term's value**: it binds a variable to each, or
checks a known term against them. -/
theorem leads_loop {t out : Term} {pre : String} {mk : Operand → Name → Op → Op}
    {cands : Value → List Value} (hS : S.Knows)
    (hloop : ∀ o x body, Loop rt c (mk o x body) o x body cands)
    (ht : Known (namedIn S.bound) t.allVars) (hout : TermReady (namedIn S.bound) out)
    (hp : ∀ x, x ∈ p.allVars ↔ x ∈ t.allVars ∨ x ∈ out.allVars)
    (h : (match unboundVar S.bound out with
      | some x => do
          let body ← plan ((x : Name) :: S.bound)
          withEval t fun o => pure (mk o x body)
      | none => do
          let fresh ← freshVar pre
          let body ← plan S.bound
          withEval2 t out fun o eo =>
            pure (mk o fresh (eqFilter (.var fresh) eo body)) : PlanM Op) S.start =
        .ok (S.op, S.stop)) :
    Leads rt c W S
      (fun τ => ∃ v w, evalTerm rt τ t = .ok v ∧ evalTerm rt τ out = .ok w ∧ w ∈ cands v) plan
      (namedIn S.bound ∪ {x | x ∈ p.allVars}) := by
  cases hx : unboundVar S.bound out with
  | some x =>
    simp only [hx] at h
    obtain ⟨rfl, hxb⟩ := unboundVar_eq_some.mp hx
    obtain ⟨body, st₁, hbody, h⟩ := planM_bind_ok.mp h
    obtain ⟨lets, o, st₂, inner, hemit, hk, hop⟩ := withEval_ok h
    obtain ⟨rfl, rfl⟩ := planM_pure_ok.mp hk
    refine Leads.congr ⟨_, hbody, hS.bind le_rfl, namedIn_cons x,
      .loopBind hS (hloop o x body) hemit hop hxb ht⟩ (fun τ => by simp [evalTerm])
      (insert_after ((hp x).mpr (by simp [Term.allVars])) fun y hy => ?_)
    exact ((hp y).mp hy).symm.imp (by simp [Term.allVars]) (ht y)
  | none =>
    simp only [hx] at h
    obtain ⟨fresh, st₀, hfresh, h⟩ := planM_bind_ok.mp h
    obtain ⟨rfl, rfl⟩ := freshVar_ok.mp hfresh
    obtain ⟨body, st₁, hbody, h⟩ := planM_bind_ok.mp h
    obtain ⟨lets, o, eo, st₂, inner, hemit, hk, hop⟩ := withEval2_ok h
    obtain ⟨rfl, rfl⟩ := planM_pure_ok.mp hk
    have hout := hout.known hx
    have hknown : Known (namedIn S.bound) (Term.allVarsList [t, out]) := by
      simpa [Term.allVarsList, known_append] using ⟨ht, hout⟩
    exact ⟨{ S with start := _, stop := st₁, op := body }, hbody, hS.later (Nat.le_succ _),
      known_after fun y hy => ((hp y).mp hy).elim (ht y) (hout y),
      .loopCheck hS (hloop o _ _) hemit hop hknown⟩

/-- **`:match_field`**, which binds a variable to the field's value or checks it. -/
theorem leads_matchField (hkind : atomKind pred = .matchField) (hS : S.Knows)
    (hev : Evaluable (namedIn S.bound) (.atom pred args)) :
    LeadsPremise rt c W cfg k ps S (.atom pred args) := by
  intro h
  unfold planJoinSequence at h
  simp only [hkind] at h
  split at h
  · rename_i t field out
    simp only [Evaluable, hkind] at hev
    obtain ⟨ht, hout⟩ := hev _ _ _ rfl
    refine (leads_loop hS (fun o x body => .matchField o field x body) ht hout
      (by simp [Premise.allVars, Term.allVarsList, Term.allVars]) h).congr (fun τ => ?_) rfl
    rw [satAt_iff_sat_of_kind (by simp [hkind]), sat_matchField hkind]
  · cases h
  · cases h

/-- **`:list:member`**, which binds a variable to each element or checks one. -/
theorem leads_listMember (hkind : atomKind pred = .listMember) (hS : S.Knows)
    (hev : Evaluable (namedIn S.bound) (.atom pred args)) :
    LeadsPremise rt c W cfg k ps S (.atom pred args) := by
  intro h
  unfold planJoinSequence at h
  simp only [hkind] at h
  split at h
  · rename_i elem list
    simp only [Evaluable, hkind] at hev
    obtain ⟨hlist, helem⟩ := hev _ _ rfl
    refine (leads_loop hS .iterateList hlist helem
      (by simp [Premise.allVars, Term.allVarsList, or_comm]) h).congr (fun τ => ?_) rfl
    rw [satAt_iff_sat_of_kind (by simp [hkind]), sat_listMember hkind]
  · cases h

/-! ## Negated atoms -/

/-- `require_bound_args` only checks. -/
theorem requireBoundArgs_bind {bound : List Name} {context : String} {m : PlanM Op}
    (h : (do requireBoundArgs args bound context; m) st =
      .ok (op, st')) : m st = .ok (op, st') := by
  obtain ⟨u, st₀, hreq, hm⟩ := planM_bind_ok.mp h
  unfold requireBoundArgs at hreq
  split at hreq
  · cases hreq
  · rwa [(planM_pure_ok.mp hreq).2]

variable {ops : List Operand}

/-- The arguments of a negated atom are evaluated without lets. -/
theorem mapM_negArg_ok (h : args.mapM negArg st = .ok (ops, st')) :
    Emits st args [] ops st ∧ st' = st := by
  induction args generalizing ops with
  | nil =>
    obtain ⟨rfl, rfl⟩ := planM_pure_ok.mp h
    exact ⟨.nil st, rfl⟩
  | cons t ts ih =>
    rw [mapM_cons] at h
    obtain ⟨o, st₁, ho, h⟩ := planM_bind_ok.mp h
    obtain ⟨os, hos, rfl⟩ := planM_map_ok.mp h
    have ht : leafOperand t = some o ∧ st₁ = st := by
      cases t with
      | bool b => cases ho
      | bytes b => cases ho
      | app head args => cases ho
      | _ =>
        obtain ⟨rfl, rfl⟩ := planM_pure_ok.mp ho
        exact ⟨rfl, rfl⟩
    rw [ht.2] at hos
    obtain ⟨hrest, rfl⟩ := ih hos
    exact ⟨.leaf ht.1 hrest, rfl⟩

theorem matchArgs_ok {vs : List Value} (h : evalOperands ρ ops = .ok vs)
    {row : Tuple} (hlen : row.length = ops.length) :
    matchArgs ρ ops row = .ok (decide (row = vs)) := by
  induction ops generalizing vs row with
  | nil =>
    obtain rfl : vs = [] := (Except.ok.inj h).symm
    obtain rfl : row = [] := length_eq_zero_iff.mp hlen
    rfl
  | cons o os ih =>
    unfold evalOperands at h
    rw [mapM_cons] at h
    obtain ⟨v, hv, h⟩ := bind_eq_ok.mp h
    obtain ⟨ws, hws, rfl⟩ := bind_eq_pure.mp h
    obtain ⟨a, row, rfl⟩ := exists_cons_of_length_eq_add_one hlen
    simp only [matchArgs, hv, ok_bind]
    rcases eq_or_ne a v with rfl | hne
    · simpa using ih hws (by simpa using hlen)
    · simp [hne]

/-- A negation holds when no row equals its arguments. -/
theorem noMatch_ok {vs : List Value} (h : evalOperands ρ ops = .ok vs)
    (hlen : vs.length = ops.length) (rows : List Tuple) :
    noMatch ρ ops rows = .ok (decide (vs ∉ rows)) := by
  induction rows with
  | nil => simp [noMatch]
  | cons row rows ih =>
    unfold noMatch
    split
    · rename_i hne
      rw [ih]
      have : vs ≠ row := fun heq => hne (heq ▸ hlen)
      simp [this]
    · rename_i heq
      rw [matchArgs_ok h (not_not.mp heq), ok_bind, ih]
      rcases eq_or_ne row vs with rfl | hne
      · simp [pure, Except.pure]
      · simp [hne, hne.symm]

theorem fails_iff {vs : Tuple} (hlen : ∀ o, atomKind pred = .comparison o → vs.length = 2) :
    Fails c pred vs ↔ (testAtom c pred vs >>= fun b => .ok !b) = .ok true := by
  have hnot (b : Result Bool) : b = .ok false ↔ (b >>= fun b => .ok !b) = .ok true := by
    rcases b with e | _ | _ <;> simp [bind, Except.bind]
  rw [← hnot]
  unfold Fails testAtom
  cases hkind : atomKind pred with
  | comparison o =>
    match vs, hlen o hkind with
    | [x, y], _ => simp
  | stored => simp
  | _ => exact Iff.rfl

/-- **A negated atom**: its arguments have been tested where the operation has not failed. -/
theorem leads_negAtom (hS : S.Knows) (hev : Evaluable (namedIn S.bound) (.negAtom pred args))
    (h : planJoinSequence cfg k (.negAtom pred args :: ps) S.bound S.start = .ok (S.op, S.stop)) :
    Leads rt c W S (SatAt rt c · cfg (namedIn S.bound) (.negAtom pred args))
        (planJoinSequence cfg k ps)
        (namedIn S.bound ∪ {x | x ∈ (Premise.negAtom pred args).allVars}) ∧
      ∀ σ es, S.Yields rt c σ es →
        ∃ vs b, evalTerms rt σ args = .ok vs ∧ testAtom c pred vs = .ok b := by
  have hknown : Known (namedIn S.bound) (Term.allVarsList args) := hev
  suffices htest : (∀ o, atomKind pred = .comparison o → args.length = 2) ∧
      Leads rt c W S (fun τ => ∃ vs, evalTerms rt τ args = .ok vs ∧
          (testAtom c pred vs >>= fun b => .ok !b) = .ok true)
        (planJoinSequence cfg k ps) (namedIn S.bound) ∧
      ∀ σ es, S.Yields rt c σ es → ∃ vs b, evalTerms rt σ args = .ok vs ∧
        (testAtom c pred vs >>= fun b => .ok !b) = .ok b by
    obtain ⟨hlen, hleads, hrun⟩ := htest
    refine ⟨hleads.congr (fun τ => ?_) (known_after (p := .negAtom pred args) hev),
      fun σ es hy => ?_⟩
    · rw [satAt_iff_sat (by simp), Sat]
      refine exists_congr fun vs => and_congr_right fun hvs => ?_
      exact (fails_iff fun o ho => (length_evalTerms hvs).trans (hlen o ho)).symm
    · obtain ⟨vs, _, hvs, htest⟩ := hrun σ es hy
      obtain ⟨b, hb, -⟩ := bind_eq_ok.mp htest
      exact ⟨vs, b, hvs, hb⟩
  unfold planJoinSequence at h
  cases hkind : atomKind pred with
  | listMember | call =>
    simp only [hkind] at h
    split at h
    · rename_i l r
      refine ⟨by simp, leads_condition hS (requireBoundArgs_bind h)
        (by simpa [Term.allVarsList] using hknown) (fun _ _ _ => reads_call ?_)
        fun _ _ _ _ _ hx hy => ?_⟩
      · rintro rfl
        cases hkind
      · rw [evalCond_not (evalCond_call hx hy), testAtom, hkind]
    · cases h
  | matchField =>
    simp only [hkind] at h
    split at h
    · rename_i t field out
      -- the condition gets the field between the values of the two terms
      have hargs (τ : Subst) (b : Bool) : (∃ vs, evalTerms rt τ [t, out] = .ok vs ∧
          (testAtom c pred [vs.headD .null, .name field, vs.getD 1 .null] >>= fun b => .ok !b) =
            .ok b) ↔ ∃ us, evalTerms rt τ [t, .name field, out] = .ok us ∧
              (testAtom c pred us >>= fun b => .ok !b) = .ok b := by
        constructor
        · rintro ⟨_, hvs, h⟩
          obtain ⟨x, y, hx, hy, rfl⟩ := evalTerms_pair hvs
          exact ⟨_, by simp [evalTerms, evalTerm, hx, hy, pure, Except.pure], h⟩
        · rintro ⟨us, hus, h⟩
          obtain ⟨x, f, y, rfl⟩ := length_eq_three.mp (length_evalTerms hus)
          simp only [evalTerms_cons_ok, evalTerm, Except.ok.injEq] at hus
          obtain ⟨hx, rfl, hy, -⟩ := hus
          exact ⟨[x, y], evalTerms_pair_iff.mpr ⟨x, y, rfl, hx, hy⟩, h⟩
      have hreads (B : Set Name) (so vo : Operand) (hs : so.Reads B) (hv : vo.Reads B) :
          (Condition.not (.call pred [so, .const (.name field), vo])).Reads B := by
        have hconst : (Operand.const (.name field)).Reads B := trivial
        refine ⟨?_, by simp [hs, hv, hconst]⟩
        unfold builtinArgs
        split <;> simp
      have hevals (ρ : Env) (so vo : Operand) (x y : Value) (hx : evalOperand ρ so = .ok x)
          (hy : evalOperand ρ vo = .ok y) :
          evalCond c.reader ρ (.call pred [so, .const (.name field), vo]) =
            testAtom c pred [x, .name field, y] := by
        simp only [testAtom, hkind, evalCond, evalOperands, mapM_cons, mapM_nil, hx, hy]
        rfl
      obtain ⟨hleads, hrun⟩ := leads_condition (c := c) (W := W) (f := fun vs => testAtom c pred
          [vs.headD .null, .name field, vs.getD 1 .null] >>= fun b => .ok !b) hS
        (requireBoundArgs_bind h) (by simpa [Term.allVarsList, Term.allVars] using hknown) hreads
        fun ρ so vo x y hx hy => evalCond_not (hevals ρ so vo x y hx hy)
      refine ⟨by simp, hleads.congr (fun τ => hargs τ true) rfl, fun σ es hy => ?_⟩
      obtain ⟨vs, b, hvs, hb⟩ := hrun σ es hy
      obtain ⟨us, hus, hb⟩ := (hargs σ b).mp ⟨vs, hvs, hb⟩
      exact ⟨us, b, hus, hb⟩
    · cases h
    · cases h
  | comparison o =>
    simp only [hkind] at h
    split at h
    · rename_i l r
      refine ⟨by simp, leads_condition hS (requireBoundArgs_bind h)
        (by simpa [Term.allVarsList] using hknown) (fun _ _ _ hl hr => ⟨hl, hr⟩)
        fun _ _ _ _ _ hx hy => ?_⟩
      rw [evalCond_not (evalCond_cmp hx hy), testAtom, hkind]
    · cases h
  | stored =>
    simp only [hkind] at h
    split at h
    · cases h
    · obtain ⟨body, st₁, hbody, h⟩ := planM_bind_ok.mp h
      obtain ⟨ops, hops, hop⟩ := planM_map_ok.mp h
      obtain ⟨hemit, rfl⟩ := mapM_negArg_ok hops
      obtain ⟨hred, hrun⟩ := @Reduces.filter rt c W S _ body args _ ops _
        (fun vs => testAtom c pred vs >>= fun b => .ok !b) hS hemit hop.symm hknown
        (fun B hops => hops) fun ρ vs hvs => by
          refine (noMatch_ok hvs (length_evalOperands hvs) (c.visible pred)).trans ?_
          simp [testAtom, hkind]
      exact ⟨by simp, ⟨{ S with stop := _, op := body }, hbody, hS.later le_rfl, rfl, hred⟩, hrun⟩

/-! ## Stored atoms -/

/-- **A loop over the rows of a stored relation.** -/
theorem leads_nested (hkind : atomKind pred = .stored) (hS : S.Knows)
    (hev : Evaluable (namedIn S.bound) (.atom pred args))
    (h : (do
      let vars ← scanVars S.bound [] args
      let body ← plan (vars ++ S.bound)
      let body ← applyConstraints args vars body
      pure (.iterate (atomSource cfg pred (indexLookup S.bound 0 args) vars) body) : PlanM Op)
        S.start = .ok (S.op, S.stop)) :
    Leads rt c W S (SatAt rt c · cfg (namedIn S.bound) (.atom pred args)) plan
      (namedIn S.bound ∪ {x | x ∈ (Premise.atom pred args).allVars}) := by
  simp only [Evaluable, hkind] at hev
  obtain ⟨vars, st₁, hscan, h⟩ := planM_bind_ok.mp h
  obtain ⟨body, st₂, hbody, h⟩ := planM_bind_ok.mp h
  obtain ⟨op', hcons, hop⟩ := planM_map_ok.mp h
  have hvars : Scanned S.bound [] args S.start st₁ vars := scanVars_scanned hscan
  have hcovers : ∀ x ∈ Term.allVarsList args, (x : Name) ∈ vars ++ S.bound := by
    intro x hx
    rcases hev x hx with hb | ha
    · exact mem_append_right _ hb
    · exact hvars.covers x ha
  refine ⟨S.scanned vars args st₁ st₂ body, hbody, ⟨?_, ?_⟩, ?_,
    .iterate hS hkind hvars hcons hop.symm hcovers⟩
  · intro pre id hmem
    rcases mem_append.mp hmem with hmem | hmem
    · rcases hvars.new _ hmem with ⟨pre', id', heq, -, hlt⟩ | ⟨x, hx, -⟩
      · rw [(Name.fresh.inj heq).2]
        exact hlt
      · cases hx
    · exact (hS.below pre id hmem).trans_le hvars.le
  · intro v hv x hx
    rcases hvars.term hv with hmem | ⟨hvb, hterm⟩
    · exact hcovers x (mem_allVarsList.mpr ⟨_, (of_mem_zip hmem).2, hx⟩)
    · exact mem_append_right _ (hS.closed v hvb x (hterm ▸ hx))
  · ext x
    constructor
    · intro hx
      rcases mem_append.mp hx with hx | hx
      · exact Or.inr (mem_allVarsList.mpr
          ⟨_, (of_mem_zip (hvars.column x hx)).2, by simp [Term.allVars]⟩)
      · exact Or.inl hx
    · rintro (hx | hx)
      · exact mem_append_right _ hx
      · exact hcovers x hx

/-- **Two stored relations joined by a hash table.** -/
theorem leads_hashJoin {next : Premise} {build probe : DataSource} {keys : List Name}
    (hjoin : tryPlanHashJoin cfg pred args next S.bound = some (build, probe, keys))
    (hkind : atomKind pred = .stored)
    (hnext : ∀ pred args, next = .atom pred args → atomKind pred = .stored) (hS : S.Knows)
    (h : (do
      let body ← plan (build.vars ++ probe.vars ++ S.bound)
      pure (.hashJoin build probe keys body) : PlanM Op) S.start = .ok (S.op, S.stop)) :
    Leads rt c W S (fun τ => Sat rt c τ (.atom pred args) ∧ Sat rt c τ next) plan
      (namedIn S.bound ∪ {x | x ∈ (Premise.atom pred args).allVars} ∪ {x | x ∈ next.allVars}) := by
  obtain ⟨nextPred, xs, ys, rfl, rfl, rfl, rfl, hkeys, hnodup, hnew, -⟩ :=
    tryPlanHashJoin_some hjoin
  obtain ⟨body, hbody, hop⟩ := planM_map_ok.mp h
  simp only [DataSource.vars, append_assoc] at hbody
  refine Leads.congr ⟨{ S with
      bound := xs.map Name.named ++ (ys.map Name.named ++ S.bound), op := body },
    hbody, ⟨?_, ?_⟩, rfl, .hashJoin hS hnodup hkeys hnew hop.symm⟩ (fun τ => ?_) ?_
  · intro pre id hmem
    simp only [mem_append, mem_map, reduceCtorEq, and_false, exists_false,
      false_or] at hmem
    exact hS.below pre id hmem
  · intro v hv x hx
    simp only [mem_append] at hv
    rcases hv with hv | hv | hv
    · obtain ⟨y, hy, rfl⟩ := mem_map.mp hv
      rw [mem_singleton.mp hx]
      exact mem_append_left _ hv
    · obtain ⟨y, hy, rfl⟩ := mem_map.mp hv
      rw [mem_singleton.mp hx]
      exact mem_append_right _ (mem_append_left _ hv)
    · exact mem_append_right _ (mem_append_right _ (hS.closed v hv x hx))
  · simp [Sat, Holds, hkind, hnext _ _ rfl, evalTerms_vars]
  · ext x
    simp only [namedIn, Premise.allVars, allVarsList_vars, Set.mem_union, Set.mem_ofPred_eq,
      mem_append, mem_map, Name.named.injEq, exists_eq_right]
    tauto

end Checks

/-! ## Bodies -/

/-- The arguments are distinct variables without values. -/
def FreshVars (X : Set String) (args : List Term) : Prop :=
  ∃ xs : List String, args = xs.map .var ∧ xs.Nodup ∧ ∀ x ∈ xs, x ∉ X

/-- `try_plan_hash_join` takes the premises for a join: the first is over a stored relation, both
are atoms over distinct variables without values, and they share one. -/
def MayJoin (X : Set String) : Premise → Premise → Prop
  | .atom pred args, .atom _ nextArgs => atomKind pred = .stored ∧ FreshVars X args ∧
      FreshVars X nextArgs ∧ ∃ x, .var x ∈ args ∧ .var x ∈ nextArgs
  | _, _ => False

/-- An atom over a stored relation. -/
def Premise.Stored : Premise → Prop
  | .atom pred _ => atomKind pred = .stored
  | .negAtom .. | .eq .. | .ineq .. => False

/-- **Premises that are taken for a join are over stored relations.** -/
def JoinsStored : Set String → List Premise → Prop
  | _, [] => True
  | X, p :: ps => (∀ q ∈ ps.head?, MayJoin X p q → q.Stored) ∧
      JoinsStored (X ∪ {x | x ∈ p.allVars}) ps

theorem joinsStored_of_all
    (h : ∀ pred args, .atom pred args ∈ ps → atomKind pred = .stored) : JoinsStored X ps := by
  induction ps generalizing X with
  | nil => trivial
  | cons p ps ih =>
    refine ⟨fun q hq hjoin => ?_,
      ih fun pred args hmem => h pred args (mem_cons_of_mem p hmem)⟩
    cases q with
    | atom pred args => exact h pred args (mem_cons_of_mem p (mem_of_mem_head? hq))
    | _ => cases p <;> exact hjoin.elim

variable {cfg : PlanConfig} {k : List Name → PlanM Op}

/-- One premise that is not joined. -/
theorem leads_premise (hS : S.Knows) (hev : Evaluable (namedIn S.bound) p)
    (hno : ∀ pred args next rest, p = .atom pred args → ps = next :: rest →
      atomKind pred = .stored → (if cfg.hashJoin && cfg.deltaPred.isNone
        then tryPlanHashJoin cfg pred args next S.bound else none) = none) :
    LeadsPremise rt c W cfg k ps S p := by
  intro h
  cases p with
  | eq l r => exact leads_eq hS hev h
  | ineq l r => exact leads_ineq hS hev h
  | negAtom pred args => exact (leads_negAtom hS hev h).1
  | atom pred args =>
    cases hkind : atomKind pred with
    | comparison o => exact leads_builtin (Or.inl ⟨o, hkind⟩) hS hev h
    | call => exact leads_builtin (Or.inr hkind) hS hev h
    | matchField => exact leads_matchField hkind hS hev h
    | listMember => exact leads_listMember hkind hS hev h
    | stored =>
      unfold planJoinSequence at h
      simp only [hkind] at h
      cases ps with
      | nil => exact leads_nested hkind hS hev h
      | cons next rest =>
        simp only [hno pred args next rest rfl rfl hkind] at h
        exact leads_nested hkind hS hev h

/-- **A planned body runs what follows for what satisfies it**, when its premises can be evaluated
in planning order. -/
theorem planJoinSequence_leads
    (hjoin : cfg.hashJoin = true → cfg.deltaPred = none → JoinsStored (namedIn S.bound) ps)
    (hev : EvaluableSeq (namedIn S.bound) ps) (hS : S.Knows)
    (h : planJoinSequence cfg k ps S.bound S.start = .ok (S.op, S.stop)) :
    Leads rt c W S (SatSeq rt c · cfg (namedIn S.bound) ps) k
      (namedIn S.bound ∪ {x | x ∈ premiseVars ps}) := by
  induction hn : ps.length using Nat.strong_induction_on generalizing S ps with
  | _ n ih =>
    cases ps with
    | nil => exact ⟨S, h, hS, by simp [premiseVars], .refl fun _ => trivial⟩
    | cons p ps =>
      by_cases hno : ∀ pred args next rest, p = .atom pred args → ps = next :: rest →
        atomKind pred = .stored → (if cfg.hashJoin && cfg.deltaPred.isNone
          then tryPlanHashJoin cfg pred args next S.bound else none) = none
      · obtain ⟨S₁, hplan₁, hS₁, hX₁, hred₁⟩ : Leads rt c W S _ _ _ :=
          leads_premise hS hev.1 hno h
        obtain ⟨S₂, hplan₂, hS₂, hX₂, hred₂⟩ := ih ps.length (by simp [← hn])
          (fun hon hdelta => hX₁ ▸ (hjoin hon hdelta).2) (hX₁ ▸ hev.2) hS₁ hplan₁ rfl
        refine ⟨S₂, hplan₂, hS₂, ?_, ?_⟩
        · rw [hX₂, hX₁]
          ext x
          simp [premiseVars, or_assoc]
        · rw [hX₁] at hred₂
          refine hred₁.trans hred₂ (hX₁ ▸ Set.subset_union_left) fun σ τ heq hσ => ?_
          exact (satAt_eqOn fun x hx => heq (hX₁ ▸ Or.inr hx)).mpr hσ
      · push Not at hno
        obtain ⟨pred, args, next, rest, rfl, rfl, hkind, hfound⟩ := hno
        obtain ⟨⟨build, probe, keys⟩, hfound⟩ := Option.ne_none_iff_exists'.mp hfound
        unfold planJoinSequence at h
        simp only [hkind, hfound] at h
        obtain ⟨hon, hfound⟩ := Option.ite_none_right_eq_some.mp hfound
        obtain ⟨hon, hdelta⟩ := Bool.and_eq_true_iff.mp hon
        have hdelta : cfg.deltaPred = none := by simpa using hdelta
        have hnext : ∀ pred' args', next = .atom pred' args' → atomKind pred' = .stored := by
          rintro pred' args' rfl
          obtain ⟨_, xs, ys, heq, rfl, -, -, -, hnodup, hnew, x, hx, hy⟩ :=
            tryPlanHashJoin_some hfound
          obtain ⟨rfl, rfl⟩ := Premise.atom.inj heq
          refine (hjoin hon hdelta).1 _ rfl ⟨hkind, ⟨xs, rfl, hnodup.1, fun z hz => ?_⟩,
            ⟨ys, rfl, hnodup.2, fun z hz => ?_⟩, x, mem_map_of_mem hx, mem_map_of_mem hy⟩
          · exact hnew z (mem_append_left _ hz)
          · exact hnew z (mem_append_right _ hz)
        obtain ⟨S₁, hplan₁, hS₁, hX₁, hred₁⟩ : Leads rt c W S _ _ _ :=
          leads_hashJoin hfound hkind hnext hS h
        obtain ⟨S₂, hplan₂, hS₂, hX₂, hred₂⟩ := ih rest.length
          (by simp only [← hn, length_cons]; omega)
          (fun _ _ => hX₁ ▸ (hjoin hon hdelta).2.2) (hX₁ ▸ hev.2.2) hS₁ hplan₁ rfl
        refine Leads.congr ⟨S₂, hplan₂, hS₂, rfl, hred₁.trans hred₂ ?_ fun σ τ heq hσ => ?_⟩
          (fun τ => ?_) ?_
        · rw [hX₁]
          exact Set.subset_union_left.trans Set.subset_union_left
        · rw [hX₁] at heq
          exact ⟨(sat_eqOn fun x hx => heq (Or.inl (Or.inr hx))).mpr hσ.1,
            (sat_eqOn fun x hx => heq (Or.inr hx)).mpr hσ.2⟩
        · rw [satSeq_iff hdelta, satSeq_iff hdelta, forall_mem_cons, forall_mem_cons, and_assoc]
        · rw [hX₂, hX₁]
          ext x
          simp [premiseVars, or_assoc]

end Premises

/-! ## Rules -/

/-- The tuple the head of a rule has under a substitution. -/
def HeadEmits (rt : Runtime) (rule : Rule) (τ : Subst) (e : Emit) : Prop :=
  ∃ vs, evalTerms rt τ rule.args = .ok vs ∧ e = ((rule.pred : Name), vs)

section Rules

variable {rt : Runtime} {c : Tiers} {W : Set Name} {cfg : PlanConfig} {rule : Rule}

/-- **The insertion of the head.** -/
theorem planHeadInsert_yields {S : Site} (hW : (rule.pred : Name) ∈ W) (hS : S.Knows)
    (hk : Known (namedIn S.bound) (Term.allVarsList rule.args))
    (h : planHeadInsert rule S.start = .ok (S.op, S.stop)) :
    S.Shaped W ∧ ∀ σ es, S.Yields rt c σ es →
      ∃ vs, evalTerms rt σ rule.args = .ok vs ∧ es = [((rule.pred : Name), vs)] := by
  rw [planHeadInsert, withEvalArgs_eq] at h
  obtain ⟨⟨lets, ops⟩, st₁, hemit, h⟩ := planM_bind_ok.mp h
  obtain ⟨inner, hinner, hop⟩ := planM_map_ok.mp h
  obtain ⟨rfl, rfl⟩ := planM_pure_ok.mp hinner
  replace hemit := emits_of_emitArgs hemit
  have hem := hemit.emitted
  refine ⟨⟨hem.le, ?_, ?_⟩, ?_⟩
  · rw [← hop]
    exact scoped_wrapLets hemit hk.ruleVars hS.below.disjoint fun hops => .insert hW hops
  · rw [← hop]
    exact own_wrapLets hem le_rfl le_rfl (by simp [Op.assigned])
  · rintro σ es ⟨ρ, hρ, hden⟩
    rw [← hop] at hden
    obtain ⟨vs, ρ', hvs, hops, -, hden⟩ := den_wrapLets_ok hemit (hρ.modelsAt.models hk) hden
    simp only [den, nil_append, hops, ok_bind] at hden
    exact ⟨vs, hvs, (Except.ok.inj hden).symm⟩

/-- The site at which a rule is planned. -/
def Site.root (st st' : PlanState) (op : Op) : Site := ⟨[], fun _ _ => .number 0, st, st', op⟩

theorem Site.root_knows (st st' : PlanState) (op : Op) : (Site.root st st' op).Knows :=
  ⟨by simp [Below, Site.root], by simp [Site.root]⟩

theorem Site.root_denotes (st st' : PlanState) (op : Op) (ρ : Env) (σ : Subst) :
    (Site.root st st' op).Denotes rt ρ σ := by simp [Site.Denotes, Site.root]

/-- **A body planned at the root** runs what follows it for the substitutions that satisfy it by
facts the plan reads. -/
theorem leads_body {ps : List Premise} {k : List Name → PlanM Op} {st st' : PlanState} {op : Op}
    (hjoin : cfg.hashJoin = true → cfg.deltaPred = none → JoinsStored ∅ ps)
    (hev : EvaluableSeq ∅ ps) (h : planJoinSequence cfg k ps [] st = .ok (op, st')) :
    Leads rt c W (Site.root st st' op) (SatSeq rt c · cfg ∅ ps) k {x | x ∈ premiseVars ps} := by
  have hempty : namedIn (Site.root st st' op).bound = ∅ := by simp [namedIn, Site.root]
  have hleads := @planJoinSequence_leads ps rt c W (Site.root st st' op) cfg k
    (hempty.symm ▸ hjoin) (hempty.symm ▸ hev) (Site.root_knows st st' op) h
  rwa [hempty, Set.empty_union] at hleads

/-- **Executing the plan of a rule without transforms**: only a built-in fails, and otherwise the
store takes the head's tuple for exactly the substitutions that satisfy the body by facts the plan
reads. -/
theorem planRule_execute {ruleId : Nat} {s : MemStore} (h : planRule cfg ruleId rule = .ok op)
    (htr : rule.transform = [])
    (hjoin : cfg.hashJoin = true → JoinsStored ∅ (delayUnboundPremises rule.premises))
    (hev : EvaluableSeq ∅ (delayUnboundPremises rule.premises))
    (hhead : Known {x | x ∈ premiseVars (delayUnboundPremises rule.premises)}
      (Term.allVarsList rule.args)) (hrep : Rep s c) (hidx : Indexed s) :
    (∀ err, execute rt op s = .error err → err.FromBuiltin) ∧
      ∀ n s', execute rt op s = .ok (n, s') → ∃ es, (n, s') = MemStore.insertAll es s ∧
        ∀ e, e ∈ es ↔ ∃ τ, SatSeq rt c τ cfg ∅ (delayUnboundPremises rule.premises) ∧
          HeadEmits rt rule τ e := by
  obtain ⟨⟨op', st'⟩, hplan, rfl⟩ := bind_eq_pure.mp h
  simp only [planOrdered, htr, splitTransforms] at hplan
  obtain ⟨S', hplan', hS', hX, hred⟩ :=
    @leads_body rt c {(rule.pred : Name)} cfg _ _ _ _ _ (fun hon _ => hjoin hon) hev hplan
  obtain ⟨hshaped', hyields⟩ := @planHeadInsert_yields rt c {(rule.pred : Name)} rule S' rfl hS'
    (hX.symm ▸ hhead) hplan'
  have hscoped : op'.Scoped {(rule.pred : Name)} ∅ := by
    rw [← show names [] = ∅ by ext v; simp]
    exact (hred.shaped hshaped').wellScoped
  have hlift := @execute_den c s rt _ op' hscoped hrep hidx
  constructor
  · intro err herr
    rw [herr] at hlift
    rcases hlift.cases with ⟨_, _, _, hbad, _⟩ | ⟨e, e', hden, heq, rfl⟩
    · cases hbad
    · rw [← Except.error.inj heq] at hden
      exact den_fromBuiltin rt c hscoped (fun v hv => absurd hv (Set.notMem_empty v)) _ hden
  · intro n s' hok
    rw [hok] at hlift
    obtain ⟨es, hden, -, heq⟩ := hlift.ok_right
    refine ⟨es, heq, fun e => ⟨fun he => ?_, ?_⟩⟩
    · obtain ⟨τ, es', -, hsat, hy, he'⟩ := hred.sound hshaped' (fun _ => .null) es
        ⟨.new, Site.root_denotes _ _ _ _ _, hden⟩ e he
      obtain ⟨vs, hvs, rfl⟩ := hyields τ es' hy
      exact ⟨τ, hsat, vs, hvs, mem_singleton.mp he'⟩
    · rintro ⟨τ, hsat, vs, hvs, rfl⟩
      obtain ⟨es', hy, hsub⟩ := hred.complete hshaped' τ es
        ⟨.new, Site.root_denotes _ _ _ _ _, hden⟩ hsat
      obtain ⟨vs', hvs', rfl⟩ := hyields τ es' hy
      obtain rfl := Except.ok.inj (hvs.symm.trans hvs')
      exact hsub (by simp)

end Rules

end Mangle

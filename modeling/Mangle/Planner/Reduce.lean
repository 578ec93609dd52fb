import Mangle.Planner.Solutions

/-!
# Planner/Reduce — a planned premise runs the rest of the plan for its solutions

A `Site` is a place in a plan: the names that have values there, the terms that the fresh ones among
them stand for, and the operation planned for what follows.  `Reduces rt c W S P S'` — the operation
at `S` is well scoped when that at `S'` is, and unless it fails it inserts what the one at `S'` does
for the substitutions with the property `P` that extend the values known at `S`.  The variables that
the last continuation captured are handed on.

There is one rule for each way to plan a premise: a condition (`Reduces.filter`), a loop over
candidates (`Reduces.loopBind`, `Reduces.loopCheck`), a binding (`Reduces.bindExpr`), a loop over
the rows of a relation (`Reduces.iterate`) and a hash join (`Reduces.hashJoin`).  They compose
(`Reduces.trans`).
-/

namespace Mangle

open Machinery List

variable {ts args : List Term} {lets : List (Name × Expr)} {x pre : String} {t : Term} {op : Op}
  {st st' : PlanState} {τ : Subst}

/-! ## Sites -/

/-- A place in a plan. -/
structure Site where
  bound : List Name
  meaning : String → Nat → Term
  start : PlanState
  stop : PlanState
  op : Op

namespace Site

/-- The term a name stands for. -/
def term (S : Site) : Name → Term
  | .named x => .var x
  | .fresh pre id => S.meaning pre id

/-- The fresh names stand for terms over the rule's variables that have values. -/
structure Knows (S : Site) : Prop where
  below : Below S.bound S.start.fresh
  closed : ∀ v ∈ S.bound, Known (namedIn S.bound) (S.term v).allVars

/-- The environment gives the names the values of their terms. -/
def Denotes (rt : Runtime) (S : Site) (ρ : Env) (σ : Subst) : Prop :=
  ∀ v ∈ S.bound, ∃ w, evalTerm rt σ (S.term v) = .ok w ∧ ρ v = some w

/-- The operation inserts `es` where the names have the values of their terms. -/
def Yields (rt : Runtime) (c : Tiers) (S : Site) (σ : Subst) (es : List Emit) : Prop :=
  ∃ ρ, S.Denotes rt ρ σ ∧ den rt c.reader S.op ρ = .ok es

/-- The operation is well scoped and makes its names while the counter goes from `start` to
`stop`. -/
structure Shaped (W : Set Name) (S : Site) : Prop where
  le : S.start.fresh ≤ S.stop.fresh
  wellScoped : S.op.Scoped W (names S.bound)
  assigned : ∀ v ∈ S.op.assigned, v ∈ Own S.start S.stop

variable {rt : Runtime} {S : Site} {ρ ρ' : Env} {σ : Subst}

theorem Denotes.modelsAt (h : S.Denotes rt ρ σ) : ModelsAt S.bound ρ σ := by
  intro x hx
  obtain ⟨w, hw, hρ⟩ := h x hx
  rw [hρ, ← Except.ok.inj hw]

/-- Later fresh names leave the values alone. -/
theorem Denotes.agreeOff (h : S.Denotes rt ρ σ) {lo hi : Nat} (hbelow : Below S.bound lo)
    (hag : AgreeOff lo hi ρ' ρ) : S.Denotes rt ρ' σ := by
  intro v hv
  obtain ⟨w, hw, hρ⟩ := h v hv
  exact ⟨w, hw, (hag v fun hmem => Set.disjoint_left.mp hbelow.disjoint hv hmem).trans hρ⟩

theorem Denotes.congr (h : S.Denotes rt ρ σ) (hS : S.Knows)
    (hτ : Set.EqOn τ σ (namedIn S.bound)) : S.Denotes rt ρ τ := by
  intro v hv
  rw [evalTerm_extend hτ (hS.closed v hv)]
  exact h v hv

theorem Denotes.set (h : S.Denotes rt ρ σ) (hS : S.Knows) (hx : x ∉ namedIn S.bound) (w : Value)
    (st st' : PlanState) (op : Op) :
    Denotes rt { S with bound := (x : Name) :: S.bound, start := st, stop := st', op := op }
      (ρ.set x w) (Function.update σ x w) := by
  intro v hv
  rcases mem_cons.mp hv with rfl | hv
  · exact ⟨w, by simp [Site.term, evalTerm], by simp⟩
  · obtain ⟨u, hu, hρ⟩ := h v hv
    refine ⟨u, (evalTerm_congr fun y hy => ?_).trans hu, ?_⟩
    · exact Function.update_of_ne (ne_of_mem_of_not_mem (hS.closed v hv y hy) hx) w σ
    · rw [Env.set_of_ne w (ne_of_mem_of_not_mem hv hx), hρ]

theorem Knows.notMem_fresh (h : S.Knows) (pre : String) :
    Name.fresh pre S.start.fresh ∉ S.bound := fun hmem => absurd (h.below _ _ hmem) (lt_irrefl _)

end Site

/-- **The operation at `S` runs the one at `S'`** for the substitutions with the property `P` that
agree with its own. -/
structure Reduces (rt : Runtime) (c : Tiers) (W : Set Name) (S : Site) (P : Subst → Prop)
    (S' : Site) : Prop where
  captured : S.stop.captured = S'.stop.captured
  shaped : S'.Shaped W → S.Shaped W
  sound : S'.Shaped W → ∀ σ es, S.Yields rt c σ es → ∀ e ∈ es, ∃ τ es',
    Set.EqOn τ σ (namedIn S.bound) ∧ P τ ∧ S'.Yields rt c τ es' ∧ e ∈ es'
  complete : S'.Shaped W → ∀ τ es, S.Yields rt c τ es → P τ →
    ∃ es', S'.Yields rt c τ es' ∧ es' ⊆ es

section Rules

variable {rt : Runtime} {c : Tiers} {W : Set Name} {ρ : Env} {σ : Subst} {es : List Emit}

theorem Reduces.refl {S : Site} {P : Subst → Prop} (hP : ∀ τ, P τ) : Reduces rt c W S P S where
  captured := rfl
  shaped := id
  sound _ σ es hy _ he := ⟨σ, es, fun _ _ => rfl, hP σ, hy, he⟩
  complete _ _ es hy _ := ⟨es, hy, Subset.refl es⟩

theorem Reduces.trans {S S₁ S₂ : Site} {P P' : Subst → Prop} (h : Reduces rt c W S P S₁)
    (h' : Reduces rt c W S₁ P' S₂) (hmono : namedIn S.bound ⊆ namedIn S₁.bound)
    (hP : ∀ σ τ, Set.EqOn τ σ (namedIn S₁.bound) → P σ → P τ) :
    Reduces rt c W S (fun τ => P τ ∧ P' τ) S₂ where
  captured := h.captured.trans h'.captured
  shaped hS := h.shaped (h'.shaped hS)
  sound hS σ es hy e he := by
    obtain ⟨τ₁, es₁, heq₁, hP₁, hy₁, he₁⟩ := h.sound (h'.shaped hS) σ es hy e he
    obtain ⟨τ₂, es₂, heq₂, hP₂, hy₂, he₂⟩ := h'.sound hS τ₁ es₁ hy₁ e he₁
    exact ⟨τ₂, es₂, (heq₂.mono hmono).trans heq₁, ⟨hP τ₁ τ₂ heq₂ hP₁, hP₂⟩, hy₂, he₂⟩
  complete hS τ es hy hPτ := by
    obtain ⟨es₁, hy₁, hsub₁⟩ := h.complete (h'.shaped hS) τ es hy hPτ.1
    obtain ⟨es₂, hy₂, hsub₂⟩ := h'.complete hS τ es₁ hy₁ hPτ.2
    exact ⟨es₂, hy₂, fun e he => hsub₁ (hsub₂ he)⟩

/-- **An operation under the lets of some terms** runs where their operands have their values. -/
theorem den_wrapLets_ok {ops : List Operand} {st₁ st₂ : PlanState} {inner : Op}
    (hemit : Emits st₁ ts lets ops st₂) (hm : Models ρ σ (Term.allVarsList ts))
    (h : den rt c.reader (wrapLets lets inner) ρ = .ok es) :
    ∃ vs ρ', evalTerms rt σ ts = .ok vs ∧ evalOperands ρ' ops = .ok vs ∧
      AgreeOff st₁.fresh st₂.fresh ρ' ρ ∧ den rt c.reader inner ρ' = .ok es := by
  rw [den_wrapLets] at h
  obtain ⟨ρ', hrun, h⟩ := bind_eq_ok.mp h
  have hlift := hemit.run rt hm
  rw [hrun] at hlift
  obtain ⟨vs, hvs, hops, hag⟩ := hlift.ok_right
  exact ⟨vs, ρ', hvs, hops, hag, h⟩

/-! ## Conditions -/

section Premise

variable {S : Site} {st₁ st₂ : PlanState} {body : Op}

/-- **A condition on the values of terms that are known**; these have been evaluated where the
operation has not failed. -/
theorem Reduces.filter {ts : List Term} {lets : List (Name × Expr)} {ops : List Operand}
    {cond : Condition} {f : List Value → Result Bool} (hS : S.Knows)
    (hemit : Emits st₁ ts lets ops S.stop)
    (hop : S.op = wrapLets lets (.filter cond body))
    (hk : Known (namedIn S.bound) (Term.allVarsList ts))
    (hread : ∀ B : Set Name, (∀ o ∈ ops, o.Reads B) → cond.Reads B)
    (heval : ∀ ρ vs, evalOperands ρ ops = .ok vs → evalCond c.reader ρ cond = f vs) :
    Reduces rt c W S (fun τ => ∃ vs, evalTerms rt τ ts = .ok vs ∧ f vs = .ok true)
        { S with stop := st₁, op := body } ∧
      ∀ σ es, S.Yields rt c σ es → ∃ vs b, evalTerms rt σ ts = .ok vs ∧ f vs = .ok b := by
  have hem := hemit.emitted
  have hrun : ∀ σ es, S.Yields rt c σ es → ∃ vs b ρ ρ', evalTerms rt σ ts = .ok vs ∧
      f vs = .ok b ∧ S.Denotes rt ρ σ ∧ AgreeOff st₁.fresh S.stop.fresh ρ' ρ ∧
      (if b then den rt c.reader body ρ' else .ok []) = .ok es := by
    rintro σ es ⟨ρ, hρ, hden⟩
    rw [hop] at hden
    obtain ⟨vs, ρ', hvs, hops, hag, hden⟩ := den_wrapLets_ok hemit (hρ.modelsAt.models hk) hden
    simp only [den, heval ρ' vs hops] at hden
    obtain ⟨b, hb, hden⟩ := bind_eq_ok.mp hden
    exact ⟨vs, b, ρ, ρ', hvs, hb, hρ, hag, hden⟩
  refine ⟨⟨hem.captured, fun hbody => ?_, fun hbody σ es hy e he => ?_,
    fun hbody τ es hy => ?_⟩, fun σ es hy => ?_⟩
  · have hle : S.start.fresh ≤ st₁.fresh := hbody.le
    refine ⟨hle.trans hem.le, ?_, ?_⟩
    · rw [hop]
      refine scoped_wrapLets hemit hk.ruleVars (hS.below.mono hle).disjoint fun hops => ?_
      refine .filter (hread _ hops) (hbody.wellScoped.weaken fun v hv hlet => ?_)
      exact Own.notMem_later (hbody.assigned v hv) (hem.lets hlet)
    · rw [hop]
      exact own_wrapLets hem hle le_rfl fun v hv => Own.mono le_rfl hem.le (hbody.assigned v hv)
  · obtain ⟨vs, b, ρ, ρ', hvs, hb, hρ, hag, hden⟩ := hrun σ es hy
    cases b with
    | true =>
      exact ⟨σ, es, fun _ _ => rfl, ⟨vs, hvs, hb⟩,
        ⟨ρ', hρ.agreeOff (hS.below.mono hbody.le) hag, hden⟩, he⟩
    | false =>
      obtain rfl := Except.ok.inj hden
      cases he
  · rintro ⟨vs', hvs', htrue⟩
    obtain ⟨vs, b, ρ, ρ', hvs, hb, hρ, hag, hden⟩ := hrun τ es hy
    obtain rfl := Except.ok.inj (hvs.symm.trans hvs')
    obtain rfl := Except.ok.inj (hb.symm.trans htrue)
    exact ⟨es, ⟨ρ', hρ.agreeOff (hS.below.mono hbody.le) hag, hden⟩, Subset.refl es⟩
  · obtain ⟨vs, b, -, -, hvs, hb, -⟩ := hrun σ es hy
    exact ⟨vs, b, hvs, hb⟩

/-! ## Loops over candidates -/

/-- **A premise that binds a variable to each candidate.** -/
theorem Reduces.loopBind {o : Operand} {cands : Value → List Value} (hS : S.Knows)
    (hloop : Loop rt c op o x body cands) (hemit : Emits st₁ [t] lets [o] S.stop)
    (hop : S.op = wrapLets lets op) (hx : x ∉ namedIn S.bound)
    (hk : Known (namedIn S.bound) t.allVars) :
    Reduces rt c W S (fun τ => ∃ v, evalTerm rt τ t = .ok v ∧ τ x ∈ cands v)
      { S with bound := (x : Name) :: S.bound, stop := st₁, op := body } := by
  have hem := hemit.emitted
  have hk' : Known (namedIn S.bound) (Term.allVarsList [t]) := by
    simpa [Term.allVarsList] using hk
  have hrun (hle : S.start.fresh ≤ st₁.fresh) : ∀ σ es, S.Yields rt c σ es → ∃ v ρ,
      evalTerm rt σ t = .ok v ∧ S.Denotes rt ρ σ ∧
        concatM (fun w => den rt c.reader body (ρ.set x w)) (cands v) = .ok es := by
    rintro σ es ⟨ρ, hρ, hden⟩
    rw [hop] at hden
    obtain ⟨vs, ρ', hvs, hops, hag, hden⟩ := den_wrapLets_ok hemit (hρ.modelsAt.models hk') hden
    obtain ⟨v, hv, rfl⟩ := evalTerms_singleton hvs
    rw [hloop.den_eq, evalOperands_singleton hops] at hden
    exact ⟨v, ρ', hv, hρ.agreeOff (hS.below.mono hle) hag, hden⟩
  refine ⟨hem.captured, fun hbody => ?_, fun hbody σ es hy e he => ?_,
    fun hbody τ es hy => ?_⟩
  · have hle : S.start.fresh ≤ st₁.fresh := hbody.le
    refine ⟨hle.trans hem.le, ?_, ?_⟩
    · rw [hop]
      refine scoped_wrapLets hemit hk'.ruleVars (hS.below.mono hle).disjoint fun hops => ?_
      refine hloop.wellScoped W _ (hops o (by simp)) ?_ ?_
      · rintro (hlet | hb)
        · exact named_notMem_freshIn x _ _ (hem.lets hlet)
        · exact hx hb
      · rw [← Set.union_insert, ← names_cons]
        exact hbody.wellScoped.weaken fun v hv hlet =>
          Own.notMem_later (hbody.assigned v hv) (hem.lets hlet)
    · rw [hop]
      refine own_wrapLets hem hle le_rfl ?_
      rw [hloop.assigned]
      intro v hv
      rcases mem_cons.mp hv with rfl | hv
      · exact own_named x
      · exact Own.mono le_rfl hem.le (hbody.assigned v hv)
  · obtain ⟨v, ρ, hv, hρ, hden⟩ := hrun hbody.le σ es hy
    obtain ⟨w, hw, xs, hxs, he⟩ := (mem_concatM hden e).mp he
    have heq : Set.EqOn (Function.update σ x w) σ (namedIn S.bound) := fun y hy =>
      Function.update_of_ne (ne_of_mem_of_not_mem hy hx) w σ
    exact ⟨_, xs, heq, ⟨v, (evalTerm_extend heq hk).trans hv, by simpa using hw⟩,
      ⟨_, hρ.set hS hx w _ _ _, hxs⟩, he⟩
  · rintro ⟨v', hv', hmem⟩
    obtain ⟨v, ρ, hv, hρ, hden⟩ := hrun hbody.le τ es hy
    obtain rfl := Except.ok.inj (hv.symm.trans hv')
    obtain ⟨xs, hxs, hsub⟩ := run_of_concatM hden hmem
    have hset := hρ.set hS hx (τ x) S.start st₁ body
    rw [Function.update_eq_self] at hset
    exact ⟨xs, ⟨_, hset, hxs⟩, hsub⟩

/-- **A premise that checks a known value against the candidates.** -/
theorem Reduces.loopCheck {out : Term} {o eo : Operand} {cands : Value → List Value}
    (hS : S.Knows)
    (hloop : Loop rt c op o (.fresh pre S.start.fresh)
      (eqFilter (.var (.fresh pre S.start.fresh)) eo body) cands)
    (hemit : Emits st₁ [t, out] lets [o, eo] S.stop) (hop : S.op = wrapLets lets op)
    (hk : Known (namedIn S.bound) (Term.allVarsList [t, out])) :
    Reduces rt c W S
      (fun τ => ∃ v w, evalTerm rt τ t = .ok v ∧ evalTerm rt τ out = .ok w ∧ w ∈ cands v)
      { S with start := { S.start with fresh := S.start.fresh + 1 }, stop := st₁, op := body } := by
  have hem := hemit.emitted
  -- the loop variable was made before the body and the lets
  have hnew : ∀ lo hi, S.start.fresh < lo → Name.fresh pre S.start.fresh ∉ freshIn lo hi := by
    rintro lo hi hlo ⟨pre', id, heq, hle, -⟩
    rw [← (Name.fresh.inj heq).2] at hle
    omega
  -- the check lets the candidates pass that equal the known value
  have hrun (hlt : S.start.fresh < st₁.fresh) : ∀ σ es, S.Yields rt c σ es → ∃ v w ρ,
      evalTerm rt σ t = .ok v ∧ evalTerm rt σ out = .ok w ∧ S.Denotes rt ρ σ ∧
        concatM (fun u => if u = w then
          den rt c.reader body (ρ.set (.fresh pre S.start.fresh) u) else .ok []) (cands v) =
            .ok es := by
    rintro σ es ⟨ρ, hρ, hden⟩
    rw [hop] at hden
    obtain ⟨vs, ρ', hvs, hops, hag, hden⟩ := den_wrapLets_ok hemit (hρ.modelsAt.models hk) hden
    obtain ⟨v, w, hv, hw, rfl⟩ := evalTerms_pair hvs
    obtain ⟨_, _, heq, ho, heo⟩ := evalOperands_pair hops
    cases heq
    refine ⟨v, w, ρ', hv, hw, hρ.agreeOff (hS.below.mono hlt.le) hag, ?_⟩
    rw [hloop.den_eq, ho, ok_bind] at hden
    rw [← hden]
    refine concatM_congr fun u _ => ?_
    have hreads : eo.Reads {Name.fresh pre S.start.fresh}ᶜ := by
      refine (hemit.operand eo (by simp)).mono ?_
      rintro v (⟨x, -, rfl⟩ | hv) hmem
      · simp at hmem
      · exact hnew _ _ hlt (Set.mem_singleton_iff.mp hmem ▸ hv)
    have hset : AgreeOn {Name.fresh pre S.start.fresh}ᶜ
        (ρ'.set (.fresh pre S.start.fresh) u) ρ' := agreeOn_set (by simp) ρ' u
    simp only [eqFilter, den, evalCond, hset.evalOperand hreads, heo, ok_bind]
    simp [evalOperand, evalCmp, pure, Except.pure]
  have hfresh {ρ : Env} {σ : Subst} (hρ : S.Denotes rt ρ σ) (u : Value) :
      Site.Denotes rt { S with
        start := { S.start with fresh := S.start.fresh + 1 }, stop := st₁, op := body }
        (ρ.set (.fresh pre S.start.fresh) u) σ := by
    intro v hv
    obtain ⟨a, ha, hρa⟩ := hρ v hv
    exact ⟨a, ha, (Env.set_of_ne u (ne_of_mem_of_not_mem hv (hS.notMem_fresh pre))).trans hρa⟩
  refine ⟨hem.captured, fun hbody => ?_, fun hbody σ es hy e he => ?_,
    fun hbody τ es hy => ?_⟩
  · have hlt : S.start.fresh < st₁.fresh := hbody.le
    refine ⟨hlt.le.trans hem.le, ?_, ?_⟩
    · rw [hop]
      refine scoped_wrapLets hemit hk.ruleVars (hS.below.mono hlt.le).disjoint fun hops => ?_
      refine hloop.wellScoped W _ (hops o (by simp)) ?_ (.filter ⟨?_, ?_⟩ ?_)
      · rintro (hlet | hb)
        · exact hnew _ _ hlt (hem.lets hlet)
        · exact hS.notMem_fresh pre hb
      · exact Set.mem_insert _ _
      · exact (hops eo (by simp)).mono (Set.subset_insert _ _)
      · rw [← Set.insert_union]
        refine hbody.wellScoped.weaken fun v hv hlet => ?_
        have hown := hbody.assigned v hv
        rcases hlet with rfl | hlet
        · rcases hown with hfresh | ⟨x, hx⟩
          · exact hnew _ _ (Nat.lt_succ_self _) hfresh
          · cases hx
        · exact Own.notMem_later hown (hem.lets hlet)
    · rw [hop]
      refine own_wrapLets hem hlt.le le_rfl ?_
      rw [hloop.assigned]
      intro v hv
      rcases mem_cons.mp hv with rfl | hv
      · exact Or.inl ⟨pre, S.start.fresh, rfl, le_rfl, hlt.trans_le hem.le⟩
      · exact Own.mono (Nat.le_succ _) hem.le (hbody.assigned v hv)
  · obtain ⟨v, w, ρ, hv, hw, hρ, hden⟩ := hrun hbody.le σ es hy
    obtain ⟨u, hu, xs, hxs, he⟩ := (mem_concatM hden e).mp he
    split_ifs at hxs with heq
    · exact ⟨σ, xs, fun _ _ => rfl, ⟨v, w, hv, hw, heq ▸ hu⟩, ⟨_, hfresh hρ u, hxs⟩, he⟩
    · obtain rfl := Except.ok.inj hxs
      cases he
  · rintro ⟨v', w', hv', hw', hmem⟩
    obtain ⟨v, w, ρ, hv, hw, hρ, hden⟩ := hrun hbody.le τ es hy
    obtain rfl := Except.ok.inj (hv.symm.trans hv')
    obtain rfl := Except.ok.inj (hw.symm.trans hw')
    obtain ⟨xs, hxs, hsub⟩ := run_of_concatM hden hmem
    rw [if_pos rfl] at hxs
    exact ⟨xs, ⟨_, hfresh hρ w, hxs⟩, hsub⟩

/-- An operation that binds a variable runs what follows with the value of the term. -/
theorem Site.Yields.bindExpr {expr : Expr} {σ : Subst} {es : List Emit} (hS : S.Knows)
    (hemit : emitExpr t S.start = .ok ((lets, expr), st₁))
    (hop : S.op = wrapLets lets (.bind x expr body)) (hk : Known (namedIn S.bound) t.allVars)
    (h : S.Yields rt c σ es) : ∃ v ρ, evalTerm rt σ t = .ok v ∧ S.Denotes rt ρ σ ∧
      den rt c.reader body (ρ.set x v) = .ok es := by
  obtain ⟨ρ, hρ, hden⟩ := h
  rw [hop, den_wrapLets] at hden
  obtain ⟨ρ', hlets, hden⟩ := bind_eq_ok.mp hden
  obtain ⟨v, hv, hden⟩ := bind_eq_ok.mp hden
  have hlift := emitExpr_run rt hemit (hρ.modelsAt.models hk)
  rw [hlets, ok_bind, hv, ok_bind] at hlift
  obtain ⟨_, hval, rfl, hag⟩ := hlift.ok_right
  exact ⟨_, ρ', hval, hρ.agreeOff hS.below hag, hden⟩

/-- **An equality that binds a variable.** -/
theorem Reduces.bindExpr {expr : Expr} (hS : S.Knows)
    (hemit : emitExpr t S.start = .ok ((lets, expr), st₁))
    (hop : S.op = wrapLets lets (.bind x expr body)) (hx : x ∉ namedIn S.bound)
    (hk : Known (namedIn S.bound) t.allVars) :
    Reduces rt c W S (fun τ => evalTerm rt τ t = .ok (τ x))
      { S with bound := (x : Name) :: S.bound, start := st₁, op := body } := by
  have hem := emitExpr_emitted hemit
  refine ⟨rfl, fun hbody => ⟨hem.le.trans hbody.le, ?_, ?_⟩, fun hbody σ es hy e he => ?_,
    fun hbody τ es hy hτ => ?_⟩
  · rw [hop]
    obtain ⟨hl, hread⟩ := emitExpr_scoped hemit hk.ruleVars hS.below.disjoint
    refine hl.wrap (.bind hread ?_ ?_)
    · rintro (hlet | hb)
      · exact named_notMem_freshIn x _ _ (hem.lets hlet)
      · exact hx hb
    · rw [← Set.union_insert, ← names_cons]
      exact hbody.wellScoped.weaken fun v hv hlet =>
        Own.notMem_earlier (hbody.assigned v hv) (hem.lets hlet)
  · rw [hop]
    refine own_wrapLets hem le_rfl hbody.le fun v hv => ?_
    rcases mem_cons.mp hv with rfl | hv
    · exact own_named x
    · exact Own.mono hem.le le_rfl (hbody.assigned v hv)
  · obtain ⟨v, ρ, hv, hρ, hden⟩ := hy.bindExpr hS hemit hop hk
    have heq : Set.EqOn (Function.update σ x v) σ (namedIn S.bound) := fun y hy =>
      Function.update_of_ne (ne_of_mem_of_not_mem hy hx) v σ
    have hev := (evalTerm_extend heq hk).trans hv
    exact ⟨_, es, heq, by simpa using hev, ⟨_, hρ.set hS hx v _ _ _, hden⟩, he⟩
  · obtain ⟨v, ρ, hv, hρ, hden⟩ := hy.bindExpr hS hemit hop hk
    obtain rfl := Except.ok.inj (hv.symm.trans hτ)
    have hset := hρ.set hS hx (τ x) st₁ S.stop body
    rw [Function.update_eq_self] at hset
    exact ⟨es, ⟨_, hset, hden⟩, Subset.refl es⟩

/-! ## Rows of a relation -/

/-- **The rows a plan reads for an atom**: only such as may satisfy it, and all that the arguments
evaluate to. -/
theorem collect_atomSource {cfg : PlanConfig} {pred : String} {vars : List Name}
    (hkind : atomKind pred = .stored) (hm : ModelsAt S.bound ρ σ) :
    ∃ rows, collectDataSource c.reader ρ
        (atomSource cfg pred (indexLookup S.bound 0 args) vars) = .ok rows ∧
      (∀ row ∈ rows, row ∈ c.visible pred ∧
        (ScansDelta cfg (namedIn S.bound) pred args → row ∈ c.delta pred)) ∧
      ∀ row, evalTerms rt σ args = .ok row → row ∈ c.visible pred →
        (ScansDelta cfg (namedIn S.bound) pred args → row ∈ c.delta pred) → row ∈ rows := by
  cases hlook : indexLookup S.bound 0 args with
  | none =>
    by_cases hdelta : cfg.deltaPred = some pred
    · have hscan : ScansDelta cfg (namedIn S.bound) pred args :=
        ⟨hkind, hdelta, indexLookup_eq_none.mp hlook⟩
      refine ⟨c.delta pred, by simp [atomSource, hdelta, collectDataSource, Tiers.reader],
        fun row hrow => ⟨mem_append_right _ hrow, fun _ => hrow⟩, fun row _ _ h => h hscan⟩
    · exact ⟨c.visible pred, by simp [atomSource, hdelta, collectDataSource, Tiers.reader],
        fun row hrow => ⟨hrow, fun hscan => absurd hscan.2.1 hdelta⟩, fun row _ h _ => h⟩
  | some look =>
    obtain ⟨i, key⟩ := look
    obtain ⟨j, t, rfl, ht, hkey⟩ := indexLookup_some hlook
    -- the key has the value the arguments have in its column
    obtain ⟨v, hv, hcol⟩ : ∃ v, evalOperand ρ key = .ok v ∧ evalTerm rt σ t = .ok v := by
      rcases columnKey_some hkey with ⟨x, rfl, hx, rfl⟩ | ⟨k, hk, rfl⟩
      · exact ⟨σ x, by simp [evalOperand, hm x hx], rfl⟩
      · exact ⟨k.value, rfl, evalTerm_const hk⟩
    refine ⟨(c.visible pred).filter (Tuple.hasKey (0 + j) v),
      by simp [atomSource, collectDataSource, Tiers.reader, hv],
      fun row hrow => ⟨(mem_filter.mp hrow).1, fun hscan => ?_⟩, fun row hrow hvis _ => ?_⟩
    · rw [indexLookup_eq_none.mpr hscan.2.2] at hlook
      cases hlook
    · obtain ⟨w, hw, hrj⟩ := evalTerms_getElem? hrow ht
      rw [hcol] at hw
      exact mem_filter.mpr ⟨hvis, by simp [Tuple.hasKey, hrj, Except.ok.inj hw]⟩

/-- The checks of an atom only move the counter. -/
theorem applyConstraints_state {vs : List Name} (h : applyConstraints ts vs body st = .ok (op, st'))
    : st.fresh ≤ st'.fresh ∧ st'.captured = st.captured := by
  induction ts generalizing vs op st' with
  | nil =>
    obtain ⟨rfl, rfl⟩ := planM_pure_ok.mp (by simpa [applyConstraints] using h)
    exact ⟨le_rfl, rfl⟩
  | cons t ts ih =>
    cases vs with
    | nil =>
      obtain ⟨rfl, rfl⟩ := planM_pure_ok.mp (by simpa [applyConstraints] using h)
      exact ⟨le_rfl, rfl⟩
    | cons v vs =>
      obtain ⟨op₁, st₁, hrest, hcase⟩ := applyConstraints_cons h
      obtain ⟨hle, hcap⟩ := ih hrest
      rcases hcase with ⟨x, -, -, -, rfl⟩ | ⟨lets, o, hemit, -⟩
      · exact ⟨hle, hcap⟩
      · have hem := hemit.emitted
        exact ⟨hle.trans hem.le, hem.captured.trans hcap⟩

/-- **The checks of an atom** let a row pass that its arguments evaluate to. -/
theorem applyConstraints_ok {vs : List Name} (h : applyConstraints ts vs body st = .ok (op, st'))
    {row : Tuple} (hrow : vs.map ρ = row.map some) (hlen : vs.length = ts.length)
    (hold : ∀ v ∈ vs, ∀ hi, v ∉ freshIn st.fresh hi) (hm : Models ρ τ (Term.allVarsList ts))
    (hden : den rt c.reader op ρ = .ok es) :
    (evalTerms rt τ ts = .ok row ∧
      ∃ ρ', AgreeOff st.fresh st'.fresh ρ' ρ ∧ den rt c.reader body ρ' = .ok es) ∨
      evalTerms rt τ ts ≠ .ok row ∧ es = [] := by
  induction ts generalizing vs op st' row ρ with
  | nil =>
    obtain rfl : vs = [] := length_eq_zero_iff.mp hlen
    obtain rfl : row = [] := by simpa using hrow
    obtain ⟨rfl, rfl⟩ := planM_pure_ok.mp (by simpa [applyConstraints] using h)
    exact Or.inl ⟨rfl, ρ, .refl _ _ ρ, hden⟩
  | cons t ts ih =>
    obtain ⟨v, vs, rfl⟩ := exists_cons_of_length_eq_add_one hlen
    obtain ⟨a, row, rfl, ha, hrow₁⟩ := map_eq_map_some_cons hrow
    obtain ⟨op₁, st₁, hrest, hcase⟩ := applyConstraints_cons h
    have hlen₁ : vs.length = ts.length := by simpa using hlen
    have hold₁ : ∀ w ∈ vs, ∀ hi, w ∉ freshIn st.fresh hi :=
      fun w hw => hold w (mem_cons_of_mem v hw)
    have hm₁ : Models ρ τ (Term.allVarsList ts) :=
      fun x hx => hm x (by simp [Term.allVarsList, hx])
    rcases hcase with ⟨x, rfl, rfl, rfl, rfl⟩ | ⟨lets, o, hemit, rfl⟩
    · have hax : evalTerm rt τ (.var x) = .ok a := by
        have hx := hm x (by simp [Term.allVarsList, Term.allVars])
        exact congrArg Except.ok (Option.some.inj (hx.symm.trans ha))
      simpa only [ne_eq, evalTerms_cons_ok, hax, true_and] using
        ih hrest hrow₁ hlen₁ hold₁ hm₁ hden
    · have hem := hemit.emitted
      have hmt : Models ρ τ (Term.allVarsList [t]) :=
        fun x hx => hm x (by simp_all [Term.allVarsList])
      have hle : st.fresh ≤ st₁.fresh := (applyConstraints_state hrest).1
      obtain ⟨us, ρ', hus, hops, hag, hden⟩ := den_wrapLets_ok hemit hmt hden
      obtain ⟨u, hu, rfl⟩ := evalTerms_singleton hus
      have hkeep : ∀ w : Name, (∀ hi, w ∉ freshIn st.fresh hi) → ρ' w = ρ w := fun w hw =>
        hag w fun hmem => hw _ (freshIn_mono hle le_rfl hmem)
      have hrow' : vs.map ρ' = row.map some :=
        (map_congr_left fun w hw => hkeep w (hold₁ w hw)).trans hrow₁
      have hcond : evalCond c.reader ρ' (.cmp .eq (.var v) o) = .ok (decide (a = u)) := by
        have hv : ρ' v = some a := (hkeep v (hold v (by simp))).trans ha
        simp only [evalCond, evalOperands_singleton hops, ok_bind]
        simp [evalOperand, evalCmp, hv, pure, Except.pure]
      simp only [eqFilter, den, hcond, ok_bind, decide_eq_true_eq] at hden
      rw [ne_eq, evalTerms_cons_ok]
      split_ifs at hden with heq
      · rcases ih hrest hrow' hlen₁ hold₁ (hag.models hm₁) hden with
          ⟨htl, ρ'', hag', hden⟩ | ⟨hno, rfl⟩
        · exact Or.inl ⟨⟨heq ▸ hu, htl⟩, ρ'',
            AgreeOn.trans (hag'.mono le_rfl hem.le) (hag.mono hle le_rfl), hden⟩
        · exact Or.inr ⟨fun h => hno h.2, rfl⟩
      · refine Or.inr ⟨fun h => heq ?_, (Except.ok.inj hden).symm⟩
        exact Except.ok.inj (h.1.symm.trans hu)

/-- The columns of a row that the arguments evaluate to hold their values. -/
theorem denotes_columns {vars : List Name} {row : Tuple} (hrow : vars.map ρ = row.map some)
    (heval : evalTerms rt τ args = .ok row) {v : Name} (hmem : (v, t) ∈ vars.zip args) :
    ∃ w, evalTerm rt τ t = .ok w ∧ ρ v = some w := by
  induction args generalizing vars row with
  | nil => simp at hmem
  | cons u us ih =>
    cases vars with
    | nil => simp at hmem
    | cons v' vs =>
      obtain ⟨a, row, rfl, ha, hrow⟩ := map_eq_map_some_cons hrow
      obtain ⟨hu, hus⟩ := evalTerms_cons_ok.mp heval
      rcases mem_cons.mp hmem with heq | hmem
      · obtain ⟨rfl, rfl⟩ := Prod.mk.inj heq
        exact ⟨a, hu, ha⟩
      · exact ih hrow hus hmem

/-- What the fresh names among the columns of an atom stand for: its arguments. -/
def columnMeaning (D : String → Nat → Term) (vars : List Name) (args : List Term) (pre : String)
    (id : Nat) : Term := ((vars.zip args).lookup (Name.fresh pre id)).getD (D pre id)

theorem columnMeaning_of_notMem {D : String → Nat → Term} {vars : List Name} {id : Nat}
    (h : Name.fresh pre id ∉ vars) : columnMeaning D vars args pre id = D pre id := by
  have hnone : (vars.zip args).lookup (Name.fresh pre id) = none := by
    refine lookup_eq_none_iff.mpr fun p hp => ?_
    have hne : Name.fresh pre id ≠ p.1 := fun heq => h (heq ▸ (of_mem_zip hp).1)
    simpa using hne
  rw [columnMeaning, hnone, Option.getD_none]

theorem columnMeaning_mem {D : String → Nat → Term} {vars : List Name} {id : Nat}
    (h : Name.fresh pre id ∈ vars) (hlen : vars.length = args.length) :
    (Name.fresh pre id, columnMeaning D vars args pre id) ∈ vars.zip args := by
  unfold columnMeaning
  induction vars generalizing args with
  | nil => cases h
  | cons v vs ih =>
    obtain ⟨t, ts, rfl⟩ := exists_cons_of_length_eq_add_one hlen.symm
    rw [zip_cons_cons, lookup_cons]
    by_cases hv : Name.fresh pre id = v
    · simp [hv]
    · simp only [beq_eq_false_iff_ne.mpr hv]
      exact mem_cons_of_mem _ (ih ((mem_cons.mp h).resolve_left hv) (by simpa using hlen))

/-- The place inside the loop over the rows of an atom. -/
def Site.scanned (S : Site) (vars : List Name) (args : List Term) (st st' : PlanState)
    (body : Op) : Site :=
  ⟨vars ++ S.bound, columnMeaning S.meaning vars args, st, st', body⟩

/-- The columns stand for the arguments, and the names from before for what they did. -/
theorem Scanned.term {vars : List Name} (h : Scanned S.bound [] args S.start st₁ vars) {v : Name}
    (hv : v ∈ vars ++ S.bound) :
    (v, (S.scanned vars args st st' body).term v) ∈ vars.zip args ∨
      v ∈ S.bound ∧ (S.scanned vars args st st' body).term v = S.term v := by
  by_cases hvv : v ∈ vars
  · refine Or.inl ?_
    cases v with
    | named x => exact h.column x hvv
    | fresh pre id => exact columnMeaning_mem hvv h.length
  · refine Or.inr ⟨(mem_append.mp hv).resolve_left hvv, ?_⟩
    cases v with
    | named x => rfl
    | fresh pre id => exact columnMeaning_of_notMem hvv

/-- **A loop over the rows of a stored relation.** -/
theorem Reduces.iterate {cfg : PlanConfig} {pred : String} {vars : List Name}
    (hS : S.Knows) (hkind : atomKind pred = .stored)
    (hvars : Scanned S.bound [] args S.start st₁ vars)
    (hcons : applyConstraints args vars body st₂ = .ok (op, S.stop))
    (hop : S.op = .iterate (atomSource cfg pred (indexLookup S.bound 0 args) vars) op)
    (hknown : Known (namedIn (vars ++ S.bound)) (Term.allVarsList args)) :
    Reduces rt c W S (SatAt rt c · cfg (namedIn S.bound) (.atom pred args))
      (S.scanned vars args st₁ st₂ body) := by
  have hnew : ∀ v ∈ vars, v ∈ Own S.start st₁ ∧ v ∉ S.bound := by
    intro v hv
    rcases hvars.new v hv with hf | ⟨x, rfl, hx⟩
    · exact ⟨Or.inl hf, fun hb => Set.disjoint_left.mp hS.below.disjoint hb hf⟩
    · exact ⟨own_named x, by simpa using hx⟩
  have hold (hle : st₁.fresh ≤ st₂.fresh) :
      ∀ v ∈ vars ++ S.bound, ∀ hi, v ∉ freshIn st₂.fresh hi := by
    intro v hv hi hmem
    rcases mem_append.mp hv with hv | hv
    · exact Own.notMem_later (hnew v hv).1 (freshIn_mono hle le_rfl hmem)
    · exact Set.disjoint_left.mp (hS.below.mono (hvars.le.trans hle)).disjoint hv hmem
  -- a row that the arguments evaluate to gives all names their values
  have hdenotes {ρ : Env} {τ : Subst} {row : Tuple} (hρ : S.Denotes rt ρ τ)
      (hlen : row.length = vars.length) (heval : evalTerms rt τ args = .ok row) :
      (S.scanned vars args st₁ st₂ body).Denotes rt (ρ.bindVars vars row) τ := by
    intro v hv
    rcases hvars.term hv with hmem | ⟨hvb, hterm⟩
    · exact denotes_columns (map_bindVars hvars.nodup hlen ρ) heval hmem
    · rw [hterm, Env.bindVars_of_notMem fun hvv => (hnew v hvv).2 hvb]
      exact hρ v hvb
  have hrun (hle : st₁.fresh ≤ st₂.fresh) {ρ : Env} {τ : Subst} {row : Tuple} {es : List Emit}
      (hlen : row.length = vars.length) (hm : ModelsAt (vars ++ S.bound) (ρ.bindVars vars row) τ)
      (hden : den rt c.reader op (ρ.bindVars vars row) = .ok es) :=
    applyConstraints_ok hcons (map_bindVars hvars.nodup hlen ρ) hvars.length
      (fun v hv => hold hle v (mem_append_left _ hv)) (hm.models hknown) hden
  refine ⟨(applyConstraints_state hcons).2, fun hbody => ?_,
    fun hbody σ es hy e he => ?_, fun hbody τ es hy hτ => ?_⟩
  · have hle₁ : st₁.fresh ≤ st₂.fresh := hbody.le
    obtain ⟨hle, hscoped, hown⟩ := applyConstraints_scoped hcons hvars.length hknown.ruleVars
      (fun v hv => mem_append_left _ hv) (fun hi => Set.disjoint_left.mpr fun v hv =>
        hold hle₁ v hv hi) hbody.wellScoped fun v hv hi => Own.notMem_later (hbody.assigned v hv)
    refine ⟨hvars.le.trans (hle₁.trans hle), ?_, ?_⟩
    · rw [hop]
      refine .iterate reads_atomSource ?_ (by simpa [names_append] using hscoped)
      rw [vars_atomSource]
      exact Set.disjoint_left.mpr fun v hv => (hnew v hv).2
    · rw [hop]
      intro v hv
      simp only [Op.assigned, vars_atomSource, mem_append] at hv
      rcases hv with hv | hv
      · exact Own.mono le_rfl (hle₁.trans hle) (hnew v hv).1
      · rcases hown v hv with hv | hv
        · exact Own.mono hvars.le hle (hbody.assigned v hv)
        · exact Or.inl (freshIn_mono (hvars.le.trans hle₁) le_rfl hv)
  · obtain ⟨ρ, hρ, hden⟩ := hy
    obtain ⟨rows, hrows, hread, -⟩ := @collect_atomSource args rt c ρ σ S cfg pred vars hkind
      hρ.modelsAt
    rw [hop] at hden
    simp only [den, hrows, ok_bind, vars_atomSource] at hden
    obtain ⟨row, hmem, xs, hxs, he⟩ := (mem_concatM hden e).mp he
    split_ifs at hxs with hlen
    · obtain rfl := Except.ok.inj hxs
      cases he
    · have hlen : row.length = vars.length := not_not.mp hlen
      have heq : Set.EqOn ((ρ.bindVars vars row).subst σ) σ (namedIn S.bound) := fun x hx => by
        rw [Env.subst, Env.bindVars_of_notMem fun hv => (hnew _ hv).2 hx, hρ.modelsAt x hx,
          Option.getD_some]
      have hdef : Defined (names S.bound) ρ := fun v hv => by
        obtain ⟨w, -, hw⟩ := hρ v hv
        exact ⟨w, hw⟩
      have hm : ModelsAt (vars ++ S.bound) (ρ.bindVars vars row)
          ((ρ.bindVars vars row).subst σ) :=
        modelsAt_subst (fun x hx => hdef.bindVars _ row hlen x (mem_append.mp hx)) σ
      rcases hrun hbody.le hlen hm hxs with ⟨heval, ρ', hag, hbodyden⟩ | ⟨-, rfl⟩
      · refine ⟨_, xs, heq, (satAt_stored hkind).mpr ⟨row, heval, hread row hmem⟩, ⟨ρ', ?_,
          hbodyden⟩, he⟩
        intro v hv
        obtain ⟨w, hw, hρw⟩ := hdenotes (hρ.congr hS heq) hlen heval v hv
        exact ⟨w, hw, (hag v fun hmem => hold hbody.le v hv _ hmem).trans hρw⟩
      · cases he
  · obtain ⟨ρ, hρ, hden⟩ := hy
    obtain ⟨row, heval, hvis, hdelta⟩ := (satAt_stored hkind).mp hτ
    obtain ⟨rows, hrows, -, hall⟩ := @collect_atomSource args rt c ρ τ S cfg pred vars hkind
      hρ.modelsAt
    rw [hop] at hden
    simp only [den, hrows, ok_bind, vars_atomSource] at hden
    have hlen : row.length = vars.length := (length_evalTerms heval).trans hvars.length.symm
    obtain ⟨xs, hxs, hsub⟩ := run_of_concatM hden (hall row heval hvis hdelta)
    rw [if_neg (not_not.mpr hlen)] at hxs
    have hρ₁ := hdenotes hρ hlen heval
    rcases hrun hbody.le hlen hρ₁.modelsAt hxs with ⟨-, ρ', hag, hbodyden⟩ | ⟨hno, -⟩
    · refine ⟨xs, ⟨ρ', fun v hv => ?_, hbodyden⟩, hsub⟩
      obtain ⟨w, hw, hρw⟩ := hρ₁ v hv
      exact ⟨w, hw, (hag v fun hmem => hold hbody.le v hv _ hmem).trans hρw⟩
    · exact absurd heval hno

/-! ## Hash joins -/

theorem allVarsList_vars (xs : List String) : Term.allVarsList (xs.map .var) = xs := by
  induction xs with
  | nil => rfl
  | cons x xs ih => simp [Term.allVarsList, Term.allVars, ih]

section Join

variable {xs ys : List String} {keys : List Name} {pred nextPred : String}

/-- The rows of a substitution, bound one after the other. -/
theorem Site.Denotes.bindJoin (hρ : S.Denotes rt ρ τ) (S' : Site)
    (hbound : S'.bound = xs.map Name.named ++ (ys.map Name.named ++ S.bound))
    (hmeaning : S'.meaning = S.meaning) :
    S'.Denotes rt ((ρ.bindVars (ys.map Name.named) (ys.map τ)).bindVars (xs.map Name.named)
      (xs.map τ)) τ := by
  intro v hv
  have hterm : S'.term v = S.term v := by
    cases v with
    | named x => rfl
    | fresh pre id => exact congrFun (congrFun hmeaning pre) id
  rw [hbound, mem_append, mem_append] at hv
  by_cases hvx : v ∈ xs.map Name.named
  · obtain ⟨x, hx, rfl⟩ := mem_map.mp hvx
    exact ⟨τ x, rfl, bindVars_map _ τ hx⟩
  · rw [Env.bindVars_of_notMem hvx]
    by_cases hvy : v ∈ ys.map Name.named
    · obtain ⟨y, hy, rfl⟩ := mem_map.mp hvy
      exact ⟨τ y, rfl, bindVars_map _ τ hy⟩
    · rw [Env.bindVars_of_notMem hvy, hterm]
      exact hρ v ((hv.resolve_left hvx).resolve_left hvy)

/-- **Two atoms planned as a hash join** run the rest for the rows that two nested loops would. -/
theorem Reduces.hashJoin (hS : S.Knows) (hnodup : xs.Nodup ∧ ys.Nodup)
    (hkeys : ∀ k, k ∈ keys ↔ k ∈ xs.map Name.named ∧ k ∈ ys.map Name.named)
    (hnew : ∀ x ∈ xs ++ ys, x ∉ namedIn S.bound)
    (hop : S.op = .hashJoin (.scan pred (xs.map Name.named)) (.scan nextPred (ys.map Name.named))
      keys body) :
    Reduces rt c W S (fun τ => xs.map τ ∈ c.visible pred ∧ ys.map τ ∈ c.visible nextPred)
      { S with bound := xs.map Name.named ++ (ys.map Name.named ++ S.bound), op := body } := by
  have hnamed : ∀ zs : List String, zs ⊆ xs ++ ys →
      Disjoint (names (zs.map Name.named)) (names S.bound) := by
    intro zs hzs
    refine Set.disjoint_left.mpr fun v hv => ?_
    obtain ⟨z, hz, rfl⟩ := mem_map.mp hv
    exact hnew z (hzs hz)
  refine ⟨rfl, fun hbody => ⟨hbody.le, ?_, ?_⟩, fun hbody σ es hy e he => ?_,
    fun hbody τ es hy hτ => ?_⟩
  · rw [hop]
    refine .hashJoin trivial trivial hkeys ⟨hnodup.1.map fun _ _ h => Name.named.inj h,
      hnodup.2.map fun _ _ h => Name.named.inj h⟩ (hnamed xs (by simp)) (hnamed ys (by simp)) ?_
    simpa only [DataSource.vars, names_append] using hbody.wellScoped
  · rw [hop]
    intro v hv
    simp only [Op.assigned, DataSource.vars, mem_append, mem_map] at hv
    rcases hv with (⟨x, -, rfl⟩ | ⟨x, -, rfl⟩) | hv
    · exact own_named x
    · exact own_named x
    · exact hbody.assigned v hv
  · obtain ⟨ρ, hρ, hden⟩ := hy
    rw [hop] at hden
    obtain ⟨p, hp, es₁, hes₁, he⟩ := (mem_concatM hden e).mp he
    obtain ⟨b, hb, es₂, hes₂, he⟩ := (mem_concatM hes₁ e).mp he
    obtain ⟨hbrow, hblen, hkey⟩ := mem_joinPartners.mp hb
    obtain ⟨hprow, hplen⟩ := mem_filter.mp hp
    obtain ⟨τ, heq, rfl, rfl⟩ := hρ.modelsAt.exists_join hnodup hkeys hnew
      (of_decide_eq_true hplen) hblen hkey
    exact ⟨τ, es₂, heq, ⟨hbrow, hprow⟩, ⟨_, (hρ.congr hS heq).bindJoin _ rfl rfl, hes₂⟩, he⟩
  · obtain ⟨ρ, hρ, hden⟩ := hy
    rw [hop] at hden
    obtain ⟨es₁, hes₁, hsub₁⟩ := run_of_concatM (a := ys.map τ) hden
      (mem_filter.mpr ⟨hτ.2, by simp [DataSource.vars]⟩)
    obtain ⟨es₂, hes₂, hsub₂⟩ := run_of_concatM (a := xs.map τ) hes₁
      (mem_joinPartners.mpr ⟨hτ.1, by simp [DataSource.vars], joinKey_map hnodup hkeys τ⟩)
    exact ⟨es₂, ⟨_, hρ.bindJoin _ rfl rfl, hes₂⟩, fun e he => hsub₁ (hsub₂ he)⟩

end Join

end Premise

end Rules

end Mangle

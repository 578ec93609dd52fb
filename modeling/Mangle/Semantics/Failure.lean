import Mangle.Semantics.Simulation

/-!
# Semantics/Failure — how a well-scoped operation fails

`den_fromBuiltin`: where the variables in scope have values, only a built-in's evaluation fails.
Such an environment agrees there with one in which all variables have values, and nothing else is
read.
-/

namespace Mangle

open Machinery

variable {args : List Operand}

/-! ## Failures -/

/-- The variables of `B` have values. -/
def Defined (B : Set Name) (ρ : Env) : Prop := ∀ v ∈ B, ∃ x, ρ v = some x

/-- A computation that fails as built-ins do, if at all. -/
def FailsAsBuiltin {α : Type} (x : Result α) : Prop := ∀ e, x = .error e → e.FromBuiltin

section Failure

variable {α β : Type}

theorem FailsAsBuiltin.ok (a : α) : FailsAsBuiltin (.ok a : Result α) := by
  rintro e ⟨⟩

theorem FailsAsBuiltin.ofBuiltin (x : Builtin α) : FailsAsBuiltin (ofBuiltin x) := by
  cases x with
  | ok a => exact .ok a
  | error e =>
    rintro _ ⟨⟩
    trivial

theorem FailsAsBuiltin.bind {x : Result α} {f : α → Result β} (hx : FailsAsBuiltin x)
    (hf : ∀ a, x = .ok a → FailsAsBuiltin (f a)) : FailsAsBuiltin (x >>= f) := by
  intro e he
  rcases bind_eq_error.mp he with h | ⟨a, ha, h⟩
  · exact hx e h
  · exact hf a ha e h

theorem FailsAsBuiltin.concatM {f : α → Result (List β)} {l : List α}
    (h : ∀ a ∈ l, FailsAsBuiltin (f a)) : FailsAsBuiltin (concatM f l) := by
  intro e he
  obtain ⟨a, ha, hfa⟩ := error_of_concatM he
  exact h a ha e hfa

end Failure

/-! ## Environments with all values -/

/-- All variables have values. -/
def Env.Total (ρ : Env) : Prop := ∀ v, ∃ x, ρ v = some x

namespace Env.Total

variable {ρ : Env}

theorem set (h : ρ.Total) (v : Name) (x : Value) : (ρ.set v x).Total := by
  intro w
  by_cases hwv : w = v
  · exact ⟨x, by simp [hwv]⟩
  · rw [Env.set_of_ne x hwv]
    exact h w

theorem bindVars (h : ρ.Total) (vars : List Name) (t : Tuple) : (ρ.bindVars vars t).Total := by
  induction vars generalizing ρ t with
  | nil => exact h
  | cons v vs ih =>
    cases t with
    | nil => exact h
    | cons x xs => exact ih (h.set v x) xs

theorem reducerArgs (h : ρ.Total) (arg : Operand) (vars : List Name) (ts : List Tuple) :
    ∃ vs ρ', reducerArgs arg vars ts ρ = .ok (vs, ρ') ∧ ρ'.Total := by
  induction ts generalizing ρ with
  | nil => exact ⟨[], ρ, rfl, h⟩
  | cons t ts ih =>
    have hb := h.bindVars vars t
    obtain ⟨v, hv⟩ : ∃ v, evalOperand (ρ.bindVars vars t) arg = .ok v := by
      cases arg with
      | var w =>
        obtain ⟨x, hx⟩ := hb w
        exact ⟨x, by simp [evalOperand, hx]⟩
      | const c => exact ⟨_, rfl⟩
    obtain ⟨vs, ρ', hrest, hρ'⟩ := ih hb
    exact ⟨v :: vs, ρ', by simp only [Mangle.reducerArgs, hv, hrest]; rfl, hρ'⟩

theorem evalAggregate (h : ρ.Total) (hst : Host) (agg : Aggregate) (ts : List Tuple)
    (vars : List Name) : FailsAsBuiltin (evalAggregate hst agg ts vars ρ) ∧
      ∀ p, evalAggregate hst agg ts vars ρ = .ok p → p.2.Total := by
  unfold Mangle.evalAggregate
  split
  · refine ⟨.ok _, fun p hp => ?_⟩
    cases hp
    exact h
  · split
    · split <;> exact ⟨.ofBuiltin _, fun p hp => by simp [reject, ofBuiltin, fail] at hp⟩
    · obtain ⟨vs, ρ₁, hvs, hρ₁⟩ := h.reducerArgs _ vars ts
      rw [hvs, ok_bind]
      refine ⟨(FailsAsBuiltin.ofBuiltin _).bind fun v _ => .ok _, fun p hp => ?_⟩
      obtain ⟨v, -, rfl⟩ := bind_eq_pure.mp hp
      exact hρ₁

theorem bindGroup (h : ρ.Total) (hst : Host) (vars keys : List Name) (aggs : List Aggregate)
    (g : Group) : FailsAsBuiltin (bindGroup hst vars keys aggs g ρ) ∧
      ∀ ρ', bindGroup hst vars keys aggs g ρ = .ok ρ' → ρ'.Total := by
  unfold Mangle.bindGroup
  have hb := h.bindVars keys g.1
  generalize ρ.bindVars keys g.1 = ρ₀ at hb
  induction aggs generalizing ρ₀ with
  | nil =>
    refine ⟨.ok _, fun ρ' heq => ?_⟩
    cases heq
    exact hb
  | cons agg aggs ih =>
    obtain ⟨hfail, htotal⟩ := hb.evalAggregate hst agg g.2 vars
    rw [List.foldlM_cons]
    constructor
    · refine FailsAsBuiltin.bind (hfail.bind fun p _ => .ok _) fun ρ₁ h₁ => ?_
      obtain ⟨p, hp, rfl⟩ := bind_eq_pure.mp h₁
      exact (ih _ ((htotal p hp).set agg.var p.1)).1
    · intro ρ' heq
      obtain ⟨ρ₁, h₁, heq⟩ := bind_eq_ok.mp heq
      obtain ⟨p, hp, rfl⟩ := bind_eq_pure.mp h₁
      exact (ih _ ((htotal p hp).set agg.var p.1)).2 ρ' heq

end Env.Total

variable {B : Set Name}

theorem AgreeOn.defined {ρ τ : Env} (h : AgreeOn B ρ τ) (hτ : τ.Total) :
    Defined B ρ := fun v hv => by rw [h v hv]; exact hτ v

namespace Defined

variable {B : Set Name} {ρ : Env}

variable (h : Defined B ρ)

include h

theorem exists_total : ∃ τ : Env, τ.Total ∧ AgreeOn B ρ τ := by
  refine ⟨fun v => some ((ρ v).getD .null), fun v => ⟨_, rfl⟩, fun v hv => ?_⟩
  obtain ⟨x, hx⟩ := h v hv
  simp [hx]

theorem set (v : Name) (x : Value) : Defined (insert v B) (ρ.set v x) := by
  obtain ⟨τ, hτ, hag⟩ := h.exists_total
  exact (hag.set v x).defined (hτ.set v x)

theorem bindVars (vars : List Name) (t : Tuple) (hlen : t.length = vars.length) :
    Defined (names vars ∪ B) (ρ.bindVars vars t) := by
  obtain ⟨τ, hτ, hag⟩ := h.exists_total
  exact (hag.bindVars vars t hlen).defined (hτ.bindVars vars t)

theorem evalOperand {op : Operand} (hop : op.Reads B) : ∃ x, evalOperand ρ op = .ok x := by
  cases op with
  | var v =>
    obtain ⟨x, hx⟩ := h v hop
    exact ⟨x, by simp [Mangle.evalOperand, hx]⟩
  | const c => exact ⟨_, rfl⟩

theorem evalOperands (hargs : ∀ a ∈ args, a.Reads B) :
    ∃ xs, evalOperands ρ args = .ok xs ∧ xs.length = args.length := by
  unfold Mangle.evalOperands
  induction args with
  | nil => exact ⟨[], rfl, rfl⟩
  | cons a as ih =>
    obtain ⟨x, hx⟩ := h.evalOperand (hargs a (by simp))
    obtain ⟨xs, hxs, hlen⟩ := ih fun b hb => hargs b (List.mem_cons_of_mem a hb)
    exact ⟨x :: xs, by rw [List.mapM_cons, hx, hxs]; rfl, by simp [hlen]⟩

theorem matchArgs (hargs : ∀ a ∈ args, a.Reads B) (t : Tuple) :
    ∃ b, matchArgs ρ args t = .ok b := by
  induction args generalizing t with
  | nil => exact ⟨true, by cases t <;> rfl⟩
  | cons a as ih =>
    cases t with
    | nil => exact ⟨true, rfl⟩
    | cons x xs =>
      obtain ⟨v, hv⟩ := h.evalOperand (hargs a (by simp))
      obtain ⟨b, hb⟩ := ih (fun b hb => hargs b (List.mem_cons_of_mem a hb)) xs
      by_cases hxv : x = v
      · exact ⟨b, by simp [Mangle.matchArgs, hv, hxv, hb]⟩
      · exact ⟨false, by simp [Mangle.matchArgs, hv, hxv]⟩

theorem noMatch (hargs : ∀ a ∈ args, a.Reads B) (ts : List Tuple) :
    ∃ b, noMatch ρ args ts = .ok b := by
  induction ts with
  | nil => exact ⟨true, rfl⟩
  | cons t ts ih =>
    obtain ⟨b, hb⟩ := h.matchArgs hargs t
    obtain ⟨b', hb'⟩ := ih
    by_cases hlen : t.length = args.length
    · cases b with
      | true => exact ⟨false, by simp [Mangle.noMatch, hlen, hb, pure, Except.pure]⟩
      | false => exact ⟨b', by simp [Mangle.noMatch, hlen, hb, hb']⟩
    · exact ⟨b', by simp [Mangle.noMatch, hlen, hb']⟩

theorem evalExpr (rt : Runtime) {e : Expr} (he : e.Reads B) : FailsAsBuiltin (evalExpr rt ρ e) := by
  cases e with
  | value op =>
    obtain ⟨x, hx⟩ := h.evalOperand he
    rw [Mangle.evalExpr, hx]
    exact .ok x
  | call fn args =>
    obtain ⟨xs, hxs, -⟩ := h.evalOperands he
    rw [Mangle.evalExpr, hxs]
    exact .ofBuiltin _

theorem collectDataSource (c : Tiers) {src : DataSource} (hs : src.Reads B) :
    ∃ ts, collectDataSource c.reader ρ src = .ok ts := by
  cases src with
  | scan rel vars => exact ⟨_, rfl⟩
  | scanDelta rel vars => exact ⟨_, rfl⟩
  | indexLookup rel col key vars =>
    obtain ⟨x, hx⟩ := h.evalOperand hs
    exact ⟨_, by rw [Mangle.collectDataSource, hx]; rfl⟩

end Defined

/-- A built-in predicate that has its arguments only rejects them. -/
theorem evalBuiltinPredicate_failsAsBuiltin {name : String} {vals : List Value}
    (h : builtinArgs name ≤ vals.length) : FailsAsBuiltin (evalBuiltinPredicate name vals) := by
  have h2 : 2 ≤ vals.length := by
    unfold builtinArgs at h
    split at h <;> omega
  obtain ⟨x, y, vals, rfl⟩ : ∃ x y rest, vals = x :: y :: rest := by
    match vals, h2 with
    | x :: y :: rest, _ => exact ⟨x, y, rest, rfl⟩
  unfold evalBuiltinPredicate
  split
  case h_6 =>
    match vals, h with
    | z :: rest, _ =>
      split
      · exact .ok _
      · exact .ok _
      · rename_i hno
        exact (hno _ _ _ _ rfl).elim
  case h_5 => exact .ok _
  case h_7 => exact .ofBuiltin _
  all_goals
    split
    · exact .ok _
    · exact .ofBuiltin _
    · simp_all

theorem Defined.evalCond {ρ : Env} (h : Defined B ρ) (c : Tiers) {cond : Condition}
    (hc : cond.Reads B) : FailsAsBuiltin (evalCond c.reader ρ cond) := by
  induction cond with
  | cmp op l r =>
    obtain ⟨x, hx⟩ := h.evalOperand hc.1
    obtain ⟨y, hy⟩ := h.evalOperand hc.2
    rw [Mangle.evalCond, hx, hy]
    exact .ok _
  | negation rel args =>
    obtain ⟨b, hb⟩ := h.noMatch hc (c.visible rel)
    have : Mangle.evalCond c.reader ρ (.negation rel args) = .ok b := hb
    rw [this]
    exact .ok b
  | call fn args =>
    obtain ⟨xs, hxs, hlen⟩ := h.evalOperands hc.2
    rw [Mangle.evalCond, hxs]
    exact evalBuiltinPredicate_failsAsBuiltin (hlen ▸ hc.1)
  | not inner ih => exact (ih hc).bind fun b _ => .ok _

/-- The environment of a group's body has values for the keys and the reducers. -/
theorem Defined.bindGroup {vars keys : List Name} {aggs : List Aggregate}
    (hst : Host) (hdis : Disjoint (names vars) B) (hkeys : ∀ k ∈ keys, k ∈ vars)
    (haggs : ∀ agg ∈ aggs, agg.var ∉ B ∧ ∀ a ∈ agg.args, a.Reads (names vars ∪ B)) {g : Group}
    (hg : g.Fits vars keys) {ρ : Env} (h : Defined B ρ) :
    FailsAsBuiltin (bindGroup hst vars keys aggs g ρ) ∧
      ∀ ρ', bindGroup hst vars keys aggs g ρ = .ok ρ' →
        Defined (names (keys ++ aggs.map Aggregate.var) ∪ B) ρ' := by
  obtain ⟨τ, hτ, hag⟩ := h.exists_total
  obtain ⟨hfail, htotal⟩ := hτ.bindGroup hst vars keys aggs g
  rcases (hag.bindGroup hst hdis hkeys haggs hg).cases with
    ⟨ρ', τ', hρ', hτ', hag', -⟩ | ⟨e, e', hρ', hτ', rfl⟩
  · rw [hρ']
    refine ⟨.ok _, fun ρ'' heq => ?_⟩
    cases heq
    exact hag'.defined (htotal τ' hτ')
  · rw [hρ', ← hτ']
    exact ⟨hfail, fun ρ'' heq => by rw [hτ'] at heq; cases heq⟩

theorem Op.Chain.fromBuiltin (rt : Runtime) (c : Tiers) {W : Set Name} {op : Op}
    (h : op.Chain W B) {ρ : Env} (hρ : Defined B ρ) : FailsAsBuiltin (den rt c.reader op ρ) := by
  induction h generalizing ρ with
  | insert _ hread =>
    obtain ⟨xs, hxs, -⟩ := hρ.evalOperands hread
    simp only [den, hxs, ok_bind]
    exact .ok _
  | bind hread _ ih => exact (hρ.evalExpr rt hread).bind fun v _ => ih (hρ.set _ v)

/-- **Only a built-in fails** in a well-scoped operation whose variables have values. -/
theorem den_fromBuiltin (rt : Runtime) (c : Tiers) {W : Set Name} {op : Op}
    (h : op.Scoped W B) {ρ : Env} (hρ : Defined B ρ) : FailsAsBuiltin (den rt c.reader op ρ) := by
  induction h generalizing ρ with
  | nop => exact .ok []
  | iterate hread _ _ ih =>
    obtain ⟨ts, hts⟩ := hρ.collectDataSource c hread
    simp only [den, hts, ok_bind]
    refine .concatM fun t _ => ?_
    split
    · exact .ok []
    · rename_i hlen
      exact ih (hρ.bindVars _ t (not_not.mp hlen))
  | filter hread _ ih =>
    refine (hρ.evalCond c hread).bind fun b _ => ?_
    split
    · exact ih hρ
    · exact .ok []
  | insert _ hread =>
    obtain ⟨xs, hxs, -⟩ := hρ.evalOperands hread
    simp only [den, hxs, ok_bind]
    exact .ok _
  | bind hread _ _ ih => exact (hρ.evalExpr rt hread).bind fun v _ => ih (hρ.set _ v)
  | @groupBy B source vars keys aggs body _ hkeys hdis haggs _ hbody =>
    have hgroups : FailsAsBuiltin
        (concatM (fun g => do den rt c.reader body (← bindGroup rt.host vars keys aggs g ρ))
          (rt.order.perm (groupTuples vars keys (c.visible source ++ c.next source) ρ []).2)) := by
      refine .concatM fun g hg => ?_
      have hfits := groupTuples_fits _ ρ (by simp) g ((rt.order.perm_perm _).mem_iff.mp hg)
      obtain ⟨hfail, hdef⟩ := hρ.bindGroup rt.host hdis hkeys haggs hfits
      exact hfail.bind fun ρ' hρ' => hbody.fromBuiltin rt c (hdef ρ' hρ')
    exact hgroups
  | hashJoin hbuild hprobe _ _ _ _ _ ih =>
    obtain ⟨buildTuples, hbt⟩ := hρ.collectDataSource c hbuild
    obtain ⟨probeTuples, hpt⟩ := hρ.collectDataSource c hprobe
    simp only [den, hbt, hpt, ok_bind]
    refine .concatM fun p hp => .concatM fun b hb => ?_
    have hlenp := by simpa using (List.mem_filter.mp hp).2
    exact ih ((hρ.bindVars _ p hlenp).bindVars _ b (mem_joinPartners.mp hb).2.1)
  | matchField hread _ _ ih =>
    obtain ⟨x, hx⟩ := hρ.evalOperand hread
    simp only [den, hx, ok_bind]
    cases structField _ x with
    | none => exact .ok []
    | some v => exact ih (hρ.set _ v)
  | iterateList hread _ _ ih =>
    obtain ⟨x, hx⟩ := hρ.evalOperand hread
    simp only [den, hx, ok_bind]
    exact .concatM fun v _ => ih (hρ.set _ v)

end Mangle

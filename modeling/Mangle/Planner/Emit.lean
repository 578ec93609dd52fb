import Mangle.Planner.Plan
import Mangle.Semantics.Simulation

/-!
# Planner/Emit — the lets of a term

`with_eval` plans a continuation under a chain of lets.  `emit` is the same chain in direct style
(`withEval_eq`): the lets that evaluate a term and the operand that then holds its value.  Over a
substitution of the rule's variables a term has the value `evalTerm`, and its lets compute it
(`Emits.run`).
-/

namespace Mangle

open Machinery List

variable {st st' : PlanState} {σ : String → Value} {lo hi : Nat} {l lets : List (Name × Expr)}
  {e : Expr} {B : Set Name} {t : Term} {ρ ρ' : Env}

/-! ## Planning steps -/

theorem planM_bind_ok {α β : Type} {x : PlanM α} {f : α → PlanM β} {b : β} :
    (x >>= f) st = .ok (b, st') ↔ ∃ a st₁, x st = .ok (a, st₁) ∧ f a st₁ = .ok (b, st') := by
  change (x st >>= fun p => f p.1 p.2) = _ ↔ _
  rw [bind_eq_ok]
  constructor
  · rintro ⟨⟨a, st₁⟩, h⟩
    exact ⟨a, st₁, h⟩
  · rintro ⟨a, st₁, h⟩
    exact ⟨(a, st₁), h⟩

theorem planM_pure_ok {α : Type} {a b : α} :
    (pure a : PlanM α) st = .ok (b, st') ↔ a = b ∧ st = st' := by
  change (Except.ok (a, st) : Except String (α × PlanState)) = _ ↔ _
  simp

theorem planM_map_ok {α β : Type} {x : PlanM α} {f : α → β} {b : β} :
    (x >>= fun a => pure (f a)) st = .ok (b, st') ↔ ∃ a, x st = .ok (a, st') ∧ f a = b := by
  simp only [planM_bind_ok, planM_pure_ok]
  grind

theorem planM_pure_pair_ok {α β : Type} {a a' : α} {b b' : β} :
    (pure (a, b) : PlanM (α × β)) st = .ok ((a', b'), st') ↔ a = a' ∧ b = b' ∧ st = st' := by
  rw [planM_pure_ok, Prod.mk.injEq, and_assoc]

theorem freshVar_ok {pre : String} {v : Name} :
    freshVar pre st = .ok (v, st') ↔
      v = .fresh pre st.fresh ∧ st' = { st with fresh := st.fresh + 1 } := by
  simp [freshVar, eq_comm]

theorem length_evalOperands {env : Env} {args : List Operand} {vals : List Value}
    (h : evalOperands env args = .ok vals) : vals.length = args.length := by
  induction args generalizing vals with
  | nil =>
    cases h
    rfl
  | cons a args ih =>
    simp only [evalOperands, mapM_cons, bind_eq_ok] at h
    obtain ⟨v, -, vs, hvs, heq⟩ := h
    cases heq
    simp [ih hvs]

/-! ## The lets of a term -/

/-- A chain of lets around an operation. -/
def wrapLets (lets : List (Name × Expr)) (inner : Op) : Op :=
  lets.foldr (fun l op => .bind l.1 l.2 op) inner

mutual

/-- The lets that evaluate a term, and the operand that then holds its value. -/
def emit : Term → PlanM (List (Name × Expr) × Operand)
  | .var x => pure ([], .var x)
  | .number n => pure ([], .const (.number n))
  | .float b => pure ([], .const (.float b))
  | .string s => pure ([], .const (.string s))
  | .name s => pure ([], .const (.name s))
  | .time t => pure ([], .const (.time t))
  | .duration d => pure ([], .const (.duration d))
  | .app head args => do
      let (lets, ops) ← emitArgs args
      let tmp ← freshVar head.freshPrefix
      pure (lets ++ [(tmp, .call head.function ops)], .var tmp)
  | .bool _ | .bytes _ => planError "Unsupported expression in evaluation"

/-- The lets that evaluate a list of terms. -/
def emitArgs : List Term → PlanM (List (Name × Expr) × List Operand)
  | [] => pure ([], [])
  | t :: ts => do
      let (lets, op) ← emit t
      let (lets', ops) ← emitArgs ts
      pure (lets ++ lets', op :: ops)

end

/-- The lets and the expression of a term that is bound to a variable. -/
def emitExpr (t : Term) : PlanM (List (Name × Expr) × Expr) :=
  match t with
  | .app (.fn name) args => do
      let (lets, ops) ← emitArgs args
      pure (lets, .call name ops)
  | t => do
      let (lets, op) ← emit t
      pure (lets, .value op)

mutual

/-- **`with_eval` in direct style.** -/
theorem withEval_eq : ∀ (t : Term) (k : Operand → PlanM Op), withEval t k = do
    let (lets, op) ← emit t
    let inner ← k op
    pure (wrapLets lets inner)
  | .app head args, k => by
      simp only [withEval, emit, withEvalArgs_eq args, bind_assoc, pure_bind, nil_append]
      simp [wrapLets]
  | .var _, k | .number _, k | .float _, k | .string _, k | .name _, k | .time _, k
  | .duration _, k => by simp [withEval, emit, wrapLets]
  | .bool _, k | .bytes _, k => by
      funext st
      rfl

/-- …and `with_eval_args`. -/
theorem withEvalArgs_eq : ∀ (ts : List Term) (acc : List Operand) (k : List Operand → PlanM Op),
    withEvalArgs ts acc k = do
      let (lets, ops) ← emitArgs ts
      let inner ← k (acc ++ ops)
      pure (wrapLets lets inner)
  | [], acc, k => by simp [withEvalArgs, emitArgs, wrapLets]
  | t :: ts, acc, k => by
      simp only [withEvalArgs, emitArgs, withEval_eq t, withEvalArgs_eq ts, bind_assoc, pure_bind]
      simp [wrapLets]

end

theorem instToExpr_eq (t : Term) (k : Expr → PlanM Op) :
    instToExpr t k = (do
      let (lets, e) ← emitExpr t
      let inner ← k e
      pure (wrapLets lets inner)) := by
  unfold instToExpr emitExpr
  split
  · simp [withEvalArgs_eq]
  · simp [withEval_eq]

/-- The operand of a term that needs no lets. -/
def leafOperand : Term → Option Operand
  | .var x => some (.var x)
  | .number n => some (.const (.number n))
  | .float b => some (.const (.float b))
  | .string s => some (.const (.string s))
  | .name s => some (.const (.name s))
  | .time t => some (.const (.time t))
  | .duration d => some (.const (.duration d))
  | .app .. | .bool _ | .bytes _ => none

/-- **What planning a list of terms can do.** -/
inductive Emits : PlanState → List Term → List (Name × Expr) → List Operand → PlanState → Prop
  | nil (st : PlanState) : Emits st [] [] [] st
  | leaf {st st' : PlanState} {t : Term} {ts : List Term} {o : Operand}
      {lets : List (Name × Expr)} {ops : List Operand} (ht : leafOperand t = some o)
      (h : Emits st ts lets ops st') : Emits st (t :: ts) lets (o :: ops) st'
  | app {st st₁ st' : PlanState} {head : Head} {args ts : List Term} {l l' : List (Name × Expr)}
      {os ops : List Operand} (hargs : Emits st args l os st₁)
      (h : Emits { st₁ with fresh := st₁.fresh + 1 } ts l' ops st') :
      Emits st (.app head args :: ts)
        (l ++ (.fresh head.freshPrefix st₁.fresh, .call head.function os) :: l')
        (.var (.fresh head.freshPrefix st₁.fresh) :: ops) st'

mutual

theorem emits_cons : ∀ {t : Term} {ts : List Term} {st st₁ st' : PlanState}
    {l l' : List (Name × Expr)} {o : Operand} {ops : List Operand},
    emit t st = .ok ((l, o), st₁) → Emits st₁ ts l' ops st' →
    Emits st (t :: ts) (l ++ l') (o :: ops) st'
  | .app head args, ts, st, st₁, st', l, l', o, ops, h, hts => by
      obtain ⟨⟨l₀, os⟩, st₀, hargs, h⟩ := planM_bind_ok.mp h
      obtain ⟨tmp, st₂, htmp, h⟩ := planM_bind_ok.mp h
      obtain ⟨rfl, rfl, rfl⟩ := planM_pure_pair_ok.mp h
      obtain ⟨rfl, rfl⟩ := freshVar_ok.mp htmp
      rw [append_assoc]
      exact .app (emits_of_emitArgs hargs) hts
  | .var _, _, _, _, _, _, _, _, _, h, hts | .number _, _, _, _, _, _, _, _, _, h, hts
  | .float _, _, _, _, _, _, _, _, _, h, hts | .string _, _, _, _, _, _, _, _, _, h, hts
  | .name _, _, _, _, _, _, _, _, _, h, hts | .time _, _, _, _, _, _, _, _, _, h, hts
  | .duration _, _, _, _, _, _, _, _, _, h, hts => by
      obtain ⟨rfl, rfl, rfl⟩ := planM_pure_pair_ok.mp h
      exact .leaf rfl hts
  | .bool _, _, _, _, _, _, _, _, _, h, _ | .bytes _, _, _, _, _, _, _, _, _, h, _ => by cases h

theorem emits_of_emitArgs : ∀ {ts : List Term} {st st' : PlanState} {lets : List (Name × Expr)}
    {ops : List Operand}, emitArgs ts st = .ok ((lets, ops), st') → Emits st ts lets ops st'
  | [], st, _, _, _, h => by
      obtain ⟨rfl, rfl, rfl⟩ := planM_pure_pair_ok.mp h
      exact .nil st
  | t :: ts, _, _, _, _, h => by
      obtain ⟨⟨l, op⟩, st₁, ht, h⟩ := planM_bind_ok.mp h
      obtain ⟨⟨l', ops'⟩, st₂, hts, h⟩ := planM_bind_ok.mp h
      obtain ⟨rfl, rfl, rfl⟩ := planM_pure_pair_ok.mp h
      exact emits_cons ht (emits_of_emitArgs hts)

end

/-- What planning a bound term can do. -/
theorem emitExpr_ok (h : emitExpr t st = .ok ((lets, e), st')) :
    ∃ ts ops, Emits st ts lets ops st' ∧ Term.allVarsList ts = t.allVars ∧
      ((∃ name, t = .app (.fn name) ts ∧ e = .call name ops) ∨
        ∃ o, ts = [t] ∧ ops = [o] ∧ e = .value o) := by
  unfold emitExpr at h
  split at h
  · obtain ⟨⟨l, ops⟩, st₁, hargs, h⟩ := planM_bind_ok.mp h
    obtain ⟨rfl, rfl, rfl⟩ := planM_pure_pair_ok.mp h
    exact ⟨_, ops, emits_of_emitArgs hargs, by rw [Term.allVars], Or.inl ⟨_, rfl, rfl⟩⟩
  · obtain ⟨⟨l, o⟩, st₁, ht, h⟩ := planM_bind_ok.mp h
    obtain ⟨rfl, rfl, rfl⟩ := planM_pure_pair_ok.mp h
    refine ⟨[t], [o], ?_, by simp [Term.allVarsList], Or.inr ⟨o, rfl, rfl, rfl⟩⟩
    simpa using emits_cons ht (.nil st₁)

/-! ## Values of terms -/

mutual

/-- The value of a term under a substitution of its variables. -/
def evalTerm (rt : Runtime) (σ : String → Value) : Term → Result Value
  | .var x => .ok (σ x)
  | .number n => .ok (.number n)
  | .float b => .ok (.float b)
  | .string s => .ok (.string s)
  | .name s => .ok (.name s)
  | .time t => .ok (.time t)
  | .duration d => .ok (.duration d)
  | .app head args => do ofBuiltin (evalFunction rt head.function (← evalTerms rt σ args))
  | .bool _ | .bytes _ => .error (.plan "Unsupported expression in evaluation")

/-- The values of a list of terms. -/
def evalTerms (rt : Runtime) (σ : String → Value) : List Term → Result (List Value)
  | [] => .ok []
  | t :: ts => do
      let v ← evalTerm rt σ t
      let vs ← evalTerms rt σ ts
      pure (v :: vs)

end

mutual

/-- A term's value depends on its variables only. -/
theorem evalTerm_congr {rt : Runtime} {σ τ : String → Value} : ∀ {t : Term},
    (∀ x ∈ t.allVars, σ x = τ x) → evalTerm rt σ t = evalTerm rt τ t
  | .var x, h => by simp [evalTerm, h x (by simp [Term.allVars])]
  | .app head args, h => by
      simp only [evalTerm]
      rw [evalTerms_congr fun x hx => h x (by simpa [Term.allVars] using hx)]
  | .number _, _ | .float _, _ | .string _, _ | .name _, _ | .time _, _ | .duration _, _
  | .bool _, _ | .bytes _, _ => rfl

theorem evalTerms_congr {rt : Runtime} {σ τ : String → Value} : ∀ {ts : List Term},
    (∀ x ∈ Term.allVarsList ts, σ x = τ x) → evalTerms rt σ ts = evalTerms rt τ ts
  | [], _ => rfl
  | t :: ts, h => by
      simp only [evalTerms]
      rw [evalTerm_congr fun x hx => h x (by simp [Term.allVarsList, hx]),
        evalTerms_congr fun x hx => h x (by simp [Term.allVarsList, hx])]

end

theorem length_evalTerms {rt : Runtime} :
    ∀ {ts : List Term}
    {vs : List Value}, evalTerms rt σ ts = .ok vs → vs.length = ts.length
  | [], vs, h => by
      rw [← Except.ok.inj h]
      rfl
  | t :: ts, vs, h => by
      obtain ⟨v, -, h⟩ := bind_eq_ok.mp h
      obtain ⟨vs', hvs, h⟩ := bind_eq_ok.mp h
      rw [← Except.ok.inj h, length_cons, length_cons, length_evalTerms hvs]

/-! ## Freshness -/

/-- The names `fresh_var` makes while its counter goes from `lo` to `hi`. -/
def freshIn (lo hi : Nat) : Set Name := {v | ∃ pre id, v = .fresh pre id ∧ lo ≤ id ∧ id < hi}

theorem freshIn_mono {lo' hi' : Nat} (hlo : lo' ≤ lo) (hhi : hi ≤ hi') :
    freshIn lo hi ⊆ freshIn lo' hi' := by
  rintro _ ⟨pre, id, rfl, h1, h2⟩
  exact ⟨pre, id, rfl, by omega, by omega⟩

theorem disjoint_freshIn {mid : Nat} : Disjoint (freshIn lo mid) (freshIn mid hi) := by
  refine Set.disjoint_left.mpr ?_
  rintro _ ⟨pre, id, rfl, h1, h2⟩ ⟨pre', id', heq, h1', h2'⟩
  obtain ⟨-, rfl⟩ := Name.fresh.inj heq
  omega

theorem named_notMem_freshIn (x : String) (lo hi : Nat) : (x : Name) ∉ freshIn lo hi := by
  rintro ⟨pre, id, h, -⟩
  cases h

/-- The rule's own names, as a set. -/
def ruleVars (xs : List String) : Set Name := {v | ∃ x ∈ xs, v = (x : Name)}

/-- The variables a chain of lets assigns. -/
def letNames (lets : List (Name × Expr)) : Set Name := {v | v ∈ lets.map Prod.fst}

/-- What planning a term leaves: the counter has moved past the names of its lets, and its operand
is a variable of the term or one of them. -/
structure Emitted (st st' : PlanState) (lets : List (Name × Expr)) : Prop where
  le : st.fresh ≤ st'.fresh
  captured : st'.captured = st.captured
  lets : letNames lets ⊆ freshIn st.fresh st'.fresh

theorem Emitted.append {st₁ : PlanState} {l' : List (Name × Expr)} (h : Emitted st st₁ l)
    (h' : Emitted st₁ st' l') :
    Emitted st st' (l ++ l') where
  le := h.le.trans h'.le
  captured := h'.captured.trans h.captured
  lets := by
    intro v hv
    simp only [letNames, map_append, mem_append, Set.mem_ofPred_eq] at hv
    rcases hv with hv | hv
    · exact freshIn_mono le_rfl h'.le (h.lets hv)
    · exact freshIn_mono h.le le_rfl (h'.lets hv)

/-- Nothing is emitted for a variable or a constant. -/
theorem Emitted.nil (st : PlanState) : Emitted st st [] :=
  ⟨le_rfl, rfl, by rintro v hv; simp [letNames] at hv⟩

theorem Emitted.fresh {pre : String} :
    Emitted st { st with fresh := st.fresh + 1 } [(.fresh pre st.fresh, e)] :=
  ⟨Nat.le_succ _, rfl, by
    rintro v hv
    simp only [letNames, map_cons, map_nil, mem_singleton, Set.mem_ofPred_eq] at hv
    exact ⟨pre, st.fresh, hv, le_rfl, Nat.lt_succ_self _⟩⟩

variable {ops : List Operand} {ts : List Term}

theorem Emits.emitted (h : Emits st ts lets ops st') :
    Emitted st st' lets := by
  induction h with
  | nil st => exact .nil st
  | leaf _ _ ih => exact ih
  | app _ _ ihargs ih => exact ihargs.append (Emitted.fresh.append ih)

/-! ## Scoping -/

/-- A chain of lets is well scoped where the variables of `B` have values. -/
def LetsScoped : Set Name → List (Name × Expr) → Prop
  | _, [] => True
  | B, (v, e) :: lets => e.Reads B ∧ v ∉ B ∧ LetsScoped (insert v B) lets

@[simp] theorem letNames_nil : letNames [] = ∅ := by
  ext v
  simp [letNames]

theorem letNames_cons (v : Name) (e : Expr) (lets : List (Name × Expr)) :
    letNames ((v, e) :: lets) = insert v (letNames lets) := by
  ext w
  simp [letNames]

theorem letNames_append (l l' : List (Name × Expr)) :
    letNames (l ++ l') = letNames l ∪ letNames l' := by
  ext w
  simp [letNames]

theorem LetsScoped.append {l' : List (Name × Expr)} (h : LetsScoped B l)
    (h' : LetsScoped (letNames l ∪ B) l') : LetsScoped B (l ++ l') := by
  induction l generalizing B with
  | nil => simpa using h'
  | cons p l ih =>
    obtain ⟨v, e⟩ := p
    refine ⟨h.1, h.2.1, ih h.2.2 ?_⟩
    rwa [letNames_cons, Set.insert_union, ← Set.union_insert] at h'

theorem LetsScoped.wrap {W : Set Name} {inner : Op} (h : LetsScoped B lets)
    (hinner : inner.Scoped W (letNames lets ∪ B)) : (wrapLets lets inner).Scoped W B := by
  induction lets generalizing B with
  | nil => simpa [wrapLets] using hinner
  | cons p l ih =>
    obtain ⟨v, e⟩ := p
    refine .bind h.1 h.2.1 (ih h.2.2 ?_)
    rwa [letNames_cons, Set.insert_union, ← Set.union_insert] at hinner

theorem leafOperand_reads {o : Operand} (h : leafOperand t = some o) :
    o.Reads (ruleVars t.allVars) := by
  cases t <;> cases h
  · exact ⟨_, by simp [Term.allVars], rfl⟩
  all_goals trivial

/-- **The lets of terms are well scoped** where their variables have values. -/
theorem Emits.scoped (h : Emits st ts lets ops st')
    (hB : ruleVars (Term.allVarsList ts) ⊆ B) (hf : Disjoint B (freshIn st.fresh st'.fresh)) :
    LetsScoped B lets ∧ ∀ op ∈ ops, op.Reads (letNames lets ∪ B) := by
  induction h generalizing B with
  | nil st => exact ⟨trivial, by simp⟩
  | @leaf st st' t ts o lets ops ht h ih =>
    obtain ⟨hl, hops⟩ := ih (fun v ⟨x, hx, hv⟩ => hB ⟨x, mem_append_right _ hx, hv⟩) hf
    refine ⟨hl, forall_mem_cons.mpr ⟨(leafOperand_reads ht).mono ?_, hops⟩⟩
    exact fun v ⟨x, hx, hv⟩ => Or.inr (hB ⟨x, mem_append_left _ hx, hv⟩)
  | @app st st₁ st' head args ts l l' os ops hargs h ihargs ih =>
    have hlt : st₁.fresh < st'.fresh := h.emitted.le
    have hold : Disjoint (letNames l ∪ B) (freshIn st₁.fresh st'.fresh) :=
      Set.disjoint_union_left.mpr ⟨disjoint_freshIn.mono_left hargs.emitted.lets,
        hf.mono_right (freshIn_mono hargs.emitted.le le_rfl)⟩
    have hnew : Disjoint (insert (.fresh head.freshPrefix st₁.fresh) (letNames l ∪ B))
        (freshIn (st₁.fresh + 1) st'.fresh) :=
      Set.disjoint_insert_left.mpr
        ⟨Set.disjoint_left.mp disjoint_freshIn ⟨_, _, rfl, le_rfl, Nat.lt_succ_self _⟩,
          hold.mono_right (freshIn_mono (Nat.le_succ _) le_rfl)⟩
    obtain ⟨hl, hos⟩ := ihargs (fun v ⟨x, hx, hv⟩ => hB ⟨x, mem_append_left _ hx, hv⟩)
      (hf.mono_right (freshIn_mono le_rfl hlt.le))
    obtain ⟨hl', hops⟩ := ih
      (fun v ⟨x, hx, hv⟩ => Or.inr (Or.inr (hB ⟨x, mem_append_right _ hx, hv⟩))) hnew
    refine ⟨hl.append ⟨hos, Set.disjoint_right.mp hold ⟨_, _, rfl, le_rfl, hlt⟩, hl'⟩, ?_⟩
    have hset : letNames
        (l ++ (.fresh head.freshPrefix st₁.fresh, .call head.function os) :: l') ∪ B =
        letNames l' ∪ insert (.fresh head.freshPrefix st₁.fresh) (letNames l ∪ B) := by
      ext v
      simp only [letNames_append, letNames_cons, Set.mem_union, Set.mem_insert_iff]
      tauto
    rw [hset]
    exact forall_mem_cons.mpr ⟨Or.inr (Or.inl rfl), hops⟩

/-- The operands of terms read their variables and the names made while planning them. -/
theorem Emits.operand (h : Emits st ts lets ops st') :
    ∀ op ∈ ops, op.Reads (ruleVars (Term.allVarsList ts) ∪ freshIn st.fresh st'.fresh) := by
  have hdis : Disjoint (ruleVars (Term.allVarsList ts)) (freshIn st.fresh st'.fresh) := by
    refine Set.disjoint_left.mpr ?_
    rintro _ ⟨x, -, rfl⟩
    exact named_notMem_freshIn x _ _
  intro op hop
  refine ((h.scoped le_rfl hdis).2 op hop).mono ?_
  rw [Set.union_comm]
  exact Set.union_subset_union_right _ h.emitted.lets

/-! ## Evaluation -/

/-- Run a chain of lets. -/
def runLets (rt : Runtime) : List (Name × Expr) → Env → Result Env
  | [], ρ => .ok ρ
  | (v, e) :: lets, ρ => do
      let x ← evalExpr rt ρ e
      runLets rt lets (ρ.set v x)

theorem runLets_append (rt : Runtime) (l l' : List (Name × Expr)) (ρ : Env) :
    runLets rt (l ++ l') ρ = runLets rt l ρ >>= runLets rt l' := by
  induction l generalizing ρ with
  | nil => rfl
  | cons p l ih =>
    simp only [cons_append, runLets, bind_assoc]
    exact bind_congr fun x => ih _

theorem den_wrapLets (rt : Runtime) (r : Reader) (lets : List (Name × Expr)) (inner : Op)
    (ρ : Env) : den rt r (wrapLets lets inner) ρ = runLets rt lets ρ >>= den rt r inner := by
  induction lets generalizing ρ with
  | nil => rfl
  | cons p l ih =>
    simp only [runLets, bind_assoc]
    exact bind_congr fun x => ih _

/-- The environment gives the variables their values under the substitution. -/
def Models (ρ : Env) (σ : String → Value) (xs : List String) : Prop :=
  ∀ x ∈ xs, ρ (x : Name) = some (σ x)

/-- The environments agree outside the names made while the counter went from `lo` to `hi`. -/
def AgreeOff (lo hi : Nat) (env ρ : Env) : Prop := AgreeOn (freshIn lo hi)ᶜ env ρ

theorem AgreeOff.models (h : AgreeOff lo hi ρ' ρ) {xs : List String} (hm : Models ρ σ xs) :
    Models ρ' σ xs := fun x hx =>
  (h _ (named_notMem_freshIn x lo hi)).trans (hm x hx)

theorem AgreeOff.refl (lo hi : Nat) (ρ : Env) : AgreeOff lo hi ρ ρ := fun _ _ => rfl

theorem AgreeOff.mono {lo' hi' : Nat} (h : AgreeOff lo hi ρ' ρ) (hlo : lo' ≤ lo) (hhi : hi ≤ hi') :
    AgreeOff lo' hi' ρ' ρ :=
  fun v hv => h v fun hm => hv (freshIn_mono hlo hhi hm)

theorem AgreeOff.trans {mid : Nat} {ρ₁ : Env} (h : AgreeOff mid hi ρ' ρ₁)
    (h' : AgreeOff lo mid ρ₁ ρ) (hlo : lo ≤ mid) (hhi : mid ≤ hi) : AgreeOff lo hi ρ' ρ :=
  AgreeOn.trans (h.mono hlo le_rfl) (h'.mono le_rfl hhi)

theorem evalOperand_leaf (rt : Runtime) (σ : String → Value) {o : Operand}
    (h : leafOperand t = some o) : ∃ v, evalTerm rt σ t = .ok v ∧
      ∀ ρ, Models ρ σ t.allVars → evalOperand ρ o = .ok v := by
  cases t <;> cases h
  · exact ⟨_, rfl, fun ρ hm => by simp [evalOperand, hm _ (mem_singleton_self _)]⟩
  all_goals exact ⟨_, rfl, fun _ _ => rfl⟩

theorem evalOperands_cons {o : Operand} {v : Value} {vs : List Value}
    (h : evalOperand ρ o = .ok v) (hs : evalOperands ρ ops = .ok vs) :
    evalOperands ρ (o :: ops) = .ok (v :: vs) := by
  unfold evalOperands at hs ⊢
  rw [mapM_cons, h, hs]
  rfl

/-- **The lets of terms compute their values.** -/
theorem Emits.run (rt : Runtime)
    (h : Emits st ts lets ops st') (hm : Models ρ σ (Term.allVarsList ts)) :
    Lift Eq (fun vs ρ' => evalOperands ρ' ops = .ok vs ∧ AgreeOff st.fresh st'.fresh ρ' ρ)
      (evalTerms rt σ ts) (runLets rt lets ρ) := by
  induction h generalizing ρ with
  | nil st => exact .ok ⟨rfl, .refl _ _ ρ⟩
  | leaf ht h ih =>
    obtain ⟨v, hv, hop⟩ := evalOperand_leaf rt σ ht
    rw [evalTerms, hv, ok_bind, ← bind_pure (runLets ..)]
    refine (ih fun x hx => hm x (mem_append_right _ hx)).bind ?_
    rintro vs ρ' ⟨hops, hag⟩
    have hm' := hag.models hm
    exact .ok ⟨evalOperands_cons (hop ρ' fun x hx => hm' x (mem_append_left _ hx)) hops, hag⟩
  | @app st st₁ st' head args ts l l' os ops hargs h ihargs ih =>
    simp only [evalTerms, evalTerm, bind_assoc, runLets_append]
    refine (ihargs fun x hx => hm x (mem_append_left _ hx)).bind ?_
    rintro vs ρ₁ ⟨hos, hag⟩
    simp only [runLets, evalExpr, hos, ok_bind]
    cases ofBuiltin (evalFunction rt head.function vs) with
    | error e => exact .error rfl
    | ok v =>
      have htmp {lo hi : Nat} (hlo : lo ≤ st₁.fresh) (hhi : st₁.fresh < hi) :
          (.fresh head.freshPrefix st₁.fresh) ∈ freshIn lo hi := ⟨_, _, rfl, hlo, hhi⟩
      have hset : AgreeOff st₁.fresh (st₁.fresh + 1)
          (ρ₁.set (.fresh head.freshPrefix st₁.fresh) v) ρ₁ :=
        agreeOn_set (Set.notMem_compl_iff.mpr (htmp le_rfl (Nat.lt_succ_self _))) ρ₁ v
      have hag₁ := hset.trans hag hargs.emitted.le (Nat.le_succ _)
      have hm₁ := hag₁.models hm
      rw [ok_bind, ok_bind, ← bind_pure (runLets ..)]
      refine (ih fun x hx => hm₁ x (mem_append_right _ hx)).bind ?_
      rintro us ρ₂ ⟨hops, hag₂⟩
      -- the later lets only assign later names
      have hkeep := hag₂ _ (Set.disjoint_left.mp disjoint_freshIn
        (htmp le_rfl (Nat.lt_succ_self _)))
      refine .ok ⟨evalOperands_cons (by simp [evalOperand, hkeep]) hops, ?_⟩
      exact hag₂.trans hag₁ (hargs.emitted.le.trans (Nat.le_succ _)) h.emitted.le

/-! ## Lists of terms -/

theorem wrapLets_append (l l' : List (Name × Expr)) (inner : Op) :
    wrapLets (l ++ l') inner = wrapLets l (wrapLets l' inner) := foldr_append

theorem assigned_wrapLets (lets : List (Name × Expr)) (inner : Op) :
    (wrapLets lets inner).assigned = lets.map Prod.fst ++ inner.assigned := by
  induction lets with
  | nil => rfl
  | cons p lets ih => exact congrArg (p.1 :: ·) ih

/-- What `with_eval` plans. -/
theorem withEval_ok {k : Operand → PlanM Op} {op : Op} (h : withEval t k st = .ok (op, st')) :
    ∃ lets o st₁ inner, Emits st [t] lets [o] st₁ ∧ k o st₁ = .ok (inner, st') ∧
      op = wrapLets lets inner := by
  rw [withEval_eq] at h
  obtain ⟨⟨lets, o⟩, st₁, ht, h⟩ := planM_bind_ok.mp h
  obtain ⟨inner, hk, rfl⟩ := planM_map_ok.mp h
  exact ⟨lets, o, st₁, inner, by simpa using emits_cons ht (.nil st₁), hk, rfl⟩

/-- …and two of them. -/
theorem withEval2_ok {l r : Term} {k : Operand → Operand → PlanM Op} {op : Op}
    (h : withEval2 l r k st = .ok (op, st')) :
    ∃ lets lo ro st₁ inner, Emits st [l, r] lets [lo, ro] st₁ ∧ k lo ro st₁ = .ok (inner, st') ∧
      op = wrapLets lets inner := by
  unfold withEval2 at h
  rw [withEval_eq] at h
  obtain ⟨⟨lets, lo⟩, st₁, hl, h⟩ := planM_bind_ok.mp h
  obtain ⟨inner₁, hr, rfl⟩ := planM_map_ok.mp h
  obtain ⟨lets', ro, st₃, inner, hr', hk, rfl⟩ := withEval_ok hr
  exact ⟨lets ++ lets', lo, ro, st₃, inner, emits_cons hl hr', hk, (wrapLets_append ..).symm⟩

/-! ## Bound expressions -/

theorem emitExpr_emitted (h : emitExpr t st = .ok ((lets, e), st')) : Emitted st st' lets := by
  obtain ⟨ts, ops, hargs, -⟩ := emitExpr_ok h
  exact hargs.emitted

theorem emitExpr_scoped (h : emitExpr t st = .ok ((lets, e), st')) (hB : ruleVars t.allVars ⊆ B)
    (hf : Disjoint B (freshIn st.fresh st'.fresh)) :
    LetsScoped B lets ∧ e.Reads (letNames lets ∪ B) := by
  obtain ⟨ts, ops, hargs, hvars, hor⟩ := emitExpr_ok h
  obtain ⟨hl, hops⟩ := hargs.scoped (hvars ▸ hB) hf
  obtain ⟨name, -, rfl⟩ | ⟨o, -, rfl, rfl⟩ := hor
  · exact ⟨hl, hops⟩
  · exact ⟨hl, hops o (mem_singleton_self o)⟩

/-- **The lets and the expression of a bound term compute its value.** -/
theorem emitExpr_run (rt : Runtime) (h : emitExpr t st = .ok ((lets, e), st'))
    (hm : Models ρ σ t.allVars) :
    Lift Eq (fun v p => v = p.1 ∧ AgreeOff st.fresh st'.fresh p.2 ρ) (evalTerm rt σ t)
      (do
        let ρ' ← runLets rt lets ρ
        let v ← evalExpr rt ρ' e
        .ok (v, ρ')) := by
  obtain ⟨ts, ops, hargs, hvars, hor⟩ := emitExpr_ok h
  have hrun := hargs.run rt (hvars ▸ hm)
  obtain ⟨name, rfl, rfl⟩ | ⟨o, rfl, rfl, rfl⟩ := hor
  · simp only [evalTerm]
    refine hrun.bind fun vs ρ' ⟨hops, hag⟩ => ?_
    simp only [evalExpr, hops, ok_bind, Head.function]
    cases ofBuiltin (evalFunction rt _ vs) with
    | error e => exact .error rfl
    | ok v => exact .ok ⟨rfl, hag⟩
  · rw [evalTerms] at hrun
    cases hv : evalTerm rt σ t with
    | error e =>
      obtain ⟨_, herr, rfl⟩ := Lift.error_left.mp (hv ▸ hrun)
      rw [herr]
      exact .error rfl
    | ok v =>
      obtain ⟨ρ', hρ', hops, hag⟩ := Lift.ok_left.mp (hv ▸ hrun)
      rw [evalOperands, mapM_cons, bind_eq_ok] at hops
      obtain ⟨w, hw, heq⟩ := hops
      cases heq
      rw [hρ', ok_bind, evalExpr, hw]
      exact .ok ⟨rfl, hag⟩

end Mangle

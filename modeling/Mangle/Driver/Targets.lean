import Mangle.Driver.Compile
import Mangle.Planner.Emit

/-!
# Driver/Targets — what the execution of a program writes

An operation writes by its insertions only.  `Op.Targets T` says that each of them has a relation
and a number of columns that `T` admits.  The plan of a rule inserts into the relation of its head,
with the columns of the head, and into temporary relations (`planRule_targets`); so whatever such
insertions and merges keep, the execution of a program keeps (`Program.execute_keeps`).
-/

namespace Mangle

open Machinery List

variable {α : Type} {s s' : MemStore} {k : List Name → PlanM Op}

/-! ## Operations -/

mutual

/-- Every insertion is into a relation, with a number of columns, that `T` admits. -/
def Op.Targets (T : Name → Nat → Prop) : Op → Prop
  | .nop => True
  | .seq ops => Op.TargetsAll T ops
  | .insert rel args => T rel args.length
  | .iterate _ body | .filter _ body | .bind _ _ body | .groupBy _ _ _ _ body
  | .hashJoin _ _ _ body | .matchField _ _ _ body | .iterateList _ _ body => body.Targets T

/-- The same, for a list of operations. -/
def Op.TargetsAll (T : Name → Nat → Prop) : List Op → Prop
  | [] => True
  | op :: ops => op.Targets T ∧ Op.TargetsAll T ops

end

section Execution

variable {T : Name → Nat → Prop} {P : MemStore → Prop} {rt : Runtime}

theorem runEach_keeps {f : α → Env → MemStore → Outcome}
    (hf : ∀ a env s n env' s', f a env s = .ok (n, env', s') → P s → P s') {as : List α}
    {env env' : Env} {n : Nat} (h : runEach f as env s = .ok (n, env', s')) (hs : P s) : P s' := by
  induction as generalizing env s n with
  | nil =>
    cases h
    exact hs
  | cons a as ih =>
    simp only [runEach, bind_eq_ok] at h
    obtain ⟨⟨n₁, env₁, s₁⟩, h₁, ⟨n₂, env₂, s₂⟩, h₂, heq⟩ := h
    cases heq
    exact ih h₂ (hf a env s n₁ env₁ s₁ h₁ hs)

mutual

/-- **What the insertions keep, the operation keeps.** -/
theorem execOp_keeps (hins : ∀ s rel t, T rel t.length → P s → P (s.insert rel t).2) :
    ∀ (op : Op) {env env' : Env} {s s' : MemStore} {n : Nat}, op.Targets T →
      execOp rt op env s = .ok (n, env', s') → P s → P s'
  | .nop, _, _, _, _, _, _, h, hs => by
      simp only [execOp] at h
      cases h
      exact hs
  | .seq ops, _, _, _, _, _, hop, h, hs => by
      rw [execOp] at h
      exact execSeq_keeps hins ops hop h hs
  | .iterate source body, _, _, _, _, _, hop, h, hs => by
      simp only [execOp, bind_eq_ok] at h
      obtain ⟨tuples, -, h⟩ := h
      refine runEach_keeps (fun t env s n env' s' h hs => ?_) h hs
      split at h
      · cases h
        exact hs
      · exact execOp_keeps hins body hop h hs
  | .filter cond body, _, _, _, _, _, hop, h, hs => by
      simp only [execOp, bind_eq_ok] at h
      obtain ⟨b, -, h⟩ := h
      split at h
      · exact execOp_keeps hins body hop h hs
      · cases h
        exact hs
  | .insert rel args, _, _, s, _, _, hop, h, hs => by
      simp only [execOp, bind_eq_ok] at h
      obtain ⟨t, ht, heq⟩ := h
      cases heq
      refine hins s rel t ?_ hs
      rw [length_evalOperands ht]
      exact hop
  | .bind var expr body, _, _, _, _, _, hop, h, hs => by
      simp only [execOp, bind_eq_ok] at h
      obtain ⟨v, -, h⟩ := h
      exact execOp_keeps hins body hop h hs
  | .groupBy source vars keys aggs body, _, _, _, _, _, hop, h, hs => by
      simp only [execOp, bind_eq_ok] at h
      obtain ⟨visible, -, collected, -, h⟩ := h
      refine runEach_keeps (fun g env s n env' s' h hs => ?_) h hs
      simp only [bind_eq_ok] at h
      obtain ⟨env₁, -, h⟩ := h
      exact execOp_keeps hins body hop h hs
  | .hashJoin build probe keys body, _, _, _, _, _, hop, h, hs => by
      simp only [execOp, bind_eq_ok] at h
      obtain ⟨buildTuples, -, h⟩ := h
      split at h
      · cases h
      · simp only [bind_eq_ok] at h
        obtain ⟨probeTuples, -, h⟩ := h
        split at h
        · cases h
        · refine runEach_keeps (fun p env s n env' s' h hs => ?_) h hs
          refine runEach_keeps (fun b env s n env' s' h hs => ?_) h hs
          exact execOp_keeps hins body hop h hs
  | .matchField structOp field var body, _, _, _, _, _, hop, h, hs => by
      simp only [execOp, bind_eq_ok] at h
      obtain ⟨v, -, h⟩ := h
      split at h
      · simp only [bind_eq_ok] at h
        obtain ⟨⟨n₁, env₁, s₁⟩, h₁, heq⟩ := h
        cases heq
        exact execOp_keeps hins body hop h₁ hs
      · cases h
        exact hs
  | .iterateList source var body, _, _, _, _, _, hop, h, hs => by
      simp only [execOp, bind_eq_ok] at h
      obtain ⟨v, -, h⟩ := h
      split at h
      · simp only [bind_eq_ok] at h
        obtain ⟨⟨n₁, env₁, s₁⟩, h₁, heq⟩ := h
        cases heq
        exact runEach_keeps (fun x env s n env' s' h hs => execOp_keeps hins body hop h hs) h₁ hs
      · cases h
        exact hs

theorem execSeq_keeps (hins : ∀ s rel t, T rel t.length → P s → P (s.insert rel t).2) :
    ∀ (ops : List Op) {env env' : Env} {s s' : MemStore} {n : Nat}, Op.TargetsAll T ops →
      execSeq rt ops env s = .ok (n, env', s') → P s → P s'
  | [], _, _, _, _, _, _, h, hs => by
      simp only [execSeq] at h
      cases h
      exact hs
  | op :: ops, _, _, _, _, _, hop, h, hs => by
      simp only [execSeq, bind_eq_ok] at h
      obtain ⟨⟨n₁, env₁, s₁⟩, h₁, ⟨n₂, env₂, s₂⟩, h₂, heq⟩ := h
      cases heq
      exact execSeq_keeps hins ops hop.2 h₂ (execOp_keeps hins op hop.1 h₁ hs)

end

end Execution

/-! ## Plans -/

section Plans

variable {T : Name → Nat → Prop} {cfg : PlanConfig}

/-- Every operation a planning step may yield has the property. -/
def Yields {α : Type} (m : PlanM α) (Q : α → Prop) : Prop :=
  ∀ st a st', m st = .ok (a, st') → Q a

theorem Yields.pure {Q : α → Prop} {a : α} (h : Q a) : Yields (Pure.pure a) Q := by
  intro st b st' hb
  exact (planM_pure_ok.mp hb).1 ▸ h

theorem Yields.bind {β : Type} {x : PlanM α} {f : α → PlanM β} {Q : β → Prop} {R : α → Prop}
    (hx : Yields x R) (hf : ∀ a, R a → Yields (f a) Q) : Yields (x >>= f) Q := by
  intro st b st' hb
  obtain ⟨a, st₁, ha, hb⟩ := planM_bind_ok.mp hb
  exact hf a (hx st a st₁ ha) st₁ b st' hb

/-- A step of which nothing is known. -/
theorem Yields.bind' {β : Type} {x : PlanM α} {f : α → PlanM β} {Q : β → Prop}
    (hf : ∀ a, Yields (f a) Q) : Yields (x >>= f) Q :=
  Yields.bind (R := fun _ => True) (fun _ _ _ _ => trivial) fun a _ => hf a

theorem Yields.error {Q : α → Prop} {msg : String} : Yields (planError msg) Q :=
  fun _ _ _ h => by cases h

mutual

theorem withEval_targets : ∀ (t : Term) {k : Operand → PlanM Op},
    (∀ o, Yields (k o) (Op.Targets T)) → Yields (withEval t k) (Op.Targets T)
  | .var _, _, hk | .number _, _, hk | .float _, _, hk | .string _, _, hk | .name _, _, hk
  | .time _, _, hk | .duration _, _, hk => by
      simp only [withEval]
      exact hk _
  | .app head args, k, hk => by
      rw [withEval]
      exact withEvalArgs_targets args fun ops _ => .bind' fun tmp =>
        (hk _).bind fun inner h => .pure h
  | .bool _, _, _ | .bytes _, _, _ => by
      simp only [withEval]
      exact .error

theorem withEvalArgs_targets : ∀ (ts : List Term) {acc : List Operand}
    {k : List Operand → PlanM Op},
    (∀ ops, ops.length = acc.length + ts.length → Yields (k ops) (Op.Targets T)) →
      Yields (withEvalArgs ts acc k) (Op.Targets T)
  | [], acc, k, hk => by
      rw [withEvalArgs]
      exact hk acc (by simp)
  | t :: ts, acc, k, hk => by
      rw [withEvalArgs]
      refine withEval_targets t fun o => withEvalArgs_targets ts fun ops hops => hk ops ?_
      simp only [length_append, length_cons, length_nil] at hops ⊢
      omega

end

theorem withEval2_targets {l r : Term} {k : Operand → Operand → PlanM Op}
    (hk : ∀ o o', Yields (k o o') (Op.Targets T)) : Yields (withEval2 l r k) (Op.Targets T) :=
  withEval_targets l fun o => withEval_targets r fun o' => hk o o'

theorem instToExpr_targets (t : Term) {k : Expr → PlanM Op}
    (hk : ∀ e, Yields (k e) (Op.Targets T)) : Yields (instToExpr t k) (Op.Targets T) := by
  unfold instToExpr
  split
  · exact withEvalArgs_targets _ fun ops _ => hk _
  · exact withEval_targets _ fun o => hk _

theorem applyConstraints_targets {ts : List Term} {vs : List Name} {body : Op}
    (h : body.Targets T) : Yields (applyConstraints ts vs body) (Op.Targets T) := by
  induction ts generalizing vs with
  | nil =>
    rw [applyConstraints.eq_def]
    exact .pure h
  | cons t ts ih =>
    cases vs with
    | nil =>
      rw [applyConstraints.eq_def]
      exact .pure h
    | cons v vs =>
      rw [applyConstraints]
      refine ih.bind fun body h => ?_
      split
      · split
        · exact .pure h
        · exact .pure h
      · exact withEval_targets _ fun o => .pure h

/-- A stored atom inserts what the rest of the body inserts. -/
theorem planNested_targets {pred : String} {args : List Term} {bound : List Name}
    {rest : List Name → PlanM Op} (hrest : ∀ bound, Yields (rest bound) (Op.Targets T)) :
    Yields (do
      let vars ← scanVars bound [] args
      let body ← rest (vars ++ bound)
      let body ← applyConstraints args vars body
      pure (.iterate (atomSource cfg pred (indexLookup bound 0 args) vars) body))
      (Op.Targets T) :=
  .bind' fun _ => (hrest _).bind fun _ h => (applyConstraints_targets h).bind fun _ h => .pure h

/-- A body inserts what its continuation inserts. -/
theorem planJoinSequence_targets (hk : ∀ bound, Yields (k bound) (Op.Targets T)) :
    ∀ (ps : List Premise) (bound : List Name),
      Yields (planJoinSequence cfg k ps bound) (Op.Targets T)
  | [], bound => by
      rw [planJoinSequence]
      exact hk bound
  | .eq l r :: ps, bound => by
      rw [planJoinSequence]
      split
      · exact instToExpr_targets _ fun e =>
          (planJoinSequence_targets hk ps _).bind fun _ h => .pure h
      · exact (planJoinSequence_targets hk ps _).bind fun _ h =>
          withEval2_targets fun _ _ => .pure h
  | .ineq l r :: ps, bound => by
      rw [planJoinSequence]
      exact (planJoinSequence_targets hk ps _).bind fun _ h => withEval2_targets fun _ _ => .pure h
  | .negAtom pred args :: ps, bound => by
      have ih (bound : List Name) : Yields (planJoinSequence cfg k ps bound) (Op.Targets T) :=
        planJoinSequence_targets hk ps bound
      rw [planJoinSequence.eq_def]
      dsimp only
      cases atomKind pred <;> dsimp only <;> split
      all_goals first
        | exact .error
        | exact .bind' fun _ => (ih _).bind fun _ h => withEval2_targets fun _ _ => .pure h
        | exact (ih _).bind fun _ h => .bind' fun _ => .pure h
  | .atom pred args :: ps, bound => by
      have ih (bound : List Name) : Yields (planJoinSequence cfg k ps bound) (Op.Targets T) :=
        planJoinSequence_targets hk ps bound
      rw [planJoinSequence.eq_def]
      dsimp only
      cases atomKind pred <;> dsimp only
      case stored =>
        split
        · next next rest =>
          split
          · exact (planJoinSequence_targets hk rest _).bind fun _ h => .pure h
          · exact planNested_targets ih
        · exact planNested_targets ih
      all_goals split
      all_goals first
        | exact .error
        | exact (ih _).bind fun _ h => withEval2_targets fun _ _ => .pure h
        | split
      all_goals first
        | exact (ih _).bind fun _ h => withEval_targets _ fun _ => .pure h
        | exact .bind' fun _ => (ih _).bind fun _ h => withEval2_targets fun _ _ => .pure h
termination_by ps => ps.length

/-- Lets insert what their continuation inserts. -/
theorem planTransformsSequence_targets (hk : ∀ bound, Yields (k bound) (Op.Targets T))
    (ts : List Transform) (bound : List Name) :
    Yields (planTransformsSequence k ts bound) (Op.Targets T) := by
  induction ts generalizing bound with
  | nil =>
    rw [planTransformsSequence]
    exact hk bound
  | cons t ts ih =>
    rw [planTransformsSequence]
    split
    · exact instToExpr_targets _ fun e => (ih _).bind fun _ h => .pure h
    · exact .error

theorem planBlockK_targets (hk : ∀ bound, Yields (k bound) (Op.Targets T)) (source : Name)
    (vars : List Name) (block : List Transform) :
    Yields (planBlockK source vars block k) (Op.Targets T) := by
  unfold planBlockK
  split
  · exact .bind' fun _ => .bind' fun _ =>
      (planTransformsSequence_targets hk _ _).bind fun _ h => .pure h
  · exact .error

/-- What the plans of a rule may insert: tuples of the head, and rows of temporary relations. -/
def Rule.Writes (rule : Rule) (rel : Name) (n : Nat) : Prop :=
  (rel = rule.pred ∧ n = rule.args.length) ∨ ∃ pre id, rel = .fresh pre id

variable {rule : Rule}

theorem planHeadInsert_targets : Yields (planHeadInsert rule) (Op.Targets rule.Writes) :=
  withEvalArgs_targets _ fun ops hops => .pure (.inl ⟨rfl, by simpa using hops⟩)

theorem captureInto_targets {pre : String} {id : Nat} (bound : List Name) :
    Yields (captureInto (.fresh pre id) bound) (Op.Targets rule.Writes) :=
  .bind' fun _ => .pure (.inr ⟨pre, id, rfl⟩)

theorem freshVar_yields (pre : String) : Yields (freshVar pre) fun v => ∃ id, v = .fresh pre id :=
  fun _ _ _ h => ⟨_, (freshVar_ok.mp h).1⟩

theorem planBlocks_targets {tempPrefix : String} (blocks : List (List Transform)) (source : Name) :
    Yields (planBlocks rule tempPrefix blocks source) (Op.TargetsAll rule.Writes) := by
  induction blocks generalizing source with
  | nil =>
    rw [planBlocks]
    exact .pure trivial
  | cons block blocks ih =>
    cases blocks with
    | nil =>
      rw [planBlocks]
      exact .bind' fun _ =>
        (planBlockK_targets (fun _ => planHeadInsert_targets) _ _ _).bind fun _ h =>
          .pure ⟨h, trivial⟩
    | cons block' blocks =>
      rw [planBlocks]
      · refine .bind' fun _ => (freshVar_yields _).bind fun temp ⟨id, htemp⟩ => ?_
        subst htemp
        exact (planBlockK_targets captureInto_targets _ _ _).bind fun _ h =>
          (ih _).bind fun _ hs => .pure ⟨h, hs⟩
      · simp

/-- **The plan of a rule** inserts tuples of its head, and rows of temporary relations. -/
theorem planRule_targets {ruleId : Nat} {op : Op} (h : planRule cfg ruleId rule = .ok op) :
    op.Targets rule.Writes := by
  simp only [planRule, bind_eq_ok] at h
  obtain ⟨⟨op', st⟩, h, heq⟩ := h
  cases heq
  refine (?_ : Yields (planOrdered cfg ruleId rule _) _) _ _ _ h
  unfold planOrdered
  split
  · exact .pure trivial
  · exact planJoinSequence_targets
      (planTransformsSequence_targets (fun _ => planHeadInsert_targets) _) _ _
  · refine (freshVar_yields _).bind fun temp ⟨id, htemp⟩ => ?_
    subst htemp
    exact (planJoinSequence_targets (planTransformsSequence_targets captureInto_targets _) _ _).bind
      fun _ h => (planBlocks_targets _ _).bind fun _ hs => .pure ⟨h, hs⟩

end Plans

/-! ## Programs -/

section Programs

variable {rt : Runtime} {cfg : RunConfig} {prog : Program} {P : MemStore → Prop}

/-- What the rules of a program may insert. -/
def Program.Writes (prog : Program) (rel : Name) (n : Nat) : Prop :=
  ∃ r ∈ prog.rules, r.Writes rel n

/-- What the plans of a program keep: the insertions of its rules, and the merges. -/
structure Program.Keeps (prog : Program) (P : MemStore → Prop) : Prop where
  insert : ∀ s rel t, prog.Writes rel t.length → P s → P (s.insert rel t).2
  merge : ∀ s, P s → P s.mergeDeltas
  create : ∀ s (pred : String), P s → P (s.createRelation pred)

/-- An operation inserts what the rules of the program insert. -/
def Program.Plan (prog : Program) (op : Op) : Prop :=
  ∃ r ∈ prog.rules, op.Targets r.Writes

theorem plan_of_planRule {pc : PlanConfig} {r : Rule × Nat} {stratum : List String} {op : Op}
    (hr : r ∈ prog.stratumRules stratum) (h : planRule pc r.2 r.1 = .ok op) : prog.Plan op := by
  obtain ⟨hmem, -⟩ := mem_filter.mp hr
  exact ⟨r.1, fst_mem_of_mem_zipIdx hmem, planRule_targets h⟩

theorem plans_of_mapM {xs : List α} {f : α → Except String Op} {ops : List Op}
    (h : xs.mapM f = .ok ops) (hf : ∀ a ∈ xs, ∀ op, f a = .ok op → prog.Plan op) :
    ∀ op ∈ ops, prog.Plan op := by
  intro op hop
  obtain ⟨a, ha, heq⟩ := exists_of_mapM h hop
  exact hf a ha op heq

variable (hP : prog.Keeps P)

include hP

theorem runPlans_keeps {ops : List Op} (hops : ∀ op ∈ ops, prog.Plan op) {n : Nat}
    (h : runPlans rt ops s = .ok (n, s')) (hs : P s) : P s' := by
  induction ops generalizing s n with
  | nil =>
    cases h
    exact hs
  | cons op ops ih =>
    simp only [runPlans, execute, bind_eq_ok] at h
    obtain ⟨⟨n₁, s₁⟩, ⟨⟨n₂, env, s₂⟩, hexec, heq⟩, ⟨n₃, s₃⟩, hrest, heq'⟩ := h
    cases heq
    cases heq'
    obtain ⟨r, hr, hop⟩ := hops op (mem_cons_self ..)
    refine ih (fun o ho => hops o (mem_cons_of_mem _ ho)) hrest ?_
    exact execOp_keeps (fun s rel t ht => hP.insert s rel t ⟨r, hr, ht⟩) op hop hexec hs

theorem fixpoint_keeps {ops : List Op} (hops : ∀ op ∈ ops, prog.Plan op) {rounds : Nat}
    (h : fixpoint rt ops rounds s = .ok s') (hs : P s) : P s' := by
  induction rounds generalizing s with
  | zero => cases h
  | succ rounds ih =>
    simp only [fixpoint, bind_eq_ok] at h
    obtain ⟨⟨n, s₁⟩, hrun, h⟩ := h
    have h₁ := runPlans_keeps hP hops hrun hs
    split at h
    · cases h
      exact h₁
    · exact ih h (hP.merge _ h₁)

theorem runStratum_keeps {stratum : List String} {plan : Option StratumPlan}
    (hplan : prog.planStratum cfg stratum = .ok plan)
    (h : runStratum rt cfg.rounds [] s plan = .ok s') (hs : P s) : P s' := by
  simp only [runStratum, bind_eq_ok, coalesceAll_nil, Except.ok.injEq] at h
  obtain ⟨s₁, hrun, rfl⟩ := h
  refine hP.merge _ ?_
  have hinit {ops : List Op}
      (hops : (prog.stratumRules stratum).mapM (Program.initialPlan cfg) = .ok ops) :
      ∀ op ∈ ops, prog.Plan op :=
    plans_of_mapM hops fun r hr op hop => plan_of_planRule hr hop
  obtain ⟨rfl, -⟩ | ⟨ops, rfl, hops, -⟩ | ⟨ops, plans, rfl, hops, hplans⟩ := planStratum_cases hplan
  · cases hrun
    exact hs
  · simp only [runPlan, StratumPlan.run, bind_eq_ok] at hrun
    obtain ⟨⟨n, s₂⟩, hrun, heq⟩ := hrun
    cases heq
    exact runPlans_keeps hP (hinit hops) hrun hs
  · simp only [runPlan, StratumPlan.run, bind_eq_ok, coalesceAll_nil, Except.ok.injEq] at hrun
    obtain ⟨⟨n, s₂⟩, hrun, s₃, hfix, rfl⟩ := hrun
    refine fixpoint_keeps hP (fun op hop => ?_) hfix
      (hP.merge _ (runPlans_keeps hP (hinit hops) hrun hs))
    obtain ⟨l, hl, hop⟩ := mem_flatten.mp hop
    obtain ⟨r, hr, heq⟩ := exists_of_mapM hplans hl
    exact plans_of_mapM heq (fun _ _ op h => plan_of_planRule hr h) op hop

theorem createRelations_keeps (preds : List String) (hs : P s) : P (createRelations preds s) := by
  induction preds generalizing s with
  | nil => exact hs
  | cons p preds ih => exact ih (hP.create s p hs)

/-- **What the insertions of its rules and the merges keep, a program keeps.** -/
theorem Program.execute_keeps (htemporal : prog.temporal = []) (h : prog.execute rt cfg s = .ok s')
    (hs : P s) : P s' := by
  simp only [Program.execute, bind_eq_ok, ofPlan_eq_ok, htemporal] at h
  obtain ⟨plans, hplans, h⟩ := h
  have hcreated := createRelations_keeps hP prog.extensional hs
  have hall := forall₂_of_mapM hplans
  generalize createRelations prog.extensional s = s₀ at h hcreated
  generalize prog.strata = strata at hall
  clear hplans hs
  induction hall generalizing s₀ with
  | nil =>
    cases h
    exact hcreated
  | cons hplan _ ih =>
    simp only [foldlM_cons, bind_eq_ok] at h
    obtain ⟨s₁, h₁, h⟩ := h
    exact ih s₁ h (runStratum_keeps hP hplan h₁ hcreated)

end Programs

end Mangle

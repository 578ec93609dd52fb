import Mangle.Semantics.Failure
import Mangle.Semantics.Satisfaction

/-!
# Planner/Plans — the names of a planned operation

Which names have values where an operation is planned, and what the lets around it and the loops
over candidates (`Loop`) do to them, is shared by the rules for the premises.
-/

namespace Mangle

open Machinery

variable {ρ : Env} {σ : Subst} {st' : PlanState} {t : Term} {vs : List Value}

/-! ## Known variables -/

/-- The rule's variables among those that have values. -/
def namedIn (bound : List Name) : Set String := {x | (x : Name) ∈ bound}

/-- The fresh names among `bound` were made before the counter reached `n`. -/
def Below (bound : List Name) (n : Nat) : Prop := ∀ pre id, Name.fresh pre id ∈ bound → id < n

/-- The environment gives the known variables their values. -/
def ModelsAt (bound : List Name) (ρ : Env) (σ : Subst) : Prop :=
  ∀ x ∈ namedIn bound, ρ (x : Name) = some (σ x)

section Known

variable {bound : List Name} {n hi : Nat}

theorem Below.disjoint (h : Below bound n) : Disjoint (names bound) (freshIn n hi) := by
  refine Set.disjoint_left.mpr ?_
  rintro _ hv ⟨pre, id, rfl, hlo, -⟩
  exact absurd (h pre id hv) (by omega)

theorem Below.mono {m : Nat} (h : Below bound n) (hle : n ≤ m) : Below bound m :=
  fun pre id hv => (h pre id hv).trans_le hle

theorem Below.cons_named (h : Below bound n) (x : String) : Below ((x : Name) :: bound) n := by
  intro pre id hv
  exact h pre id ((List.mem_cons.mp hv).resolve_left (by simp))

theorem namedIn_cons (x : String) : namedIn ((x : Name) :: bound) = insert x (namedIn bound) := by
  ext y
  simp [namedIn]

theorem names_cons (v : Name) : names (v :: bound) = insert v (names bound) := by
  ext w
  simp

theorem names_append (l l' : List Name) : names (l ++ l') = names l ∪ names l' := by
  ext w
  simp

theorem Known.ruleVars {xs : List String} (h : Known (namedIn bound) xs) :
    ruleVars xs ⊆ names bound := by
  rintro _ ⟨x, hx, rfl⟩
  exact h x hx

theorem ModelsAt.models (h : ModelsAt bound ρ σ) {xs : List String} (hk : Known (namedIn bound) xs)
    :
    Models ρ σ xs := fun x hx => h x (hk x hx)

end Known

/-- The names an operation planned from `st` to `st'` may assign: new ones and the rule's own. -/
def Own (st st' : PlanState) : Set Name :=
  {v | v ∈ freshIn st.fresh st'.fresh ∨ ∃ x : String, v = (x : Name)}

theorem Own.mono {st st₀ st₁ : PlanState} (hlo : st₀.fresh ≤ st.fresh) (hhi : st'.fresh ≤ st₁.fresh)
    :
    Own st st' ⊆ Own st₀ st₁ := fun _ hv =>
  hv.imp_left fun hm => freshIn_mono hlo hhi hm

/-- What is planned from `st` to `st'` assigns no name made from `st'` on… -/
theorem Own.notMem_later {st : PlanState} {v : Name} (hv : v ∈ Own st st') {hi : Nat} :
    v ∉ freshIn st'.fresh hi := by
  rcases hv with hv | ⟨x, rfl⟩
  · exact Set.disjoint_left.mp disjoint_freshIn hv
  · exact named_notMem_freshIn x _ _

/-- …and none made before `st`. -/
theorem Own.notMem_earlier {st : PlanState} {v : Name} (hv : v ∈ Own st st') {lo : Nat} :
    v ∉ freshIn lo st.fresh := by
  rcases hv with hv | ⟨x, rfl⟩
  · exact Set.disjoint_right.mp disjoint_freshIn hv
  · exact named_notMem_freshIn x _ _

section Plans

variable {rt : Runtime} {c : Tiers} {W : Set Name} {bound : List Name} {st st₁ st₂ : PlanState}
  {body : Op} {S : Subst → Emit → Prop}

/-! ## Lets around an operation -/

section Lets

variable {ts : List Term} {lets : List (Name × Expr)} {ops : List Operand} {inner : Op}

theorem scoped_wrapLets {B : Set Name} (hemit : Emits st₁ ts lets ops st₂)
    (hB : ruleVars (Term.allVarsList ts) ⊆ B) (hdis : Disjoint B (freshIn st₁.fresh st₂.fresh))
    (h : (∀ o ∈ ops, o.Reads (letNames lets ∪ B)) → inner.Scoped W (letNames lets ∪ B)) :
    (wrapLets lets inner).Scoped W B := by
  obtain ⟨hl, hops⟩ := hemit.scoped hB hdis
  exact hl.wrap (h hops)

theorem own_wrapLets (he : Emitted st₁ st₂ lets) {lo hi : PlanState} (hlo : lo.fresh ≤ st₁.fresh)
    (hhi : st₂.fresh ≤ hi.fresh) (h : ∀ v ∈ inner.assigned, v ∈ Own lo hi) :
    ∀ v ∈ (wrapLets lets inner).assigned, v ∈ Own lo hi := by
  intro v hv
  rw [assigned_wrapLets] at hv
  rcases List.mem_append.mp hv with hv | hv
  · exact Or.inl (freshIn_mono hlo hhi (he.lets hv))
  · exact h v hv

end Lets

theorem evalTerm_extend {X : Set String} {τ : Subst} (hτ : Set.EqOn τ σ X) (hk : Known X t.allVars)
    :
    evalTerm rt τ t = evalTerm rt σ t :=
  evalTerm_congr fun x hx => hτ (hk x hx)

theorem evalTerms_singleton (h : evalTerms rt σ [t] = .ok vs) :
    ∃ v, evalTerm rt σ t = .ok v ∧ vs = [v] := by
  obtain ⟨v, hv, h⟩ := bind_eq_ok.mp h
  exact ⟨v, hv, (Except.ok.inj h).symm⟩

theorem evalOperands_singleton {o : Operand} {v : Value} (h : evalOperands ρ [o] = .ok [v]) :
    evalOperand ρ o = .ok v := by
  unfold evalOperands at h
  rw [List.mapM_cons] at h
  obtain ⟨w, hw, h⟩ := bind_eq_ok.mp h
  have heq : [w] = [v] := Except.ok.inj h
  rw [hw, (List.cons.inj heq).1]

theorem evalTerms_pair {u : Term} (h : evalTerms rt σ [t, u] = .ok vs) :
    ∃ v w, evalTerm rt σ t = .ok v ∧ evalTerm rt σ u = .ok w ∧ vs = [v, w] := by
  obtain ⟨v, hv, h⟩ := bind_eq_ok.mp h
  obtain ⟨ws, hws, h⟩ := bind_eq_ok.mp h
  obtain ⟨w, hw, rfl⟩ := evalTerms_singleton hws
  exact ⟨v, w, hv, hw, (Except.ok.inj h).symm⟩

theorem evalOperands_pair {o o' : Operand} (h : evalOperands ρ [o, o'] = .ok vs) :
    ∃ v w, vs = [v, w] ∧ evalOperand ρ o = .ok v ∧ evalOperand ρ o' = .ok w := by
  unfold evalOperands at h
  rw [List.mapM_cons, List.mapM_cons] at h
  obtain ⟨v, hv, h⟩ := bind_eq_ok.mp h
  obtain ⟨ws, hws, h⟩ := bind_eq_ok.mp h
  obtain ⟨w, hw, hws⟩ := bind_eq_ok.mp hws
  exact ⟨v, w, by rw [← Except.ok.inj h, ← Except.ok.inj hws]; rfl, hv, hw⟩

/-! ## Premises that bind or check one variable -/

/-- `op` runs `body` for each candidate that the value of `src` has, bound to `x`. -/
structure Loop (rt : Runtime) (c : Tiers) (op : Op) (src : Operand) (x : Name) (body : Op)
    (cands : Value → List Value) : Prop where
  den_eq : ∀ ρ, den rt c.reader op ρ = (do
    concatM (fun v => den rt c.reader body (ρ.set x v)) (cands (← evalOperand ρ src)))
  wellScoped : ∀ W B : Set Name, src.Reads B → x ∉ B → body.Scoped W (insert x B) → op.Scoped W B
  assigned : op.assigned = x :: body.assigned

theorem Loop.matchField (src : Operand) (field : String) (x : Name) (body : Op) :
    Loop rt c (.matchField src field x body) src x body fun v => (structField field v).toList where
  den_eq ρ := by
    refine bind_congr fun v => ?_
    cases structField field v with
    | none => rfl
    | some w =>
      simp only [Option.toList_some, concatM]
      cases den rt c.reader body (ρ.set x w) with
      | error e => rfl
      | ok es => simp
  wellScoped _ _ := .matchField
  assigned := rfl

theorem Loop.iterateList (src : Operand) (x : Name) (body : Op) :
    Loop rt c (.iterateList src x body) src x body listElems where
  den_eq _ := rfl
  wellScoped _ _ := .iterateList
  assigned := rfl

theorem own_named (x : String) : (x : Name) ∈ Own st st₁ := Or.inr ⟨x, rfl⟩

end Plans

end Mangle

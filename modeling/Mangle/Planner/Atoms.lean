import Mangle.Planner.Plans

/-!
# Planner/Atoms — atoms over stored relations

An atom is planned as a loop over the rows of a source, with checks for the arguments that the scan
does not bind: the variables of a scan (`Scanned`), the checks (`applyConstraints_cons`), the column
an index lookup uses (`indexLookup_some`), and the rows that meet in a hash join (`joinKey_map`,
`ModelsAt.exists_join`).
-/

namespace Mangle

open Machinery List

variable {rt : Runtime} {c : Tiers} {W : Set Name} {bound : List Name} {st st₁ st₂ st₃ : PlanState}
  {body : Op} {S : Subst → Emit → Prop} {t : Term} {args ts : List Term} {st' : PlanState}
  {σ : Subst} {ρ : Env} {vs : List Name}

/-! ## Scanned atoms -/

theorem unboundVar_eq_some {x : String} :
    unboundVar bound t = some x ↔ t = .var x ∧ (x : Name) ∉ bound := by
  cases t with
  | var y =>
    by_cases hy : (y : Name) ∈ bound
    · simp only [unboundVar, hy, if_true, reduceCtorEq, Term.var.injEq, false_iff, not_and, not_not]
      rintro rfl
      exact hy
    · simp only [unboundVar, hy, if_false, Option.some.injEq, Term.var.injEq]
      constructor
      · rintro rfl
        exact ⟨rfl, hy⟩
      · exact fun h => h.1
  | _ => simp [unboundVar]

/-- The scan variables of an atom. -/
structure Scanned (bound direct : List Name) (args : List Term)
    (st st' : PlanState) (vars : List Name) : Prop where
  le : st.fresh ≤ st'.fresh
  length : vars.length = args.length
  nodup : vars.Nodup
  new : ∀ v ∈ vars, v ∈ freshIn st.fresh st'.fresh ∨ ∃ x : String, v = x ∧ v ∉ direct ++ bound
  covers : ∀ x, .var x ∈ args → (x : Name) ∈ vars ++ (direct ++ bound)
  column : ∀ x : String, (x : Name) ∈ vars → ((x : Name), .var x) ∈ vars.zip args

variable {vars : List Name}

theorem scanVars_scanned {direct : List Name}
    (h : scanVars bound direct args st = .ok (vars, st')) :
    Scanned bound direct args st st' vars := by
  induction args generalizing direct st vars with
  | nil =>
    obtain ⟨rfl, rfl⟩ := planM_pure_ok.mp h
    exact ⟨le_rfl, rfl, .nil, by simp, by simp, by simp⟩
  | cons t ts ih =>
    unfold scanVars at h
    cases hx : unboundVar (direct ++ bound) t with
    | some x =>
      simp only [hx] at h
      obtain ⟨vs, hvs, rfl⟩ := planM_map_ok.mp h
      obtain ⟨rfl, hxb⟩ := unboundVar_eq_some.mp hx
      have hrest := ih hvs
      have hxvs : (x : Name) ∉ vs := by
        intro hmem
        rcases hrest.new _ hmem with hf | ⟨y, -, hy⟩
        · exact named_notMem_freshIn x _ _ hf
        · exact hy (by simp)
      refine ⟨hrest.le, by simp [hrest.length], nodup_cons.mpr ⟨hxvs, hrest.nodup⟩, ?_, ?_,
        ?_⟩
      · intro v hv
        rcases mem_cons.mp hv with rfl | hv
        · exact Or.inr ⟨x, rfl, hxb⟩
        · refine (hrest.new v hv).imp_right fun ⟨y, hy, hne⟩ => ⟨y, hy, fun hmem => hne ?_⟩
          simpa using Or.inr (mem_append.mp hmem)
      · intro y hy
        rcases mem_cons.mp hy with heq | hy
        · rw [Term.var.inj heq]
          simp
        · have := hrest.covers y hy
          simp only [cons_append, mem_append, mem_cons] at this ⊢
          tauto
      · intro y hy
        rcases mem_cons.mp hy with heq | hy
        · simp [Name.named.inj heq]
        · exact mem_cons_of_mem _ (hrest.column y hy)
    | none =>
      simp only [hx] at h
      obtain ⟨tmp, st₁, htmp, h⟩ := planM_bind_ok.mp h
      obtain ⟨vs, hvs, rfl⟩ := planM_map_ok.mp h
      obtain ⟨rfl, rfl⟩ := freshVar_ok.mp htmp
      have hrest := ih hvs
      have hle : st.fresh + 1 ≤ st'.fresh := hrest.le
      have htmp : Name.fresh "scan" st.fresh ∉ vs := by
        intro hmem
        rcases hrest.new _ hmem with ⟨pre, id, heq, hlo, -⟩ | ⟨y, hy, -⟩
        · rw [← (Name.fresh.inj heq).2] at hlo
          exact absurd hlo (by simp)
        · cases hy
      refine ⟨by omega, by simp [hrest.length], nodup_cons.mpr ⟨htmp, hrest.nodup⟩, ?_, ?_,
        ?_⟩
      · intro v hv
        rcases mem_cons.mp hv with rfl | hv
        · exact Or.inl ⟨_, _, rfl, le_rfl, hle⟩
        · exact (hrest.new v hv).imp_left fun hf => freshIn_mono (Nat.le_succ _) le_rfl hf
      · intro y hy
        rcases mem_cons.mp hy with heq | hy
        · have hbound : (y : Name) ∈ direct ++ bound := by
            by_contra hno
            rw [unboundVar_eq_some.mpr ⟨heq.symm, hno⟩] at hx
            cases hx
          exact mem_append_right _ hbound
        · exact mem_cons_of_mem _ (hrest.covers y hy)
      · intro y hy
        exact mem_cons_of_mem _ (hrest.column y ((mem_cons.mp hy).resolve_left (by simp)))

/-! ## The checks of an atom -/

theorem evalTerms_cons_ok {v : Value} {vs : List Value} :
    evalTerms rt σ (t :: ts) = .ok (v :: vs) ↔
      evalTerm rt σ t = .ok v ∧ evalTerms rt σ ts = .ok vs := by
  simp only [evalTerms, bind_eq_ok, pure, Except.pure, Except.ok.injEq, List.cons.injEq]
  constructor
  · rintro ⟨v', hv, vs', hvs, rfl, rfl⟩
    exact ⟨hv, hvs⟩
  · rintro ⟨hv, hvs⟩
    exact ⟨v, hv, vs, hvs, rfl, rfl⟩

/-- The variables have the values of the row. -/
theorem map_eq_map_some_cons {v : Name} {row : Tuple} (h : (v :: vs).map ρ = row.map some) :
    ∃ a row', row = a :: row' ∧ ρ v = some a ∧ vs.map ρ = row'.map some := by
  cases row with
  | nil => simp at h
  | cons a row => exact ⟨a, row, rfl, by simpa using h⟩

/-- What `apply_constraints` does for one argument: nothing when the scan binds it, a check
otherwise. -/
theorem applyConstraints_cons {v : Name} {op : Op}
    (h : applyConstraints (t :: ts) (v :: vs) body st = .ok (op, st')) :
    ∃ op₁ st₁, applyConstraints ts vs body st = .ok (op₁, st₁) ∧
      ((∃ x, t = .var x ∧ v = x ∧ op = op₁ ∧ st' = st₁) ∨
        ∃ lets o, Emits st₁ [t] lets [o] st' ∧
          op = wrapLets lets (eqFilter (.var v) o op₁)) := by
  obtain ⟨op₁, st₁, hrest, h⟩ := planM_bind_ok.mp h
  refine ⟨op₁, st₁, hrest, ?_⟩
  split at h
  · split at h
    · rename_i heq
      obtain ⟨rfl, rfl⟩ := planM_pure_ok.mp h
      exact Or.inl ⟨_, rfl, heq.symm, rfl, rfl⟩
    · obtain ⟨rfl, rfl⟩ := planM_pure_ok.mp h
      exact Or.inr ⟨[], _, .leaf rfl (.nil _), rfl⟩
  · obtain ⟨lets, o, st₂, inner, hemit, hk, rfl⟩ := withEval_ok h
    obtain ⟨rfl, rfl⟩ := planM_pure_ok.mp hk
    exact Or.inr ⟨lets, o, hemit, rfl⟩

/-- The checks of an atom are well scoped where its variables have values, and assign new names
only. -/
theorem applyConstraints_scoped {op : Op} {B : Set Name}
    (h : applyConstraints ts vs body st = .ok (op, st')) (hlen : vs.length = ts.length)
    (hts : ruleVars (Term.allVarsList ts) ⊆ B) (hvs : ∀ v ∈ vs, v ∈ B)
    (hdis : ∀ hi, Disjoint B (freshIn st.fresh hi)) (hbody : body.Scoped W B)
    (hassigned : ∀ v ∈ body.assigned, ∀ hi, v ∉ freshIn st.fresh hi) :
    st.fresh ≤ st'.fresh ∧ op.Scoped W B ∧
      ∀ v ∈ op.assigned, v ∈ body.assigned ∨ v ∈ freshIn st.fresh st'.fresh := by
  induction ts generalizing vs op st' with
  | nil =>
    obtain ⟨rfl, rfl⟩ := planM_pure_ok.mp (by simpa [applyConstraints] using h)
    exact ⟨le_rfl, hbody, fun v hv => Or.inl hv⟩
  | cons t ts ih =>
    obtain ⟨v, vs, rfl⟩ := exists_cons_of_length_eq_add_one hlen
    obtain ⟨op₁, st₁, hrest, hcase⟩ := applyConstraints_cons h
    have hts₁ : ruleVars (Term.allVarsList ts) ⊆ B := by
      rintro _ ⟨x, hx, rfl⟩
      exact hts ⟨x, by simp [Term.allVarsList, hx], rfl⟩
    obtain ⟨hle, hop₁, hown⟩ := ih hrest (by simpa using hlen) hts₁
      fun w hw => hvs w (mem_cons_of_mem v hw)
    rcases hcase with ⟨x, -, -, rfl, rfl⟩ | ⟨lets, o, hemit, rfl⟩
    · exact ⟨hle, hop₁, hown⟩
    · have hem := hemit.emitted
      have hlater : ∀ w ∈ op₁.assigned, w ∉ letNames lets := by
        intro w hw hlet
        have hmem := hem.lets hlet
        rcases hown w hw with hw | hw
        · exact hassigned w hw _ (freshIn_mono hle le_rfl hmem)
        · exact Set.disjoint_left.mp disjoint_freshIn hw hmem
      have ht : ruleVars (Term.allVarsList [t]) ⊆ B := by
        rintro _ ⟨x, hx, rfl⟩
        exact hts ⟨x, by simp_all [Term.allVarsList], rfl⟩
      refine ⟨hle.trans hem.le, ?_, ?_⟩
      · refine scoped_wrapLets hemit ht ((hdis _).mono_right (freshIn_mono hle le_rfl)) ?_
        intro hops
        exact .filter ⟨Or.inr (hvs v (by simp)), hops o (by simp)⟩ (hop₁.weaken hlater)
      · intro w hw
        rw [assigned_wrapLets] at hw
        rcases mem_append.mp hw with hw | hw
        · exact Or.inr (freshIn_mono hle le_rfl (hem.lets hw))
        · exact (hown w hw).imp_right fun hf => freshIn_mono le_rfl hem.le hf

/-! ## The rows of an atom -/

theorem evalTerms_getElem? {vs : List Value} (h : evalTerms rt σ ts = .ok vs) {i : Nat}
    (ht : ts[i]? = some t) : ∃ v, evalTerm rt σ t = .ok v ∧ vs[i]? = some v := by
  induction ts generalizing vs i with
  | nil => simp at ht
  | cons u us ih =>
    obtain ⟨v, hv, h⟩ := bind_eq_ok.mp h
    obtain ⟨ws, hws, h⟩ := bind_eq_ok.mp h
    rw [← Except.ok.inj h]
    cases i with
    | zero => exact ⟨v, by simpa using (Option.some.inj ht) ▸ hv, by simp⟩
    | succ i => simpa using ih hws (by simpa using ht)

theorem evalTerm_const {k : Constant} (h : t.const? = some k) : evalTerm rt σ t = .ok k.value := by
  cases t <;> simp only [Term.const?, Option.some.injEq, reduceCtorEq] at h <;> subst h <;> rfl

/-- The operand of a column that is known. -/
def columnKey (bound : List Name) : Term → Option Operand
  | .var x => if (x : Name) ∈ bound then some (.var x) else none
  | t => t.const?.map .const

theorem columnKey_some {key : Operand} (h : columnKey bound t = some key) :
    (∃ x : String, t = .var x ∧ (x : Name) ∈ bound ∧ key = .var x) ∨
      ∃ k, t.const? = some k ∧ key = .const k := by
  unfold columnKey at h
  split at h
  · rename_i x
    split at h
    · rename_i hx
      exact Or.inl ⟨x, rfl, hx, (Option.some.inj h).symm⟩
    · cases h
  · obtain ⟨k, hk, rfl⟩ := Option.map_eq_some_iff.mp h
    exact Or.inr ⟨k, hk, rfl⟩

theorem columnKey_eq_none :
    columnKey bound t = none ↔ t.const? = none ∧ ∀ x, t = .var x → x ∉ namedIn bound := by
  unfold columnKey
  split
  · simp [Term.const?, namedIn]
  · rename_i hvar
    rw [Option.map_eq_none_iff]
    exact (and_iff_left fun x heq => absurd heq (hvar x)).symm

theorem indexLookup_cons (t : Term) (ts : List Term) (col : Nat) :
    indexLookup bound col (t :: ts) =
      ((columnKey bound t).map (col, ·)).or (indexLookup bound (col + 1) ts) := by
  cases t with
  | var x => by_cases hx : (x : Name) ∈ bound <;> simp [indexLookup, columnKey, hx]
  | _ => simp [indexLookup, columnKey, Term.const?]

/-- The column an index lookup uses holds a known variable or a constant. -/
theorem indexLookup_some {col i : Nat} {key : Operand}
    (h : indexLookup bound col args = some (i, key)) :
    ∃ j t, i = col + j ∧ args[j]? = some t ∧ columnKey bound t = some key := by
  induction args generalizing col with
  | nil => simp [indexLookup] at h
  | cons t ts ih =>
    rw [indexLookup_cons] at h
    cases hk : columnKey bound t with
    | some k =>
      simp only [hk, Option.map_some, Option.some_or, Option.some.injEq, Prod.mk.injEq] at h
      exact ⟨0, t, by omega, rfl, hk.trans (congrArg some h.2)⟩
    | none =>
      obtain ⟨j, u, rfl, hu, hkey⟩ := ih (by simpa [hk] using h)
      exact ⟨j + 1, u, by omega, by simpa using hu, hkey⟩

theorem indexLookup_eq_none {col : Nat} :
    indexLookup bound col args = none ↔
      ∀ t ∈ args, t.const? = none ∧ ∀ x, t = .var x → x ∉ namedIn bound := by
  induction args generalizing col with
  | nil => simp [indexLookup]
  | cons t ts ih =>
    rw [indexLookup_cons, forall_mem_cons, Option.or_eq_none_iff, Option.map_eq_none_iff, ih,
      columnKey_eq_none]

@[simp] theorem vars_atomSource (cfg : PlanConfig) (pred : String) (lookup : Option (Nat × Operand))
    (vars : List Name) : (atomSource cfg pred lookup vars).vars = vars := by
  unfold atomSource
  split
  · rfl
  · split <;> rfl

theorem reads_atomSource {cfg : PlanConfig} {pred : String} :
    (atomSource cfg pred (indexLookup bound 0 args) vars).Reads (names bound) := by
  unfold atomSource
  split
  · rename_i hlook
    obtain ⟨j, t, -, -, hkey⟩ := indexLookup_some hlook
    rcases columnKey_some hkey with ⟨x, -, hx, rfl⟩ | ⟨k, -, rfl⟩
    · exact hx
    · trivial
  · split <;> trivial

/-! ## Loops over rows -/

/-- The variables of a source have the values of the row. -/
theorem map_bindVars (hnd : vars.Nodup) {row : Tuple}
    (hlen : row.length = vars.length) (ρ : Env) :
    vars.map (ρ.bindVars vars row) = row.map some := by
  induction vars generalizing row ρ with
  | nil => simp_all
  | cons v vs ih =>
    obtain ⟨a, row, rfl⟩ := exists_cons_of_length_eq_add_one hlen
    obtain ⟨hv, hnd⟩ := nodup_cons.mp hnd
    simp only [Env.bindVars, map_cons, Env.bindVars_of_notMem hv, Env.set_self]
    rw [ih hnd (by simpa using hlen)]

/-- The substitution that reads the scan variables off the environment. -/
def Env.subst (ρ : Env) (σ : Subst) : Subst := fun x => (ρ (x : Name)).getD (σ x)

/-! ## Hash joins -/

/-- An atom whose arguments are distinct variables without values. -/
theorem allFreshDistinctVars_some {out vars : List Name}
    (h : allFreshDistinctVars bound out args = some vars) :
    ∃ xs : List String, args = xs.map .var ∧ vars = out.reverse ++ xs.map Name.named ∧ xs.Nodup ∧
      ∀ x ∈ xs, (x : Name) ∉ out ++ bound := by
  induction args generalizing out with
  | nil => exact ⟨[], rfl, by simpa [allFreshDistinctVars, eq_comm] using h, by simp, by simp⟩
  | cons t ts ih =>
    unfold allFreshDistinctVars at h
    cases hx : unboundVar (out ++ bound) t with
    | none => simp [hx] at h
    | some x =>
      simp only [hx] at h
      obtain ⟨rfl, hxb⟩ := unboundVar_eq_some.mp hx
      obtain ⟨xs, rfl, rfl, hnd, hxs⟩ := ih h
      refine ⟨x :: xs, rfl, by simp, nodup_cons.mpr ⟨fun hmem => ?_, hnd⟩, ?_⟩
      · exact hxs x hmem (by simp)
      · intro y hy
        rcases mem_cons.mp hy with rfl | hy
        · exact hxb
        · exact fun hmem => hxs y hy (by simpa using Or.inr (mem_append.mp hmem))

theorem evalTerms_vars (σ : Subst) (xs : List String) :
    evalTerms rt σ (xs.map .var) = .ok (xs.map σ) := by
  induction xs with
  | nil => rfl
  | cons x xs ih => simp [evalTerms, evalTerm, ih, pure, Except.pure]

/-- What the planner found when it plans a hash join. -/
theorem tryPlanHashJoin_some {cfg : PlanConfig} {pred : String} {next : Premise}
    {build probe : DataSource} {keys : List Name}
    (h : tryPlanHashJoin cfg pred args next bound = some (build, probe, keys)) :
    ∃ (nextPred : String) (xs ys : List String), next = .atom nextPred (ys.map .var) ∧
      args = xs.map .var ∧
      build = .scan pred (xs.map Name.named) ∧ probe = .scan nextPred (ys.map Name.named) ∧
      (∀ k, k ∈ keys ↔ k ∈ build.vars ∧ k ∈ probe.vars) ∧ (xs.Nodup ∧ ys.Nodup) ∧
      (∀ x ∈ xs ++ ys, x ∉ namedIn bound) ∧ ∃ x, x ∈ xs ∧ x ∈ ys := by
  unfold tryPlanHashJoin at h
  split at h
  · rename_i nextPred nextArgs
    obtain ⟨bvars, hb, h⟩ := Option.bind_eq_some_iff.mp h
    split at h
    · cases h
    · obtain ⟨pvars, hp, h⟩ := Option.bind_eq_some_iff.mp h
      simp only at h
      split at h
      · cases h
      · rename_i hshared
        obtain ⟨xs, rfl, rfl, hxs, hxb⟩ := allFreshDistinctVars_some hb
        obtain ⟨ys, rfl, rfl, hys, hyb⟩ := allFreshDistinctVars_some hp
        simp only [reverse_nil, nil_append, Option.some.injEq, Prod.mk.injEq] at h hxb hyb
        obtain ⟨rfl, rfl, rfl⟩ := h
        refine ⟨nextPred, xs, ys, rfl, rfl, rfl, rfl, ?_, ⟨hxs, hys⟩, ?_, ?_⟩
        · simp [DataSource.vars]
        · exact fun x hx => (mem_append.mp hx).elim (hxb x) (hyb x)
        · simpa [List.isEmpty_iff, filter_eq_nil_iff] using hshared
  · cases h

/-- Where the environment has values, the substitution read off it has them. -/
theorem modelsAt_subst (h : ∀ x ∈ namedIn bound, ∃ a, ρ (x : Name) = some a) (σ : Subst) :
    ModelsAt bound ρ (ρ.subst σ) := by
  intro x hx
  obtain ⟨a, ha⟩ := h x hx
  simp [Env.subst, ha]

/-- The variables of a row have its values. -/
theorem map_subst {xs : List String} {row : Tuple}
    (hrow : (xs.map Name.named).map ρ = row.map some) (σ : Subst) : xs.map (ρ.subst σ) = row := by
  induction xs generalizing row with
  | nil => exact (map_eq_nil_iff.mp hrow.symm).symm
  | cons x xs ih =>
    obtain ⟨a, row, rfl, ha, hrow⟩ := map_eq_map_some_cons hrow
    rw [map_cons, ih hrow, Env.subst, ha, Option.getD_some]

/-- …and the row of a substitution binds them to its values. -/
theorem bindVars_map {xs : List String} (ρ : Env) (τ : Subst) {x : String} (hx : x ∈ xs) :
    ρ.bindVars (xs.map Name.named) (xs.map τ) (x : Name) = some (τ x) := by
  induction xs generalizing ρ with
  | nil => cases hx
  | cons y ys ih =>
    simp only [map_cons, Env.bindVars]
    by_cases hmem : x ∈ ys
    · exact ih _ hmem
    · obtain rfl := (mem_cons.mp hx).resolve_right hmem
      rw [Env.bindVars_of_notMem (by simpa using hmem), Env.set_self]

section Join

variable {xs ys : List String} {keys : List Name}

/-- The rows of one substitution meet in the join. -/
theorem joinKey_map (hnodup : xs.Nodup ∧ ys.Nodup)
    (hkeys : ∀ k, k ∈ keys ↔ k ∈ xs.map Name.named ∧ k ∈ ys.map Name.named) (τ : Subst) :
    joinKey (xs.map Name.named) keys (xs.map τ) = joinKey (ys.map Name.named) keys (ys.map τ) := by
  have hcol : ∀ zs : List String, zs.Nodup → ∀ z ∈ zs,
      ((zs.map Name.named).idxOf? (z : Name)).bind ((zs.map τ)[·]?) = some (τ z) := by
    intro zs hzs z hz
    rw [← Env.bindVars_eq_column (hzs.map fun _ _ h => Name.named.inj h) (by simp)
      (mem_map_of_mem hz) .new]
    exact bindVars_map .new τ hz
  have hsame : ∀ k ∈ keys, ((xs.map Name.named).idxOf? k).bind ((xs.map τ)[·]?) =
      ((ys.map Name.named).idxOf? k).bind ((ys.map τ)[·]?) := by
    intro k hk
    obtain ⟨hkx, hky⟩ := (hkeys k).mp hk
    obtain ⟨x, hx, rfl⟩ := mem_map.mp hkx
    obtain ⟨y, hy, heq⟩ := mem_map.mp hky
    rw [hcol xs hnodup.1 x hx, ← heq, hcol ys hnodup.2 y hy, Name.named.inj heq]
  unfold joinKey
  clear hkeys
  induction keys with
  | nil => rfl
  | cons k keys ih =>
    rw [mapM_cons, mapM_cons, hsame k (by simp),
      ih fun k' hk' => hsame k' (mem_cons_of_mem k hk')]

/-- **Rows that meet in a join** are those of one substitution. -/
theorem ModelsAt.exists_join (hm : ModelsAt bound ρ σ) (hnodup : xs.Nodup ∧ ys.Nodup)
    (hkeys : ∀ k, k ∈ keys ↔ k ∈ xs.map Name.named ∧ k ∈ ys.map Name.named)
    (hnew : ∀ x ∈ xs ++ ys, x ∉ namedIn bound) {p b : Tuple}
    (hp : p.length = (ys.map Name.named).length) (hb : b.length = (xs.map Name.named).length)
    (hkey : joinKey (xs.map Name.named) keys b = joinKey (ys.map Name.named) keys p) :
    ∃ τ : Subst, Set.EqOn τ σ (namedIn bound) ∧ xs.map τ = b ∧ ys.map τ = p := by
  set ρ' := (ρ.bindVars (ys.map Name.named) p).bindVars (xs.map Name.named) b with hρ'
  have hnd : (xs.map Name.named).Nodup ∧ (ys.map Name.named).Nodup :=
    ⟨hnodup.1.map fun _ _ h => Name.named.inj h, hnodup.2.map fun _ _ h => Name.named.inj h⟩
  have hag : AgreeOn (names (ys.map Name.named) ∪ names bound) ρ'
      (ρ.bindVars (ys.map Name.named) p) := by
    rw [hρ']
    refine @agreeOn_joinPartner _ (.scan "" _) (.scan "" _) keys p b hkeys hnd ?_ hb hp hkey ρ
    refine Set.disjoint_left.mpr fun v hv => ?_
    obtain ⟨x, hx, rfl⟩ := mem_map.mp hv
    exact hnew x (mem_append_left _ hx)
  refine ⟨ρ'.subst σ, fun x hx => ?_, map_subst (map_bindVars hnd.1 hb _) σ, map_subst ?_ σ⟩
  · rw [Env.subst, hag x (Or.inr hx), Env.bindVars_of_notMem, hm x hx, Option.getD_some]
    intro hv
    obtain ⟨y, hy, heq⟩ := mem_map.mp hv
    exact hnew y (mem_append_right _ hy) (Name.named.inj heq ▸ hx)
  · rw [← map_bindVars hnd.2 hp ρ]
    exact map_congr_left fun v hv => hag v (Or.inl hv)

end Join

end Mangle

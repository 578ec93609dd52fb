import Mangle.Machinery.Groups
import Mangle.Planner.Transforms
import Mangle.Semantics.Sequence

/-!
# Planner/Grouping — rules that group

The plan of a rule with a `group_by` block stores a row for each assignment of the body in a
temporary relation, and then runs the block once for each group of rows.

* `Site.RowOf` — the rows are in bijection with the assignments, so that a group of rows is a group
  of assignments;
* `runBlock_of_split` — the lets of a block, in the order they are written, can be run as the plan
  does, the reducers first;
* `bindGroup_reducers` — the reducers compute what they are specified to over these assignments,
  although each of them rebinds the variables of the rows;
* `planBlockK_yields` — the block runs what follows it for one substitution of each group.
-/

namespace Mangle

open Machinery List

variable {x : String} {t : Transform} {ts : List Transform} {o : Operand}

/-! ## Rows -/

section Rows

variable {rt : Runtime} {S : Site} {σ τ : Subst} {row : Tuple}

/-- The row that is stored for a substitution. -/
def Site.RowOf (rt : Runtime) (S : Site) (σ : Subst) (row : Tuple) : Prop :=
  evalTerms rt σ (S.bound.dedup.map S.term) = .ok row

theorem Site.RowOf.length (h : S.RowOf rt σ row) : row.length = S.bound.dedup.length := by
  rw [length_evalTerms h, length_map]

/-- **Reading a row back** gives the names the values they were stored with. -/
theorem Site.RowOf.denotes (h : S.RowOf rt σ row) (ρ : Env) :
    S.Denotes rt (ρ.bindVars S.bound.dedup row) σ := by
  intro v hv
  refine denotes_columns (map_bindVars (nodup_dedup _) h.length ρ) h ?_
  rw [← map_prod_left_eq_zip]
  exact mem_map_of_mem (mem_dedup.mpr hv)

theorem Site.RowOf.value (h : S.RowOf rt σ row) (ρ : Env) (hx : x ∈ namedIn S.bound) :
    ρ.bindVars S.bound.dedup row x = some (σ x) := (h.denotes ρ).modelsAt x hx

theorem Site.RowOf.congr (hS : S.Knows) (hστ : Set.EqOn σ τ (namedIn S.bound))
    (h : S.RowOf rt σ row) : S.RowOf rt τ row := by
  rw [Site.RowOf, ← h]
  refine evalTerms_congr fun x hx => (hστ ?_).symm
  obtain ⟨t, ht, hxt⟩ := mem_allVarsList.mp hx
  obtain ⟨v, hv, rfl⟩ := mem_map.mp ht
  exact hS.closed v (mem_dedup.mp hv) x hxt

/-- Substitutions with the same row agree on the variables of the rule. -/
theorem Site.RowOf.eqOn (h : S.RowOf rt σ row) (h' : S.RowOf rt τ row) :
    Set.EqOn σ τ (namedIn S.bound) := fun _ hx =>
  Option.some.inj ((h.value .new hx).symm.trans (h'.value .new hx))

variable {c : Tiers} {W : Set Name} {temp : Name}

/-- **The insertion of a row** in the temporary relation. -/
theorem captureInto_yields (hW : temp ∈ W)
    (h : captureInto temp S.bound S.start = .ok (S.op, S.stop)) :
    S.stop.captured = S.bound.dedup ∧ S.Shaped W ∧ ∀ σ es, S.Yields rt c σ es →
      ∃ row, S.RowOf rt σ row ∧ es = [(temp, row)] := by
  obtain ⟨_, st₁, hcap, h⟩ := planM_bind_ok.mp h
  obtain ⟨-, rfl⟩ := Prod.mk.inj (Except.ok.inj hcap)
  obtain ⟨hop, hstop⟩ := planM_pure_ok.mp h
  refine ⟨hstop ▸ rfl, ⟨hstop ▸ le_rfl, ?_, ?_⟩, ?_⟩
  · rw [← hop]
    refine .insert hW fun a ha => ?_
    obtain ⟨v, hv, rfl⟩ := mem_map.mp ha
    exact mem_dedup.mp hv
  · rw [← hop]
    simp [Op.assigned]
  · rintro σ es ⟨ρ, hρ, hden⟩
    rw [← hop] at hden
    have hrow : ∀ vs : List Name, vs ⊆ S.bound → ∃ row, evalTerms rt σ (vs.map S.term) = .ok row ∧
        evalOperands ρ (vs.map .var) = .ok row := by
      intro vs hvs
      induction vs with
      | nil => exact ⟨[], rfl, rfl⟩
      | cons v vs ih =>
        obtain ⟨hv, hvs⟩ := cons_subset.mp hvs
        obtain ⟨w, hw, hρv⟩ := hρ v hv
        obtain ⟨row, hrow, hops⟩ := ih hvs
        refine ⟨w :: row, evalTerms_cons_ok.mpr ⟨hw, hrow⟩, ?_⟩
        simp only [evalOperands, map_cons, mapM_cons] at hops ⊢
        simp [evalOperand, hρv, hops]
    obtain ⟨row, hrow, hops⟩ := hrow _ (dedup_subset S.bound)
    simp only [den, hops, ok_bind] at hden
    exact ⟨row, hrow, (Except.ok.inj hden).symm⟩

end Rows

/-! ## Groups of rows -/

theorem addToGroups_eq_enter (key t : Tuple) (gs : List Group) :
    addToGroups key t gs = enter key t gs := by
  induction gs with
  | nil => rfl
  | cons g gs ih => rw [addToGroups, enter, ih]

/-- **The groups of the rows of a relation** are those by the values of the keys. -/
theorem groupTuples_eq_groups {vars keys : List Name} (hk : ∀ k ∈ keys, k ∈ vars) {ts : List Tuple}
    (hts : ∀ t ∈ ts, t.length = vars.length) (ρ : Env) :
    (groupTuples vars keys ts ρ []).2 =
      groups (fun t => keys.map (keyValue (Env.new.bindVars vars t))) ts := by
  suffices hgen : ∀ gs, (groupTuples vars keys ts ρ gs).2 =
      ts.foldl (fun gs t => enter (keys.map (keyValue (Env.new.bindVars vars t))) t gs) gs from
    hgen []
  induction ts generalizing ρ with
  | nil => exact fun gs => rfl
  | cons t ts ih =>
    intro gs
    obtain ⟨ht, hts⟩ := forall_mem_cons.mp hts
    have hkeys : keys.map (keyValue (ρ.bindVars vars t)) =
        keys.map (keyValue (Env.new.bindVars vars t)) :=
      map_congr_left fun k hk' => by rw [keyValue, keyValue, bindVars_congr ht (hk k hk')]
    rw [groupTuples, if_neg (not_not.mpr ht), foldl_cons, ← addToGroups_eq_enter, ← hkeys]
    exact ih hts _ _

/-! ## Reducers -/

/-- The value of a reducer for the assignments of a group. -/
def reducerValue (rt : Runtime) (group : List Subst) (func : String) (args : List Term) :
    Result Value :=
  if func = "fn:count" then .ok (.number (.ofNat group.length)) else
    match args with
    | [] => reject (reducerArity func)
    | arg :: _ => do ofBuiltin (reduce rt.host func (← group.mapM (evalTerm rt · arg)))

/-- The value of a let of a block, over a group of assignments. -/
def blockValue (rt : Runtime) (group : List Subst) (τ : Subst) : Term → Result Value
  | .app (.fn func) args =>
      if func ∈ reducers then reducerValue rt group func args
      else evalTerm rt τ (.app (.fn func) args)
  | t => evalTerm rt τ t

/-- A let gives its variable its value over the group. -/
def letStep (rt : Runtime) (group : List Subst) (τ : Subst) (t : Transform) : Result Subst := do
  let v ← blockValue rt group τ t.app
  pure (t.var.elim τ (Function.update τ · v))

/-- The lets of a block, one after the other. -/
def runBlock (rt : Runtime) (group : List Subst) (ts : List Transform) (σ : Subst) : Result Subst :=
  ts.foldlM (letStep rt group) σ

section Planned

variable {st st' : PlanState}

/-- The operand is that of a reducer's argument. -/
def ArgOf (t : Term) (o : Operand) : Prop := ∀ st, aggregateArg t st = .ok (o, st)

/-- The aggregates are those of the reducers among the lets. -/
inductive AggregatesOf : List Transform → List Aggregate → Prop
  | nil : AggregatesOf [] []
  | reducer {t : Transform} {ts : List Transform} {aggs : List Aggregate} {x func : String}
      {args : List Term} {ops : List Operand} (hx : t.var = some x)
      (happ : t.app = .app (.fn func) args) (hfunc : func ∈ reducers)
      (hops : List.Forall₂ ArgOf args ops) (hrest : AggregatesOf ts aggs) :
      AggregatesOf (t :: ts) (⟨x, func, ops⟩ :: aggs)
  | plain {t : Transform} {ts : List Transform} {aggs : List Aggregate} (ht : t.isReducer = false)
      (hrest : AggregatesOf ts aggs) : AggregatesOf (t :: ts) aggs

theorem mapM_aggregateArg_ok {args : List Term} {ops : List Operand}
    (h : args.mapM aggregateArg st = .ok (ops, st')) : List.Forall₂ ArgOf args ops ∧ st' = st := by
  induction args generalizing ops with
  | nil =>
    obtain ⟨rfl, rfl⟩ := planM_pure_ok.mp h
    exact ⟨.nil, rfl⟩
  | cons t ts ih =>
    rw [mapM_cons] at h
    obtain ⟨o, st₁, ho, h⟩ := planM_bind_ok.mp h
    obtain ⟨os, hos, rfl⟩ := planM_map_ok.mp h
    have ht : ArgOf t o ∧ st₁ = st := by
      cases t with
      | var _ | number _ | float _ =>
        obtain ⟨rfl, rfl⟩ := planM_pure_ok.mp ho
        exact ⟨fun _ => rfl, rfl⟩
      | _ => cases ho
    rw [ht.2] at hos
    obtain ⟨hrest, rfl⟩ := ih hos
    exact ⟨.cons ht.1 hrest, rfl⟩

theorem tryParseAggregate_ok {agg : Option Aggregate}
    (h : tryParseAggregate t st = .ok (agg, st')) :
    st' = st ∧ ((t.isReducer = false ∧ agg = none) ∨ ∃ x func args ops,
      t.isReducer = true ∧ t.var = some x ∧ t.app = .app (.fn func) args ∧ func ∈ reducers ∧
        List.Forall₂ ArgOf args ops ∧ agg = some ⟨x, func, ops⟩) := by
  obtain ⟨_ | x, app⟩ := t
  · obtain ⟨rfl, rfl⟩ := planM_pure_ok.mp h
    exact ⟨rfl, Or.inl ⟨rfl, rfl⟩⟩
  · rcases app with _ | _ | _ | _ | _ | _ | _ | _ | _ | ⟨func | _, args⟩
    case app.fn =>
      simp only [tryParseAggregate] at h
      split at h
      · next hfunc =>
        obtain ⟨ops, hops, rfl⟩ := planM_map_ok.mp h
        obtain ⟨hargs, rfl⟩ := mapM_aggregateArg_ok hops
        exact ⟨rfl, Or.inr ⟨x, func, args, ops, decide_eq_true hfunc, rfl, rfl, hfunc, hargs, rfl⟩⟩
      · next hfunc =>
        obtain ⟨rfl, rfl⟩ := planM_pure_ok.mp h
        exact ⟨rfl, Or.inl ⟨decide_eq_false hfunc, rfl⟩⟩
    all_goals
      obtain ⟨rfl, rfl⟩ := planM_pure_ok.mp h
      exact ⟨rfl, Or.inl ⟨rfl, rfl⟩⟩

/-- **Splitting a block** separates its reducers from its other lets. -/
theorem splitAggregates_ok {plain : List Transform} {aggs : List Aggregate}
    (h : splitAggregates ts st = .ok ((aggs, plain), st')) :
    plain = plainLets ts ∧ AggregatesOf ts aggs ∧ st' = st := by
  induction ts generalizing aggs plain st' with
  | nil =>
    obtain ⟨rfl, rfl, rfl⟩ := planM_pure_pair_ok.mp h
    exact ⟨rfl, .nil, rfl⟩
  | cons t ts ih =>
    obtain ⟨agg, st₁, hagg, hthen⟩ := planM_bind_ok.mp h
    obtain ⟨⟨aggs', plain'⟩, st₂, hrest, hpure⟩ := planM_bind_ok.mp hthen
    obtain ⟨rfl, ⟨ht, rfl⟩ | ⟨x, func, args, ops, ht, hx, happ, hfunc, hops, rfl⟩⟩ :=
      tryParseAggregate_ok hagg
    · obtain ⟨rfl, haggs, rfl⟩ := ih hrest
      obtain ⟨rfl, rfl, rfl⟩ := planM_pure_pair_ok.mp hpure
      exact ⟨by simp [plainLets, ht], .plain ht haggs, rfl⟩
    · obtain ⟨rfl, haggs, rfl⟩ := ih hrest
      obtain ⟨rfl, rfl, rfl⟩ := planM_pure_pair_ok.mp hpure
      exact ⟨by simp [plainLets, ht], .reducer hx happ hfunc hops haggs, rfl⟩

end Planned

section Value

variable {rt : Runtime} {group : List Subst} {τ : Subst}

theorem blockValue_plain (ht : t.isReducer = false) (hx : t.var = some x) :
    blockValue rt group τ t.app = evalTerm rt τ t.app := by
  unfold blockValue
  split
  · next func args happ =>
    have hfunc : func ∉ reducers := fun hfunc => by
      rw [Transform.isReducer_eq_true.mpr ⟨x, func, args, hx, happ, hfunc⟩] at ht
      cases ht
    rw [if_neg hfunc, happ]
  · rfl

/-- The value of a reducer does not depend on the other lets. -/
theorem blockValue_reducer {func : String} {args : List Term} (hfunc : func ∈ reducers) :
    blockValue rt group τ (.app (.fn func) args) = reducerValue rt group func args :=
  if_pos hfunc

theorem runBlock_cons (t : Transform) (ts : List Transform) (σ : Subst) :
    runBlock rt group (t :: ts) σ = letStep rt group σ t >>= runBlock rt group ts := foldlM_cons

theorem letStep_eq_ok (hx : t.var = some x) {σ : Subst} : letStep rt group σ t = .ok τ ↔
    ∃ v, blockValue rt group σ t.app = .ok v ∧ Function.update σ x v = τ := by
  simp only [letStep, hx, Option.elim_some, bind_eq_pure]

/-- The value of a let is determined by what it reads. -/
theorem blockValue_congr {A X : Set String} {σ : Subst} (hx : t.var = some x)
    (hknown : Known (if t.isReducer then A else X) t.app.allVars) (heq : Set.EqOn σ τ X) :
    blockValue rt group σ t.app = blockValue rt group τ t.app := by
  cases ht : t.isReducer with
  | true =>
    obtain ⟨_, func, args, -, happ, hfunc⟩ := Transform.isReducer_eq_true.mp ht
    rw [happ, blockValue_reducer hfunc, blockValue_reducer hfunc]
  | false =>
    rw [blockValue_plain ht hx, blockValue_plain ht hx]
    exact evalTerm_congr fun y hy => heq (by simpa [ht] using hknown y hy)

/-- **What the lets of a block define is determined by what they read.** -/
theorem BlockReady.eqOn {A X : Set String} {σ σ' τ' : Subst} (h : BlockReady A X ts)
    (heq : Set.EqOn σ σ' X) (hτ : runBlock rt group ts σ = .ok τ)
    (hτ' : runBlock rt group ts σ' = .ok τ') : Set.EqOn τ τ' (X ∪ {x | x ∈ definitions ts}) := by
  induction ts generalizing X σ σ' with
  | nil =>
    obtain rfl := Except.ok.inj hτ
    obtain rfl := Except.ok.inj hτ'
    simpa [definitions] using heq
  | cons t ts ih =>
    obtain ⟨x, hx, hknown, hrest⟩ := h
    rw [runBlock_cons] at hτ hτ'
    obtain ⟨σ₁, hσ₁, hτ⟩ := bind_eq_ok.mp hτ
    obtain ⟨σ₁', hσ₁', hτ'⟩ := bind_eq_ok.mp hτ'
    obtain ⟨v, hv, rfl⟩ := (letStep_eq_ok hx).mp hσ₁
    obtain ⟨v', hv', rfl⟩ := (letStep_eq_ok hx).mp hσ₁'
    rw [blockValue_congr hx hknown heq, hv'] at hv
    obtain rfl := Except.ok.inj hv
    refine (ih hrest (fun y hy => ?_) hτ hτ').mono fun y hy => ?_
    · by_cases hyx : y = x
      · simp [hyx]
      · simpa [hyx] using heq (hy.resolve_left hyx)
    · simp only [definitions_cons hx, Set.mem_union, Set.mem_ofPred_eq, mem_cons,
        Set.mem_insert_iff] at hy ⊢
      tauto

/-- A reducer and a let that does not use its variable may change places. -/
theorem letStep_swap {r : Transform} {σ σ₁ : Subst} (hr : r.isReducer = true)
    (ht : t.isReducer = false) (hx : t.var = some x) (hspares : t.Spares r)
    (h₁ : letStep rt group σ r = .ok σ₁) (h₂ : letStep rt group σ₁ t = .ok τ) :
    ∃ σ₂, letStep rt group σ t = .ok σ₂ ∧ letStep rt group σ₂ r = .ok τ := by
  obtain ⟨y, func, args, hy, happ, hfunc⟩ := Transform.isReducer_eq_true.mp hr
  have hno : y ∉ t.allVars := hspares ht hr y hy
  simp only [Transform.allVars, hx, Option.toList_some, mem_append, mem_singleton, not_or] at hno
  obtain ⟨v, hv, rfl⟩ := (letStep_eq_ok hy).mp h₁
  obtain ⟨w, hw, rfl⟩ := (letStep_eq_ok hx).mp h₂
  rw [happ, blockValue_reducer hfunc] at hv
  rw [blockValue_plain ht hx, evalTerm_congr fun z hz =>
    Function.update_of_ne (ne_of_mem_of_not_mem hz hno.2) v σ] at hw
  refine ⟨Function.update σ x w, (letStep_eq_ok hx).mpr ⟨w, ?_, rfl⟩,
    (letStep_eq_ok hy).mpr ⟨v, ?_, (Function.update_comm hno.1 v w σ).symm⟩⟩
  · rw [blockValue_plain ht hx, hw]
  · rw [happ, blockValue_reducer hfunc, hv]

/-- A let may be run before reducers whose variables it does not use. -/
theorem runBlock_swap {rs : List Transform} {σ σ₁ : Subst} (hrs : ∀ r ∈ rs, r.isReducer = true)
    (ht : t.isReducer = false) (hx : t.var = some x) (hspares : ∀ r ∈ rs, t.Spares r)
    (h₁ : runBlock rt group rs σ = .ok σ₁) (h₂ : letStep rt group σ₁ t = .ok τ) :
    ∃ σ₂, letStep rt group σ t = .ok σ₂ ∧ runBlock rt group rs σ₂ = .ok τ := by
  induction rs generalizing σ with
  | nil =>
    obtain rfl := Except.ok.inj h₁
    exact ⟨τ, h₂, rfl⟩
  | cons r rs ih =>
    obtain ⟨hr, hrs⟩ := forall_mem_cons.mp hrs
    obtain ⟨hspare, hspares⟩ := forall_mem_cons.mp hspares
    rw [runBlock_cons] at h₁
    obtain ⟨σ', hσ', h₁⟩ := bind_eq_ok.mp h₁
    obtain ⟨σ'', hσ'', hrest⟩ := ih hrs hspares h₁
    obtain ⟨σ₂, hσ₂, hstep⟩ := letStep_swap hr ht hx hspare hσ' hσ''
    exact ⟨σ₂, hσ₂, by rw [runBlock_cons, hstep, ok_bind, hrest]⟩

/-- **Running the reducers of a block first changes nothing**, when no let before them uses their
variables. -/
theorem runBlock_of_split {σ σ₁ : Subst} (hts : ∀ t ∈ ts, t.var.isSome)
    (hspares : ts.Pairwise Transform.Spares)
    (h₁ : runBlock rt group (ts.filter (·.isReducer)) σ = .ok σ₁)
    (h₂ : runBlock rt group (plainLets ts) σ₁ = .ok τ) : runBlock rt group ts σ = .ok τ := by
  induction ts generalizing σ σ₁ with
  | nil =>
    obtain rfl := Except.ok.inj h₁
    exact h₂
  | cons t ts ih =>
    obtain ⟨ht, hts⟩ := forall_mem_cons.mp hts
    obtain ⟨hspare, hspares⟩ := pairwise_cons.mp hspares
    obtain ⟨x, hx⟩ := Option.isSome_iff_exists.mp ht
    cases hr : t.isReducer with
    | true =>
      rw [filter_cons_of_pos hr, runBlock_cons] at h₁
      rw [plainLets, filter_cons_of_neg (by simp [hr])] at h₂
      obtain ⟨σ', hσ', h₁⟩ := bind_eq_ok.mp h₁
      rw [runBlock_cons, hσ', ok_bind, ih hts hspares h₁ h₂]
    | false =>
      rw [filter_cons_of_neg (by simp [hr])] at h₁
      rw [plainLets, filter_cons_of_pos (by simp [hr]), runBlock_cons] at h₂
      obtain ⟨σ', hσ', h₂⟩ := bind_eq_ok.mp h₂
      obtain ⟨σ₂, hσ₂, h₁⟩ := runBlock_swap (fun r hr => (mem_filter.mp hr).2) hr hx
        (fun r hr => hspare r (mem_filter.mp hr).1) h₁ hσ'
      rw [runBlock_cons, hσ₂, ok_bind, ih hts hspares h₁ h₂]

end Value

/-! ## The environment of a group -/

section Group

variable {rt : Runtime} {S : Site} {rows : List Tuple} {group : List Subst}

theorem ArgOf.cases {t : Term} (h : ArgOf t o) :
    (∃ x, t = .var x ∧ o = .var x) ∨ ∃ k, o = .const k ∧
      ∀ rt σ, evalTerm rt σ t = .ok k.value := by
  have h := h ⟨0, []⟩
  cases t with
  | var x => exact Or.inl ⟨x, rfl, (Prod.mk.inj (Except.ok.inj h)).1.symm⟩
  | number _ | float _ => exact Or.inr ⟨_, (Prod.mk.inj (Except.ok.inj h)).1.symm, fun _ _ => rfl⟩
  | _ => cases h

/-- The argument of a reducer has its value in a row. -/
theorem ArgOf.value {t : Term} (h : ArgOf t o) (ht : Known (namedIn S.bound) t.allVars) {σ : Subst}
    {row : Tuple} (hrow : S.RowOf rt σ row) (ρ : Env) :
    ∃ v, evalTerm rt σ t = .ok v ∧
      evalOperand (ρ.bindVars S.bound.dedup row) o = .ok v := by
  rcases h.cases with ⟨x, rfl, rfl⟩ | ⟨k, rfl, hk⟩
  · refine ⟨σ x, rfl, ?_⟩
    rw [evalOperand, hrow.value ρ (ht x (by simp [Term.allVars]))]
  · exact ⟨k.value, hk rt σ, rfl⟩

theorem ArgOf.reads {t : Term} (h : ArgOf t o) (ht : Known (namedIn S.bound) t.allVars) :
    o.Reads (names S.bound.dedup) := by
  rcases h.cases with ⟨x, rfl, rfl⟩ | ⟨k, rfl, -⟩
  · exact mem_dedup.mpr (ht x (by simp [Term.allVars]))
  · trivial

/-- The environment has kept the values that the rows of the group do not contradict. -/
def Keeps (S : Site) (group : List Subst) (ρ ρ' : Env) : Prop :=
  ∀ (x : String) w, ρ x = some w → (x ∈ namedIn S.bound → ∀ σ ∈ group, σ x = w) → ρ' x = some w

/-- **The arguments of a reducer** are those of the assignments. -/
theorem reducerArgs_rows {t : Term} (h : ArgOf t o) (ht : Known (namedIn S.bound) t.allVars)
    (hrows : List.Forall₂ (fun row σ => S.RowOf rt σ row) rows group) (ρ : Env) :
    ∃ vals ρ', reducerArgs o S.bound.dedup rows ρ = .ok (vals, ρ') ∧
      group.mapM (evalTerm rt · t) = .ok vals ∧ Keeps S group ρ ρ' := by
  induction hrows generalizing ρ with
  | nil => exact ⟨[], ρ, rfl, rfl, fun x w hx _ => hx⟩
  | @cons row σ rows group hrow _ ih =>
    obtain ⟨v, hv, hop⟩ := h.value ht hrow ρ
    obtain ⟨vals, ρ', hrun, hvals, hkeeps⟩ := ih (ρ.bindVars S.bound.dedup row)
    refine ⟨v :: vals, ρ', ?_, ?_, fun x w hx hgroup => hkeeps x w ?_ fun hxS τ hτ => ?_⟩
    · simp only [reducerArgs, hop, ok_bind, hrun]
      rfl
    · rw [mapM_cons, hv, ok_bind, hvals]
      rfl
    · by_cases hxS : x ∈ namedIn S.bound
      · rw [hrow.value ρ hxS, hgroup hxS σ mem_cons_self]
      · rw [Env.bindVars_of_notMem (fun hmem => hxS (mem_dedup.mp hmem)), hx]
    · exact hgroup hxS τ (mem_cons_of_mem σ hτ)

/-- **A reducer over a group of rows** has the value it has over the assignments. -/
theorem evalAggregate_rows {v : Name} {func : String} {args : List Term} {ops : List Operand}
    (hops : List.Forall₂ ArgOf args ops) (hfunc : func ∈ reducers)
    (hargs : Known (namedIn S.bound) (Term.allVarsList args))
    (hrows : List.Forall₂ (fun row σ => S.RowOf rt σ row) rows group) {ρ ρ' : Env} {w : Value}
    (h : evalAggregate rt.host ⟨v, func, ops⟩ rows S.bound.dedup ρ = .ok (w, ρ')) :
    reducerValue rt group func args = .ok w ∧ Keeps S group ρ ρ' := by
  unfold evalAggregate at h
  unfold reducerValue
  by_cases hcount : func = "fn:count"
  · rw [if_pos hcount, hrows.length_eq] at h
    obtain ⟨rfl, rfl⟩ := Prod.mk.inj (Except.ok.inj h)
    exact ⟨if_pos hcount, fun x w hx _ => hx⟩
  · rw [if_neg hcount] at h ⊢
    cases hops with
    | nil =>
      have hlisted : func ∈ ["fn:sum", "fn:float:sum", "fn:max", "fn:min", "fn:float:max",
          "fn:float:min", "fn:collect", "fn:collect_distinct"] := by
        simp only [reducers, mem_cons, not_mem_nil, or_false] at hfunc ⊢
        tauto
      simp only [if_pos hlisted] at h
      cases h
    | @cons arg o args ops ho _ =>
      obtain ⟨vals, ρ₁, hrun, hvals, hkeeps⟩ := reducerArgs_rows ho (fun x hx => hargs x (by
        simp [Term.allVarsList, hx])) hrows ρ
      simp only [hvals, hrun, ok_bind] at h ⊢
      obtain ⟨u, hu, h⟩ := bind_eq_ok.mp h
      obtain ⟨rfl, rfl⟩ := Prod.mk.inj (Except.ok.inj h)
      exact ⟨hu, hkeeps⟩

/-- The variables of the reducers of a block. -/
def reducerVars (ts : List Transform) : List String := definitions (ts.filter (·.isReducer))

theorem reducerVars_reducer (ht : t.isReducer = true) (hx : t.var = some x) (ts : List Transform) :
    reducerVars (t :: ts) = x :: reducerVars ts := by
  rw [reducerVars, filter_cons_of_pos ht, definitions_cons hx, reducerVars]

theorem reducerVars_plain (ht : t.isReducer = false) (ts : List Transform) :
    reducerVars (t :: ts) = reducerVars ts := by
  rw [reducerVars, filter_cons_of_neg (by simp [ht]), reducerVars]

/-- **The reducers of a block**, over a group of rows: the environment follows the substitution on
what the rows do not contradict and on the variables of the reducers. -/
theorem bindGroup_reducers {lets : List Transform} {aggs : List Aggregate} {ρ ρ' : Env}
    {σ : Subst} {D : Set String} (h : AggregatesOf lets aggs)
    (hargs : ∀ t ∈ lets, t.isReducer = true → Known (namedIn S.bound) t.app.allVars)
    (hnew : ∀ x ∈ reducerVars lets, x ∉ namedIn S.bound)
    (hrows : List.Forall₂ (fun row σ => S.RowOf rt σ row) rows group)
    (hD : ∀ x ∈ D, ρ x = some (σ x) ∧ (x ∈ namedIn S.bound → ∀ υ ∈ group, υ x = σ x))
    (hrun : aggs.foldlM (fun env agg => do
        let (v, env) ← evalAggregate rt.host agg rows S.bound.dedup env
        pure (env.set agg.var v)) ρ = .ok ρ') :
    ∃ τ, runBlock rt group (lets.filter (·.isReducer)) σ = .ok τ ∧
      ∀ x, x ∈ D ∨ x ∈ reducerVars lets → ρ' x = some (τ x) := by
  induction h generalizing ρ σ D with
  | nil =>
    obtain rfl := Except.ok.inj hrun
    exact ⟨σ, rfl, fun x hx => (hD x (hx.resolve_right (by simp [reducerVars, definitions]))).1⟩
  | @reducer t ts aggs x func args ops hx happ hfunc hops hrest ih =>
    obtain ⟨hargst, hargs⟩ := forall_mem_cons.mp hargs
    have ht : t.isReducer = true := Transform.isReducer_eq_true.mpr ⟨x, func, args, hx, happ, hfunc⟩
    rw [reducerVars_reducer ht hx] at hnew ⊢
    obtain ⟨hxS, hnew⟩ := forall_mem_cons.mp hnew
    have hknown : Known (namedIn S.bound) (Term.allVarsList args) := by
      have := hargst ht
      rwa [happ, Term.allVars] at this
    simp only [foldlM_cons, bind_assoc] at hrun
    obtain ⟨⟨w, ρ₁⟩, hagg, hrun⟩ := bind_eq_ok.mp hrun
    obtain ⟨hval, hkeeps⟩ := evalAggregate_rows hops hfunc hknown hrows hagg
    simp only [pure_bind] at hrun
    have hstep : letStep rt group σ t = .ok (Function.update σ x w) :=
      (letStep_eq_ok hx).mpr ⟨w, by rw [happ, blockValue_reducer hfunc, hval], rfl⟩
    obtain ⟨τ, hτ, hvals⟩ := @ih _ (Function.update σ x w) (insert x D) hargs hnew (by
      intro y hy
      by_cases hyx : y = x
      · subst hyx
        exact ⟨by simp, fun hmem => absurd hmem hxS⟩
      · obtain ⟨hρy, hgroup⟩ := hD y (hy.resolve_left hyx)
        rw [Function.update_of_ne hyx, Env.set_of_ne w (by simpa using hyx)]
        exact ⟨hkeeps y _ hρy hgroup, hgroup⟩) hrun
    refine ⟨τ, by rw [filter_cons_of_pos ht, runBlock_cons, hstep, ok_bind, hτ], fun y hy => ?_⟩
    refine hvals y ?_
    simp only [mem_cons, Set.mem_insert_iff] at hy ⊢
    tauto
  | @plain t ts aggs ht hrest ih =>
    rw [reducerVars_plain ht] at hnew ⊢
    rw [filter_cons_of_neg (by simp [ht])]
    exact ih (forall_mem_cons.mp hargs).2 hnew hD hrun

end Group

/-! ## Planning lets -/

/-- Only variables of the rule have values at the site. -/
def Site.Plain (S : Site) : Prop := ∀ v ∈ S.bound, ∃ x : String, v = x

theorem Site.Plain.knows {S : Site} (h : S.Plain) : S.Knows where
  below pre id hmem := by
    obtain ⟨x, heq⟩ := h _ hmem
    cases heq
  closed v hv := by
    obtain ⟨x, rfl⟩ := h v hv
    intro y hy
    obtain rfl : y = x := by simpa [Site.term, Term.allVars] using hy
    exact hv

theorem LetsScoped.chain {B W : Set Name} {lets : List (Name × Expr)} {inner : Op}
    (h : LetsScoped B lets) (hinner : inner.Chain W (letNames lets ∪ B)) :
    (wrapLets lets inner).Chain W B := by
  induction lets generalizing B with
  | nil => simpa [wrapLets] using hinner
  | cons p l ih =>
    obtain ⟨v, e⟩ := p
    refine .bind h.1 (ih h.2.2 ?_)
    rwa [letNames_cons, Set.insert_union, ← Set.union_insert] at hinner

/-- The insertion of the head is a chain. -/
theorem planHeadInsert_chain {W : Set Name} {rule : Rule} {S : Site} (hW : (rule.pred : Name) ∈ W)
    (hS : S.Knows) (hk : Known (namedIn S.bound) (Term.allVarsList rule.args))
    (h : planHeadInsert rule S.start = .ok (S.op, S.stop)) : S.op.Chain W (names S.bound) := by
  rw [planHeadInsert, withEvalArgs_eq] at h
  obtain ⟨⟨lets, ops⟩, st₁, hemit, h⟩ := planM_bind_ok.mp h
  obtain ⟨inner, hinner, hop⟩ := planM_map_ok.mp h
  obtain ⟨rfl, rfl⟩ := planM_pure_ok.mp hinner
  obtain ⟨hl, hops⟩ := (emits_of_emitArgs hemit).scoped hk.ruleVars hS.below.disjoint
  rw [← hop]
  exact hl.chain (.insert hW hops)

/-- **Planned lets** run what follows them with the values they define. -/
theorem yields_lets {rt : Runtime} {c : Tiers} {W : Set Name} {S : Site} {k : List Name → PlanM Op}
    {A : Set String} (hts : BlockReady A (namedIn S.bound) ts)
    (hplain : ∀ t ∈ ts, t.isReducer = false) (hS : S.Plain)
    (h : planTransformsSequence k ts S.bound S.start = .ok (S.op, S.stop)) :
    ∃ S' : Site, k S'.bound S'.start = .ok (S'.op, S'.stop) ∧ S'.Plain ∧
      namedIn S'.bound = namedIn S.bound ∪ {x | x ∈ definitions ts} ∧
      (S'.op.Chain W (names S'.bound) → S.op.Chain W (names S.bound)) ∧
      ∀ group σ es, S.Yields rt c σ es →
        ∃ τ, runBlock rt group ts σ = .ok τ ∧ S'.Yields rt c τ es := by
  induction ts generalizing S with
  | nil => exact ⟨S, h, hS, by simp [definitions], id, fun _ σ es hy => ⟨σ, rfl, hy⟩⟩
  | cons t ts ih =>
    obtain ⟨x, hx, hknown, hrest⟩ := hts
    obtain ⟨ht, hplain⟩ := forall_mem_cons.mp hplain
    simp only [ht, Bool.false_eq_true, if_false] at hknown
    unfold planTransformsSequence at h
    simp only [hx] at h
    rw [instToExpr_eq] at h
    obtain ⟨⟨lets, expr⟩, st₁, hemit, h⟩ := planM_bind_ok.mp h
    obtain ⟨inner, hinner, hop⟩ := planM_map_ok.mp h
    obtain ⟨body, hbody, rfl⟩ := planM_map_ok.mp hinner
    obtain ⟨S', hplan', hS', hX', hchain, hrun⟩ := @ih
      { S with bound := (x : Name) :: S.bound, start := st₁, op := body }
      (by rwa [namedIn_cons]) hplain (forall_mem_cons.mpr ⟨⟨x, rfl⟩, hS⟩) hbody
    refine ⟨S', hplan', hS', ?_, fun hlast => ?_, fun group σ es hy => ?_⟩
    · rw [hX', namedIn_cons, definitions_cons hx]
      ext y
      simp only [Set.mem_union, Set.mem_insert_iff, Set.mem_ofPred_eq, mem_cons]
      tauto
    · obtain ⟨hl, hread⟩ := emitExpr_scoped hemit hknown.ruleVars hS.knows.below.disjoint
      rw [← hop]
      refine hl.chain (.bind hread ((hchain hlast).mono fun v hv => ?_))
      rcases mem_cons.mp hv with rfl | hv
      · exact Or.inl rfl
      · exact Or.inr (Or.inr hv)
    · obtain ⟨v, ρ, hv, hρ, hden⟩ := hy.bindExpr hS.knows hemit hop.symm hknown
      have hstep : letStep rt group σ t = .ok (Function.update σ x v) :=
        (letStep_eq_ok hx).mpr ⟨v, by rw [blockValue_plain ht hx, hv], rfl⟩
      have hset : ∀ u ∈ (x : Name) :: S.bound, ∃ w,
          evalTerm rt (Function.update σ x v) (S.term u) = .ok w ∧ ρ.set x v u = some w := by
        intro u hu
        obtain ⟨y, rfl⟩ : ∃ y : String, u = y := (mem_cons.mp hu).elim (⟨x, ·⟩) (hS u)
        refine ⟨_, rfl, ?_⟩
        by_cases hyx : y = x
        · simp [hyx]
        · obtain ⟨w, hw, hρy⟩ := hρ y ((mem_cons.mp hu).resolve_left (by simpa using hyx))
          rw [Env.set_of_ne v (by simpa using hyx), Function.update_of_ne hyx, hρy]
          exact congrArg some (Except.ok.inj hw).symm
      obtain ⟨τ, hτ, hy'⟩ := hrun group (Function.update σ x v) es ⟨ρ.set x v, hset, hden⟩
      exact ⟨τ, by rw [runBlock_cons, hstep, ok_bind, hτ], hy'⟩

/-! ## Planning a block -/

theorem mapM_groupKey (ks : List String) (st : PlanState) :
    (ks.map Term.var).mapM groupKey st = .ok (ks.map Name.named, st) := by
  induction ks with
  | nil => rfl
  | cons k ks ih =>
    rw [map_cons, mapM_cons]
    refine planM_bind_ok.mpr ⟨k, st, rfl, planM_bind_ok.mpr ⟨_, st, ih, rfl⟩⟩

namespace AggregatesOf

variable {lets : List Transform} {aggs : List Aggregate}

theorem vars (h : AggregatesOf lets aggs) :
    aggs.map Aggregate.var = (reducerVars lets).map Name.named := by
  induction h with
  | nil => rfl
  | @reducer t ts aggs x func args ops hx happ hfunc hops hrest ih =>
    have ht : t.isReducer = true := Transform.isReducer_eq_true.mpr ⟨x, func, args, hx, happ, hfunc⟩
    rw [map_cons, ih, reducerVars_reducer ht hx, map_cons]
  | plain ht hrest ih => rw [ih, reducerVars_plain ht]

theorem reads (h : AggregatesOf lets aggs) {S : Site}
    (hargs : ∀ t ∈ lets, t.isReducer = true → Known (namedIn S.bound) t.app.allVars) :
    ∀ agg ∈ aggs, ∀ a ∈ agg.args, a.Reads (names S.bound.dedup) := by
  induction h with
  | nil => simp
  | @reducer t ts aggs x func args ops hx happ hfunc hops hrest ih =>
    obtain ⟨hargst, hargs⟩ := forall_mem_cons.mp hargs
    refine forall_mem_cons.mpr ⟨fun a ha => ?_, ih hargs⟩
    have hknown := hargst (Transform.isReducer_eq_true.mpr ⟨x, func, args, hx, happ, hfunc⟩)
    rw [happ, Term.allVars] at hknown
    obtain ⟨arg, harg, hof⟩ := forall₂_mem_right hops ha
    exact hof.reads fun x hx => hknown x (mem_allVarsList.mpr ⟨arg, harg, hx⟩)
  | plain ht hrest ih => exact ih (forall_mem_cons.mp hargs).2

end AggregatesOf

section Block

variable {rt : Runtime} {c : Tiers} {W : Set Name} {S : Site} {ks : List String}
  {lets : List Transform} {aggs : List Aggregate} {rows : List Tuple} {asg : List Subst}

theorem mem_definitions : x ∈ definitions ts ↔ ∃ t ∈ ts, t.var = some x := mem_filterMap

/-- The key of a row is that of its assignment. -/
theorem Site.RowOf.key {σ : Subst} {row : Tuple} (h : S.RowOf rt σ row)
    (hks : Known (namedIn S.bound) ks) :
    (ks.map Name.named).map (keyValue (Env.new.bindVars S.bound.dedup row)) = ks.map σ := by
  rw [map_map]
  refine map_congr_left fun k hk => ?_
  simp [keyValue, h.value .new (hks k hk)]

/-- The place where a block runs its lets. -/
def Site.block (ks : List String) (lets : List Transform) (st st' : PlanState) (body : Op) : Site :=
  ⟨((reducerVars lets).map Name.named).reverse ++ (ks.map Name.named).reverse, fun _ _ => .number 0,
    st, st', body⟩

theorem Site.mem_block {st st' : PlanState} {body : Op} {v : Name} :
    v ∈ (Site.block ks lets st st' body).bound ↔ ∃ x : String, v = x ∧
      (x ∈ ks ∨ x ∈ reducerVars lets) := by
  simp only [Site.block, mem_append, mem_reverse, mem_map]
  constructor
  · rintro (⟨x, hx, rfl⟩ | ⟨x, hx, rfl⟩)
    · exact ⟨x, rfl, Or.inr hx⟩
    · exact ⟨x, rfl, Or.inl hx⟩
  · rintro ⟨x, rfl, hx | hx⟩
    · exact Or.inr ⟨x, hx, rfl⟩
    · exact Or.inl ⟨x, hx, rfl⟩

theorem Site.namedIn_block {st st' : PlanState} {body : Op} :
    namedIn (Site.block ks lets st st' body).bound = {x | x ∈ ks} ∪ {x | x ∈ reducerVars lets} := by
  ext x
  simp only [namedIn, Set.mem_ofPred_eq, Site.mem_block, Set.mem_union, Name.named.injEq]
  constructor
  · rintro ⟨y, rfl, hy⟩
    exact hy
  · exact fun hx => ⟨x, rfl, hx⟩

/-- **The body of a block over one group of rows** starts with the keys and the reducers of the
group. -/
theorem bindGroup_denotes {σ : Subst} {row : Tuple} (haggs : AggregatesOf lets aggs)
    (hks : Known (namedIn S.bound) ks)
    (hargs : ∀ t ∈ lets, t.isReducer = true → Known (namedIn S.bound) t.app.allVars)
    (hnew : ∀ x ∈ reducerVars lets, x ∉ namedIn S.bound)
    (hrows : List.Forall₂ (fun row σ => S.RowOf rt σ row) rows asg) (hrow : S.RowOf rt σ row)
    (ρ : Env) {ρ' : Env} (st st' : PlanState) (body : Op)
    (h : let key := fun row =>
        (ks.map Name.named).map (keyValue (Env.new.bindVars S.bound.dedup row))
      bindGroup rt.host S.bound.dedup (ks.map Name.named) aggs
        (key row, rows.filter (key · = key row)) ρ = .ok ρ') :
    ∃ τ, runBlock rt (asg.filter fun υ => ks.map υ = ks.map σ) (lets.filter (·.isReducer)) σ =
        .ok τ ∧ (Site.block ks lets st st' body).Denotes rt ρ' τ := by
  simp only [hrow.key hks] at h
  have hgroup : List.Forall₂ (fun row σ => S.RowOf rt σ row)
      (rows.filter fun row => (ks.map Name.named).map
        (keyValue (Env.new.bindVars S.bound.dedup row)) = ks.map σ)
      (asg.filter fun τ => ks.map τ = ks.map σ) := by
    refine rel_filter (fun row' τ hτ => ?_) hrows
    simp only [decide_eq_true_eq, hτ.key hks]
  obtain ⟨τ, hτ, hvals⟩ := @bindGroup_reducers _ _ _ _ _ _ _ ρ' σ {x | x ∈ ks} haggs hargs hnew
    hgroup (fun k hk => by
      refine ⟨bindVars_map ρ σ hk, fun _ τ hτ => ?_⟩
      have heq : ks.map τ = ks.map σ := by simpa using (mem_filter.mp hτ).2
      exact map_inj_left.mp heq k hk) h
  refine ⟨τ, hτ, fun v hv => ?_⟩
  obtain ⟨x, rfl, hx⟩ := Site.mem_block.mp hv
  exact ⟨τ x, rfl, hvals x hx⟩

theorem mem_definitions_split :
    x ∈ definitions lets ↔ x ∈ reducerVars lets ∨ x ∈ definitions (plainLets lets) := by
  simp only [reducerVars, plainLets, mem_definitions, mem_filter, ← exists_or]
  refine exists_congr fun t => ?_
  cases t.isReducer <;> simp

/-- The other lets of a block read the keys and the reducers. -/
theorem BlockReady.plainLets {A : Set String} (h : BlockReady A {x | x ∈ ks} lets) :
    BlockReady A ({x | x ∈ ks} ∪ {x | x ∈ reducerVars lets}) (plainLets lets) :=
  h.plain Set.subset_union_left fun t ht hr _ hx =>
    Or.inr (mem_definitions.mpr ⟨t, mem_filter.mpr ⟨ht, hr⟩, hx⟩)

variable {temp : Name} {k : List Name → PlanM Op} {st st' : PlanState} {op : Op} {func : String}

/-- The operation of a block. -/
theorem planBlockK_ok {vars : List Name}
    (h : planBlockK temp vars (⟨none, .app (.fn func) (ks.map .var)⟩ :: lets) k st =
      .ok (op, st')) :
    ∃ aggs body, AggregatesOf lets aggs ∧
      op = .groupBy temp vars (ks.map Name.named) aggs body ∧
      planTransformsSequence k (plainLets lets) (Site.block ks lets st st' body).bound st =
        .ok (body, st') := by
  obtain ⟨keys, st₁, hkeys, hsplit⟩ := planM_bind_ok.mp h
  rw [mapM_groupKey] at hkeys
  obtain ⟨rfl, rfl⟩ := Prod.mk.inj (Except.ok.inj hkeys)
  obtain ⟨⟨aggs, plain⟩, st₂, haggs, hlets⟩ := planM_bind_ok.mp hsplit
  obtain ⟨rfl, hof, rfl⟩ := splitAggregates_ok haggs
  obtain ⟨body, hbody, rfl⟩ := planM_map_ok.mp hlets
  rw [hof.vars] at hbody
  exact ⟨aggs, body, hof, rfl, hbody⟩

/-- The substitution is that of the lets over the group of `σ`. -/
def OfGroup (rt : Runtime) (ks : List String) (lets : List Transform) (asg : List Subst)
    (σ τ : Subst) : Prop :=
  runBlock rt (asg.filter fun υ => ks.map υ = ks.map σ) lets σ = .ok τ

/-- **A block runs what follows it for one substitution of each group**, when the temporary relation
holds the rows of the assignments. -/
theorem planBlockK_yields
    (h : planBlockK temp S.bound.dedup (⟨none, .app (.fn func) (ks.map .var)⟩ :: lets) k st =
      .ok (op, st'))
    (hks : Known (namedIn S.bound) ks) (hready : BlockReady (namedIn S.bound) {x | x ∈ ks} lets)
    (hlets : ∀ t ∈ lets, t.var.isSome) (hspares : lets.Pairwise Transform.Spares)
    (hdisj : ∀ x ∈ definitions lets, x ∉ namedIn S.bound) :
    ∃ S' : Site, k S'.bound S'.start = .ok (S'.op, S'.stop) ∧ S'.Plain ∧
      namedIn S'.bound = {x | x ∈ ks} ∪ {x | x ∈ definitions lets} ∧
      (S'.op.Chain W (names S'.bound) → temp ∉ W → op.Scoped W ∅) ∧
      ∀ asg, c.visible temp = [] →
        List.Forall₂ (fun row σ => S.RowOf rt σ row) (c.next temp) asg →
        ∀ ρ es, den rt c.reader op ρ = .ok es →
          (∀ e ∈ es, ∃ σ ∈ asg, ∃ τ es', OfGroup rt ks lets asg σ τ ∧
            S'.Yields rt c τ es' ∧ e ∈ es') ∧
          ∀ σ ∈ asg, ∃ τ es', OfGroup rt ks lets asg σ τ ∧ S'.Yields rt c τ es' ∧ es' ⊆ es := by
  obtain ⟨aggs, body, haggs, rfl, hbody⟩ := planBlockK_ok h
  have hargs : ∀ t ∈ lets, t.isReducer = true → Known (namedIn S.bound) t.app.allVars :=
    fun t ht hr => hready.reducer ht hr
  have hred : ∀ x ∈ reducerVars lets, x ∉ namedIn S.bound := fun x hx =>
    hdisj x (mem_definitions_split.mpr (Or.inl hx))
  have hX := @Site.namedIn_block ks lets st st' body
  obtain ⟨S', hplan', hS', hX', hchain, hrun⟩ := @yields_lets (plainLets lets) rt c W
    (Site.block ks lets st st' body) k _ (hX.symm ▸ hready.plainLets)
    (fun t ht => by simpa using (mem_filter.mp ht).2)
    (fun v hv => (Site.mem_block.mp hv).imp fun _ h => h.1) hbody
  have hmem : ∀ k ∈ ks.map Name.named, k ∈ S.bound.dedup := by
    intro k hk
    obtain ⟨x, hx, rfl⟩ := mem_map.mp hk
    exact mem_dedup.mpr (hks x hx)
  refine ⟨S', hplan', hS', ?_, fun hlast htemp => ?_, fun asg hvis hrows ρ es hes => ?_⟩
  · rw [hX', hX]
    ext x
    simp only [Set.mem_union, Set.mem_ofPred_eq, @mem_definitions_split _ lets, or_assoc]
  · refine .groupBy htemp hmem (by simp) (fun agg hagg => ⟨by simp, fun a ha => ?_⟩) (by simp) ?_
    · simpa using haggs.reads hargs agg hagg a ha
    · have hbound : names (Site.block ks lets st st' body).bound =
          names (ks.map Name.named ++ aggs.map Aggregate.var) ∪ ∅ := by
        ext v
        simp [Site.block, haggs.vars, or_comm]
      rw [← hbound]
      exact hchain hlast
  · have hlen : ∀ row ∈ c.next temp, row.length = S.bound.dedup.length := by
      intro row hrow
      obtain ⟨σ, -, hσ⟩ := forall₂_mem_left hrows hrow
      exact hσ.length
    simp only [den, Tiers.reader, hvis, ok_bind, nil_append, groupTuples_eq_groups hmem hlen ρ]
      at hes
    -- each group of rows is the group of any of its assignments
    have hone : ∀ row σ xs, S.RowOf rt σ row → _ = Except.ok xs → ∃ τ,
        OfGroup rt ks lets asg σ τ ∧ S'.Yields rt c τ xs := fun row σ xs hrow hxs => by
      obtain ⟨ρ', hbind, hden⟩ := bind_eq_ok.mp hxs
      obtain ⟨σ₁, hσ₁, hρ'⟩ := bindGroup_denotes haggs hks hargs hred hrows hrow ρ st st' body hbind
      obtain ⟨τ, hτ, hy⟩ := hrun _ σ₁ xs ⟨ρ', hρ', hden⟩
      exact ⟨τ, runBlock_of_split hlets hspares hσ₁ hτ, hy⟩
    constructor
    · intro e he
      obtain ⟨g, hg, xs, hxs, he⟩ := (mem_concatM hes e).mp he
      obtain ⟨row, hrow, rfl⟩ := mem_groups.mp ((rt.order.perm_perm _).mem_iff.mp hg)
      obtain ⟨σ, hσ, hrowσ⟩ := forall₂_mem_left hrows hrow
      obtain ⟨τ, hτ, hy⟩ := hone row σ xs hrowσ hxs
      exact ⟨σ, hσ, τ, xs, hτ, hy, he⟩
    · intro σ hσ
      obtain ⟨row, hrow, hrowσ⟩ := forall₂_mem_right hrows hσ
      obtain ⟨xs, hxs, hsub⟩ := run_of_concatM hes
        ((rt.order.perm_perm _).mem_iff.mpr (mem_groups.mpr ⟨row, hrow, rfl⟩))
      obtain ⟨τ, hτ, hy⟩ := hone row σ xs hrowσ hxs
      exact ⟨τ, xs, hτ, hy, hsub⟩

end Block

end Mangle

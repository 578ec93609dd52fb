import Mangle.Analysis.BindingsSound
import Mangle.Planner.Correct
import Mathlib.Data.List.TakeWhile

/-!
# Planner/Transforms — what the check knows about the transform of a rule

A transform is a list of lets, or such a list and `group_by` blocks after it.  An `Orderly` rule is
accepted by the check, its premises find the variables they evaluate bound where the planner puts
them, and no let that comes before a reducer uses the variable of the reducer.  Then

* `Orderly.of_block` — a block that comes first groups by variables of the body; its reducers read
  these, its other lets and the head read the keys and the block's definitions.
-/

namespace Mangle

open Machinery List

variable {lets : List Transform} {keys : List String}

/-! ## Blocks -/

/-- The variables that the statements define. -/
def definitions (ts : List Transform) : List String := ts.filterMap Transform.var

/-- The statement is a let of a reducer. -/
def Transform.isReducer (t : Transform) : Bool :=
  match t.var, t.app with
  | some _, .app (.fn func) _ => decide (func ∈ reducers)
  | _, _ => false

theorem Transform.isReducer_eq_true {t : Transform} : t.isReducer = true ↔
    ∃ x func args, t.var = some x ∧ t.app = .app (.fn func) args ∧ func ∈ reducers := by
  unfold isReducer
  split
  · next x func args hx happ => simp [hx, happ]
  · next hno =>
    simp only [Bool.false_eq_true, false_iff, not_exists]
    rintro x func args ⟨hx, happ, -⟩
    exact hno x func args hx happ

/-- The lets of a block that are no reducers. -/
def plainLets (ts : List Transform) : List Transform := ts.filter (! ·.isReducer)

/-- A reducer reads the variables of `A`, any other let the keys and what the block defines before
it. -/
def BlockReady (A : Set String) : Set String → List Transform → Prop
  | _, [] => True
  | X, t :: ts => ∃ x, t.var = some x ∧ Known (if t.isReducer then A else X) t.app.allVars ∧
      BlockReady A (insert x X) ts

theorem definitions_cons {t : Transform} {x : String} (hx : t.var = some x) (ts : List Transform) :
    definitions (t :: ts) = x :: definitions ts := filterMap_cons_some hx

variable {ts : List Transform}

/-- **The other lets of a block are ready after its reducers.** -/
theorem BlockReady.plain {A X Y : Set String} (h : BlockReady A X ts) (hXY : X ⊆ Y)
    (hred : ∀ t ∈ ts, t.isReducer = true → ∀ x ∈ t.var, x ∈ Y) :
    BlockReady A Y (plainLets ts) := by
  induction ts generalizing X Y with
  | nil => trivial
  | cons t ts ih =>
    obtain ⟨x, hx, hknown, hrest⟩ := h
    obtain ⟨hredt, hred⟩ := forall_mem_cons.mp hred
    cases ht : t.isReducer with
    | true =>
      rw [plainLets, filter_cons_of_neg (by simp [ht])]
      exact ih hrest (Set.insert_subset (hredt ht x hx) hXY) hred
    | false =>
      rw [plainLets, filter_cons_of_pos (by simp [ht])]
      refine ⟨x, hx, ?_, ih hrest (Set.insert_subset_insert hXY) fun t' ht' hr y hy =>
        Set.mem_insert_of_mem x (hred t' ht' hr y hy)⟩
      simp only [ht, Bool.false_eq_true, if_false] at hknown ⊢
      exact hknown.mono hXY

theorem BlockReady.mono {A B X : Set String} (h : BlockReady A X ts)
    (hAB : A ⊆ B) : BlockReady B X ts := by
  induction ts generalizing X with
  | nil => trivial
  | cons t ts ih =>
    obtain ⟨x, hx, hknown, hrest⟩ := h
    refine ⟨x, hx, hknown.mono ?_, ih hrest⟩
    split
    · exact hAB
    · exact subset_rfl

/-- The variables a reducer reads. -/
theorem BlockReady.reducer {A X : Set String} (h : BlockReady A X ts)
    {t : Transform} (ht : t ∈ ts) (hr : t.isReducer = true) : Known A t.app.allVars := by
  induction ts generalizing X with
  | nil => cases ht
  | cons t' ts ih =>
    obtain ⟨x, -, hknown, hrest⟩ := h
    rcases mem_cons.mp ht with rfl | ht
    · simpa [hr] using hknown
    · exact ih hrest ht

/-! ## Splitting -/

theorem splitTransforms_lets (h : ∀ t ∈ ts, t.var.isSome)
    (current rest : List Transform) :
    splitTransforms current (ts ++ rest) = splitTransforms (current ++ ts) rest := by
  induction ts generalizing current with
  | nil => simp
  | cons t ts ih =>
    obtain ⟨ht, hts⟩ := forall_mem_cons.mp h
    have ht : t.var.isNone = false := by simpa [Option.isNone_eq_false_iff] using ht
    simp [splitTransforms, ht, ih hts]

/-- A transform with one block. -/
theorem splitTransforms_of_block {app : Term} (hlets : ∀ t ∈ lets, t.var.isSome) :
    splitTransforms [] (⟨none, app⟩ :: lets) = [[], ⟨none, app⟩ :: lets] := by
  have := splitTransforms_lets hlets [⟨none, app⟩] []
  simpa [splitTransforms] using this

/-! ## The check of a transform -/

section Check

variable {order : HashOrder} {head : String} {bound : List String}

/-- The keys of a block are in scope. -/
theorem scanGroupKeys_ok {available keys' : List String}
    (h : scanGroupKeys head available (keys.map .var) = .ok keys') :
    keys' = keys.reverse ∧ ∀ k ∈ keys, k ∈ available := by
  rw [← append_nil keys.reverse]
  unfold scanGroupKeys at h
  generalize ([] : List String) = acc at h ⊢
  induction keys generalizing acc with
  | nil => exact ⟨(Except.ok.inj h).symm, by simp⟩
  | cons v keys ih =>
    rw [map_cons, foldlM_cons] at h
    obtain ⟨acc', hacc, h⟩ := bind_eq_ok.mp h
    obtain ⟨rfl, hkeys⟩ := ih acc' h
    dsimp only at hacc
    split at hacc
    · cases hacc
    · split at hacc
      · cases hacc
      · next hv =>
        obtain rfl := Except.ok.inj hacc
        exact ⟨by simp, forall_mem_cons.mpr ⟨not_not.mp hv, hkeys⟩⟩

/-- The lets of a block are ready. -/
theorem scanBlockLets_ok {available : List String}
    (hw : ∀ t ∈ ts, t.var ≠ some "_" ∧ "_" ∉ t.app.allVars) {defs defs' : List String}
    (h : ts.foldlM (scanBlockLet order head bound available keys) defs = .ok defs') :
    BlockReady {x | x ∈ available} {x | x ∈ keys ++ defs} ts ∧
      ∀ x ∈ defs', x ∈ defs ∨ x ∈ definitions ts := by
  induction ts generalizing defs with
  | nil =>
    obtain rfl := Except.ok.inj h
    exact ⟨trivial, fun x hx => Or.inl hx⟩
  | cons t ts ih =>
    obtain ⟨⟨hvar, hvars⟩, hw⟩ := forall_mem_cons.mp hw
    rw [foldlM_cons] at h
    obtain ⟨defs₁, hdefs₁, h⟩ := bind_eq_ok.mp h
    obtain ⟨hready, hdefs⟩ := ih hw h
    unfold scanBlockLet at hdefs₁
    have hknown {l : List String} (hl : ∀ x ∈ t.app.vars, x ∈ l) :
        Known {x | x ∈ l} t.app.allVars := fun x hx =>
      hl x (mem_vars.mpr ⟨hx, ne_of_mem_of_not_mem hx hvars⟩)
    cases ht : t.var with
    | none =>
      simp only [ht] at hdefs₁
      cases hdefs₁
    | some v =>
      have hv : v ≠ "_" := fun hv => hvar (hv ▸ ht)
      simp only [ht, if_neg hv] at hdefs₁
      split at hdefs₁
      · cases hdefs₁
      · have hreads : defs₁ = v :: defs ∧
            Known (if t.isReducer then {x | x ∈ available} else {x | x ∈ keys ++ defs})
              t.app.allVars := by
          have hdone {l : List String} {msg : String → String}
              (h : (do requireBound order t.app.vars l msg; pure (v :: defs)) = .ok defs₁) :
              defs₁ = v :: defs ∧ Known {x | x ∈ l} t.app.allVars := by
            obtain ⟨_, hl, heq⟩ := bind_eq_ok.mp h
            exact ⟨(Except.ok.inj heq).symm, hknown (requireBound_eq_ok.mp hl)⟩
          -- which variables may be read depends on whether the let is a reducer
          split at hdefs₁
          · next func args happ =>
            have hiff : t.isReducer = decide (func ∈ reducerFns) := by
              simp [Transform.isReducer, ht, happ, reducers, reducerFns]
            by_cases hf : func ∈ reducerFns
            · rw [if_pos hf] at hdefs₁
              rw [hiff, if_pos (decide_eq_true hf)]
              exact hdone hdefs₁
            · rw [if_neg hf] at hdefs₁
              rw [hiff, if_neg (by simpa using hf)]
              exact hdone hdefs₁
          · next happ =>
            have hno : t.isReducer = false := by
              unfold Transform.isReducer
              split
              · next happ' => exact absurd happ' (happ _ _)
              · rfl
            rw [hno]
            exact hdone hdefs₁
        obtain ⟨rfl, hreads⟩ := hreads
        refine ⟨⟨v, ht, hreads, ?_⟩, fun x hx => ?_⟩
        · have hset : insert v {x | x ∈ keys ++ defs} = {x | x ∈ keys ++ v :: defs} := by
            ext x
            simp only [Set.mem_insert_iff, Set.mem_ofPred_eq, mem_append, mem_cons]
            tauto
          rw [hset]
          exact hready
        · have := hdefs x hx
          rw [definitions_cons ht]
          simp only [mem_cons] at this ⊢
          tauto

end Check

/-! ## Orderly rules -/

/-- The variables of a statement. -/
def Transform.allVars (t : Transform) : List String := t.var.toList ++ t.app.allVars

/-- A reducer may come after the statement, which does not use its variable if it is none itself. -/
def Transform.Spares (t r : Transform) : Prop :=
  t.isReducer = false → r.isReducer = true → ∀ x ∈ r.var, x ∉ t.allVars

/-- **A rule with an orderly transform**: accepted by the check; the premises find the variables
they evaluate bound where the planner puts them; the transform defines no variable of the body, and
a reducer no variable that a let before it uses which is no reducer. -/
structure Orderly (rule : Rule) : Prop where
  accepted : ∃ order, checkBindings order [rule] = .ok ()
  noWild : "_" ∉ Term.allVarsList rule.args ++ rule.transform.flatMap Transform.allVars
  evaluable : EvaluableSeq ∅ (delayUnboundPremises rule.premises)
  disjoint : ∀ x ∈ definitions rule.transform, x ∉ premiseVars rule.premises
  reducers : rule.transform.Pairwise Transform.Spares

namespace Orderly

variable {rule : Rule}

variable (h : Orderly rule)

include h

theorem noWild_head : "_" ∉ Term.allVarsList rule.args := fun hw =>
  h.noWild (mem_append_left _ hw)

theorem noWild_transform : ∀ t ∈ rule.transform, t.var ≠ some "_" ∧ "_" ∉ t.app.allVars := by
  intro t ht
  have hno : "_" ∉ t.allVars := fun hw =>
    h.noWild (mem_append_right _ (mem_flatMap.mpr ⟨t, ht, hw⟩))
  simp only [Transform.allVars, mem_append, Option.mem_toList, not_or] at hno
  exact hno

/-- The head of the rule reads variables the check requires. -/
theorem known_head {order : HashOrder} {bound : List String} {msg : String → String}
    (hok : requireBound order (Term.varsList rule.args) bound msg = .ok ()) :
    Known {x | x ∈ bound} (Term.allVarsList rule.args) := fun x hx =>
  requireBound_eq_ok.mp hok x
    (mem_varsList.mpr ⟨hx, ne_of_mem_of_not_mem hx h.noWild_head⟩)

/-- What the check of the rule has found, unless it is a fact. -/
theorem checked (hfact : rule.premises ≠ [] ∨ rule.transform ≠ []) :
    ∃ order, checkRuleBindings order rule = .ok () := by
  obtain ⟨order, hok⟩ := h.accepted
  obtain ⟨_, -, hrules⟩ := bind_eq_ok.mp hok
  have hrule : (rule.premises.isEmpty && rule.transform.isEmpty) = false := by
    rw [Bool.and_eq_false_iff]
    simpa using hfact
  simp only [filter_cons, hrule, Bool.not_false, if_true, filter_nil] at hrules
  obtain ⟨_, hcheck, -⟩ := bind_eq_ok.mp hrules
  exact ⟨order, hcheck⟩

/-- **A transform with a block**: its keys are variables of the body, its reducers read these, its
other lets and the head read the keys and its definitions. -/
theorem of_block (hlets : ∀ t ∈ lets, t.var.isSome)
    (htr : rule.transform = ⟨none, .app (.fn "fn:group_by") (keys.map .var)⟩ :: lets) :
    Known {x | x ∈ premiseVars rule.premises} keys ∧
      BlockReady {x | x ∈ premiseVars rule.premises} {x | x ∈ keys} lets ∧
      Known ({x | x ∈ keys} ∪ {x | x ∈ definitions lets}) (Term.allVarsList rule.args) := by
  obtain ⟨order, hok⟩ := h.checked (Or.inr (by simp [htr]))
  obtain ⟨body, hbody, hok⟩ := bind_eq_ok.mp hok
  obtain ⟨ts, hts, hok⟩ := bind_eq_ok.mp hok
  rw [checkTransforms, htr, splitTransforms_of_block hlets] at hts
  obtain ⟨st, hst, hts⟩ := bind_eq_ok.mp hts
  obtain rfl := Except.ok.inj hst
  obtain ⟨st', hst', rfl⟩ := bind_eq_pure.mp hts
  simp only [scanBlock, ne_eq, not_true_eq_false, if_false] at hst'
  obtain ⟨keys', hscan, hst'⟩ := bind_eq_ok.mp hst'
  obtain ⟨blockDefs, hblock, rfl⟩ := bind_eq_pure.mp hst'
  obtain ⟨rfl, hkeys⟩ := scanGroupKeys_ok hscan
  obtain ⟨hready, hblockDefs⟩ := scanBlockLets_ok (fun t ht => h.noWild_transform t (by
    simp [htr, ht])) hblock
  obtain ⟨_, hhead, -⟩ := bind_eq_ok.mp hok
  have hbound := checkBody_bound hbody
  have hset : {x | x ∈ keys.reverse ++ []} = {x | x ∈ keys} := by simp
  refine ⟨fun k hk => hbound k (hkeys k hk), (hset ▸ hready).mono hbound,
    (h.known_head hhead).mono fun x hx => ?_⟩
  rw [Set.mem_ofPred_eq, mem_append, mem_reverse] at hx
  exact hx.imp_right fun hx => (hblockDefs x hx).resolve_left (by simp)

/-- A block defines new variables. -/
theorem disjoint_block {app : Term} (htr : rule.transform = ⟨none, app⟩ :: lets) :
    ∀ x ∈ definitions lets, x ∉ premiseVars rule.premises := by
  have hdefs : definitions rule.transform = definitions lets := by
    rw [htr, definitions, filterMap_cons_none rfl]
    rfl
  exact hdefs ▸ h.disjoint

end Orderly

/-- The list holds each substitution with the property once, up to the values of other variables. -/
structure Enumerates (V : List String) (P : Subst → Prop) (asg : List Subst) : Prop where
  sound : ∀ σ ∈ asg, P σ
  complete : ∀ τ, P τ → ∃ σ ∈ asg, ∀ x ∈ V, σ x = τ x
  distinct : asg.Pairwise fun σ τ => ∃ x ∈ V, σ x ≠ τ x

end Mangle

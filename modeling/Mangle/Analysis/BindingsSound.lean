import Mathlib.Data.List.Dedup
import Mangle.Analysis.Bindings
import Mangle.Planner.DelayOrder
import Mangle.Semantics.Satisfaction

/-!
# Analysis/BindingsSound — what the binding check says of the rules it accepts

The variables that the check takes for bound occur in the body (`checkBody_bound`), so an accepted
rule has no others in its head (`known_of_accepted`).
-/

namespace Mangle

open List

variable {order : HashOrder} {t : Term} {x pred head : String} {p : Premise} {sc sc' : BodyScan}
  {bound D : List String}

/-! ## What the check asks for -/

theorem requireBound_eq_ok {vars : List String} {msg : String → String} :
    requireBound order vars bound msg = .ok () ↔ ∀ v ∈ vars, v ∈ bound := by
  unfold requireBound
  have hmem (v : String) : v ∈ order.perm vars.dedup ↔ v ∈ vars := by
    rw [(order.perm_perm _).mem_iff, mem_dedup]
  cases hfind : (order.perm vars.dedup).find? (· ∉ bound) with
  | some v =>
    have hv := List.find?_some hfind
    have hin := (hmem v).mp (mem_of_find?_eq_some hfind)
    simp only [reduceCtorEq, false_iff, not_forall]
    exact ⟨v, hin, by simpa using hv⟩
  | none =>
    rw [List.find?_eq_none] at hfind
    simp only [true_iff]
    exact fun v hv => by simpa using hfind v ((hmem v).mpr hv)

theorem mem_varsList {ts : List Term} :
    x ∈ Term.varsList ts ↔ x ∈ Term.allVarsList ts ∧ x ≠ "_" := by
  simp [Term.varsList]

theorem atomKind_eq_matchField : atomKind pred = .matchField ↔ pred = ":match_field" := by
  unfold atomKind
  split <;> simp_all

theorem atomKind_eq_listMember : atomKind pred = .listMember ↔ pred = ":list:member" := by
  unfold atomKind
  split <;> simp_all

/-! ## The variables it takes for bound -/

theorem mem_premiseVars_congr {ps qs : List Premise} (h : ∀ p, p ∈ ps ↔ p ∈ qs) (x : String) :
    x ∈ premiseVars ps ↔ x ∈ premiseVars qs := by
  simp [premiseVars, h]

theorem mem_allVars_of_var? (h : t.var? = some x) : x ∈ t.allVars := by
  cases t with
  | var y =>
    rw [← Option.some.inj h]
    exact mem_singleton_self y
  | _ => cases h

/-- A premise binds variables of its own only. -/
theorem mem_of_boundAfter (h : x ∈ boundAfter bound p) : x ∈ bound ∨ x ∈ p.allVars := by
  have harg {args : List Term} {t : Term} (ht : t ∈ args) (hx : x ∈ t.allVars) :
      x ∈ Term.allVarsList args := mem_allVarsList.mpr ⟨t, ht, hx⟩
  unfold boundAfter at h
  split at h
  · split at h
    · exact .inl h
    · split at h
      · split at h
        · simp only [mem_append, Option.mem_toList, mem_vars] at h
          obtain h | (h | h) | h := h
          · exact .inr (harg (by simp) (mem_allVars_of_var? h))
          · exact .inr (harg (by simp) h.1)
          · exact .inr (harg (by simp) h.1)
          · exact .inl h
        · exact .inl h
      · split at h
        · split at h
          · simp only [mem_append, Option.mem_toList, mem_vars] at h
            obtain h | h | h := h
            · exact .inr (harg (by simp) (mem_allVars_of_var? h))
            · exact .inr (harg (by simp) h.1)
            · exact .inl h
          · exact .inl h
        · exact (mem_append.mp h).symm.imp_right fun h => (mem_varsList.mp h).1
  all_goals
    (try split at h) <;> (try split at h) <;>
      simp_all [Premise.allVars, Term.allVars] <;> tauto

theorem pendingEq_some {q : String × String} (h : pendingEq bound p = some q) :
    p = .eq (.var q.1) (.var q.2) := by
  unfold pendingEq at h
  split at h
  · split at h
    · cases h
    · rw [← Option.some.inj h]
  · cases h

theorem pendingBind_some {q : String × List String} (h : pendingBind bound p = some q) :
    q.1 ∈ p.allVars := by
  unfold pendingBind at h
  split at h
  · cases h
  · split at h
    · cases h
    · rw [← Option.some.inj h]
      simp [Premise.allVars, Term.allVars]
  · split at h
    · cases h
    · rw [← Option.some.inj h]
      simp [Premise.allVars, Term.allVars]
  · cases h

/-- The variables that the scan has bound, or may bind in the end, are among `D`. -/
structure BodyScan.Within (D : List String) (sc : BodyScan) : Prop where
  bound : ∀ x ∈ sc.bound, x ∈ D
  eqs : ∀ q ∈ sc.pendingEqs, q.1 ∈ D ∧ q.2 ∈ D
  binds : ∀ q ∈ sc.pendingBinds, q.1 ∈ D

namespace BodyScan.Within

/-- **One premise.** -/
theorem step (h : sc.Within D) (hp : ∀ x ∈ p.allVars, x ∈ D)
    (hok : scanPremise order head sc p = .ok sc') : sc'.Within D := by
  obtain ⟨_, -, hok⟩ := Machinery.bind_eq_ok.mp hok
  obtain rfl := Except.ok.inj hok
  refine ⟨fun x hx => ?_, fun q hq => ?_, fun q hq => ?_⟩
  · exact (mem_of_boundAfter hx).elim (h.bound x) (hp x)
  · obtain hq | hq := mem_append.mp hq
    · exact h.eqs q hq
    · rw [pendingEq_some (Option.mem_toList.mp hq)] at hp
      exact ⟨hp _ (by simp [Premise.allVars, Term.allVars]),
        hp _ (by simp [Premise.allVars, Term.allVars])⟩
  · obtain hq | hq := mem_append.mp hq
    · exact h.binds q hq
    · exact hp _ (pendingBind_some (Option.mem_toList.mp hq))

/-- **All premises.** -/
theorem foldlM {ps : List Premise} (h : sc.Within D) (hps : ∀ p ∈ ps, ∀ x ∈ p.allVars, x ∈ D)
    (hok : ps.foldlM (scanPremise order head) sc = .ok sc') : sc'.Within D := by
  induction ps generalizing sc with
  | nil =>
    rw [← Except.ok.inj hok]
    exact h
  | cons p ps ih =>
    obtain ⟨hp, hps⟩ := forall_mem_cons.mp hps
    rw [foldlM_cons] at hok
    obtain ⟨sc₁, h₁, hok⟩ := Machinery.bind_eq_ok.mp hok
    exact ih (h.step hp h₁) hps hok

/-- Resolving the pending equalities binds their variables only. -/
theorem resolvePending (h : sc.Within D) (fuel : Nat) (hb : ∀ x ∈ bound, x ∈ D) :
    ∀ x ∈ resolvePending sc.pendingEqs sc.pendingBinds fuel bound, x ∈ D := by
  have hpass {bound : List String} (hb : ∀ x ∈ bound, x ∈ D) :
      ∀ x ∈ resolvePass sc.pendingEqs sc.pendingBinds bound, x ∈ D := by
    unfold resolvePass
    refine List.foldlRecOn _ _ (motive := fun bound => ∀ x ∈ bound, x ∈ D) ?_ ?_
    · refine List.foldlRecOn _ _ (motive := fun bound => ∀ x ∈ bound, x ∈ D) hb ?_
      intro b hb q hq
      dsimp only
      split
      · exact forall_mem_cons.mpr ⟨(h.eqs q hq).2, hb⟩
      · split
        · exact forall_mem_cons.mpr ⟨(h.eqs q hq).1, hb⟩
        · exact hb
    · intro b hb q hq
      dsimp only
      split
      · exact forall_mem_cons.mpr ⟨h.binds q hq, hb⟩
      · exact hb
  induction fuel generalizing bound with
  | zero => exact hb
  | succ fuel ih =>
    simp only [Mangle.resolvePending]
    split
    · exact hb
    · exact ih (hpass hb)

end BodyScan.Within

/-- **What the check takes for bound in the end** occurs in the body. -/
theorem checkBody_bound {headVars : List String} {premises : List Premise} {body : BodyScan}
    (hok : checkBody order head headVars premises = .ok body) :
    ∀ x ∈ body.bound, x ∈ premiseVars premises := by
  obtain ⟨sc, hscan, hok⟩ := Machinery.bind_eq_ok.mp hok
  obtain ⟨_, -, hok⟩ := Machinery.bind_eq_ok.mp hok
  obtain ⟨_, -, rfl⟩ := Machinery.bind_eq_pure.mp hok
  have hinit : (⟨[], headVars, [], [], []⟩ : BodyScan).Within (premiseVars premises) :=
    ⟨by simp, by simp, by simp⟩
  have hwithin := hinit.foldlM (fun p hp x hx => mem_flatMap_of_mem hp hx) hscan
  exact hwithin.resolvePending _ hwithin.bound

/-- **The head of an accepted rule** has variables of the body only. -/
theorem known_of_accepted {rule : Rule} (hok : checkRuleBindings order rule = .ok ())
    (htr : rule.transform = []) (hhead : "_" ∉ Term.allVarsList rule.args) :
    Known {x | x ∈ premiseVars rule.premises} (Term.allVarsList rule.args) := by
  obtain ⟨body, hbody, hok⟩ := Machinery.bind_eq_ok.mp hok
  obtain ⟨ts, hts, hok⟩ := Machinery.bind_eq_ok.mp hok
  obtain rfl : ts = ⟨[], [], body.bound, none⟩ := by
    rw [htr] at hts
    exact (Except.ok.inj hts).symm
  simp only [append_nil] at hok
  obtain ⟨_, hheadOk, -⟩ := Machinery.bind_eq_ok.mp hok
  intro x hx
  refine checkBody_bound hbody x (requireBound_eq_ok.mp hheadOk x ?_)
  exact mem_varsList.mpr ⟨hx, ne_of_mem_of_not_mem hx hhead⟩

end Mangle

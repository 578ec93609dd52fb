import Mangle.Driver.Batch
import Mangle.Driver.Compile

/-!
# Driver/FactProgram — programs of facts

A source may be nothing but facts: clauses without a body, whose arguments are terms without
variables.

* `execute_facts` — such a program runs, and its relations hold the facts it states.
-/

namespace Mangle

open Machinery List

/-- The clause states a fact: it has no body, and the tuple is the value of its arguments. -/
structure Rule.States (rt : Runtime) (r : Rule) (rel : String) (t : Tuple) : Prop where
  pred : r.pred = rel
  premises : r.premises = []
  transform : r.transform = []
  ground : Term.allVarsList r.args = []
  value : evalTerms rt (fun _ => .null) r.args = .ok t

/-! ## One fact -/

section

variable {rt : Runtime} {σ : String → Value}

mutual

/-- A term that has a value can be planned. -/
theorem exists_emit : ∀ {t : Term} {v : Value}, evalTerm rt σ t = .ok v →
    ∀ st, ∃ out, emit t st = .ok out
  | .var _, _, _, _ | .number _, _, _, _ | .float _, _, _, _ | .string _, _, _, _
  | .name _, _, _, _ | .time _, _, _, _ | .duration _, _, _, _ => ⟨_, rfl⟩
  | .app head args, v, h, st => by
      obtain ⟨vs, hvs, -⟩ := bind_eq_ok.mp h
      obtain ⟨⟨⟨lets, ops⟩, st'⟩, hargs⟩ := exists_emitArgs hvs st
      exact ⟨_, planM_bind_ok.mpr ⟨_, _, hargs, planM_bind_ok.mpr ⟨_, _, rfl, rfl⟩⟩⟩

theorem exists_emitArgs : ∀ {ts : List Term} {vs : List Value}, evalTerms rt σ ts = .ok vs →
    ∀ st, ∃ out, emitArgs ts st = .ok out
  | [], _, _, _ => ⟨_, rfl⟩
  | t :: ts, vs, h, st => by
      obtain ⟨v, hv, h⟩ := bind_eq_ok.mp h
      obtain ⟨vs', hvs, -⟩ := bind_eq_ok.mp h
      obtain ⟨⟨⟨lets, op⟩, st₁⟩, ht⟩ := exists_emit hv st
      obtain ⟨⟨⟨lets', ops⟩, st₂⟩, hts⟩ := exists_emitArgs hvs st₁
      exact ⟨_, planM_bind_ok.mpr ⟨_, _, ht, planM_bind_ok.mpr ⟨_, _, hts, rfl⟩⟩⟩

end

/-- **The plan of a fact** inserts it. -/
theorem Rule.States.exists_plan {r : Rule} {rel : String} {t : Tuple} (h : r.States rt rel t)
    (cfg : PlanConfig) (ruleId : Nat) : ∃ op, planRule cfg ruleId r = .ok op ∧
      ∀ s c, Rep s c → Indexed s →
        execute rt op s = .ok (MemStore.insertAll [((rel : Name), t)] s) := by
  obtain ⟨⟨⟨lets, ops⟩, st'⟩, hemit⟩ := exists_emitArgs h.value ⟨0, []⟩
  refine ⟨wrapLets lets (.insert rel ops), ?_, fun s c hrep hidx => ?_⟩
  · have hdelay : delayUnboundPremises [] = [] := rfl
    have hhead : planHeadInsert r ⟨0, []⟩ = .ok (wrapLets lets (.insert rel ops), st') := by
      rw [planHeadInsert, withEvalArgs_eq, ← h.pred]
      exact planM_bind_ok.mpr ⟨_, _, hemit, rfl⟩
    simp only [planRule, planOrdered, h.transform, h.premises, hdelay, splitTransforms,
      planJoinSequence, planTransformsSequence]
    rw [hhead]
    rfl
  · have hscoped : (wrapLets lets (.insert (rel : Name) ops)).Scoped {(rel : Name)} ∅ := by
      refine scoped_wrapLets (emits_of_emitArgs hemit) ?_ (Set.empty_disjoint _)
        fun hops => .insert rfl hops
      rw [h.ground]
      rintro _ ⟨x, hx, -⟩
      cases hx
    have hden : den rt c.reader (wrapLets lets (.insert rel ops)) .new =
        .ok [((rel : Name), t)] := by
      have hrun := @Emits.run _ _ (fun _ => .null) _ Env.new _ r.args rt (emits_of_emitArgs hemit)
        (by rw [h.ground]; intro x hx; cases hx)
      rw [h.value] at hrun
      obtain ⟨ρ, hρ, hops, -⟩ := Lift.ok_left.mp hrun
      rw [den_wrapLets, hρ, ok_bind, den, hops]
      rfl
    obtain ⟨out, hout, -, rfl⟩ := Lift.ok_left.mp (hden ▸ execute_den hscoped hrep hidx)
    exact hout

/-! ## Strata of facts -/

variable {fact : Rule → Tuple}

/-- What a clause inserts. -/
def Rule.emit (fact : Rule → Tuple) (r : Rule) : Emit := ((r.pred : Name), fact r)

/-- The facts of a stratum. -/
def Program.factsIn (prog : Program) (fact : Rule → Tuple) (stratum : List String) : List Emit :=
  (prog.stratumRules stratum).map fun r => r.1.emit fact

theorem exists_initialPlans {rules : List (Rule × Nat)}
    (h : ∀ r ∈ rules, r.1.States rt r.1.pred (fact r.1)) (cfg : RunConfig) :
    ∃ ops, rules.mapM (Program.initialPlan cfg) = .ok ops ∧ ∀ s c, Rep s c → Indexed s →
      runPlans rt ops s = .ok (MemStore.insertAll (rules.map fun r => r.1.emit fact) s) := by
  induction rules with
  | nil => exact ⟨[], rfl, fun _ _ _ _ => rfl⟩
  | cons r rules ih =>
    obtain ⟨op, hop, hexec⟩ :=
      (h r mem_cons_self).exists_plan ⟨none, cfg.hashJoin⟩ r.2
    obtain ⟨ops, hops, hruns⟩ := ih fun r' hr' => h r' (mem_cons_of_mem _ hr')
    refine ⟨op :: ops, ?_, fun s c hrep hidx => ?_⟩
    · rw [mapM_cons, Program.initialPlan, hop, hops]
      rfl
    · have hrest := hruns _ _ (hrep.insertAll [r.1.emit fact])
        (hidx.insertAll hrep [r.1.emit fact])
      rw [runPlans, hexec s c hrep hidx, ok_bind, map_cons, ← singleton_append,
        MemStore.insertAll_append]
      change (runPlans rt ops (MemStore.insertAll [r.1.emit fact] s).2 >>= fun p =>
        pure (_ + p.1, p.2)) = _
      rw [hrest]
      rfl

variable {prog : Program} (hfacts : ∀ r ∈ prog.rules, r.States rt r.pred (fact r))

include hfacts

theorem states_of_mem_stratumRules {stratum : List String} {r : Rule × Nat}
    (hr : r ∈ prog.stratumRules stratum) : r.1.States rt r.1.pred (fact r.1) :=
  hfacts r.1 (fst_mem_of_mem_zipIdx (mem_filter.mp hr).1)

/-- **A stratum of facts** runs, and inserts them. -/
theorem exists_planStratum (cfg : RunConfig) (stratum : List String) :
    ∃ plan, prog.planStratum cfg stratum = .ok plan ∧ ∀ s c, Rep s c → Indexed s →
      runStratum rt cfg.rounds [] s plan =
        .ok (MemStore.insertAll (prog.factsIn fact stratum) s).2.mergeDeltas := by
  have hstates {r : Rule × Nat} (hr : r ∈ prog.stratumRules stratum) :=
    states_of_mem_stratumRules hfacts hr
  obtain ⟨ops, hops, hruns⟩ := exists_initialPlans (fun r hr => hstates hr) cfg
  rw [Program.planStratum]
  split_ifs with hempty hrec
  · refine ⟨none, rfl, fun s c _ _ => ?_⟩
    rw [Program.factsIn, List.isEmpty_iff.mp hempty, runStratum, runPlan, ok_bind, coalesceAll_nil]
    rfl
  · -- no clause reads anything
    obtain ⟨r, hr, hatoms⟩ := any_eq_true.mp hrec
    simp [recursiveAtoms, (hstates hr).premises] at hatoms
  · refine ⟨some (.nonRecursive ops), by rw [hops]; rfl, fun s c hrep hidx => ?_⟩
    rw [runStratum, runPlan, StratumPlan.run, hruns s c hrep hidx]
    exact coalesceAll_nil rt.order _

/-- The store after the strata. -/
theorem exists_planStrata (cfg : RunConfig) (strata : List (List String)) :
    ∃ plans, strata.mapM (prog.planStratum cfg) = .ok plans ∧ ∀ s c, Rep s c → Indexed s →
      ∃ s', plans.foldlM (runStratum rt cfg.rounds []) s = .ok s' ∧ Indexed s' ∧
        Rep s' (strata.foldl (fun c st => (c.insertAll (prog.factsIn fact st)).merge) c) := by
  induction strata with
  | nil => exact ⟨[], rfl, fun s c hrep hidx => ⟨s, rfl, hidx, hrep⟩⟩
  | cons stratum strata ih =>
    obtain ⟨plan, hplan, hrun⟩ := exists_planStratum hfacts cfg stratum
    obtain ⟨plans, hplans, hruns⟩ := ih
    refine ⟨plan :: plans, ?_, fun s c hrep hidx => ?_⟩
    · rw [mapM_cons, hplan, hplans]
      rfl
    · have hrep' := hrep.insertAll (prog.factsIn fact stratum)
      have hidx' := hidx.insertAll hrep (prog.factsIn fact stratum)
      obtain ⟨s', hs', hok⟩ := hruns _ _ hrep'.mergeDeltas (hidx'.mergeDeltas hrep')
      refine ⟨s', ?_, hok⟩
      rw [foldlM_cons, hrun s c hrep hidx, ok_bind]
      exact hs'

end

/-! ## The facts of a program -/

/-- Insertions of one arity, merged batch after batch, all arrive. -/
theorem Tiers.mem_visible_batches {α : Type} {arity : String → Nat} {F : α → List Emit}
    (hnamed : ∀ a, ∀ e ∈ F a, ∃ rel : String, e.1 = rel)
    (hlen : ∀ a (rel : String) t, ((rel : Name), t) ∈ F a → t.length = arity rel) (l : List α)
    {c : Tiers} (hc : c.OneArity arity) (hnext : ∀ rel, c.next rel = []) (rel : Name) (t : Tuple) :
    t ∈ (l.foldl (fun c a => (c.insertAll (F a)).merge) c).visible rel ↔
      t ∈ c.visible rel ∨ ∃ a ∈ l, (rel, t) ∈ F a := by
  induction l generalizing c with
  | nil => simp
  | cons a l ih =>
    have hc' : (c.insertAll (F a)).merge.OneArity arity := hc.insertAll (hnamed a) (hlen a)
    rw [foldl_cons, ih hc' fun _ => rfl, Tiers.visible_merge,
      Tiers.mem_all_insertAll (hc.fits (hnamed a) (hlen a)), Tiers.all, hnext, append_nil]
    simp [or_assoc]

/-- The arity of the heads of a predicate. -/
def headArity (rules : List Rule) (rel : String) : Nat :=
  ((rules.find? fun r => r.pred = rel).map fun r => r.args.length).getD 0

theorem SameArity.headArity_eq {rules : List Rule} (h : SameArity rules) {r : Rule}
    (hr : r ∈ rules) : headArity rules r.pred = r.args.length := by
  rw [headArity]
  cases hfind : rules.find? fun r' => r'.pred = r.pred with
  | none => simpa using List.find?_eq_none.mp hfind r hr
  | some r' =>
    have hpred : r'.pred = r.pred := by simpa using List.find?_some hfind
    exact h r' (mem_of_find?_eq_some hfind) r hr hpred

/-- **Facts compile**, if each relation has one arity and the other checks pass. -/
theorem exists_compile_facts {en : Engine} {unit : List Rule}
    (hprem : ∀ r ∈ unit, r.premises = []) (harity : SameArity unit)
    (hcheck : en.check unit = .ok ()) : ∃ prog, compileSource en unit = .ok prog := by
  refine exists_compile ?_ harity hcheck
  rintro ⟨p, q, ⟨-, c, hc, -, hneg⟩, -⟩
  obtain ⟨r, hr, rfl⟩ := mem_map.mp hc
  simp [Clause.ReadsNegated, Rule.clause, hprem r hr] at hneg

/-- **A program of facts runs, and holds just the facts it states.** -/
theorem execute_facts {rt : Runtime} {cfg : RunConfig} {unit : List Rule} {prog : Program}
    (hc : Compiled unit prog) (hfacts : ∀ r ∈ unit, ∃ t, r.States rt r.pred t) :
    ∃ s c, prog.execute rt cfg .new = .ok s ∧ Rep s c ∧ Indexed s ∧ ∀ (rel : Name) t,
      t ∈ c.visible rel ↔ ∃ r ∈ unit, rel = r.pred ∧ r.States rt r.pred t := by
  classical
  choose! fact hfact using hfacts
  have hrules : ∀ r ∈ prog.rules, r.States rt r.pred (fact r) := by rwa [hc.rules]
  obtain ⟨plans, hplans, hruns⟩ := exists_planStrata hrules cfg prog.strata
  obtain ⟨s, hs, hidx, hrep⟩ := hruns _ _ .new .new
  have hext : prog.extensional = [] := by
    refine eq_nil_iff_forall_not_mem.mpr fun p hp => ?_
    obtain ⟨⟨r, hr, hpr⟩, hno⟩ := (hc.extensional p).mp hp
    have hpred : p = r.pred := by simpa [Rule.preds, (hfact r hr).premises] using hpr
    exact hno (hpred ▸ mem_map_of_mem hr)
  refine ⟨s, _, ?_, hrep, hidx, fun rel t => ?_⟩
  · rw [Program.execute, hplans, hext, hc.temporal]
    exact hs
  have hmem {stratum : List String} {e : Emit} (he : e ∈ prog.factsIn fact stratum) :
      ∃ r ∈ unit, e = r.emit fact ∧ r.pred ∈ stratum := by
    obtain ⟨r, hr, rfl⟩ := mem_map.mp he
    obtain ⟨hzip, hpred⟩ := mem_filter.mp hr
    exact ⟨r.1, hc.rules ▸ fst_mem_of_mem_zipIdx hzip, rfl, of_decide_eq_true hpred⟩
  rw [@Tiers.mem_visible_batches _ (headArity unit) (prog.factsIn fact)
    (fun st e he => by obtain ⟨r, -, rfl, -⟩ := hmem he; exact ⟨r.pred, rfl⟩)
    (fun st rel t he => by
      obtain ⟨r, hr, heq, -⟩ := hmem he
      obtain ⟨hrel, rfl⟩ := Prod.mk.inj heq
      cases hrel
      rw [hc.sameArity.headArity_eq hr, length_evalTerms (hfact r hr).value])
    prog.strata .empty .empty fun _ => rfl]
  simp only [show Tiers.empty.visible rel = [] from rfl, not_mem_nil, false_or]
  constructor
  · rintro ⟨st, -, he⟩
    obtain ⟨r, hr, heq, -⟩ := hmem he
    obtain ⟨rfl, rfl⟩ := Prod.mk.inj heq
    exact ⟨r, hr, rfl, hfact r hr⟩
  · rintro ⟨r, hr, rfl, hst⟩
    obtain ⟨st, hst', hpred⟩ := (hc.strata.cover r.pred).mp
      (intensional_clause.mpr (mem_map_of_mem hr))
    obtain ⟨i, hi⟩ := List.getElem?_of_mem (hc.rules ▸ hr)
    have hval : fact r = t := Except.ok.inj ((hfact r hr).value.symm.trans hst.value)
    refine ⟨st, hst', mem_map.mpr ⟨(r, i), mem_filter.mpr ⟨?_, by simpa using hpred⟩, ?_⟩⟩
    · exact mem_zipIdx_iff_getElem?.mpr hi
    · rw [← hval]
      rfl

end Mangle

import Mangle.Driver.Batch

/-!
# Driver/SemiNaive — the facts a run leaves

A run of a stratified program of positive rules derives nothing beyond the least model.  It derives
all of it when, for each occurrence of a recursive predicate in a body, some delta plan reads the
new facts at this occurrence only (`DeltaCovers`): a delta plan belongs to a predicate and not to an
occurrence, and scans the new facts at every occurrence without a column that has a value.

* `fixpoint_evaluates`, `runStratum_evaluates` — one stratum;
* `execute_least_model` — a whole program;
* `execute_misses_fact` — a program with two scanned occurrences, and the fact its run misses.
-/

namespace Mangle

open Machinery List

variable {stratum : List String} {cfg : RunConfig} {c' : Tiers} {F : Emit → Prop}

/-! ## The occurrences a delta plan scans -/

/-- No column of the atom has a value. -/
def unindexed (bound : List String) (args : List Term) : Bool :=
  args.all fun t => t.const?.isNone && !(t.var?.any (· ∈ bound))

/-- The occurrence of a predicate in a body: its position, the predicate, and whether a delta plan
of the predicate scans the new facts there. -/
structure Occurrence where
  position : Nat
  pred : String
  scanned : Bool

/-- The occurrence an atom makes. -/
def Premise.occurrence (bound : List String) (i : Nat) : Premise → List Occurrence
  | .atom pred args => [⟨i, pred, unindexed bound args⟩]
  | .negAtom .. | .eq .. | .ineq .. => []

/-- The occurrences in a body, from position `i` on. -/
def occurrences (bound : List String) (i : Nat) : List Premise → List Occurrence
  | [] => []
  | p :: ps => p.occurrence bound i ++ occurrences (bound ++ p.allVars) (i + 1) ps

/-- **For each occurrence of a recursive predicate there is a delta plan that scans no other one.**
So it is when a rule has a single recursive atom, or recursive atoms of different predicates. -/
def DeltaCovers (stratum : List String) (rule : Rule) : Prop :=
  ∀ a ∈ occurrences [] 0 rule.premises, a.pred ∈ stratum →
    ∃ b ∈ occurrences [] 0 rule.premises, b.pred ∈ stratum ∧
      ∀ d ∈ occurrences [] 0 rule.premises, d.pred = b.pred → d.scanned = true →
        d.position = a.position

instance (stratum : List String) (rule : Rule) : Decidable (DeltaCovers stratum rule) := by
  unfold DeltaCovers; infer_instance

theorem unindexed_of_scansDelta {cfg : PlanConfig} {bound : List String} {pred : String}
    {args : List Term} (h : ScansDelta cfg {x | x ∈ bound} pred args) :
    unindexed bound args = true := by
  refine all_eq_true.mpr fun t ht => ?_
  obtain ⟨hconst, hvar⟩ := h.2.2 t ht
  rw [Bool.and_eq_true, Option.isNone_iff_eq_none, Bool.not_eq_true']
  refine ⟨hconst, ?_⟩
  cases t with
  | var x => simpa [Term.var?] using hvar x rfl
  | _ => rfl

variable {ps : List Premise}

theorem mem_occurrences {bound : List String} {i k : Nat} {pred : String}
    {args : List Term} (h : ps[k]? = some (.atom pred args)) :
    ∃ b, ⟨i + k, pred, b⟩ ∈ occurrences bound i ps := by
  induction ps generalizing bound i k with
  | nil => simp at h
  | cons p ps ih =>
    cases k with
    | zero =>
      obtain rfl : p = .atom pred args := by simpa using h
      exact ⟨_, mem_append_left _ mem_cons_self⟩
    | succ k =>
      obtain ⟨b, hb⟩ := @ih (bound ++ p.allVars) (i + 1) k h
      refine ⟨b, mem_append_right _ ?_⟩
      rwa [show i + (k + 1) = i + 1 + k by omega]

theorem atom_of_mem_occurrences {bound : List String} {i : Nat} {o : Occurrence}
    (h : o ∈ occurrences bound i ps) : ∃ args, .atom o.pred args ∈ ps := by
  induction ps generalizing bound i with
  | nil => simp [occurrences] at h
  | cons p ps ih =>
    rcases mem_append.mp h with h | h
    · cases p with
      | atom pred args =>
        obtain rfl := mem_singleton.mp h
        exact ⟨args, mem_cons_self⟩
      | _ => simp [Premise.occurrence] at h
    · obtain ⟨args, hargs⟩ := ih h
      exact ⟨args, mem_cons_of_mem _ hargs⟩

theorem mem_recursiveAtoms {rule : Rule} {pred : String} :
    pred ∈ recursiveAtoms stratum rule ↔
      pred ∈ stratum ∧ ∃ args, .atom pred args ∈ rule.premises := by
  simp only [recursiveAtoms, mem_filterMap]
  constructor
  · rintro ⟨p, hp, heq⟩
    cases p with
    | atom q args =>
      obtain ⟨hq, rfl⟩ : q ∈ stratum ∧ q = pred := by simpa using heq
      exact ⟨hq, args, hp⟩
    | _ => cases heq
  · rintro ⟨hmem, args, hp⟩
    exact ⟨_, hp, by simp [hmem]⟩

section

variable {rt : Runtime} {c : Tiers} {σ : Subst}

/-- A body is satisfied by facts the delta plan reads when the plan scans at most the position `k`
and the fact there is new. -/
theorem satSeq_of_scanned {q : String} {hashJoin : Bool} {k : Nat} {i : Nat}
    {bound : List String} (hsat : ∀ p ∈ ps, Sat rt c σ p)
    (hscan : ∀ d ∈ occurrences bound i ps, d.pred = q → d.scanned = true → d.position = k)
    (hnew : ∀ j pred args, i + j = k → ps[j]? = some (.atom pred args) →
      ∃ vs, evalTerms rt σ args = .ok vs ∧ vs ∈ c.delta (pred : Name)) :
    SatSeq rt c σ ⟨some q, hashJoin⟩ {x | x ∈ bound} ps := by
  induction ps generalizing bound i with
  | nil => trivial
  | cons p ps ih =>
    refine ⟨⟨hsat p mem_cons_self, ?_⟩, ?_⟩
    · rintro pred args rfl hscans
      obtain rfl : q = pred := Option.some.inj hscans.2.1
      have hk := hscan _ (mem_append_left _ mem_cons_self) rfl
        (unindexed_of_scansDelta hscans)
      exact hnew 0 q args hk rfl
    · have hset : {x | x ∈ bound} ∪ {x | x ∈ p.allVars} = {x | x ∈ bound ++ p.allVars} := by
        ext x
        simp
      rw [hset]
      refine ih (fun p hp => hsat p (mem_cons_of_mem _ hp)) (i := i + 1)
        (fun d hd => hscan d (mem_append_right _ hd)) fun j pred args hj hp => ?_
      exact hnew (j + 1) pred args (by omega) hp

/-- **A new fact is used by a delta plan**: what a rule derives from the visible facts follows from
the older ones, or is inserted by one of the rule's delta plans. -/
theorem Rule.Positive.delta_complete {rule : Rule} {hashJoin : Bool} (hpos : rule.Positive)
    (hcov : DeltaCovers stratum rule) (hdelta : ∀ pred, pred ∉ stratum → c.delta (pred : Name) = [])
    {t : Tuple} (h : t ∈ rule.consequences rt c.facts) :
    t ∈ rule.consequences rt (fun pred => {t | t ∈ c.stable (pred : Name)}) ∨
      ∃ q ∈ recursiveAtoms stratum rule, ∃ τ,
        SatSeq rt c τ ⟨some q, hashJoin⟩ ∅ rule.premises ∧
          HeadEmits rt rule τ ((rule.pred : Name), t) := by
  obtain ⟨σ, hbody, ht⟩ := h
  by_cases hold : rule.BodyHolds rt (fun pred => {t | t ∈ c.stable (pred : Name)}) σ
  · exact Or.inl ⟨σ, hold, ht⟩
  · right
    simp only [Rule.BodyHolds, not_forall] at hold
    obtain ⟨pred, args, hp, hno⟩ := hold
    obtain ⟨vs, hvs, hmem⟩ := hbody pred args hp
    have hnew : vs ∈ c.delta (pred : Name) :=
      (mem_append.mp hmem).resolve_left fun hst => hno ⟨vs, hvs, hst⟩
    have hrec : pred ∈ stratum := by
      by_contra hout
      rw [hdelta pred hout] at hnew
      cases hnew
    obtain ⟨k, hk⟩ := List.getElem?_of_mem hp
    obtain ⟨b, hb⟩ := @mem_occurrences rule.premises [] 0 k pred args hk
    obtain ⟨o, ho, horec, hscan⟩ := hcov _ hb hrec
    refine ⟨o.pred, mem_recursiveAtoms.mpr ⟨horec, atom_of_mem_occurrences ho⟩, σ, ?_, t, ht, rfl⟩
    have hseq : SatSeq rt c σ ⟨some o.pred, hashJoin⟩ {x | x ∈ []} rule.premises := by
      refine satSeq_of_scanned (hpos.sat_iff.mpr hbody) hscan fun j pred' args' hj hp' => ?_
      obtain rfl : j = k := Nat.add_left_cancel hj
      obtain ⟨rfl, rfl⟩ := Premise.atom.inj (Option.some.inj (hk.symm.trans hp'))
      exact ⟨vs, hvs, hnew⟩
    simpa using hseq

end

/-! ## A batch over a settled store -/

/-- A program of positive rules, with one arity for the heads of a predicate. -/
structure Program.Positive (prog : Program) : Prop where
  rules : ∀ r ∈ prog.rules, r.Positive
  arity : ∀ r ∈ prog.rules, ∀ r' ∈ prog.rules, r.pred = r'.pred → r.args.length = r'.args.length
  temporal : prog.temporal = []

/-- The store holds `c`, nothing waits for a merge, and the heads of the program fit. -/
structure Settled (prog : Program) (s : MemStore) (c : Tiers) : Prop where
  rep : Rep s c
  indexed : Indexed s
  next : ∀ rel, c.next rel = []
  fits : ∀ r ∈ prog.rules, FitsHead c r

/-- The tiers `c'` are `c` with the facts `F` collected. -/
structure Collected (c c' : Tiers) (F : Emit → Prop) : Prop where
  stable : c'.stable = c.stable
  delta : c'.delta = c.delta
  all : ∀ rel t, t ∈ c'.all rel ↔ t ∈ c.visible rel ∨ F (rel, t)
  next : ∀ rel, ∀ t ∈ c'.next rel, F (rel, t)

section

variable {rt : Runtime} {prog : Program} {s s' : MemStore} {c : Tiers} {n : Nat}

theorem length_of_mem_consequences {rule : Rule} {M : Facts} {t : Tuple}
    (h : t ∈ rule.consequences rt M) : t.length = rule.args.length := by
  obtain ⟨σ, -, ht⟩ := h
  exact length_evalTerms ht

/-- **A batch of plans over a settled store** collects what the plans insert. -/
theorem Settled.batch (h : Settled prog s c) (hprog : prog.Positive) {α : Type} {xs : List α}
    {ops : List Op} {E : α → Emit → Prop}
    (hops : List.Forall₂ (fun a op => Inserts rt c op (E a)) xs ops)
    (hE : ∀ a ∈ xs, ∀ e, E a e → ∃ r ∈ prog.rules, r.Emits rt c.facts e)
    (hrun : runPlans rt ops s = .ok (n, s')) :
    ∃ c', Rep s' c' ∧ Collected c c' (fun e => ∃ a ∈ xs, E a e) ∧
      Settled prog s'.mergeDeltas c'.merge ∧ (n = 0 → c' = c ∧ Indexed s') := by
  obtain ⟨es, heq, hmem⟩ := runPlans_inserts hops rfl rfl h.rep h.indexed hrun
  obtain ⟨hn, rfl⟩ := Prod.mk.inj heq
  have hemit : ∀ e ∈ es, ∃ r ∈ prog.rules, e.1 = (r.pred : Name) ∧ e.2.length = r.args.length := by
    intro e he
    obtain ⟨a, ha, hae⟩ := (hmem e).mp he
    obtain ⟨r, hr, t, ht, rfl⟩ := hE a ha e hae
    exact ⟨r, hr, rfl, length_of_mem_consequences ht⟩
  have hfits : c.Fits es := by
    intro e he
    obtain ⟨r, hr, hrel, hlen⟩ := hemit e he
    refine ⟨fun k hk => ?_, fun e' he' hrel' => ?_⟩
    · rw [hrel] at hk
      rw [hlen, h.fits r hr k hk]
    · obtain ⟨r', hr', hrel₂, hlen₂⟩ := hemit e' he'
      rw [hlen, hlen₂]
      exact hprog.arity r' hr' r hr (by simpa [hrel, hrel₂] using hrel')
  have hrep := h.rep.insertAll es
  have hidx := h.indexed.insertAll h.rep es
  refine ⟨c.insertAll es, hrep, ⟨by simp, by simp, fun rel t => ?_, fun rel t ht => ?_⟩,
    ⟨hrep.mergeDeltas, hidx.mergeDeltas hrep, fun _ => rfl, fun r hr k hk => ?_⟩, fun hzero => ?_⟩
  · rw [Tiers.mem_all_insertAll hfits, hmem, Tiers.all, h.next, append_nil]
  · have := Tiers.mem_next_insertAll ht
    rw [h.next, hmem] at this
    exact this.resolve_left (not_mem_nil)
  · rcases Tiers.arity_insertAll (c := c) hk with hk | ⟨u, hu, rfl⟩
    · exact h.fits r hr k hk
    · obtain ⟨r', hr', hrel, hlen⟩ := hemit _ hu
      rw [show u.length = _ from hlen]
      exact hprog.arity r' hr' r hr (by simpa using hrel.symm)
  · exact ⟨h.rep.insertAll_eq_self (hn ▸ hzero), hidx⟩

/-! ## One stratum -/

/-- The rules of a stratum. -/
def Program.rulesOf (prog : Program) (stratum : List String) : Set Rule :=
  {r | r ∈ prog.rules ∧ r.pred ∈ stratum}

/-- The facts `M` are derived from `B` by the rules, and are closed under them if `cov` holds. -/
structure Evaluates (rt : Runtime) (rules : Set Rule) (cov : Prop) (B M : Facts) : Prop where
  base : B ≤ M
  sound : M ∈ lowerBounds {N | IsModel rt rules B N}
  complete : cov → ∀ r ∈ rules, r.consequences rt M ⊆ M r.pred

/-- Facts derived first may be taken for given. -/
theorem Evaluates.of_derived {rules : Set Rule} {cov : Prop} {B B' M : Facts}
    (h : Evaluates rt rules cov B' M) (hle : B ≤ B')
    (hsound : B' ∈ lowerBounds {N | IsModel rt rules B N}) : Evaluates rt rules cov B M where
  base := hle.trans h.base
  sound _ hN := h.sound ⟨hsound hN, hN.closed⟩
  complete := h.complete

theorem mem_stratumRules {r : Rule × Nat} (h : r ∈ prog.stratumRules stratum) :
    r.1 ∈ prog.rulesOf stratum := by
  obtain ⟨hr, hp⟩ := mem_filter.mp h
  exact ⟨fst_mem_of_mem_zipIdx hr, by simpa using hp⟩

theorem exists_mem_stratumRules {r : Rule} (h : r ∈ prog.rulesOf stratum) :
    ∃ i, (r, i) ∈ prog.stratumRules stratum := by
  obtain ⟨i, hi⟩ := List.getElem?_of_mem h.1
  exact ⟨i, mem_filter.mpr ⟨mem_zipIdx_iff_getElem?.mpr hi, by simpa using h.2⟩⟩

/-- The rule and the predicate of each delta plan of a stratum. -/
def Program.deltaItems (prog : Program) (stratum : List String) : List ((Rule × Nat) × String) :=
  (prog.stratumRules stratum).flatMap fun r => (recursiveAtoms stratum r.1).map (r, ·)

theorem forall₂_deltaPlans {rules : List (Rule × Nat)} {plans : List (List Op)}
    (h : List.Forall₂ (fun r ops => Program.ruleDeltaPlans cfg stratum r = .ok ops) rules plans) :
    List.Forall₂ (fun a op => planRule ⟨some a.2, cfg.hashJoin⟩ a.1.2 a.1.1 = .ok op)
      (rules.flatMap fun r => (recursiveAtoms stratum r.1).map (r, ·)) plans.flatten := by
  induction h with
  | nil => exact .nil
  | cons hr _ ih =>
    rw [flatMap_cons, flatten_cons]
    exact rel_append (List.forall₂_map_left_iff.mpr (forall₂_of_mapM hr)) ih

/-- What the delta plan of a rule for a predicate inserts. -/
def DeltaEmits (rt : Runtime) (cfg : RunConfig) (c : Tiers) (a : (Rule × Nat) × String) (e : Emit) :
    Prop :=
  ∃ τ, SatSeq rt c τ ⟨some a.2, cfg.hashJoin⟩ ∅ a.1.1.premises ∧ HeadEmits rt a.1.1 τ e

/-- The delta plans of a stratum cover its rules. -/
def Program.Covers (prog : Program) (stratum : List String) : Prop :=
  ∀ r ∈ prog.rulesOf stratum, DeltaCovers stratum r

/-- The store between two rounds: the new facts are those of the stratum and, with coverage, the
rules derive nothing from the older ones that is not there. -/
structure Round (rt : Runtime) (prog : Program) (stratum : List String) (c : Tiers) : Prop where
  delta : ∀ pred, pred ∉ stratum → c.delta (pred : Name) = []
  old : prog.Covers stratum → ∀ r ∈ prog.rulesOf stratum,
    r.consequences rt (fun pred => {t | t ∈ c.stable (pred : Name)}) ⊆ c.facts r.pred

theorem fixpoint_succ_eq_ok {deltaPlans : List Op} {rounds : Nat}
    (h : fixpoint rt deltaPlans (rounds + 1) s = .ok s') :
    ∃ n s₁, runPlans rt deltaPlans s = .ok (n, s₁) ∧
      (n = 0 ∧ s₁ = s' ∨ fixpoint rt deltaPlans rounds s₁.mergeDeltas = .ok s') := by
  obtain ⟨⟨n, s₁⟩, hbatch, h⟩ := bind_eq_ok.mp h
  refine ⟨n, s₁, hbatch, ?_⟩
  by_cases hn : n = 0
  · simp only [hn, if_true] at h
    exact Or.inl ⟨hn, Except.ok.inj h⟩
  · simp only [hn, if_false] at h
    exact Or.inr h

section

variable (h : Collected c c' F)

include h

/-- After the merge the visible facts are the old ones and the collected ones. -/
theorem Collected.facts_merge (pred : String) :
    c'.merge.facts pred = c.facts pred ∪ {t | F ((pred : Name), t)} := by
  ext t
  exact h.all pred t

theorem Collected.le_merge : c.facts ≤ c'.merge.facts := by
  intro pred
  rw [h.facts_merge]
  exact Set.subset_union_left

theorem Collected.stable_merge : c'.merge.stable = c.visible := by
  funext rel
  simp only [Tiers.merge, Tiers.visible, h.stable, h.delta]

/-- A merge of derived facts: sound, and what it makes of the stratum's state. -/
theorem Collected.sound (hF : ∀ e, F e → ∃ r ∈ prog.rulesOf stratum, r.Emits rt c.facts e) :
    c'.merge.facts ∈ lowerBounds {N | IsModel rt (prog.rulesOf stratum) c.facts N} := by
  intro N hN pred
  rw [h.facts_merge]
  refine Set.union_subset (hN.base pred) fun t ht => ?_
  obtain ⟨r, hr, u, hu, heq⟩ := hF _ ht
  obtain ⟨hpred, rfl⟩ := Prod.mk.inj heq
  obtain rfl := Name.named.inj hpred
  exact hN.closed r hr (Rule.consequences_mono (fun p _ _ => hN.base p) hu)

theorem Collected.delta_merge (hF : ∀ e, F e → ∃ r ∈ prog.rulesOf stratum, r.Emits rt c.facts e)
    (pred : String) (hp : pred ∉ stratum) : c'.merge.delta (pred : Name) = [] := by
  refine eq_nil_iff_forall_not_mem.mpr fun t ht => ?_
  obtain ⟨r, hr, u, -, heq⟩ := hF _ (h.next _ t ht)
  obtain rfl := Name.named.inj (Prod.mk.inj heq).1
  exact hp hr.2

end

theorem Settled.facts_merge (h : Settled prog s c) : c.merge.facts = c.facts := by
  funext pred
  simp only [Tiers.facts, Tiers.visible_merge, Tiers.all, h.next, append_nil]

theorem Settled.merge (h : Settled prog s c) : Settled prog s.mergeDeltas c.merge :=
  ⟨h.rep.mergeDeltas, h.indexed.mergeDeltas h.rep, fun _ => rfl, h.fits⟩

/-- **The rounds of a recursive stratum.** -/
theorem fixpoint_evaluates {plans : List (List Op)} {rounds : Nat} (hprog : prog.Positive)
    (hplans : (prog.stratumRules stratum).mapM (Program.ruleDeltaPlans cfg stratum) = .ok plans)
    (h : Settled prog s c) (hround : Round rt prog stratum c)
    (hrun : fixpoint rt plans.flatten rounds s = .ok s') :
    ∃ c', Settled prog s' c' ∧
      Evaluates rt (prog.rulesOf stratum) (prog.Covers stratum) c.facts c'.facts := by
  induction rounds generalizing s c with
  | zero => cases hrun
  | succ rounds ih =>
    obtain ⟨changes, s₁, hbatch, hnext⟩ := fixpoint_succ_eq_ok hrun
    have hitem : ∀ a ∈ prog.deltaItems stratum, a.1.1 ∈ prog.rulesOf stratum := by
      intro a ha
      obtain ⟨r, hr, ha⟩ := mem_flatMap.mp ha
      obtain ⟨q, -, rfl⟩ := mem_map.mp ha
      exact mem_stratumRules hr
    have hins : List.Forall₂ (fun a op => Inserts rt c op (DeltaEmits rt cfg c a))
        (prog.deltaItems stratum) plans.flatten :=
      ((List.forall₂_and_left _ _).mpr ⟨hitem, forall₂_deltaPlans (forall₂_of_mapM hplans)⟩).imp
        fun a op ⟨ha, hop⟩ => planRule_inserts (hprog.rules _ ha.1) hop
    have hemit : ∀ e, (∃ a ∈ prog.deltaItems stratum, DeltaEmits rt cfg c a e) →
        ∃ r ∈ prog.rulesOf stratum, r.Emits rt c.facts e := by
      rintro e ⟨a, ha, τ, hsat, he⟩
      exact ⟨a.1.1, hitem a ha, (hprog.rules _ (hitem a ha).1).emits_of_satSeq hsat he⟩
    obtain ⟨c', hrep', hcol, hset, hzero⟩ := h.batch hprog hins
      (fun a ha e he => (hemit e ⟨a, ha, he⟩).imp fun r hr => ⟨hr.1.1, hr.2⟩) hbatch
    -- with coverage, whatever the rules derive now is there after this round
    have hstep : prog.Covers stratum → ∀ r ∈ prog.rulesOf stratum,
        r.consequences rt c.facts ⊆ c'.merge.facts r.pred := by
      intro hcov r hr t ht
      rw [hcol.facts_merge]
      rcases (hprog.rules r hr.1).delta_complete (hcov r hr) hround.delta ht
        with hold | ⟨q, hq, hemits⟩
      · exact Or.inl (hround.old hcov r hr hold)
      · obtain ⟨i, hi⟩ := exists_mem_stratumRules hr
        exact Or.inr ⟨((r, i), q), mem_flatMap.mpr ⟨_, hi, mem_map.mpr ⟨q, hq, rfl⟩⟩, hemits⟩
    rcases hnext with ⟨hch, rfl⟩ | hrun
    · obtain ⟨rfl, hidx⟩ := hzero hch
      refine ⟨c', ⟨hrep', hidx, h.next, h.fits⟩, le_rfl, fun N hN => hN.base, ?_⟩
      rwa [h.facts_merge] at hstep
    · have hround' : Round rt prog stratum c'.merge := by
        refine ⟨hcol.delta_merge hemit, fun hcov r hr => ?_⟩
        rw [hcol.stable_merge]
        exact hstep hcov r hr
      obtain ⟨c'', hset'', hev⟩ := ih hset hround' hrun
      exact ⟨c'', hset'', hev.of_derived hcol.le_merge (hcol.sound hemit)⟩

/-- What the initial plans of a stratum collect. -/
theorem Settled.initialBatch {ops : List Op} (h : Settled prog s c) (hprog : prog.Positive)
    (hplans : (prog.stratumRules stratum).mapM (Program.initialPlan cfg) = .ok ops)
    (hrun : runPlans rt ops s = .ok (n, s')) :
    ∃ c', Collected c c' (fun e => ∃ r ∈ prog.rulesOf stratum, r.Emits rt c.facts e) ∧
      Settled prog s'.mergeDeltas c'.merge := by
  have hins : List.Forall₂ (fun r op => Inserts rt c op (r.1.Emits rt c.facts))
      (prog.stratumRules stratum) ops :=
    ((List.forall₂_and_left _ _).mpr ⟨fun r => mem_stratumRules, forall₂_of_mapM hplans⟩).imp
      fun r op ⟨hr, hop⟩ => initialPlan_inserts (hprog.rules _ hr.1) hop
  obtain ⟨c', -, hcol, hset, -⟩ := h.batch hprog hins
    (fun r hr e he => ⟨r.1, (mem_stratumRules hr).1, he⟩) hrun
  have hiff (e : Emit) : (∃ r ∈ prog.stratumRules stratum, r.1.Emits rt c.facts e) ↔
      ∃ r ∈ prog.rulesOf stratum, r.Emits rt c.facts e := by
    constructor
    · rintro ⟨r, hr, he⟩
      exact ⟨r.1, mem_stratumRules hr, he⟩
    · rintro ⟨r, hr, he⟩
      obtain ⟨i, hi⟩ := exists_mem_stratumRules hr
      exact ⟨(r, i), hi, he⟩
  simp only [hiff] at hcol
  exact ⟨c', hcol, hset⟩

/-- Collected consequences of all rules of a stratum, merged. -/
theorem Collected.evaluates {cov : Prop}
    (h : Collected c c' (fun e => ∃ r ∈ prog.rulesOf stratum, r.Emits rt c.facts e))
    (hread : ∀ r ∈ prog.rulesOf stratum, recursiveAtoms stratum r = []) :
    Evaluates rt (prog.rulesOf stratum) cov c.facts c'.merge.facts := by
  refine ⟨h.le_merge, h.sound fun e he => he, fun _ r hr t ht => ?_⟩
  · -- the rules read nothing of what was collected
    have hsame : ∀ pred args, .atom pred args ∈ r.premises →
        c'.merge.facts pred ⊆ c.facts pred := by
      intro pred args hp t ht
      rw [h.facts_merge] at ht
      refine ht.resolve_right ?_
      rintro ⟨r', hr', u, -, heq⟩
      obtain rfl := Name.named.inj (Prod.mk.inj heq).1
      have := mem_recursiveAtoms.mpr ⟨hr'.2, args, hp⟩
      rw [hread r hr] at this
      cases this
    rw [h.facts_merge]
    exact Or.inr ⟨r, hr, t, Rule.consequences_mono hsame ht, rfl⟩

/-- **One stratum** of a positive program. -/
theorem runStratum_evaluates {plan : Option StratumPlan} (hprog : prog.Positive)
    (hplan : prog.planStratum cfg stratum = .ok plan) (h : Settled prog s c)
    (hrun : runStratum rt cfg.rounds prog.temporal s plan = .ok s') :
    ∃ c', Settled prog s' c' ∧
      Evaluates rt (prog.rulesOf stratum) (prog.Covers stratum) c.facts c'.facts := by
  rw [hprog.temporal] at hrun
  obtain ⟨s₁, hs₁, hmerge⟩ := bind_eq_ok.mp hrun
  rw [coalesceAll_nil] at hmerge
  obtain rfl := Except.ok.inj hmerge
  rcases planStratum_cases hplan with ⟨rfl, hnone⟩ | ⟨ops, rfl, hops, hread⟩ |
    ⟨ops, plans, rfl, hops, hplans⟩
  · obtain rfl := Except.ok.inj hs₁
    refine ⟨c.merge, h.merge, h.facts_merge.ge, ?_, fun _ r hr => ?_⟩
    · rw [h.facts_merge]
      exact fun N hN => hN.base
    · obtain ⟨i, hi⟩ := exists_mem_stratumRules hr
      rw [hnone] at hi
      cases hi
  · obtain ⟨⟨n, s₂⟩, hbatch, rfl⟩ := bind_eq_pure.mp hs₁
    obtain ⟨c', hcol, hset⟩ := h.initialBatch hprog hops hbatch
    refine ⟨c'.merge, hset, hcol.evaluates fun r hr => ?_⟩
    obtain ⟨i, hi⟩ := exists_mem_stratumRules hr
    exact hread _ hi
  · obtain ⟨⟨n, s₂⟩, hbatch, hs₁⟩ := bind_eq_ok.mp hs₁
    obtain ⟨s₃, hfix, hs₁⟩ := bind_eq_ok.mp hs₁
    rw [coalesceAll_nil] at hs₁
    obtain rfl := Except.ok.inj hs₁
    obtain ⟨c', hcol, hset⟩ := h.initialBatch hprog hops hbatch
    have hround : Round rt prog stratum c'.merge := by
      refine ⟨hcol.delta_merge fun e he => he, fun _ r hr t ht => ?_⟩
      rw [hcol.stable_merge] at ht
      rw [hcol.facts_merge]
      exact Or.inr ⟨r, hr, t, ht, rfl⟩
    obtain ⟨c'', hset'', hev⟩ := fixpoint_evaluates hprog hplans hset hround hfix
    refine ⟨c''.merge, hset''.merge, ?_⟩
    rw [hset''.facts_merge]
    exact hev.of_derived hcol.le_merge (hcol.sound fun e he => he)

/-! ## A whole program -/

/-- The strata hold the heads of all rules, and no rule reads a predicate of a later stratum. -/
structure Program.Stratified (prog : Program) : Prop where
  covered : ∀ r ∈ prog.rules, ∃ stratum ∈ prog.strata, r.pred ∈ stratum
  ordered : prog.strata.Pairwise fun earlier later =>
    ∀ r ∈ prog.rulesOf earlier, ∀ pred args, .atom pred args ∈ r.premises → pred ∉ later

/-- The rules of a list of strata. -/
def Program.rulesOfAll (prog : Program) (strata : List (List String)) : Set Rule :=
  {r | ∃ stratum ∈ strata, r ∈ prog.rulesOf stratum}

theorem rulesOfAll_cons (stratum : List String) (strata : List (List String)) :
    prog.rulesOfAll (stratum :: strata) = prog.rulesOf stratum ∪ prog.rulesOfAll strata := by
  ext r
  simp [Program.rulesOfAll]

/-- **The strata of a positive program, one after the other.** -/
theorem runStrata_evaluates {strata : List (List String)} {plans : List (Option StratumPlan)}
    (hprog : prog.Positive)
    (hplans : List.Forall₂ (fun stratum plan => prog.planStratum cfg stratum = .ok plan) strata
      plans)
    (hord : strata.Pairwise fun earlier later =>
      ∀ r ∈ prog.rulesOf earlier, ∀ pred args, .atom pred args ∈ r.premises → pred ∉ later)
    (h : Settled prog s c) (hrun : plans.foldlM (runStratum rt cfg.rounds prog.temporal) s = .ok s')
    :
    ∃ c', Settled prog s' c' ∧
      c'.facts ∈ lowerBounds {M | IsModel rt (prog.rulesOfAll strata) c.facts M} ∧
      ((∀ stratum ∈ strata, prog.Covers stratum) →
        IsLeast {M | IsModel rt (prog.rulesOfAll strata) c.facts M} c'.facts) := by
  induction hplans generalizing s c with
  | nil =>
    obtain rfl := Except.ok.inj hrun
    refine ⟨c, h, fun N hN => hN.base, fun _ => ⟨⟨le_rfl, ?_⟩, fun N hN => hN.base⟩⟩
    rintro r ⟨stratum, hmem, -⟩
    cases hmem
  | @cons stratum plan strata plans hplan _ ih =>
    rw [foldlM_cons] at hrun
    obtain ⟨s₁, hs₁, hrun⟩ := bind_eq_ok.mp hrun
    obtain ⟨c₁, hset₁, hev⟩ := runStratum_evaluates hprog hplan h hs₁
    obtain ⟨hhead, hord⟩ := pairwise_cons.mp hord
    obtain ⟨c', hset, hsound, hleast⟩ := ih hord hset₁ hrun
    rw [rulesOfAll_cons]
    refine ⟨c', hset, lowerBounds_stratum hev.sound hsound, fun hcov => ?_⟩
    obtain ⟨hcov₁, hcov⟩ := forall_mem_cons.mp hcov
    refine isLeast_stratum ⟨⟨hev.base, hev.complete hcov₁⟩, hev.sound⟩ (hleast hcov) ?_
    rintro r hr pred args hp r' ⟨later, hlater, hr'⟩ rfl
    exact hhead later hlater r hr _ args hp hr'.2

/-- Creating relations changes no facts. -/
theorem Settled.createRelations (h : Settled prog s c) (preds : List String) :
    Settled prog (createRelations preds s) c :=
  ⟨h.rep.createRelations preds, h.indexed.createRelations preds, h.next, h.fits⟩

/-- **A run derives nothing beyond the least model** of a stratified program of positive rules, and
all of it when the delta plans of every stratum cover its rules. -/
theorem execute_least_model {cfg : RunConfig} (hprog : prog.Positive) (hstrat : prog.Stratified)
    (h : Settled prog s c) (hrun : prog.execute rt cfg s = .ok s') :
    ∃ c', Rep s' c' ∧
      c'.facts ∈ lowerBounds {M | IsModel rt {r | r ∈ prog.rules} c.facts M} ∧
      ((∀ stratum ∈ prog.strata, prog.Covers stratum) →
        IsLeast {M | IsModel rt {r | r ∈ prog.rules} c.facts M} c'.facts) := by
  have hall : prog.rulesOfAll prog.strata = {r | r ∈ prog.rules} := by
    ext r
    constructor
    · rintro ⟨stratum, -, hr⟩
      exact hr.1
    · intro hr
      obtain ⟨stratum, hmem, hpred⟩ := hstrat.covered r hr
      exact ⟨stratum, hmem, hr, hpred⟩
  obtain ⟨plans, hplans, hrun⟩ := bind_eq_ok.mp hrun
  obtain ⟨c', hset, hres⟩ := runStrata_evaluates hprog
    (forall₂_of_mapM (ofPlan_eq_ok.mp hplans)) hstrat.ordered (h.createRelations prog.extensional)
    hrun
  rw [hall] at hres
  exact ⟨c', hset.rep, hres⟩

end

/-- `t(X, Y) :- e(X, Y).  t(X, Z) :- t(X, Y), e(Y, Z).` -/
def pathProgram : Program where
  rules :=
    [⟨"t", [.var "X", .var "Y"], [.atom "e" [.var "X", .var "Y"]], []⟩,
     ⟨"t", [.var "X", .var "Z"], [.atom "t" [.var "X", .var "Y"],
       .atom "e" [.var "Y", .var "Z"]], []⟩]
  extensional := ["e"]
  strata := [["t"]]
  temporal := []

/-- The facts `e(1, 2)` and `e(2, 3)`. -/
def pathFacts : List Emit := [("e", [.number 1, .number 2]), ("e", [.number 2, .number 3])]

/-- The paths of a graph with two edges are found. -/
theorem execute_least_model_paths : ∃ s' c',
    pathProgram.execute .bare ⟨false, 3⟩ (MemStore.insertAll pathFacts .new).2.mergeDeltas =
      .ok s' ∧ Rep s' c' ∧ [.number 1, .number 3] ∈ c'.facts "t" ∧
      IsLeast {M | IsModel .bare {r | r ∈ pathProgram.rules}
        (Tiers.empty.insertAll pathFacts).merge.facts M} c'.facts := by
  have hrep := Rep.new.insertAll pathFacts
  have hset : Settled pathProgram (MemStore.insertAll pathFacts .new).2.mergeDeltas
      (Tiers.empty.insertAll pathFacts).merge := by
    refine ⟨hrep.mergeDeltas, (Indexed.new.insertAll .new pathFacts).mergeDeltas hrep,
      fun _ => rfl, fun r hr n hn => ?_⟩
    have hp : ∀ r ∈ pathProgram.rules,
        (Tiers.empty.insertAll pathFacts).merge.arity (r.pred : Name) = none := by decide
    rw [hp r hr] at hn
    cases hn
  have hcov : ∀ stratum ∈ pathProgram.strata, pathProgram.Covers stratum := by
    have hrules : ∀ r ∈ pathProgram.rules, DeltaCovers ["t"] r := by decide
    rintro _ hmem r hr
    obtain rfl := mem_singleton.mp hmem
    exact hrules r hr.1
  obtain ⟨c', hrep', -, hleast⟩ := @execute_least_model .bare pathProgram _ _ _ ⟨false, 3⟩
    ⟨by decide, by decide, rfl⟩ ⟨by decide, pairwise_singleton _ _⟩ hset rfl
  have hscan : c'.visible "t" =
      [[.number 1, .number 2], [.number 2, .number 3], [.number 1, .number 3]] :=
    Option.some.inj ((hrep'.scan "t").symm.trans rfl)
  refine ⟨_, c', rfl, hrep', ?_, hleast hcov⟩
  rw [Tiers.facts, hscan]
  exact mem_of_getElem? (i := 2) rfl

/-! ## A fact that is missed -/

/-- `p(X) :- b(X).  p(Z) :- p(X), p(Y), f(X, Y, Z).` -/
def pairProgram : Program where
  rules :=
    [⟨"p", [.var "X"], [.atom "b" [.var "X"]], []⟩,
     ⟨"p", [.var "Z"], [.atom "p" [.var "X"], .atom "p" [.var "Y"],
        .atom "f" [.var "X", .var "Y", .var "Z"]], []⟩]
  extensional := ["b", "f"]
  strata := [["p"]]
  temporal := []

/-- The facts `b(1)`, `b(2)`, `f(1, 2, 3)` and `f(3, 1, 4)`. -/
def pairFacts : List Emit :=
  [("b", [.number 1]), ("b", [.number 2]), ("f", [.number 1, .number 2, .number 3]),
    ("f", [.number 3, .number 1, .number 4])]

/-- A store that holds them. -/
def pairStore : MemStore := (MemStore.insertAll pairFacts .new).2.mergeDeltas

/-- What it holds. -/
def pairTiers : Tiers := (Tiers.empty.insertAll pairFacts).merge

theorem pairProgram_positive : pairProgram.Positive := ⟨by decide, by decide, rfl⟩

theorem pairProgram_stratified : pairProgram.Stratified :=
  ⟨by decide, pairwise_singleton _ _⟩

theorem settled_pairStore : Settled pairProgram pairStore pairTiers where
  rep := (Rep.new.insertAll pairFacts).mergeDeltas
  indexed := (Indexed.new.insertAll .new pairFacts).mergeDeltas (Rep.new.insertAll pairFacts)
  next _ := rfl
  fits := by
    have hp : ∀ r ∈ pairProgram.rules, pairTiers.arity (r.pred : Name) = none := by decide
    intro r hr n hn
    rw [hp r hr] at hn
    cases hn

/-- **The run misses `p(4)`**, which every model has: `p(3)` is found in a round in which `p(1)` is
no longer new, and both occurrences of `p` are scanned for new facts. -/
theorem execute_misses_fact : pairProgram.Positive ∧ pairProgram.Stratified ∧
    Settled pairProgram pairStore pairTiers ∧
    (∃ s', pairProgram.execute .bare ⟨false, 3⟩ pairStore = .ok s' ∧
      s'.scan "p" = some [[.number 1], [.number 2], [.number 3]]) ∧
    ∀ M, IsModel .bare {r | r ∈ pairProgram.rules} pairTiers.facts M → [.number 4] ∈ M "p" := by
  refine ⟨pairProgram_positive, pairProgram_stratified, settled_pairStore, ⟨_, rfl, rfl⟩, ?_⟩
  intro M hM
  have hbase (x : Int64) (hx : [.number x] ∈ pairTiers.visible "b") : [.number x] ∈ M "p" := by
    refine hM.closed _ mem_cons_self ⟨fun _ => .number x, fun pred args hp => ?_, rfl⟩
    obtain ⟨rfl, rfl⟩ := Premise.atom.inj (mem_singleton.mp hp)
    exact ⟨_, rfl, hM.base "b" hx⟩
  have hpair (x y z : Int64) (hx : [.number x] ∈ M "p") (hy : [.number y] ∈ M "p")
      (hf : [.number x, .number y, .number z] ∈ pairTiers.visible "f") : [.number z] ∈ M "p" := by
    let σ : Subst := fun v =>
      if v = "X" then .number x else if v = "Y" then .number y else .number z
    refine hM.closed _ (mem_cons_of_mem _ mem_cons_self) ⟨σ, fun pred args hp => ?_, rfl⟩
    rcases mem_cons.mp hp with heq | hp
    · obtain ⟨rfl, rfl⟩ := Premise.atom.inj heq
      exact ⟨_, rfl, hx⟩
    rcases mem_cons.mp hp with heq | hp
    · obtain ⟨rfl, rfl⟩ := Premise.atom.inj heq
      exact ⟨_, rfl, hy⟩
    · obtain ⟨rfl, rfl⟩ := Premise.atom.inj (mem_singleton.mp hp)
      exact ⟨_, rfl, hM.base "f" hf⟩
  have h1 : [.number 1] ∈ M "p" := hbase 1 (by decide)
  have h2 : [.number 2] ∈ M "p" := hbase 2 (by decide)
  have h3 : [.number 3] ∈ M "p" := hpair 1 2 3 h1 h2 (by decide)
  exact hpair 3 1 4 h3 h1 (by decide)

end Mangle

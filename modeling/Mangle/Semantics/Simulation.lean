import Mangle.Semantics.Denote

/-!
# Semantics/Simulation — the interpreter computes the denotation

`execOp_den`: a well-scoped operation, run from any environment that agrees with `ρ` on the
variables in scope and any store that reads as `r`, inserts what `den rt r op ρ` lists, counts the
tuples that were new, and leaves the variables in scope as they were.
-/

namespace Mangle

open Machinery

variable {ρ' : Env} {v : Name}

/-! ## Inserting a list of tuples -/

namespace MemStore

/-- Insert one after the other, counting the tuples that were new. -/
def insertAll : List Emit → MemStore → Nat × MemStore
  | [], s => (0, s)
  | (rel, t) :: es, s =>
      let (isNew, s) := s.insert rel t
      let (n, s) := insertAll es s
      ((if isNew then 1 else 0) + n, s)

theorem insertAll_append (es es' : List Emit) (s : MemStore) :
    insertAll (es ++ es') s =
      ((insertAll es s).1 + (insertAll es' (insertAll es s).2).1,
        (insertAll es' (insertAll es s).2).2) := by
  induction es generalizing s with
  | nil => simp [insertAll]
  | cons e es ih =>
    obtain ⟨rel, t⟩ := e
    simp only [List.cons_append, insertAll, ih]
    rw [Nat.add_assoc]

end MemStore

/-- Insert a list of tuples into tiers. -/
def Tiers.insertAll (es : List Emit) (c : Tiers) : Tiers :=
  es.foldl (fun c e => c.insert e.1 e.2) c

variable {c : Tiers} {s : MemStore}

theorem Rep.insertAll (h : Rep s c) (es : List Emit) :
    Rep (MemStore.insertAll es s).2 (c.insertAll es) := by
  induction es generalizing s c with
  | nil => exact h
  | cons e es ih => exact ih (h.insert e.1 e.2)

theorem Indexed.insertAll (hi : Indexed s) (h : Rep s c)
    (es : List Emit) : Indexed (MemStore.insertAll es s).2 := by
  induction es generalizing s c with
  | nil => exact hi
  | cons e es ih => exact ih (hi.insert h e.1 e.2) (h.insert e.1 e.2)

/-! ## Reads that insertions leave alone -/

/-- The reads of tiers. -/
def Tiers.reader (c : Tiers) : Reader where
  scan rel := .ok (c.visible rel)
  scanDelta rel := .ok (c.delta rel)
  scanNextDelta rel := .ok (c.next rel)
  scanIndex rel col key := .ok ((c.visible rel).filter (Tuple.hasKey col key))

/-- **A store reads as the tiers it holds.** -/
theorem Rep.reader (h : Rep s c) (hi : Indexed s) :
    s.reader = c.reader := by
  simp only [MemStore.reader, Tiers.reader, h.scan, h.scanDelta, h.scanNextDelta, h.scanIndex hi,
    orPanic_some]

/-- The store holds tiers that read as `c`, the collected rows of the relations `W` apart. -/
structure ReadsAs (c : Tiers) (W : Set Name) (s : MemStore) : Prop where
  indexed : Indexed s
  holds : ∃ c', Rep s c' ∧ c'.stable = c.stable ∧ c'.delta = c.delta ∧
    ∀ rel ∉ W, c'.next rel = c.next rel

namespace ReadsAs

variable {W : Set Name}

theorem of_rep (h : Rep s c) (hi : Indexed s) : ReadsAs c W s :=
  ⟨hi, c, h, rfl, rfl, fun _ _ => rfl⟩

variable (h : ReadsAs c W s)

include h

theorem insert {rel : Name} (hrel : rel ∈ W) (t : Tuple) : ReadsAs c W (s.insert rel t).2 := by
  obtain ⟨c', hrep, hst, hde, hne⟩ := h.holds
  refine ⟨h.indexed.insert hrep rel t, c'.insert rel t, hrep.insert rel t, ?_, ?_, ?_⟩
  · rw [← hst, Tiers.insert]
    split <;> rfl
  · rw [← hde, Tiers.insert]
    split <;> rfl
  · intro r hr
    have hne' : r ≠ rel := fun heq => hr (heq ▸ hrel)
    rw [← hne r hr, Tiers.insert]
    split
    · simp [Tiers.push, hne']
    · rfl

theorem insertAll {es : List Emit} (hes : ∀ e ∈ es, e.1 ∈ W) :
    ReadsAs c W (MemStore.insertAll es s).2 := by
  induction es generalizing s with
  | nil => exact h
  | cons e es ih =>
    exact ih (h.insert (hes e (by simp)) e.2) fun e' he' => hes e' (List.mem_cons_of_mem e he')

omit h in
theorem visible_eq {c' : Tiers} (hs : c'.stable = c.stable) (hd : c'.delta = c.delta) :
    c'.visible = c.visible := by
  funext rel
  simp [Tiers.visible, hs, hd]

theorem collectDataSource (env : Env) (src : DataSource) :
    collectDataSource s.reader env src = Mangle.collectDataSource c.reader env src := by
  obtain ⟨c', hrep, hst, hde, -⟩ := h.holds
  rw [hrep.reader h.indexed]
  have hv := visible_eq hst hde
  cases src <;> simp [Mangle.collectDataSource, Tiers.reader, hv, hde]

theorem evalCond (env : Env) (cond : Condition) :
    evalCond s.reader env cond = Mangle.evalCond c.reader env cond := by
  obtain ⟨c', hrep, hst, hde, -⟩ := h.holds
  rw [hrep.reader h.indexed]
  have hv := visible_eq hst hde
  induction cond with
  | cmp => rfl
  | negation => simp [Mangle.evalCond, Tiers.reader, hv]
  | call => rfl
  | not inner ih => simp only [Mangle.evalCond, ih]

theorem scan (rel : Name) : s.reader.scan rel = .ok (c.visible rel) := by
  obtain ⟨c', hrep, hst, hde, -⟩ := h.holds
  rw [hrep.reader h.indexed, Tiers.reader, visible_eq hst hde]

theorem scanNextDelta {rel : Name} (hrel : rel ∉ W) :
    s.reader.scanNextDelta rel = .ok (c.next rel) := by
  obtain ⟨c', hrep, -, -, hne⟩ := h.holds
  rw [hrep.reader h.indexed]
  exact congrArg Except.ok (hne rel hrel)

end ReadsAs

/-! ## Simulation -/

/-- From any environment that agrees with `ρ` on `B` and any store that reads as `c`, a run ends as
`d` says. -/
def Simulates (c : Tiers) (W B : Set Name) (ρ : Env) (run : Env → MemStore → Outcome)
    (d : Result (List Emit)) : Prop :=
  ∀ env s, AgreeOn B env ρ → ReadsAs c W s →
    Lift Eq (fun es out => (∀ e ∈ es, e.1 ∈ W) ∧ AgreeOn B out.2.1 ρ ∧
      (out.1, out.2.2) = MemStore.insertAll es s) d (run env s)

variable {run : Env → MemStore → Outcome}

section

variable {W B : Set Name} {ρ : Env}

theorem Simulates.nothing : Simulates c W B ρ (fun env s => .ok (0, env, s)) (.ok []) :=
  fun _ _ hag _ => .ok ⟨by simp, hag, rfl⟩

/-- **A loop runs as its iterations do**: each leaves the variables in scope and the reads alone. -/
theorem Simulates.runEach {α : Type} {f : α → Env → MemStore → Outcome}
    {d : α → Result (List Emit)} {l : List α} (h : ∀ a ∈ l, Simulates c W B ρ (f a) (d a)) :
    Simulates c W B ρ (runEach f l) (concatM d l) := by
  induction l with
  | nil => exact Simulates.nothing
  | cons a l ih =>
    intro env s hag hr
    simp only [concatM, Mangle.runEach]
    refine (h a (by simp) env s hag hr).bind ?_
    rintro es ⟨n, env', s'⟩ ⟨hes, hag', heq⟩
    obtain ⟨rfl, rfl⟩ := Prod.mk.inj heq
    refine (ih (fun b hb => h b (List.mem_cons_of_mem a hb)) env' _ hag' (hr.insertAll hes)).bind ?_
    rintro es' ⟨m, env'', s''⟩ ⟨hes', hag'', heq'⟩
    obtain ⟨rfl, rfl⟩ := Prod.mk.inj heq'
    refine .ok ⟨fun e he => (List.mem_append.mp he).elim (hes e) (hes' e), hag'', ?_⟩
    rw [MemStore.insertAll_append]

/-- A body that assigns further variables, seen from outside. -/
theorem Simulates.narrow {A : Set Name} {d : Result (List Emit)}
    (h : Simulates c W A ρ' run d) {f : Env → Env}
    (hf : ∀ env, AgreeOn B env ρ → AgreeOn A (f env) ρ') (hB : B ⊆ A) (hρ : AgreeOn B ρ' ρ) :
    Simulates c W B ρ (fun env s => run (f env) s) d := fun env s hag hr =>
  (h (f env) s (hf env hag) hr).mono fun _ _ ⟨hes, hag', heq⟩ =>
    ⟨hes, fun v hv => (hag' v (hB hv)).trans (hρ v hv), heq⟩

end

/-- A first step that only evaluates. -/
theorem Simulates.eval {α : Type} {W B : Set Name} {ρ : Env}
    {x : Env → MemStore → Result α} {x₀ : Result α} {run : α → Env → MemStore → Outcome}
    {d : α → Result (List Emit)}
    (hx : ∀ env s, AgreeOn B env ρ → ReadsAs c W s → x env s = x₀)
    (h : ∀ a, x₀ = .ok a → Simulates c W B ρ (run a) (d a)) :
    Simulates c W B ρ (fun env s => x env s >>= fun a => run a env s) (x₀ >>= d) := by
  intro env s hag hr
  simp only [hx env s hag hr]
  cases h₀ : x₀ with
  | error e => exact .error rfl
  | ok a => exact h a h₀ env s hag hr

/-- A body whose variable is removed after it. -/
theorem Simulates.removing {W B : Set Name} {ρ : Env} (hv : v ∉ B) {d : Result (List Emit)}
    (h : Simulates c W B ρ run d) :
    Simulates c W B ρ (fun env s => do
      let (n, env, s) ← run env s
      pure (n, env.remove v, s)) d := by
  intro env s hag hr
  have hrun := h env s hag hr
  cases hd : d with
  | error e =>
    obtain ⟨e', he', rfl⟩ := Lift.error_left.mp (hd ▸ hrun)
    exact Lift.error_left.mpr ⟨e, by simp [he'], rfl⟩
  | ok es =>
    obtain ⟨⟨n, env', s'⟩, hout, hes, hag', heq⟩ := Lift.ok_left.mp (hd ▸ hrun)
    refine Lift.ok_left.mpr ⟨(n, env'.remove v, s'), ?_, hes, ?_, heq⟩
    · simp only [hout]
      rfl
    · exact (agreeOn_remove hv env').trans hag'

/-- **A chain of bindings** runs as its denotation says, and leaves what it does not assign. -/
theorem Op.Chain.execOp_den (rt : Runtime) {W B : Set Name} {op : Op} (h : op.Chain W B)
    {ρ env : Env} (hag : AgreeOn B env ρ) (c : Tiers) (s : MemStore) :
    Lift Eq (fun es out => (∀ e ∈ es, e.1 ∈ W) ∧ (∀ v ∈ B, v ∉ op.assigned → out.2.1 v = ρ v) ∧
      (out.1, out.2.2) = MemStore.insertAll es s) (den rt c.reader op ρ) (execOp rt op env s) := by
  induction h generalizing ρ env with
  | insert hrel hread =>
    simp only [den, execOp, hag.evalOperands hread]
    refine (Lift.refl (fun _ => rfl) (fun _ => rfl) _).bind fun t _ (ht : t = _) => ?_
    subst ht
    exact .ok ⟨by simpa using hrel, fun v hv _ => hag v hv, rfl⟩
  | @bind B var expr body hread _ ih =>
    simp only [den, execOp, hag.evalExpr rt hread]
    refine (Lift.refl (fun _ => rfl) (fun _ => rfl) _).bind fun x _ (hx : x = _) => ?_
    subst hx
    refine (ih (hag.set var x)).mono fun es out hout => ⟨hout.1, fun v hv hno => ?_, hout.2.2⟩
    rw [Op.assigned, List.mem_cons, not_or] at hno
    rw [hout.2.1 v (Set.mem_insert_of_mem var hv) hno.2, Env.set_of_ne x hno.1]

/-- **The interpreter computes the denotation.** -/
theorem execOp_den (rt : Runtime) (c : Tiers) {W : Set Name} {op : Op} {B : Set Name}
    (h : op.Scoped W B) (ρ : Env) :
    Simulates c W B ρ (execOp rt op) (den rt c.reader op ρ) := by
  induction h generalizing ρ with
  | nop => exact Simulates.nothing
  | @iterate B source body hread hdis _ ih =>
    refine Simulates.eval (fun env s hag hr => ?_) fun tuples _ => Simulates.runEach fun t _ => ?_
    · rw [hr.collectDataSource env source, hag.collectDataSource c.reader hread]
    · by_cases hlen : t.length = source.vars.length
      · simp only [hlen, ne_eq, not_true_eq_false, if_false]
        exact (ih (ρ.bindVars source.vars t)).narrow
          (fun env hag => hag.bindVars source.vars t hlen) Set.subset_union_right
          (agreeOn_bindVars hdis ρ t)
      · simp only [ne_eq, hlen, not_false_eq_true, if_true]
        exact Simulates.nothing
  | @filter B cond body hread _ ih =>
    refine Simulates.eval (fun env s hag hr => ?_) fun b _ => ?_
    · rw [hr.evalCond env cond, hag.evalCond c.reader hread]
    · cases b with
      | true => exact ih ρ
      | false => exact Simulates.nothing
  | insert hrel hread =>
    refine Simulates.eval (fun env s hag hr => hag.evalOperands hread) fun t _ => ?_
    intro env s hag hr
    exact .ok ⟨by simpa using hrel, hag, rfl⟩
  | @bind B var expr body hread hvar _ ih =>
    refine Simulates.eval (fun env s hag hr => hag.evalExpr rt hread) fun v _ => ?_
    exact (ih (ρ.set var v)).narrow (fun env hag => hag.set var v) (Set.subset_insert var B)
      (agreeOn_set hvar ρ v)
  | @groupBy B source vars keys aggs body hsrc hkeys hdis haggs hlocal hbody =>
    refine Simulates.eval (fun env s hag hr => hr.scan source) fun visible _ => ?_
    refine Simulates.eval (fun env s hag hr => hr.scanNextDelta hsrc) fun collected _ => ?_
    have hloop : Simulates c W B ρ
        (runEach (fun g env s => do
          let env ← bindGroup rt.host vars keys aggs g env
          execOp rt body env s)
          (rt.order.perm (groupTuples vars keys (visible ++ collected) ρ []).2))
        (concatM (fun g => do den rt c.reader body (← bindGroup rt.host vars keys aggs g ρ))
          (rt.order.perm (groupTuples vars keys (visible ++ collected) ρ []).2)) := by
      refine Simulates.runEach fun g hg env s hag hr => ?_
      have hfits : g.Fits vars keys := groupTuples_fits _ ρ (by simp) g
        ((rt.order.perm_perm _).mem_iff.mp hg)
      rcases (hag.bindGroup rt.host hdis hkeys haggs hfits).cases with
        ⟨env', ρ', henv, hρ, hag', hρB⟩ | ⟨e, e', henv, hρ, rfl⟩
      · simp only [henv, hρ, ok_bind]
        exact (hbody.execOp_den rt hag' c s).mono fun _ _ ⟨hes, hkept, heq⟩ =>
          ⟨hes, fun v hv =>
            (hkept v (Or.inr hv) fun hmem => hlocal v hmem hv).trans (hρB v hv), heq⟩
      · simp only [henv, hρ, error_bind]
        exact .error rfl
    -- grouping leaves the source columns bound, and the loop starts from there
    intro env s hag hr
    have hgroups := groupTuples_congr hkeys (visible ++ collected) env ρ []
    have henv : AgreeOn B (groupTuples vars keys (visible ++ collected) env []).1 ρ :=
      fun v hv => (groupTuples_of_notMem (fun hmem => Set.disjoint_left.mp hdis hmem hv) _ env
        []).trans (hag v hv)
    rw [← hgroups] at hloop ⊢
    exact hloop _ s henv hr
  | @hashJoin B build probe keys body hbuild hprobe hkeys hnodup hdisb hdisp _ ih =>
    refine Simulates.eval (fun env s hag hr => ?_) fun buildTuples _ => ?_
    · rw [hr.collectDataSource env build, hag.collectDataSource c.reader hbuild]
    have hkb : (keys.any (· ∉ build.vars)) = false := by simpa using fun k hk => ((hkeys k).mp hk).1
    have hkp : (keys.any (· ∉ probe.vars)) = false := by simpa using fun k hk => ((hkeys k).mp hk).2
    simp only [hkb, hkp, Bool.false_eq_true, if_false]
    refine Simulates.eval (fun env s hag hr => ?_) fun probeTuples _ => ?_
    · rw [hr.collectDataSource env probe, hag.collectDataSource c.reader hprobe]
    refine Simulates.runEach fun p hp => ?_
    have hlenp : p.length = probe.vars.length := by simpa using (List.mem_filter.mp hp).2
    have hpartners : Simulates c W (names probe.vars ∪ B) (ρ.bindVars probe.vars p)
        (runEach (fun b env s => execOp rt body (env.bindVars build.vars b) s)
          (joinPartners build probe keys buildTuples p))
        (concatM (fun b => den rt c.reader body ((ρ.bindVars probe.vars p).bindVars build.vars b))
          (joinPartners build probe keys buildTuples p)) := by
      refine Simulates.runEach fun b hb => ?_
      obtain ⟨-, hlenb, hkey⟩ := mem_joinPartners.mp hb
      exact (ih _).narrow (fun env hag => hag.bindVars build.vars b hlenb) Set.subset_union_right
        (agreeOn_joinPartner hkeys hnodup hdisb hlenb hlenp hkey ρ)
    cases hnone : joinPartners build probe keys buildTuples p with
    | nil => exact Simulates.nothing
    | cons b bs =>
      rw [hnone] at hpartners
      exact hpartners.narrow (fun env hag => hag.bindVars probe.vars p hlenp)
        Set.subset_union_right (agreeOn_bindVars hdisp ρ p)
  | @matchField B structOp field var body hread hvar _ ih =>
    refine Simulates.eval (fun env s hag hr => hag.evalOperand hread) fun x _ => ?_
    cases structField field x with
    | none => exact Simulates.nothing
    | some v =>
      exact Simulates.removing hvar ((ih (ρ.set var v)).narrow (fun env hag => hag.set var v)
        (Set.subset_insert var B) (agreeOn_set hvar ρ v))
  | @iterateList B source var body hread hvar _ ih =>
    have hloop : ∀ elems : List Value, Simulates c W B ρ
        (runEach (fun x env s => execOp rt body (env.set var x) s) elems)
        (concatM (fun x => den rt c.reader body (ρ.set var x)) elems) := fun elems =>
      Simulates.runEach fun x _ => (ih (ρ.set var x)).narrow
        (fun env hag => hag.set var x) (Set.subset_insert var B) (agreeOn_set hvar ρ x)
    refine Simulates.eval (fun env s hag hr => hag.evalOperand hread) fun x _ => ?_
    -- only a list value is walked, and only then is the variable removed
    rcases x with _ | _ | _ | _ | _ | _ | ⟨kind, elems⟩ | _
    case compound =>
      cases kind with
      | list => exact Simulates.removing hvar (hloop elems)
      | _ => exact Simulates.nothing
    all_goals exact Simulates.nothing

/-- **A whole operation**: what it inserts into a store that holds `c`, and what it counts. -/
theorem execute_den {rt : Runtime} {W : Set Name} {op : Op}
    (hop : op.Scoped W ∅) (h : Rep s c) (hi : Indexed s) :
    Lift Eq (fun es out => (∀ e ∈ es, e.1 ∈ W) ∧ out = MemStore.insertAll es s)
      (den rt c.reader op .new) (execute rt op s) := by
  have hrun := execOp_den rt c hop .new .new s (fun _ _ => rfl) (.of_rep h hi)
  unfold execute
  cases hd : den rt c.reader op .new with
  | error e =>
    obtain ⟨e', he', rfl⟩ := Lift.error_left.mp (hd ▸ hrun)
    exact Lift.error_left.mpr ⟨e, by simp [he'], rfl⟩
  | ok es =>
    obtain ⟨⟨n, env, s'⟩, hout, hes, -, heq⟩ := Lift.ok_left.mp (hd ▸ hrun)
    exact Lift.ok_left.mpr ⟨(n, s'), by rw [hout]; rfl, hes, heq⟩

end Mangle

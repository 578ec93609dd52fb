import Mangle.Planner.Grouping

/-!
# Planner/Aggregation — one head tuple for each group

* `enumerates_rows` — the temporary relation of a rule with a `group_by` block holds a row for each
  assignment of the body;
* `planRule_groups` — the plan of an orderly rule with a `group_by` block inserts one head tuple for
  each value the keys have among the assignments of the body; the reducers in it range over exactly
  the assignments with that key, each counted once;
* `planRule_overwritten_reducer` — a rule the check accepts in which a let overwrites a reducer that
  is written after it.
-/

namespace Mangle

open Machinery List

/-! ## The tuple of a group -/

/-- The tuple that the head of a rule has for the group of the assignments with the key `κ`: the
lets are run in the order they are written, from an assignment of the group. -/
def GroupTuple (rt : Runtime) (rule : Rule) (keys : List String) (lets : List Transform)
    (asg : List Subst) (κ : List Value) (t : Tuple) : Prop :=
  ∃ σ ∈ asg, keys.map σ = κ ∧
    ∃ τ, runBlock rt (asg.filter fun υ => keys.map υ = κ) lets σ = .ok τ ∧
      evalTerms rt τ rule.args = .ok t

section Block

variable {rt : Runtime} {σ τ : Subst} {lets : List Transform} {keys : List String} {rule : Rule}
  {asg : List Subst}

/-- A group has at most one tuple. -/
theorem GroupTuple.unique {A : Set String} {κ : List Value} {t t' : Tuple}
    (hready : BlockReady A {x | x ∈ keys} lets)
    (hhead : Known ({x | x ∈ keys} ∪ {x | x ∈ definitions lets}) (Term.allVarsList rule.args))
    (h : GroupTuple rt rule keys lets asg κ t) (h' : GroupTuple rt rule keys lets asg κ t') :
    t = t' := by
  obtain ⟨σ, -, hσ, τ, hτ, ht⟩ := h
  obtain ⟨σ', -, hσ', τ', hτ', ht'⟩ := h'
  have heq := hready.eqOn (map_inj_left.mp (hσ.trans hσ'.symm)) hτ hτ'
  rw [evalTerms_congr fun x hx => heq (hhead x hx), ht'] at ht
  exact (Except.ok.inj ht).symm

theorem OfGroup.groupTuple {t : Tuple} (hσ : σ ∈ asg) (h : OfGroup rt keys lets asg σ τ)
    (ht : evalTerms rt τ rule.args = .ok t) : GroupTuple rt rule keys lets asg (keys.map σ) t :=
  ⟨σ, hσ, rfl, τ, h, ht⟩

end Block

/-! ## The rows of the assignments -/

section Rows

variable {rt : Runtime} {S : Site} {P : Subst → Prop} {rows : List Tuple}

/-- A list of rows as a list of substitutions that have them. -/
theorem exists_rows (h : ∀ row ∈ rows, ∃ σ, P σ ∧ S.RowOf rt σ row) :
    ∃ asg, List.Forall₂ (fun row σ => S.RowOf rt σ row) rows asg ∧ ∀ σ ∈ asg, P σ := by
  induction rows with
  | nil => exact ⟨[], .nil, by simp⟩
  | cons row rows ih =>
    obtain ⟨⟨σ, hσ, hrow⟩, hrows⟩ := forall_mem_cons.mp h
    obtain ⟨asg, hasg, hmem⟩ := ih hrows
    exact ⟨σ :: asg, .cons hrow hasg, forall_mem_cons.mpr ⟨hσ, hmem⟩⟩

/-- Different rows are those of different substitutions. -/
theorem pairwise_rows (hS : S.Knows) {V : List String} (hV : namedIn S.bound = {x | x ∈ V})
    {asg : List Subst} (hrows : List.Forall₂ (fun row σ => S.RowOf rt σ row) rows asg)
    (hnodup : rows.Nodup) : asg.Pairwise fun σ τ => ∃ x ∈ V, σ x ≠ τ x := by
  induction hrows with
  | nil => exact .nil
  | @cons row σ rows asg hrow hrows ih =>
    obtain ⟨hrowno, hnodup⟩ := nodup_cons.mp hnodup
    refine pairwise_cons.mpr ⟨fun τ hτ => ?_, ih hnodup⟩
    by_contra hno
    push Not at hno
    obtain ⟨row', hrow', hτrow⟩ := forall₂_mem_right hrows hτ
    have heq : S.RowOf rt τ row := hrow.congr hS (hV ▸ hno)
    obtain rfl : row' = row := Except.ok.inj (hτrow.symm.trans heq)
    exact hrowno hrow'

/-- **The rows of the temporary relation enumerate the assignments.** -/
theorem enumerates_rows (hS : S.Knows) {V : List String} (hV : namedIn S.bound = {x | x ∈ V})
    (hnodup : rows.Nodup) (hrows : ∀ row, row ∈ rows ↔ ∃ σ, P σ ∧ S.RowOf rt σ row)
    (hall : ∀ σ, P σ → ∃ row, S.RowOf rt σ row) :
    ∃ asg, Enumerates V P asg ∧ List.Forall₂ (fun row σ => S.RowOf rt σ row) rows asg := by
  obtain ⟨asg, hasg, hmem⟩ := exists_rows fun row hrow => (hrows row).mp hrow
  refine ⟨asg, ⟨hmem, fun τ hτ => ?_, pairwise_rows hS hV hasg hnodup⟩, hasg⟩
  obtain ⟨row, hrow⟩ := hall τ hτ
  obtain ⟨σ, hσ, hrow'⟩ := forall₂_mem_left hasg ((hrows row).mpr ⟨τ, hτ, hrow⟩)
  exact ⟨σ, hσ, fun x hx => hrow'.eqOn hrow (hV ▸ hx)⟩

end Rows

/-! ## Rules -/

section Rules

variable (rt : Runtime) {s : MemStore} {c : Tiers} {rule : Rule} {keys : List String}
  {lets : List Transform} {hashJoin : Bool} {ruleId : Nat} {op : Op}

/-- The temporary relation of a rule with one block. -/
def tempRelation (ruleId : Nat) : Name := .fresh s!"temp_grp_r{ruleId}" 0

/-- The number of columns of the relation that the plan of a rule with one block groups. -/
def Op.groupColumns : Op → Option Nat
  | .seq [_, .groupBy _ vars _ _ _] => some vars.length
  | _ => none

/-- The two operations of the plan of a rule with a block. -/
theorem planRule_block_ok {cfg : PlanConfig} (hlets : ∀ t ∈ lets, t.var.isSome) {app : Term}
    (htr : rule.transform = ⟨none, app⟩ :: lets) (h : planRule cfg ruleId rule = .ok op) :
    ∃ op₀ op₁ st st', op = .seq [op₀, op₁] ∧
      planJoinSequence cfg (captureInto (tempRelation ruleId)) (delayUnboundPremises rule.premises)
        [] ⟨1, []⟩ = .ok (op₀, st) ∧
      planBlockK (tempRelation ruleId) st.captured (⟨none, app⟩ :: lets)
        (fun _ => planHeadInsert rule) st = .ok (op₁, st') := by
  obtain ⟨⟨op', st'⟩, hplan, rfl⟩ := bind_eq_pure.mp h
  simp only [planOrdered, htr, splitTransforms_of_block hlets] at hplan
  obtain ⟨temp, st₁, htemp, hjoin⟩ := planM_bind_ok.mp hplan
  obtain ⟨rfl, rfl⟩ := Prod.mk.inj (Except.ok.inj htemp)
  obtain ⟨op₀, st₂, hop₀, hblocks⟩ := planM_bind_ok.mp hjoin
  obtain ⟨ops, hops, rfl⟩ := planM_map_ok.mp hblocks
  obtain ⟨st₄, st₅, hget, hblock⟩ := planM_bind_ok.mp hops
  obtain ⟨rfl, rfl⟩ := Prod.mk.inj (Except.ok.inj hget)
  obtain ⟨op₁, hop₁, rfl⟩ := planM_map_ok.mp hblock
  exact ⟨op₀, op₁, st₂, _, rfl, hop₀, hop₁⟩

/-- **The plan of a rule with a block**: the first operation stores a row for each assignment of the
body, the second inserts the head's tuple for each group of them. -/
theorem planRule_block (hr : Orderly rule) (hlets : ∀ t ∈ lets, t.var.isSome)
    (htr : rule.transform = ⟨none, .app (.fn "fn:group_by") (keys.map .var)⟩ :: lets)
    (hjoin : hashJoin = true → JoinsStored ∅ (delayUnboundPremises rule.premises))
    (h : planRule ⟨none, hashJoin⟩ ruleId rule = .ok op) (c : Tiers) :
    ∃ op₀ op₁, op = .seq [op₀, op₁] ∧ op₀.Scoped {tempRelation ruleId} ∅ ∧
      op₁.Scoped {(rule.pred : Name)} ∅ ∧
      (c.Valid → c.all (tempRelation ruleId) = [] →
        (∀ n ∈ c.arity (tempRelation ruleId), op.groupColumns = some n) →
        ∀ es, den rt c.reader op₀ .new = .ok es → (∀ e ∈ es, e.1 = tempRelation ruleId) ∧ ∃ asg,
          Enumerates (premiseVars rule.premises) (fun σ => ∀ p ∈ rule.premises, Sat rt c σ p) asg ∧
          ∀ es₁, den rt (c.insertAll es).reader op₁ .new = .ok es₁ →
            (∀ e, e ∈ es₁ ↔ ∃ σ ∈ asg, ∃ t, GroupTuple rt rule keys lets asg (keys.map σ) t ∧
              e = ((rule.pred : Name), t)) ∧
            ∀ σ ∈ asg, ∃! t, GroupTuple rt rule keys lets asg (keys.map σ) t) := by
  obtain ⟨op₀, op₁, st, st', rfl, hop₀, hop₁⟩ := planRule_block_ok hlets htr h
  obtain ⟨hkeys, hready, hhead⟩ := hr.of_block hlets htr
  have hdisj := hr.disjoint_block htr
  have hspares : lets.Pairwise Transform.Spares := (pairwise_cons.mp (htr ▸ hr.reducers)).2
  have hmem (p : Premise) : p ∈ delayUnboundPremises rule.premises ↔ p ∈ rule.premises :=
    mem_delayUnboundPremises
  obtain ⟨S, hplan, hS, hX, hred⟩ := @leads_body rt c {tempRelation ruleId}
    _ _ _ _ _ _ (fun hon _ => hjoin hon) hr.evaluable hop₀
  simp only [satSeq_iff, hmem] at hred
  have hnamed : namedIn S.bound = {x | x ∈ premiseVars rule.premises} :=
    hX.trans (Set.ext (mem_premiseVars_congr hmem))
  obtain ⟨hcaptured, hshaped, hcapture⟩ :=
    @captureInto_yields rt S c _ _ (Set.mem_singleton (tempRelation ruleId)) hplan
  rw [show st.captured = S.bound.dedup from hred.captured.trans hcaptured] at hop₁
  rw [← hnamed] at hkeys
  have hreadyS : BlockReady (namedIn S.bound) {x | x ∈ keys} lets := hnamed ▸ hready
  have hdisj : ∀ x ∈ definitions lets, x ∉ namedIn S.bound := hnamed ▸ hdisj
  have hblock (c' : Tiers) := @planBlockK_yields rt c' {(rule.pred : Name)} S keys lets
    (tempRelation ruleId) _ st st' op₁ _ hop₁ hkeys hreadyS hlets hspares hdisj
  refine ⟨op₀, op₁, rfl, ?_, ?_, fun hvalid hall harity es hes => ?_⟩
  · have := (hred.shaped hshaped).wellScoped
    rwa [show names (Site.root ⟨1, []⟩ st op₀).bound = ∅ by ext v; simp [Site.root]] at this
  · obtain ⟨S', hplan', hS', hX', hscoped, -⟩ := hblock c
    exact hscoped (planHeadInsert_chain (Set.mem_singleton _) hS'.knows (hX'.symm ▸ hhead) hplan')
      (by simp [tempRelation])
  · -- what the first operation has stored are the rows of the assignments
    have hy (σ : Subst) : (Site.root ⟨1, []⟩ st op₀).Yields rt c σ es :=
      ⟨.new, Site.root_denotes _ _ _ _ _, hes⟩
    have hrowOf : ∀ σ, (∀ p ∈ rule.premises, Sat rt c σ p) →
        ∃ row, S.RowOf rt σ row ∧ (tempRelation ruleId, row) ∈ es := by
      intro σ hσ
      obtain ⟨es', hy', hsub⟩ := hred.complete hshaped σ es (hy σ) hσ
      obtain ⟨row, hrow, rfl⟩ := hcapture σ es' hy'
      exact ⟨row, hrow, hsub (mem_singleton_self _)⟩
    have hsound : ∀ e ∈ es, ∃ σ row, (∀ p ∈ rule.premises, Sat rt c σ p) ∧ S.RowOf rt σ row ∧
        e = (tempRelation ruleId, row) := by
      intro e he
      obtain ⟨σ, es', -, hσ, hy', he'⟩ := hred.sound hshaped (fun _ => .null) es (hy _) e he
      obtain ⟨row, hrow, rfl⟩ := hcapture σ es' hy'
      exact ⟨σ, row, hσ, hrow, mem_singleton.mp he'⟩
    have hlen : ∀ e ∈ es, e.1 = tempRelation ruleId → e.2.length = S.bound.dedup.length := by
      intro e he _
      obtain ⟨σ, row, -, hrow, rfl⟩ := hsound e he
      exact hrow.length
    obtain ⟨aggs, body, -, rfl, -⟩ := planBlockK_ok hop₁
    obtain ⟨hvis, hnodup, hnext⟩ := Tiers.next_insertAll_of_unused hvalid hall
      (fun n hn => (Option.some.inj (harity n hn)).symm) hlen
    obtain ⟨asg, henum, hrows⟩ := @enumerates_rows rt S
      (fun σ => ∀ p ∈ rule.premises, Sat rt c σ p) _ hS _ hnamed hnodup (fun row => by
        rw [hnext]
        constructor
        · intro he
          obtain ⟨σ, row', hσ, hrow, heq⟩ := hsound _ he
          exact ⟨σ, hσ, (Prod.mk.inj heq).2 ▸ hrow⟩
        · rintro ⟨σ, hσ, hrow⟩
          obtain ⟨row', hrow', hmem⟩ := hrowOf σ hσ
          obtain rfl := Except.ok.inj (hrow.symm.trans hrow')
          exact hmem) fun σ hσ => (hrowOf σ hσ).imp fun row h => h.1
    obtain ⟨S', hplan', hS', hX', -, hgroups⟩ := hblock (c.insertAll es)
    have hemit := (@planHeadInsert_yields rt (c.insertAll es) {(rule.pred : Name)} rule S'
      (Set.mem_singleton _) hS'.knows (hX'.symm ▸ hhead) hplan').2
    refine ⟨fun e he => ?_, asg, henum, fun es₁ hes₁ => ?_⟩
    · obtain ⟨σ, row, -, -, rfl⟩ := hsound e he
      rfl
    · obtain ⟨hfrom, hto⟩ := hgroups asg hvis hrows .new es₁ hes₁
      have hexists : ∀ σ ∈ asg, ∃ t, GroupTuple rt rule keys lets asg (keys.map σ) t ∧
          ((rule.pred : Name), t) ∈ es₁ := by
        intro σ hσ
        obtain ⟨τ, es', hτ, hy', hsub⟩ := hto σ hσ
        obtain ⟨t, ht, rfl⟩ := hemit τ es' hy'
        exact ⟨t, hτ.groupTuple hσ ht, hsub (mem_singleton_self _)⟩
      refine ⟨fun e => ⟨fun he => ?_, ?_⟩, fun σ hσ => ?_⟩
      · obtain ⟨σ, hσ, τ, es', hτ, hy', he'⟩ := hfrom e he
        obtain ⟨t, ht, rfl⟩ := hemit τ es' hy'
        exact ⟨σ, hσ, t, hτ.groupTuple hσ ht, mem_singleton.mp he'⟩
      · rintro ⟨σ, hσ, t, ht, rfl⟩
        obtain ⟨t', ht', hmem⟩ := hexists σ hσ
        rwa [GroupTuple.unique hready hhead ht ht']
      · obtain ⟨t, ht, -⟩ := hexists σ hσ
        exact ⟨t, ht, fun t' ht' => GroupTuple.unique hready hhead ht' ht⟩

/-- **The plan of a rule that groups** derives exactly one head tuple for each value of the keys
among the satisfying assignments of the body, with the reducers over exactly the distinct
assignments of the body's variables that have it, unless a built-in fails. -/
theorem planRule_groups (hr : Orderly rule) (hlets : ∀ t ∈ lets, t.var.isSome)
    (htr : rule.transform = ⟨none, .app (.fn "fn:group_by") (keys.map .var)⟩ :: lets)
    (hjoin : hashJoin = true → JoinsStored ∅ (delayUnboundPremises rule.premises))
    (hplan : planRule ⟨none, hashJoin⟩ ruleId rule = .ok op) (hrep : Rep s c) (hidx : Indexed s)
    (hfit : FitsHead c rule) (hunused : c.all (tempRelation ruleId) = [])
    (harity : ∀ n ∈ c.arity (tempRelation ruleId), op.groupColumns = some n) :
    (∀ err, execute rt op s = .error err → err.FromBuiltin) ∧
      ∀ n s', execute rt op s = .ok (n, s') → ∃ c' asg, Rep s' c' ∧
        Enumerates (premiseVars rule.premises) (fun σ => ∀ p ∈ rule.premises, Sat rt c σ p) asg ∧
        (∀ (rel : String) t, t ∈ c'.all rel ↔ t ∈ c.all rel ∨
          rel = rule.pred ∧ ∃ σ ∈ asg, GroupTuple rt rule keys lets asg (keys.map σ) t) ∧
        ∀ σ ∈ asg, ∃! t, GroupTuple rt rule keys lets asg (keys.map σ) t := by
  obtain ⟨op₀, op₁, rfl, hscoped₀, hscoped₁, hden⟩ := planRule_block rt hr hlets htr hjoin hplan c
  have hops : ∀ op ∈ [op₀, op₁], ∃ W, op.Scoped W ∅ := by
    simpa using ⟨⟨_, hscoped₀⟩, ⟨_, hscoped₁⟩⟩
  refine ⟨execute_seq_fromBuiltin hops hrep hidx, fun n s' hok => ?_⟩
  have hexec := @execute_denSeq rt _ hops c s hrep hidx
  rw [denSeq_pair, hok] at hexec
  obtain ⟨_, hseq, heq⟩ := hexec.ok_right
  obtain ⟨es₀, hes₀, hseq⟩ := bind_eq_ok.mp hseq
  obtain ⟨es₁, hes₁, rfl⟩ := bind_eq_pure.mp hseq
  obtain ⟨htemp, asg, henum, hgroups⟩ := hden hrep.toValid hunused harity es₀ hes₀
  obtain ⟨hemits, hunique⟩ := hgroups es₁ hes₁
  refine ⟨c.insertAll (es₀ ++ es₁), asg, ?_, henum, fun rel t => ?_, hunique⟩
  · rw [show s' = (MemStore.insertAll (es₀ ++ es₁) s).2 from congrArg Prod.snd heq]
    exact hrep.insertAll _
  · have hhead₁ : ∀ e ∈ es₁, e.1 = rule.pred ∧ e.2.length = rule.args.length := by
      intro e he
      obtain ⟨σ, -, t, ⟨_, -, -, τ, -, ht⟩, rfl⟩ := (hemits e).mp he
      exact ⟨rfl, length_evalTerms ht⟩
    rw [Tiers.mem_all_insertAll_head hfit (fun e he rel => by simp [htemp e he, tempRelation])
      hhead₁, hemits]
    simp only [Prod.mk.injEq, Name.named.injEq]
    refine or_congr_right ⟨?_, ?_⟩
    · rintro ⟨σ, hσ, t', htuple, rfl, rfl⟩
      exact ⟨rfl, σ, hσ, htuple⟩
    · rintro ⟨rfl, σ, hσ, htuple⟩
      exact ⟨σ, hσ, t, htuple, rfl, rfl⟩

end Rules

/-! ## Rules that count -/

/-- `q(X, N) :- p(X, Y) |> do fn:group_by(X), let …` -/
def countRule (lets : List Transform) : Rule where
  pred := "q"
  args := [.var "X", .var "N"]
  premises := [.atom "p" [.var "X", .var "Y"]]
  transform := ⟨none, .app (.fn "fn:group_by") [.var "X"]⟩ :: lets

/-- `let N = fn:count(Y)`. -/
def countLet : Transform := ⟨some "N", .app (.fn "fn:count") [.var "Y"]⟩

/-- `let N = fn:plus(X, 5)`. -/
def plusLet : Transform := ⟨some "N", .app (.fn "fn:plus") [.var "X", .number 5]⟩

/-- `let N = fn:plus(N, 5)`. -/
def moreLet : Transform := ⟨some "N", .app (.fn "fn:plus") [.var "N", .number 5]⟩

/-- A store with `p(1, 10)` and `p(1, 20)`. -/
def countStore : MemStore :=
  ((MemStore.new.insert "p" [.number 1, .number 10]).2.insert "p"
    [.number 1, .number 20]).2.mergeDeltas

/-- What it holds. -/
def countTiers : Tiers :=
  ((Tiers.empty.insert "p" [.number 1, .number 10]).insert "p" [.number 1, .number 20]).merge

theorem rep_countStore : Rep countStore countTiers :=
  ((Rep.new.insert "p" [.number 1, .number 10]).insert "p" [.number 1, .number 20]).mergeDeltas

theorem indexed_countStore : Indexed countStore :=
  ((Indexed.new.insert Rep.new "p" [.number 1, .number 10]).insert
    (Rep.new.insert "p" [.number 1, .number 10]) "p" [.number 1, .number 20]).mergeDeltas
    ((Rep.new.insert "p" [.number 1, .number 10]).insert "p" [.number 1, .number 20])

theorem orderly_countRule : Orderly (countRule [countLet, moreLet, moreLet]) where
  accepted := ⟨.insertion, rfl⟩
  noWild := by decide
  evaluable := ⟨fun x hx => Or.inr (by
    have : x = "X" ∨ x = "Y" := by simpa [Term.allVarsList, Term.allVars] using hx
    rcases this with rfl | rfl <;> simp), trivial⟩
  disjoint := by decide
  reducers := by simp [countRule, Transform.Spares, Transform.allVars, Term.allVars,
    Term.allVarsList, countLet, moreLet, Transform.isReducer, reducers]

/-- The two rows of one key are counted in one tuple; the lets written after the count add to it. -/
theorem planRule_groups_count : ∃ op s' c' asg,
    planRule ⟨none, true⟩ 0 (countRule [countLet, moreLet, moreLet]) = .ok op ∧
      execute .bare op countStore = .ok (3, s') ∧
      s'.scanNextDelta "q" = some [[.number 1, .number 12]] ∧ Rep s' c' ∧
      Enumerates ["X", "Y"] (fun σ => ∀ p ∈ [.atom "p" [.var "X", .var "Y"]],
        Sat .bare countTiers σ p) asg ∧
      ∀ σ ∈ asg, ∃! t, GroupTuple .bare (countRule [countLet, moreLet, moreLet]) ["X"]
        [countLet, moreLet, moreLet] asg [σ "X"] t := by
  obtain ⟨-, hok⟩ := @planRule_groups .bare _ _ (countRule [countLet, moreLet, moreLet]) ["X"]
    [countLet, moreLet, moreLet] true 0 _ orderly_countRule (by simp [countLet, moreLet]) rfl
    (fun _ => joinsStored_of_all fun pred args hp => by
      have hp : .atom pred args ∈ [Premise.atom "p" [.var "X", .var "Y"]] := hp
      obtain ⟨rfl, -⟩ := Premise.atom.inj (mem_singleton.mp hp)
      rfl) rfl rep_countStore indexed_countStore (fun n hn => by cases hn) rfl
    (fun n hn => by cases hn)
  obtain ⟨c', asg, hrep, henum, -, hunique⟩ := hok _ _ rfl
  exact ⟨_, _, c', asg, rfl, rfl, rfl, hrep, henum, hunique⟩

/-- **The check accepts a rule in which a let overwrites a reducer that comes after it**: the head
has the sum in place of the count of its group, which is 2. -/
theorem planRule_overwritten_reducer :
    checkBindings .insertion [countRule [plusLet, countLet]] = .ok () ∧
      FitsHead countTiers (countRule [plusLet, countLet]) ∧
      ∃ op s', planRule ⟨none, false⟩ 0 (countRule [plusLet, countLet]) = .ok op ∧
        execute .bare op countStore = .ok (3, s') ∧
        s'.scanNextDelta "q" = some [[.number 1, .number 6]] := by
  refine ⟨rfl, fun n hn => ?_, _, _, rfl, rfl, rfl⟩
  cases hn

end Mangle

import Mathlib.Data.Set.BooleanAlgebra
import Mathlib.Order.CompletePartialOrder
import Mangle.Interpreter.Exec
import Mangle.Machinery.Collect
import Mangle.Store.Tiers

/-!
# Semantics/Denote — what an operation inserts, without the mutable state

`den rt r op ρ` lists what `op` inserts when every loop starts from the environment `ρ` and every
read is answered by `r`.  The interpreter threads one environment through all its loops and writes
to the store it reads; `execOp_den` says that for a well-scoped operation this makes no difference:

* `Op.Scoped W op B` — `op` reads variables of `B` and those it assigns itself, assigns none of `B`,
  inserts into relations of `W` only and groups no relation of `W`;
* `Simulates` — from any environment that agrees on `B` and any store that reads as `r`, a run ends
  as the denotation says.
-/

namespace Mangle

open Machinery List

variable {args : List Operand} {t : Tuple} {keys : List Name}

/-- An insertion: the relation and the tuple. -/
abbrev Emit := Name × Tuple

/-! ## The denotation -/

/-- What an operation inserts, in order.  A sequence has none of its own: its later operations
read what the earlier ones insert. -/
def den (rt : Runtime) (r : Reader) : Op → Env → Result (List Emit)
  | .nop, _ => .ok []
  | .iterate source body, ρ => do
      let tuples ← collectDataSource r ρ source
      concatM (fun t =>
        if t.length ≠ source.vars.length then .ok []
        else den rt r body (ρ.bindVars source.vars t)) tuples
  | .filter cond body, ρ => do if ← evalCond r ρ cond then den rt r body ρ else .ok []
  | .insert rel args, ρ => do pure [(rel, ← evalOperands ρ args)]
  | .bind var expr body, ρ => do den rt r body (ρ.set var (← evalExpr rt ρ expr))
  | .groupBy source vars keys aggs body, ρ => do
      let visible ← r.scan source
      let collected ← r.scanNextDelta source
      concatM (fun g => do den rt r body (← bindGroup rt.host vars keys aggs g ρ))
        (rt.order.perm (groupTuples vars keys (visible ++ collected) ρ []).2)
  | .matchField structOp field var body, ρ => do
      match structField field (← evalOperand ρ structOp) with
      | some v => den rt r body (ρ.set var v)
      | none => .ok []
  | .iterateList source var body, ρ => do
      let list ← evalOperand ρ source
      concatM (fun x => den rt r body (ρ.set var x)) (listElems list)
  | .hashJoin build probe keys body, ρ => do
      let buildTuples ← collectDataSource r ρ build
      let probeTuples ← collectDataSource r ρ probe
      concatM (fun p =>
        concatM (fun b => den rt r body ((ρ.bindVars probe.vars p).bindVars build.vars b))
          (joinPartners build probe keys buildTuples p))
        (probeTuples.filter (·.length = probe.vars.length))
  | .seq _, _ => .error (.plan "no single denotation")

/-! ## Scoping -/

/-- The operand is a constant or a variable of `B`. -/
def Operand.Reads (B : Set Name) : Operand → Prop
  | .var v => v ∈ B
  | .const _ => True

/-- Every operand of the condition reads `B`, and no built-in misses an argument. -/
def Condition.Reads (B : Set Name) : Condition → Prop
  | .cmp _ l r => l.Reads B ∧ r.Reads B
  | .negation _ args => ∀ a ∈ args, a.Reads B
  | .call fn args => builtinArgs fn ≤ args.length ∧ ∀ a ∈ args, a.Reads B
  | .not inner => inner.Reads B

/-- Every operand of the expression reads `B`. -/
def Expr.Reads (B : Set Name) : Expr → Prop
  | .value op => op.Reads B
  | .call _ args => ∀ a ∈ args, a.Reads B

/-- The key of an index lookup reads `B`. -/
def DataSource.Reads (B : Set Name) : DataSource → Prop
  | .scan .. | .scanDelta .. => True
  | .indexLookup _ _ key _ => key.Reads B

/-- The names of a list, as a set. -/
def names (l : List Name) : Set Name := {v | v ∈ l}

@[simp] theorem mem_names {v : Name} {l : List Name} : v ∈ names l ↔ v ∈ l := Iff.rfl

mutual

/-- The variables an operation assigns. -/
def Op.assigned : Op → List Name
  | .nop | .insert .. => []
  | .seq ops => assignedAll ops
  | .iterate source body => source.vars ++ body.assigned
  | .filter _ body => body.assigned
  | .bind var _ body | .matchField _ _ var body | .iterateList _ var body => var :: body.assigned
  | .groupBy _ vars keys aggs body => vars ++ keys ++ aggs.map Aggregate.var ++ body.assigned
  | .hashJoin build probe _ body => build.vars ++ probe.vars ++ body.assigned

/-- The variables the operations of a sequence assign. -/
def Op.assignedAll : List Op → List Name
  | [] => []
  | op :: ops => op.assigned ++ assignedAll ops

end

/-- `op` is a chain of bindings, which may bind a variable again, and ends in an insertion. -/
inductive Op.Chain (W : Set Name) : Op → Set Name → Prop
  | insert {B : Set Name} {rel : Name} {args : List Operand} (hrel : rel ∈ W)
      (hread : ∀ a ∈ args, a.Reads B) : Chain W (.insert rel args) B
  | bind {B : Set Name} {var : Name} {expr : Expr} {body : Op} (hread : expr.Reads B)
      (hbody : Chain W body (Insert.insert var B)) : Chain W (.bind var expr body) B

/-- `op` is well scoped where the variables of `B` have values, and writes the relations `W`. -/
inductive Op.Scoped (W : Set Name) : Op → Set Name → Prop
  | nop {B : Set Name} : Scoped W .nop B
  | iterate {B : Set Name} {source : DataSource} {body : Op} (hread : source.Reads B)
      (hdis : Disjoint (names source.vars) B) (hbody : Scoped W body (names source.vars ∪ B)) :
      Scoped W (.iterate source body) B
  | filter {B : Set Name} {cond : Condition} {body : Op} (hread : cond.Reads B)
      (hbody : Scoped W body B) : Scoped W (.filter cond body) B
  | insert {B : Set Name} {rel : Name} {args : List Operand} (hrel : rel ∈ W)
      (hread : ∀ a ∈ args, a.Reads B) : Scoped W (.insert rel args) B
  | bind {B : Set Name} {var : Name} {expr : Expr} {body : Op} (hread : expr.Reads B)
      (hvar : var ∉ B) (hbody : Scoped W body (Insert.insert var B)) :
      Scoped W (.bind var expr body) B
  | groupBy {B : Set Name} {source : Name} {vars keys : List Name} {aggs : List Aggregate}
      {body : Op} (hsrc : source ∉ W) (hkeys : ∀ k ∈ keys, k ∈ vars)
      (hdis : Disjoint (names vars) B)
      (haggs : ∀ agg ∈ aggs, agg.var ∉ B ∧ ∀ a ∈ agg.args, a.Reads (names vars ∪ B))
      (hlocal : ∀ v ∈ body.assigned, v ∉ B)
      (hbody : body.Chain W (names (keys ++ aggs.map Aggregate.var) ∪ B)) :
      Scoped W (.groupBy source vars keys aggs body) B
  | hashJoin {B : Set Name} {build probe : DataSource} {keys : List Name} {body : Op}
      (hbuild : build.Reads B) (hprobe : probe.Reads B)
      (hkeys : ∀ k, k ∈ keys ↔ k ∈ build.vars ∧ k ∈ probe.vars)
      (hnodup : build.vars.Nodup ∧ probe.vars.Nodup)
      (hdisb : Disjoint (names build.vars) B) (hdisp : Disjoint (names probe.vars) B)
      (hbody : Scoped W body (names build.vars ∪ (names probe.vars ∪ B))) :
      Scoped W (.hashJoin build probe keys body) B
  | matchField {B : Set Name} {structOp : Operand} {field : String} {var : Name} {body : Op}
      (hread : structOp.Reads B) (hvar : var ∉ B) (hbody : Scoped W body (Insert.insert var B)) :
      Scoped W (.matchField structOp field var body) B
  | iterateList {B : Set Name} {source : Operand} {var : Name} {body : Op}
      (hread : source.Reads B) (hvar : var ∉ B) (hbody : Scoped W body (Insert.insert var B)) :
      Scoped W (.iterateList source var body) B

variable {A B : Set Name}

theorem Operand.Reads.mono (hs : A ⊆ B) {op : Operand} (h : op.Reads A) :
    op.Reads B := by
  cases op with
  | var v => exact hs h
  | const c => trivial

theorem Condition.Reads.mono (hs : A ⊆ B) {c : Condition} (h : c.Reads A) :
    c.Reads B := by
  induction c with
  | cmp op l r => exact ⟨h.1.mono hs, h.2.mono hs⟩
  | negation rel args => exact fun a ha => (h a ha).mono hs
  | call fn args => exact ⟨h.1, fun a ha => (h.2 a ha).mono hs⟩
  | not inner ih => exact ih h

theorem Expr.Reads.mono (hs : A ⊆ B) {e : Expr} (h : e.Reads A) : e.Reads B := by
  cases e with
  | value op => exact Operand.Reads.mono hs h
  | call fn args => exact fun a ha => (h a ha).mono hs

theorem DataSource.Reads.mono (hs : A ⊆ B) {src : DataSource} (h : src.Reads A) :
    src.Reads B := by
  cases src with
  | scan | scanDelta => trivial
  | indexLookup rel col key vars => exact Operand.Reads.mono hs h

theorem Op.Chain.mono {W : Set Name} {op : Op} (hs : A ⊆ B) (h : op.Chain W A) :
    op.Chain W B := by
  induction h generalizing B with
  | insert hrel hread => exact .insert hrel fun a ha => (hread a ha).mono hs
  | bind hread _ ih => exact .bind (hread.mono hs) (ih (Set.insert_subset_insert hs))

/-- **More variables may be in scope**, as long as the operation assigns none of them. -/
theorem Op.Scoped.weaken {W : Set Name} {op : Op} (h : op.Scoped W B)
    (hA : ∀ v ∈ op.assigned, v ∉ A) : op.Scoped W (A ∪ B) := by
  have hsub (B : Set Name) : B ⊆ A ∪ B := Set.subset_union_right
  induction h with
  | nop => exact .nop
  | @iterate B source body hread hdis _ ih =>
    simp only [Op.assigned, mem_append] at hA
    refine .iterate (hread.mono (hsub _)) ?_ ?_
    · exact Set.disjoint_union_right.mpr
        ⟨Set.disjoint_left.mpr fun v hv => hA v (Or.inl hv), hdis⟩
    · rw [Set.union_left_comm]
      exact ih fun v hv => hA v (Or.inr hv)
  | filter hread _ ih => exact .filter (hread.mono (hsub _)) (ih hA)
  | insert hrel hread => exact .insert hrel fun a ha => (hread a ha).mono (hsub _)
  | @bind B var expr body hread hvar _ ih =>
    simp only [Op.assigned, mem_cons] at hA
    refine .bind (hread.mono (hsub _)) (fun hv => hv.elim (hA var (Or.inl rfl)) hvar) ?_
    rw [← Set.union_insert]
    exact ih fun v hv => hA v (Or.inr hv)
  | @groupBy B source vars keys aggs body hsrc hkeys hdis haggs hlocal hbody =>
    simp only [Op.assigned, mem_append] at hA
    refine .groupBy hsrc hkeys ?_ (fun agg hagg => ⟨?_, fun a ha => ?_⟩) (fun v hv hAB => ?_) ?_
    · exact Set.disjoint_union_right.mpr
        ⟨Set.disjoint_left.mpr fun v hv => hA v (Or.inl (Or.inl (Or.inl hv))), hdis⟩
    · have := hA agg.var (Or.inl (Or.inr (mem_map_of_mem hagg)))
      exact fun hv => hv.elim this (haggs agg hagg).1
    · exact ((haggs agg hagg).2 a ha).mono (Set.union_subset_union_right _ (hsub _))
    · exact hAB.elim (hA v (Or.inr hv)) (hlocal v hv)
    · exact hbody.mono (Set.union_subset_union_right _ (hsub _))
  | @hashJoin B build probe keys body hbuild hprobe hkeys hnodup hdisb hdisp _ ih =>
    simp only [Op.assigned, mem_append] at hA
    refine .hashJoin (hbuild.mono (hsub _)) (hprobe.mono (hsub _)) hkeys hnodup ?_ ?_ ?_
    · exact Set.disjoint_union_right.mpr
        ⟨Set.disjoint_left.mpr fun v hv => hA v (Or.inl (Or.inl hv)), hdisb⟩
    · exact Set.disjoint_union_right.mpr
        ⟨Set.disjoint_left.mpr fun v hv => hA v (Or.inl (Or.inr hv)), hdisp⟩
    · rw [Set.union_left_comm (names probe.vars), Set.union_left_comm (names build.vars)]
      exact ih fun v hv => hA v (Or.inr hv)
  | @matchField B structOp field var body hread hvar _ ih =>
    simp only [Op.assigned, mem_cons] at hA
    refine .matchField (hread.mono (hsub _)) (fun hv => hv.elim (hA var (Or.inl rfl)) hvar) ?_
    rw [← Set.union_insert]
    exact ih fun v hv => hA v (Or.inr hv)
  | @iterateList B source var body hread hvar _ ih =>
    simp only [Op.assigned, mem_cons] at hA
    refine .iterateList (hread.mono (hsub _)) (fun hv => hv.elim (hA var (Or.inl rfl)) hvar) ?_
    rw [← Set.union_insert]
    exact ih fun v hv => hA v (Or.inr hv)

/-! ## Environments that agree -/

/-- The environments agree on `B`. -/
def AgreeOn (B : Set Name) (env ρ : Env) : Prop := ∀ v ∈ B, env v = ρ v

namespace AgreeOn

variable {A B : Set Name} {env env' ρ : Env}

variable (h : AgreeOn B env ρ)

include h

theorem mono (hs : A ⊆ B) : AgreeOn A env ρ := fun v hv => h v (hs hv)

theorem set (v : Name) (x : Value) : AgreeOn (insert v B) (env.set v x) (ρ.set v x) := by
  intro w hw
  by_cases hwv : w = v
  · subst hwv
    simp [Env.set]
  · simp only [Env.set, Function.update_of_ne hwv]
    exact h w (hw.resolve_left hwv)

theorem bindVars (vars : List Name) (t : Tuple) (hlen : t.length = vars.length) :
    AgreeOn (names vars ∪ B) (env.bindVars vars t) (ρ.bindVars vars t) := by
  induction vars generalizing t env ρ B with
  | nil => exact h.mono (by rintro v (hv | hv); exacts [by simp at hv, hv])
  | cons v vs ih =>
    obtain ⟨x, xs, rfl⟩ := exists_cons_of_length_eq_add_one hlen
    refine (ih (h.set v x) xs (by simpa using hlen)).mono ?_
    rintro w (hw | hw)
    · rcases mem_cons.mp hw with rfl | hw
      · exact Or.inr (Set.mem_insert w B)
      · exact Or.inl hw
    · exact Or.inr (Set.mem_insert_of_mem v hw)

theorem evalOperand {op : Operand} (hop : op.Reads B) :
    evalOperand env op = Mangle.evalOperand ρ op := by
  cases op with
  | var v => simp only [Mangle.evalOperand, h v hop]
  | const c => rfl

theorem evalOperands (hargs : ∀ a ∈ args, a.Reads B) :
    evalOperands env args = Mangle.evalOperands ρ args := by
  unfold Mangle.evalOperands
  induction args with
  | nil => rfl
  | cons a as ih =>
    rw [mapM_cons, mapM_cons, h.evalOperand (hargs a (by simp)),
      ih fun b hb => hargs b (mem_cons_of_mem a hb)]

theorem evalExpr (rt : Runtime) {e : Expr} (he : e.Reads B) :
    evalExpr rt env e = Mangle.evalExpr rt ρ e := by
  cases e with
  | value op => exact h.evalOperand he
  | call fn args => simp only [Mangle.evalExpr, h.evalOperands he]

theorem matchArgs (hargs : ∀ a ∈ args, a.Reads B) (t : Tuple) :
    matchArgs env args t = Mangle.matchArgs ρ args t := by
  induction args generalizing t with
  | nil => cases t <;> rfl
  | cons a as ih =>
    cases t with
    | nil => rfl
    | cons x xs =>
      simp only [Mangle.matchArgs, h.evalOperand (hargs a (by simp)),
        ih fun b hb => hargs b (mem_cons_of_mem a hb)]

theorem noMatch (hargs : ∀ a ∈ args, a.Reads B) (ts : List Tuple) :
    noMatch env args ts = Mangle.noMatch ρ args ts := by
  induction ts with
  | nil => rfl
  | cons t ts ih => simp only [Mangle.noMatch, h.matchArgs hargs, ih]

theorem evalCond (r : Reader) {c : Condition} (hc : c.Reads B) :
    evalCond r env c = Mangle.evalCond r ρ c := by
  induction c with
  | cmp op l r => simp only [Mangle.evalCond, h.evalOperand hc.1, h.evalOperand hc.2]
  | negation rel args => simp only [Mangle.evalCond, h.noMatch hc]
  | call fn args => simp only [Mangle.evalCond, h.evalOperands hc.2]
  | not inner ih => simp only [Mangle.evalCond, ih hc]

theorem collectDataSource (r : Reader) {src : DataSource} (hs : src.Reads B) :
    collectDataSource r env src = Mangle.collectDataSource r ρ src := by
  cases src with
  | scan rel vars => rfl
  | scanDelta rel vars => rfl
  | indexLookup rel col key vars => simp only [Mangle.collectDataSource, h.evalOperand hs]

end AgreeOn

/-! ## Bindings outside a set -/

variable {vars : List Name}

section Outside

variable {env : Env} {v : Name}

@[simp] theorem Env.set_self (env : Env) (v : Name) (x : Value) : env.set v x v = some x := by
  simp [Env.set]

theorem Env.set_of_ne {w : Name} (x : Value) (h : w ≠ v) : env.set v x w = env w := by
  simp [Env.set, h]

theorem Env.remove_of_ne {w : Name} (h : w ≠ v) : env.remove v w = env w := by
  simp [Env.remove, h]

theorem Env.bindVars_of_notMem (h : v ∉ vars) :
    env.bindVars vars t v = env v := by
  induction vars generalizing env t with
  | nil => rfl
  | cons w ws ih =>
    cases t with
    | nil => rfl
    | cons x xs =>
      simp only [mem_cons, not_or] at h
      rw [Env.bindVars, ih h.2, Env.set_of_ne x h.1]

end Outside

variable {B : Set Name} {v : Name}

/-- Setting a variable outside `B` changes nothing on it. -/
theorem agreeOn_set (hv : v ∉ B) (ρ : Env) (x : Value) :
    AgreeOn B (ρ.set v x) ρ := fun _ hw => Env.set_of_ne x fun heq => hv (heq ▸ hw)

theorem agreeOn_remove (hv : v ∉ B) (ρ : Env) :
    AgreeOn B (ρ.remove v) ρ := fun _ hw => Env.remove_of_ne fun heq => hv (heq ▸ hw)

theorem agreeOn_bindVars (hd : Disjoint (names vars) B) (ρ : Env)
    (t : Tuple) : AgreeOn B (ρ.bindVars vars t) ρ := fun _ hw =>
  Env.bindVars_of_notMem fun hv => Set.disjoint_left.mp hd hv hw

theorem AgreeOn.trans {a b c : Env} (h : AgreeOn B a b) (h' : AgreeOn B b c) :
    AgreeOn B a c := fun v hv => (h v hv).trans (h' v hv)

/-! ## Join keys -/

/-- A variable of a source is bound to the column it names. -/
theorem Env.bindVars_eq_column (hnd : vars.Nodup) (hlen : t.length = vars.length) (hv : v ∈ vars)
    (env : Env) :
    env.bindVars vars t v = (vars.idxOf? v).bind (t[·]?) := by
  induction vars generalizing env t with
  | nil => cases hv
  | cons w ws ih =>
    obtain ⟨x, xs, rfl⟩ := exists_cons_of_length_eq_add_one hlen
    obtain ⟨hw, hnd⟩ := nodup_cons.mp hnd
    simp only [Env.bindVars]
    rcases eq_or_ne v w with rfl | hne
    · simp [Env.bindVars_of_notMem hw, List.idxOf?_cons]
    · have hmem := (mem_cons.mp hv).resolve_left hne
      rw [ih hnd (by simpa using hlen) hmem]
      simp [List.idxOf?_cons, hne.symm, Option.bind_map]

/-- Equal lists of columns that are all there are equal column by column. -/
theorem eq_of_mapM_eq {α β : Type} {f g : α → Option β} {l : List α}
    (hf : ∀ a ∈ l, ∃ b, f a = some b) (h : l.mapM f = l.mapM g) : ∀ a ∈ l, f a = g a := by
  induction l with
  | nil => simp
  | cons a l ih =>
    obtain ⟨b, hb⟩ := hf a (by simp)
    obtain ⟨bs, hbs⟩ : ∃ bs, l.mapM f = some bs := by
      clear ih h
      induction l with
      | nil => exact ⟨[], rfl⟩
      | cons a' l ih =>
        obtain ⟨b', hb'⟩ := hf a' (by simp)
        obtain ⟨bs, hbs⟩ := ih fun c hc => hf c (by
          rcases mem_cons.mp hc with rfl | hc
          · simp
          · simp [hc])
        exact ⟨b' :: bs, by simp [mapM_cons, hb', hbs]⟩
    rw [mapM_cons, mapM_cons, hb, hbs] at h
    cases hg : g a with
    | none => simp [hg] at h
    | some c =>
      cases hgs : l.mapM g with
      | none => simp [hg, hgs] at h
      | some cs =>
        simp only [hg, hgs, Option.bind_eq_bind, Option.bind_some, Option.pure_def,
          Option.some.injEq, List.cons.injEq] at h
        intro a' ha'
        rcases mem_cons.mp ha' with rfl | ha'
        · rw [hb, hg, h.1]
        · exact ih (fun c hc => hf c (mem_cons_of_mem a hc)) (by rw [hbs, hgs, h.2]) a' ha'

theorem mem_joinPartners {build probe : DataSource} {rows : List Tuple} {p b : Tuple} :
    b ∈ joinPartners build probe keys rows p ↔
      b ∈ rows ∧ b.length = build.vars.length ∧
        joinKey build.vars keys b = joinKey probe.vars keys p := by
  simp [joinPartners]

/-- **Binding a partner keeps the columns of the probe tuple**: the columns the sources share are
the join keys. -/
theorem agreeOn_joinPartner {build probe : DataSource} {keys : List Name} {p b : Tuple}
    (hkeys : ∀ k, k ∈ keys ↔ k ∈ build.vars ∧ k ∈ probe.vars)
    (hnodup : build.vars.Nodup ∧ probe.vars.Nodup) (hdis : Disjoint (names build.vars) B)
    (hb : b.length = build.vars.length) (hp : p.length = probe.vars.length)
    (hkey : joinKey build.vars keys b = joinKey probe.vars keys p) (ρ : Env) :
    AgreeOn (names probe.vars ∪ B) ((ρ.bindVars probe.vars p).bindVars build.vars b)
      (ρ.bindVars probe.vars p) := by
  intro v hv
  by_cases hvb : v ∈ build.vars
  · have hvp : v ∈ probe.vars := hv.resolve_right (Set.disjoint_left.mp hdis hvb)
    have hcols : ∀ k ∈ keys, ∃ x, (build.vars.idxOf? k).bind (b[·]?) = some x := by
      intro k hk
      obtain ⟨x, hx⟩ := Option.isSome_iff_exists.mp
        (isSome_idxOf?.mpr ((hkeys k).mp hk).1)
      have hlt := (List.findIdx?_eq_some_iff_getElem.mp hx).1
      have hxb : x < b.length := hb ▸ hlt
      exact ⟨b.get ⟨x, hxb⟩, by simp [hx, hxb]⟩
    rw [Env.bindVars_eq_column hnodup.1 hb hvb, Env.bindVars_eq_column hnodup.2 hp hvp]
    exact eq_of_mapM_eq hcols hkey v ((hkeys v).mpr ⟨hvb, hvp⟩)
  · exact Env.bindVars_of_notMem hvb

/-! ## Groups -/

/-- A variable of the source is bound to its column, whatever the environment was. -/
theorem bindVars_congr (hlen : t.length = vars.length) {k : Name} (hk : k ∈ vars)
    (env ρ : Env) : env.bindVars vars t k = ρ.bindVars vars t k := by
  have h : AgreeOn ∅ env ρ := fun v hv => absurd hv (Set.notMem_empty v)
  exact h.bindVars vars t hlen k (Or.inl hk)

/-- **The groups do not depend on the environment**, as long as the keys are source columns. -/
theorem groupTuples_congr (hk : ∀ k ∈ keys, k ∈ vars) (ts : List Tuple)
    (env ρ : Env) (gs : List Group) :
    (groupTuples vars keys ts env gs).2 = (groupTuples vars keys ts ρ gs).2 := by
  induction ts generalizing env ρ gs with
  | nil => rfl
  | cons t ts ih =>
    simp only [groupTuples]
    split
    · exact ih env ρ gs
    · rename_i hlen
      have hkeys : keys.map (keyValue (env.bindVars vars t)) =
          keys.map (keyValue (ρ.bindVars vars t)) := by
        refine map_congr_left fun k hk' => ?_
        rw [keyValue, keyValue, bindVars_congr (not_not.mp hlen) (hk k hk') env ρ]
      rw [hkeys]
      exact ih _ _ _

/-- Grouping binds the source variables only. -/
theorem groupTuples_of_notMem (hv : v ∉ vars) (ts : List Tuple)
    (env : Env) (gs : List Group) : (groupTuples vars keys ts env gs).1 v = env v := by
  induction ts generalizing env gs with
  | nil => rfl
  | cons t ts ih =>
    simp only [groupTuples]
    split
    · exact ih env gs
    · rw [ih, Env.bindVars_of_notMem hv]

/-- The tuples of a group have a column for each source variable, its key one value for each key. -/
def Group.Fits (vars keys : List Name) (g : Group) : Prop :=
  g.1.length = keys.length ∧ ∀ t ∈ g.2, t.length = vars.length

theorem addToGroups_fits {key : Tuple} (hkey : key.length = keys.length)
    (ht : t.length = vars.length) {gs : List Group} (h : ∀ g ∈ gs, g.Fits vars keys) :
    ∀ g ∈ addToGroups key t gs, g.Fits vars keys := by
  induction gs with
  | nil =>
    simp only [addToGroups, mem_singleton]
    rintro g rfl
    exact ⟨hkey, by simpa using ht⟩
  | cons g gs ih =>
    have hg := h g (by simp)
    have hgs := ih fun g' hg' => h g' (mem_cons_of_mem g hg')
    simp only [addToGroups]
    split
    · simp only [mem_cons]
      rintro g' (rfl | hg')
      · refine ⟨hg.1, fun u hu => ?_⟩
        rcases mem_append.mp hu with hu | hu
        · exact hg.2 u hu
        · rw [mem_singleton.mp hu, ht]
      · exact h g' (mem_cons_of_mem g hg')
    · simp only [mem_cons]
      rintro g' (rfl | hg')
      · exact hg
      · exact hgs g' hg'

theorem groupTuples_fits (ts : List Tuple) (env : Env) {gs : List Group}
    (h : ∀ g ∈ gs, g.Fits vars keys) :
    ∀ g ∈ (groupTuples vars keys ts env gs).2, g.Fits vars keys := by
  induction ts generalizing env gs with
  | nil => exact h
  | cons t ts ih =>
    simp only [groupTuples]
    split
    · exact ih env h
    · rename_i hlen
      exact ih _ (addToGroups_fits (by simp) (not_not.mp hlen) h)

variable {env ρ : Env}

/-- **The arguments of a reducer are read off the source columns**, and only those are assigned. -/
theorem AgreeOn.reducerArgs {arg : Operand} (harg : arg.Reads (names vars ∪ A)) (ts : List Tuple)
    (hts : ∀ t ∈ ts, t.length = vars.length) (h : AgreeOn A env ρ) :
    Lift Eq (fun x y => x.1 = y.1 ∧ AgreeOn A x.2 y.2 ∧ ∀ v ∉ vars, y.2 v = ρ v)
      (reducerArgs arg vars ts env) (reducerArgs arg vars ts ρ) := by
  induction ts generalizing env ρ with
  | nil => exact .ok ⟨rfl, h, fun _ _ => rfl⟩
  | cons t ts ih =>
    have hag := h.bindVars vars t (hts t (by simp))
    have hrest := ih (fun u hu => hts u (mem_cons_of_mem t hu))
      (hag.mono Set.subset_union_right)
    simp only [Mangle.reducerArgs, hag.evalOperand harg]
    refine (Lift.refl (fun _ => rfl) (fun _ => rfl) _).bind fun v w (hvw : v = w) => ?_
    subst hvw
    refine hrest.bind ?_
    rintro ⟨vs, env'⟩ ⟨vs', ρ'⟩ ⟨hvs, hag', hout⟩
    have hkeep : ∀ w ∉ vars, ρ' w = ρ w := fun w hw => (hout w hw).trans (Env.bindVars_of_notMem hw)
    exact .ok ⟨congrArg (v :: ·) hvs, hag', hkeep⟩

theorem AgreeOn.evalAggregate {agg : Aggregate} (hst : Host)
    (harg : ∀ a ∈ agg.args, a.Reads (names vars ∪ A)) (ts : List Tuple)
    (hts : ∀ t ∈ ts, t.length = vars.length) (h : AgreeOn A env ρ) :
    Lift Eq (fun x y => x.1 = y.1 ∧ AgreeOn A x.2 y.2 ∧ ∀ v ∉ vars, y.2 v = ρ v)
      (evalAggregate hst agg ts vars env) (evalAggregate hst agg ts vars ρ) := by
  by_cases hcount : agg.func = "fn:count"
  · simp only [Mangle.evalAggregate, hcount, if_true]
    exact .ok ⟨rfl, h, fun _ _ => rfl⟩
  · simp only [Mangle.evalAggregate, hcount, if_false]
    cases hargs : agg.args with
    | nil =>
      simp only
      split <;> exact .error rfl
    | cons arg args =>
      refine (h.reducerArgs (harg arg (by simp [hargs])) ts hts).bind ?_
      rintro ⟨vs, env'⟩ ⟨vs', ρ'⟩ ⟨rfl, hag⟩
      refine (Lift.refl (fun _ => rfl) (fun _ => rfl) _).bind fun v w (hvw : v = w) => ?_
      exact .ok ⟨hvw, hag⟩

/-- The reducers of a group, one after the other. -/
theorem AgreeOn.aggregates {aggs : List Aggregate} (hst : Host)
    (hdis : Disjoint (names vars) B)
    (haggs : ∀ agg ∈ aggs, agg.var ∉ B ∧ ∀ a ∈ agg.args, a.Reads (names vars ∪ B))
    {ts : List Tuple} (hts : ∀ t ∈ ts, t.length = vars.length) (hBA : B ⊆ A)
    (h : AgreeOn A env ρ) :
    Lift Eq (fun env' ρ' => AgreeOn (names (aggs.map Aggregate.var) ∪ A) env' ρ' ∧ AgreeOn B ρ' ρ)
      (aggs.foldlM (fun env agg => do
        let (v, env) ← Mangle.evalAggregate hst agg ts vars env
        pure (env.set agg.var v)) env)
      (aggs.foldlM (fun env agg => do
        let (v, env) ← Mangle.evalAggregate hst agg ts vars env
        pure (env.set agg.var v)) ρ) := by
  induction aggs generalizing A env ρ with
  | nil => exact .ok ⟨h.mono (by rintro v (hv | hv); exacts [by simp at hv, hv]), fun _ _ => rfl⟩
  | cons agg aggs ih =>
    obtain ⟨⟨hvar, hargs⟩, haggs⟩ := forall_mem_cons.mp haggs
    have hread : ∀ a ∈ agg.args, a.Reads (names vars ∪ A) := fun a ha =>
      (hargs a ha).mono (Set.union_subset_union_right _ hBA)
    simp only [foldlM_cons]
    refine Lift.bind (R := fun env' ρ' => AgreeOn (insert agg.var A) env' ρ' ∧ AgreeOn B ρ' ρ)
      ((h.evalAggregate hst hread ts hts).bind ?_) fun env' ρ' ⟨hag', hkeep⟩ => ?_
    · rintro ⟨v, env'⟩ ⟨v', ρ'⟩ ⟨rfl, hag', hout⟩
      refine .ok ⟨hag'.set agg.var v, (agreeOn_set hvar ρ' v).trans fun w hw => ?_⟩
      exact hout w fun hmem => Set.disjoint_left.mp hdis hmem hw
    · refine (ih haggs (hBA.trans (Set.subset_insert _ _)) hag').mono
        fun _ _ ⟨hfin, hB⟩ => ⟨hfin.mono ?_, hB.trans hkeep⟩
      rintro v (hv | hv)
      · rcases mem_cons.mp hv with rfl | hv
        · exact Or.inr (Set.mem_insert _ _)
        · exact Or.inl hv
      · exact Or.inr (Set.mem_insert_of_mem _ hv)

/-- **The environment of a group's body** agrees on the keys, the reducers and what it agreed on,
which stays. -/
theorem AgreeOn.bindGroup {aggs : List Aggregate} (hst : Host)
    (hdis : Disjoint (names vars) B) (hkeys : ∀ k ∈ keys, k ∈ vars)
    (haggs : ∀ agg ∈ aggs, agg.var ∉ B ∧ ∀ a ∈ agg.args, a.Reads (names vars ∪ B)) {g : Group}
    (hg : g.Fits vars keys) (h : AgreeOn B env ρ) :
    Lift Eq (fun env' ρ' => AgreeOn (names (keys ++ aggs.map Aggregate.var) ∪ B) env' ρ' ∧
        AgreeOn B ρ' ρ)
      (bindGroup hst vars keys aggs g env) (bindGroup hst vars keys aggs g ρ) := by
  refine ((h.bindVars keys g.1 hg.1).aggregates hst hdis haggs hg.2 Set.subset_union_right).mono
    fun _ _ ⟨hag, hB⟩ => ⟨hag.mono ?_, hB.trans (agreeOn_bindVars (hdis.mono_left hkeys) ρ g.1)⟩
  rintro v (hv | hv)
  · rcases mem_append.mp hv with hv | hv
    · exact Or.inr (Or.inl hv)
    · exact Or.inl hv
  · exact Or.inr (Or.inr hv)

end Mangle

import Mathlib.Data.List.Dedup
import Mangle.Analysis.Rename
import Mangle.Analysis.StratificationSound

/-!
# Driver/Agree — two compilers for one source

`compile_source` of the database and `compile_units` of the driver collect the predicates of a unit
in walks of their own before they share the stratification, the lowering and the checks.  The walk
of the database passes over temporal atoms: a predicate that only they name is not extensional.

* `compilers_agree_iff` — the compilers agree on a source exactly when they reject it or every
  predicate of a temporal atom is also one of a head, an atom or a negated atom;
* `compilers_disagree` — `p(X) :- q(X)@[S, T].`
-/

namespace Mangle.Frontend

open Machinery List Parse

/-! ## The compilers -/

/-- What the stratification sees of a premise. -/
def literalView : Parse.Literal → Mangle.Literal String
  | .atom a => .atom a.sym
  | .temporalAtom a _ => .temporalAtom a.sym
  | .negAtom a => .negAtom a.sym
  | .eq .. | .ineq .. => .other

/-- What the stratification sees of a clause. -/
def clauseView (c : Parse.Clause) : Mangle.Clause String :=
  ⟨c.head.sym, c.premises.map literalView, c.transform.map (·.var.isSome)⟩

/-- `StratifiedProgram`. -/
structure StratifiedProgram where
  extensionalPreds : List String
  intensionalPreds : List String
  strata : List (List String)
  deriving DecidableEq

/-- What the compilers share: the parser, the lowering with its checks, and the orders in which the
set of predicates and the stratifier's tables are walked. -/
structure Toolchain where
  parseUnit : List Char → Except String SourceUnit
  check : SourceUnit → Except String Unit
  predOrder : HashOrder
  orders : HashOrders String

/-- The predicate of a premise, for `compile_source`. -/
def sourcePred? : Parse.Literal → Option String
  | .atom a | .negAtom a => some a.sym
  | .temporalAtom .. | .eq .. | .ineq .. => none

/-- The predicate of a premise, for `compile_units`. -/
def unitsPred? : Parse.Literal → Option String
  | .atom a | .negAtom a | .temporalAtom a _ => some a.sym
  | .eq .. | .ineq .. => none

namespace Toolchain

variable (tc : Toolchain) {unit : SourceUnit} {pred? : Parse.Literal → Option String} {p : String}

/-- The collected predicates without clauses. -/
def extPreds (pred? : Parse.Literal → Option String) (unit : SourceUnit) : List String :=
  let allPreds := unit.clauses.flatMap fun c => c.head.sym :: c.premises.filterMap pred?
  let idbPreds := unit.clauses.map (·.head.sym)
  (tc.predOrder.perm allPreds.dedup).filter (· ∉ idbPreds)

/-- The program that is stratified. -/
def program (pred? : Parse.Literal → Option String) (unit : SourceUnit) : ClauseProgram String :=
  .ofClauses (tc.extPreds pred? unit) (unit.clauses.map clauseView)

/-- What the compilers do with a unit, given their walks. -/
def compileUnit (pred? : Parse.Literal → Option String) (unit : SourceUnit) :
    Except String StratifiedProgram := do
  let program := tc.program pred? unit
  let strata ← stratify tc.orders program
  tc.check unit
  pure ⟨program.extPreds, program.rules.keys, strata⟩

/-- `compile_source`. -/
def compileSource (source : List Char) : Except String StratifiedProgram := do
  let unit ← tc.parseUnit source
  tc.compileUnit sourcePred? (rewriteUnit unit)

/-- `compile_units`. -/
def compileUnits (sources : List (List Char)) : Except String StratifiedProgram := do
  let units ← sources.mapM fun source => rewriteUnit <$> tc.parseUnit source
  tc.compileUnit unitsPred? ⟨units.flatMap (·.decls), units.flatMap (·.clauses)⟩

/-! ## What the walks decide -/

theorem mem_extPreds : p ∈ tc.extPreds pred? unit ↔
    (∃ c ∈ unit.clauses, ∃ l ∈ c.premises, pred? l = some p) ∧
      p ∉ unit.clauses.map (·.head.sym) := by
  simp only [extPreds, mem_filter, (tc.predOrder.perm_perm _).mem_iff, mem_dedup, mem_flatMap,
    mem_cons, mem_filterMap, decide_eq_true_eq, mem_map]
  refine and_congr_left fun hhead => ⟨?_, fun ⟨c, hc, h⟩ => ⟨c, hc, Or.inr h⟩⟩
  rintro ⟨c, hc, rfl | h⟩
  · exact absurd ⟨c, hc, rfl⟩ hhead
  · exact ⟨c, hc, h⟩

variable {tc} in
theorem extPreds_of_compileUnit {prog : StratifiedProgram}
    (h : tc.compileUnit pred? unit = .ok prog) :
    prog.extensionalPreds = tc.extPreds pred? unit := by
  simp only [compileUnit, bind_eq_ok] at h
  obtain ⟨strata, -, ⟨⟩, -, heq⟩ := h
  cases heq
  exact extPreds_ofClauses

/-- Strata depend on which predicates are extensional, not on their order. -/
theorem stratify_program {pred?' : Parse.Literal → Option String}
    (h : ∀ p, p ∈ tc.extPreds pred? unit ↔ p ∈ tc.extPreds pred?' unit) :
    stratify tc.orders (tc.program pred? unit) = stratify tc.orders (tc.program pred?' unit) ∧
      (tc.program pred? unit).rules = (tc.program pred?' unit).rules := by
  have hfold (pred? : Parse.Literal → Option String) : (tc.program pred? unit).rules =
      (unit.clauses.map clauseView).foldl (fun rules c => rules.modify c.head (· ++ [c])) ∅ :=
    (foldl_hom ClauseProgram.rules fun _ _ => rfl).symm
  have hrules := (hfold pred?).trans (hfold pred?').symm
  have hedge : Literal.edge (tc.program pred? unit).extPreds =
      Literal.edge (tc.program pred?' unit).extPreds := by
    funext aggregates l
    simp only [program, extPreds_ofClauses]
    cases l <;> simp only [Literal.edge, h]
  refine ⟨?_, hrules⟩
  have hgraph : makeDepGraph tc.orders (tc.program pred? unit) =
      makeDepGraph tc.orders (tc.program pred?' unit) := by
    simp only [makeDepGraph, addRules, Clause.edges, hedge, hrules]
  simp only [stratify, hgraph]

end Toolchain

/-! ## Agreement -/

/-- Both reject, or their programs have the same predicates and strata. -/
def Agree : Except String StratifiedProgram → Except String StratifiedProgram → Prop
  | .ok prog, .ok prog' =>
      (∀ p, p ∈ prog.extensionalPreds ↔ p ∈ prog'.extensionalPreds) ∧
        (∀ p, p ∈ prog.intensionalPreds ↔ p ∈ prog'.intensionalPreds) ∧ prog.strata = prog'.strata
  | .error _, .error _ => True
  | _, _ => False

/-- The predicate of each temporal atom is also that of a head, an atom or a negated atom. -/
def TemporalKnown (unit : SourceUnit) : Prop :=
  ∀ c ∈ unit.clauses, ∀ a time, .temporalAtom a time ∈ c.premises →
    ∃ c' ∈ unit.clauses, c'.head.sym = a.sym ∨ ∃ l ∈ c'.premises, sourcePred? l = some a.sym

theorem extPreds_same_iff (tc : Toolchain) {unit : SourceUnit} :
    (∀ p, p ∈ tc.extPreds sourcePred? unit ↔ p ∈ tc.extPreds unitsPred? unit) ↔
      TemporalKnown unit := by
  have hsub {l : Parse.Literal} {p : String} (h : sourcePred? l = some p) :
      unitsPred? l = some p := by
    cases l <;> first | exact h | cases h
  simp only [Toolchain.mem_extPreds, mem_map, not_exists, not_and]
  constructor
  · intro h c hc a time hmem
    by_contra hno
    push Not at hno
    obtain ⟨⟨c', hc', l, hl, heq⟩, -⟩ :=
      (h a.sym).mpr ⟨⟨c, hc, _, hmem, rfl⟩, fun c' hc' => (hno c' hc').1⟩
    exact (hno c' hc').2 l hl heq
  · refine fun h p => and_congr_left fun hhead => ⟨?_, ?_⟩
    · rintro ⟨c, hc, l, hl, heq⟩
      exact ⟨c, hc, l, hl, hsub heq⟩
    · rintro ⟨c, hc, l, hl, heq⟩
      cases l with
      | temporalAtom a time =>
        obtain rfl := Option.some.inj heq
        obtain ⟨c', hc', hsym | hread⟩ := h c hc a time hl
        · exact absurd hsym (hhead c' hc')
        · exact ⟨c', hc', hread⟩
      | _ => exact ⟨c, hc, _, hl, heq⟩

/-- The program of the unit cannot be stratified, or its lowering fails a check. -/
def Toolchain.Rejects (tc : Toolchain) (pred? : Parse.Literal → Option String) (unit : SourceUnit) :
    Prop :=
  (∃ e, stratify tc.orders (tc.program pred? unit) = .error e) ∨ ∃ e, tc.check unit = .error e

theorem Toolchain.rejects_iff {tc : Toolchain} {pred? : Parse.Literal → Option String}
    {unit : SourceUnit} : (∃ e, tc.compileUnit pred? unit = .error e) ↔ tc.Rejects pred? unit := by
  simp only [compileUnit, Rejects]
  cases stratify tc.orders (tc.program pred? unit) with
  | error e => simp
  | ok strata => cases tc.check unit <;> simp [pure, Except.pure]

/-- **The compilers agree** on a source exactly when it cannot be parsed, both stratifications or
checks reject it, or every predicate of a temporal atom occurs elsewhere. -/
theorem compilers_agree_iff (tc : Toolchain) (source : List Char) :
    Agree (tc.compileSource source) (tc.compileUnits [source]) ↔
      ∀ unit, tc.parseUnit source = .ok unit →
        tc.Rejects sourcePred? (rewriteUnit unit) ∧ tc.Rejects unitsPred? (rewriteUnit unit) ∨
          TemporalKnown (rewriteUnit unit) := by
  rcases hparse : tc.parseUnit source with e | unit
  · simp [Toolchain.compileSource, Toolchain.compileUnits, hparse, Agree]
  have hs : tc.compileSource source = tc.compileUnit sourcePred? (rewriteUnit unit) := by
    simp [Toolchain.compileSource, hparse]
  have hu : tc.compileUnits [source] = tc.compileUnit unitsPred? (rewriteUnit unit) := by
    simp [Toolchain.compileUnits, hparse]
  rw [hs, hu]
  simp only [Except.ok.injEq, forall_eq', ← Toolchain.rejects_iff]
  constructor
  · intro h
    rcases hs : tc.compileUnit sourcePred? (rewriteUnit unit) with e | prog <;>
      rcases hu : tc.compileUnit unitsPred? (rewriteUnit unit) with e' | prog' <;>
      rw [hs, hu] at h
    · exact Or.inl ⟨⟨e, rfl⟩, e', rfl⟩
    · exact h.elim
    · exact h.elim
    · refine Or.inr ((extPreds_same_iff tc).mp fun p => ?_)
      rw [← Toolchain.extPreds_of_compileUnit hs, ← Toolchain.extPreds_of_compileUnit hu]
      exact h.1 p
  · rintro (⟨⟨e, hs⟩, e', hu⟩ | h)
    · rw [hs, hu]
      trivial
    have hsame := (extPreds_same_iff tc).mpr h
    obtain ⟨hstrata, hrules⟩ := tc.stratify_program hsame
    simp only [Toolchain.compileUnit, hstrata, hrules]
    rcases stratify tc.orders (tc.program unitsPred? (rewriteUnit unit)) with e | strata
    · trivial
    rcases tc.check (rewriteUnit unit) with e | _
    · trivial
    · refine ⟨?_, fun _ => Iff.rfl, rfl⟩
      simpa only [Toolchain.program, extPreds_ofClauses] using hsame

/-- **They disagree** on `p(X) :- q(X)@[S, T].`: for the driver `q` is extensional; for the database
it is not, and has a stratum of its own. -/
theorem compilers_disagree :
    let rule : Parse.Clause := ⟨⟨"p", [.var "X"]⟩, none,
      [.temporalAtom ⟨"q", [.var "X"]⟩ ⟨.variable "S", .variable "T"⟩], []⟩
    let order := HashOrder.insertion
    let source := "p(X) :- q(X)@[S, T].".toList
    let parse text := if text = source then .ok ⟨[], [rule]⟩ else .error "syntax error"
    let tc : Toolchain := ⟨parse, fun _ => .ok (), order,
      order, order, fun _ => order, fun _ => order, fun _ => order⟩
    tc.compileSource source = .ok ⟨[], ["p"], [["q"], ["p"]]⟩ ∧
      tc.compileUnits [source] = .ok ⟨["q"], ["p"], [["p"]]⟩ := by
  decide +kernel

end Mangle.Frontend

import Mangle.Machinery.Text
import Mangle.Parse.Parser
import Mangle.Server.ProgramStore

/-!
# Server/Query — answering a query

`execute_query` parses an atom, reads its relation and keeps the tuples that agree with it.  What it
compares are the arguments that are numbers, strings or names; every other argument is a wildcard,
and two occurrences of a variable are two wildcards.

* `execute_query_exact` — for an atom of variables and constants, the answers are the instances of
  the atom whatever the relation holds if and only if the atom is simple;
* `query_ignores_repeated_variable` — `p(X, X)` is answered with `p(1, 2)`.
-/

namespace Mangle

open Machinery Parse List

variable {σ : Subst} {args : List Term} {t : Tuple} {a : Term}

/-! ## Queries -/

/-- `QueryArg`. -/
inductive QueryArg where
  | variable
  | stringConst (s : String)
  | nameConst (s : String)
  | numberConst (n : Int64)
  deriving DecidableEq

/-- `ParsedQuery`. -/
structure ParsedQuery where
  predicate : String
  args : List QueryArg

/-- The pattern of an argument: unknown forms are wildcards. -/
def queryArg : Term → QueryArg
  | .string s => .stringConst s
  | .name n => .nameConst n
  | .number n => .numberConst n
  | .var _ | .float _ | .time _ | .duration _ | .bool _ | .bytes _ | .app .. => .variable

/-- `parse_query`. -/
def parseQuery (lib : TextLib) (query : String) : Except ParseError ParsedQuery := do
  let atom ← runParser lib parseAtom query.toList
  pure ⟨atom.sym, atom.args.map queryArg⟩

/-- `parse_query_lenient`: what does not parse is read up to the first parenthesis. -/
def parseQueryLenient (lib : TextLib) (query : String) : Except StoreError ParsedQuery :=
  match parseQuery lib query with
  | .ok q => .ok q
  | .error _ =>
    let trimmed := trim query.toList
    if '(' ∉ trimmed then
      .error (.message s!"invalid query: cannot extract predicate from '{query}'")
    else
      let name := trim (trimmed.takeWhile (· ≠ '('))
      if name = [] then .error (.message "invalid query: empty predicate name")
      else .ok ⟨String.ofList name, []⟩

/-- Whether a value agrees with an argument. -/
def QueryArg.accepts : QueryArg → Value → Bool
  | .variable, _ => true
  | .stringConst s, v => v = .string s
  | .nameConst s, v => v = .name s
  | .numberConst n, v => v = .number n

/-- Whether a tuple has a column for each argument that agrees with it. -/
def acceptsTuple : List QueryArg → Tuple → Bool
  | [], _ => true
  | _ :: _, [] => false
  | a :: args, v :: t => a.accepts v && acceptsTuple args t

/-- `filter_tuples`. -/
def filterTuples (tuples : List Tuple) (query : ParsedQuery) : List Tuple :=
  tuples.filter (acceptsTuple query.args)

/-- `execute_query`. -/
def ProgramStore.executeQuery (lib : TextLib) (st : ProgramStore) (name query : String) :
    Except StoreError (List Tuple) :=
  match st.programs.lookup name with
  | none => .error (.message (notFoundMessage name))
  | some prog => do
    let parsed ← parseQueryLenient lib query
    match prog.db.query parsed.predicate with
    | none => .error (.db (.run .panic))
    | some tuples => pure (filterTuples tuples parsed)

/-! ## Instances -/

/-- The tuple is an instance of the arguments: some values for their variables make them the
tuple. -/
def Instance (rt : Runtime) (args : List Term) (t : Tuple) : Prop :=
  ∃ σ : Subst, evalTerms rt σ args = .ok t

/-- The term has one value, whatever its variables have. -/
def Term.IsConstant (rt : Runtime) (a : Term) : Prop := ∃ v, ∀ σ, evalTerm rt σ a = .ok v

/-- A variable, a number, a string or a name. -/
def Term.IsScalar : Term → Prop
  | .var _ | .number _ | .string _ | .name _ => True
  | .float _ | .time _ | .duration _ | .bool _ | .bytes _ | .app .. => False

/-- Every argument is a variable, a number, a string or a name, and no variable occurs twice. -/
structure Simple (args : List Term) : Prop where
  scalar : ∀ a ∈ args, a.IsScalar
  linear : args.Pairwise fun a b => ∀ x, a = .var x → b ≠ .var x

/-- The query, which reads as the atom, is answered with the instances of the atom over every
relation but those in which a longer tuple begins with an instance. -/
def AnswersExactly (lib : TextLib) (rt : Runtime) (query : String) (atom : Atom) : Prop :=
  ∀ (st : ProgramStore) (name : String) (prog : StoredProgram) (rows : List Tuple),
    st.programs.lookup name = some prog → prog.db.query atom.sym = some rows →
    ((∃ answers, st.executeQuery lib name query = .ok answers ∧ answers.Sublist rows ∧
        ∀ t, t ∈ answers ↔ t ∈ rows ∧ Instance rt atom.args t) ↔
      ∀ t ∈ rows, atom.args.length < t.length →
        ¬ Instance rt atom.args (t.take atom.args.length))

theorem evalTerms_eq_ok {rt : Runtime} :
    evalTerms rt σ args = .ok t ↔ List.Forall₂ (fun a v => evalTerm rt σ a = .ok v) args t := by
  induction args generalizing t with
  | nil => simp [evalTerms, eq_comm]
  | cons a args ih =>
    simp only [evalTerms, bind_eq_ok, ih, List.forall₂_cons_left_iff]
    constructor
    · rintro ⟨v, hv, vs, hvs, h⟩
      cases h
      exact ⟨v, vs, hv, hvs, rfl⟩
    · rintro ⟨v, vs, hv, hvs, rfl⟩
      exact ⟨v, hv, vs, hvs, rfl⟩

/-- The filter reads as many columns as there are arguments. -/
theorem acceptsTuple_iff : acceptsTuple (args.map queryArg) t = true ↔
    List.Forall₂ (fun a v => (queryArg a).accepts v = true) args (t.take args.length) := by
  induction args generalizing t with
  | nil => simp [acceptsTuple]
  | cons a args ih => cases t <;> simp [acceptsTuple, ih]

theorem Instance.length_eq {rt : Runtime} (h : Instance rt args t) : t.length = args.length := by
  obtain ⟨σ, hσ⟩ := h
  exact (evalTerms_eq_ok.mp hσ).length_eq.symm

/-- What an argument evaluates to is accepted. -/
theorem accepts_of_evalTerm {rt : Runtime} {v : Value} (h : evalTerm rt σ a = .ok v) :
    (queryArg a).accepts v = true := by
  cases a <;> simp_all [queryArg, QueryArg.accepts, evalTerm]

theorem mem_allVars_of_isScalar (h : a.IsScalar) {x : String} (hx : x ∈ a.allVars) :
    a = .var x := by
  cases a <;> simp_all [Term.allVars, Term.IsScalar]

/-- **A simple atom accepts its instances only**: no variable is asked for two values. -/
theorem instance_of_accepts (rt : Runtime) (hs : Simple args)
    (h : List.Forall₂ (fun a v => (queryArg a).accepts v = true) args t) : Instance rt args t := by
  induction h with
  | nil => exact ⟨fun _ => .null, rfl⟩
  | @cons a v args t ha _ ih =>
    obtain ⟨hnew, hlin⟩ := pairwise_cons.mp hs.linear
    have hscalar (b : Term) (hb : b ∈ args) := hs.scalar b (mem_cons_of_mem _ hb)
    obtain ⟨σ, hσ⟩ := ih ⟨hscalar, hlin⟩
    suffices ∃ τ, evalTerm rt τ a = .ok v ∧ evalTerms rt τ args = .ok t by
      obtain ⟨τ, h1, h2⟩ := this
      exact ⟨τ, by simp [evalTerms, h1, h2]⟩
    have ha' := hs.scalar a mem_cons_self
    cases a with
    | var x =>
      -- the other arguments do not read the variable
      refine ⟨Function.update σ x v, by simp [evalTerm], ?_⟩
      rw [evalTerms_congr (τ := σ) fun y hy => ?_, hσ]
      obtain ⟨b, hb, hyb⟩ := mem_allVarsList.mp hy
      refine Function.update_of_ne ?_ _ _
      rintro rfl
      exact hnew b hb y rfl (mem_allVars_of_isScalar (hscalar b hb) hyb)
    | number _ | string _ | name _ =>
      exact ⟨σ, by simp_all [queryArg, QueryArg.accepts, evalTerm], hσ⟩
    | float _ | time _ | duration _ | bool _ | bytes _ | app _ _ => exact ha'.elim

/-! ## Answers -/

section Answers

variable {lib : TextLib} {rt : Runtime} {query : String} {atom : Atom}

/-- The answers of a query that parses. -/
theorem executeQuery_of_parse (hparse : runParser lib parseAtom query.toList = .ok atom)
    {st : ProgramStore} {name : String} {prog : StoredProgram} {rows : List Tuple}
    (hprog : st.programs.lookup name = some prog) (hrows : prog.db.query atom.sym = some rows) :
    st.executeQuery lib name query =
      .ok (rows.filter (acceptsTuple (atom.args.map queryArg))) := by
  have hlenient : parseQueryLenient lib query = .ok ⟨atom.sym, atom.args.map queryArg⟩ := by
    simp [parseQueryLenient, parseQuery, hparse]
  simp only [ProgramStore.executeQuery, hprog, hlenient, ok_bind, hrows, filterTuples]
  rfl

/-- **A simple atom is answered with its instances.** -/
theorem answersExactly_of_simple (hparse : runParser lib parseAtom query.toList = .ok atom)
    (hs : Simple atom.args) : AnswersExactly lib rt query atom := by
  intro st name prog rows hprog hrows
  rw [executeQuery_of_parse hparse hprog hrows]
  have hacc (t : Tuple) : acceptsTuple (atom.args.map queryArg) t = true ↔
      Instance rt atom.args (t.take atom.args.length) := by
    rw [acceptsTuple_iff]
    refine ⟨instance_of_accepts rt hs, ?_⟩
    rintro ⟨σ, hσ⟩
    exact (evalTerms_eq_ok.mp hσ).imp fun _ _ => accepts_of_evalTerm
  constructor
  · rintro ⟨answers, hans, -, hmem⟩ t ht hlen hinst
    cases hans
    have hlen' := ((hmem t).mp (mem_filter.mpr ⟨ht, (hacc t).mpr hinst⟩)).2.length_eq
    omega
  · intro hlong
    refine ⟨_, rfl, filter_sublist, fun t => ?_⟩
    rw [mem_filter, hacc]
    refine and_congr_right fun ht => ⟨fun hinst => ?_, fun hinst => ?_⟩
    · -- a tuple that is accepted is not longer, so that it is what the filter reads of it
      rwa [take_of_length_le (not_lt.mp fun hlt => hlong t ht hlt hinst)] at hinst
    · rwa [take_of_length_le hinst.length_eq.le]

/-- The program of no clauses over one tuple. -/
def StoredProgram.single (rel : String) (t : Tuple) : StoredProgram where
  source := ""
  predicates := [rel]
  db := ⟨[], .inMemory, loadEdb [.ofScan [rel] (fun _ => [t]) none] .new, [], [], none⟩
  ledger := .empty

theorem query_single (rel : String) (t : Tuple) :
    (StoredProgram.single rel t).db.query rel = some [t] := by
  have h := (Rep.new.loadRows rel [t]).mergeDeltas.scan rel
  have hacc : Tiers.empty.Accepts rel t := by
    simp [Tiers.Accepts, Tiers.empty, Tiers.all, Tiers.visible]
  have hins : Tiers.empty.insertAll (rowsOf rel [t]) = Tiers.empty.push rel t := by
    change Tiers.empty.insert rel t = _
    rw [Tiers.insert, if_pos hacc]
  refine h.trans ?_
  rw [hins]
  simp [Tiers.push, Tiers.merge, Tiers.visible, Tiers.empty]

/-- An accepted tuple is an instance, if the atom is always answered with its instances. -/
theorem AnswersExactly.instance_of_accepts
    (hparse : runParser lib parseAtom query.toList = .ok atom)
    (h : AnswersExactly lib rt query atom)
    (ht : List.Forall₂ (fun a v => (queryArg a).accepts v = true) atom.args t) :
    Instance rt atom.args t := by
  have hrows := query_single atom.sym t
  let st : ProgramStore := { ProgramStore.new with
    programs := ProgramStore.new.programs.insert "" (.single atom.sym t) }
  have hprog : st.programs.lookup "" = some (.single atom.sym t) := AList.lookup_insert _
  have hlen : t.length = atom.args.length := ht.length_eq.symm
  obtain ⟨answers, hans, -, hmem⟩ := (h st "" _ [t] hprog hrows).mpr (by simp [hlen])
  rw [executeQuery_of_parse hparse hprog hrows] at hans
  cases hans
  refine ((hmem t).mp ?_).2
  simpa [acceptsTuple_iff, ← hlen] using ht

/-- A tuple that the arguments evaluate to at some values, with one column changed, is accepted if
that column's argument is a wildcard. -/
theorem accepts_set {i : Nat} (w : Value)
    (ht : List.Forall₂ (fun a v => evalTerm rt σ a = .ok v) args t) (hi : args[i]? = some a)
    (hw : queryArg a = .variable) :
    List.Forall₂ (fun a v => (queryArg a).accepts v = true) args (t.set i w) := by
  induction ht generalizing i with
  | nil => simp at hi
  | @cons b v args t hb ht ih =>
    cases i with
    | zero =>
      cases hi
      exact .cons (by simp [hw, QueryArg.accepts]) (ht.imp fun _ _ => accepts_of_evalTerm)
    | succ i => exact .cons (accepts_of_evalTerm hb) (ih (by simpa using hi))

/-- A column of an instance is what its argument evaluates to. -/
theorem evalTerm_of_forall₂ {i : Nat} {v : Value}
    (ht : List.Forall₂ (fun a v => evalTerm rt σ a = .ok v) args t) (hi : args[i]? = some a)
    (hv : t[i]? = some v) : evalTerm rt σ a = .ok v := by
  induction ht generalizing i with
  | nil => simp at hi
  | cons hb _ ih =>
    cases i with
    | zero =>
      cases hi
      cases hv
      exact hb
    | succ i => exact ih (by simpa using hi) (by simpa using hv)

theorem queryArg_of_not_isScalar (h : ¬ a.IsScalar) : queryArg a = .variable := by
  cases a <;> simp_all [Term.IsScalar, queryArg]

theorem exists_value_ne (v : Value) : ∃ w, w ≠ v := by
  by_cases h : v = .null
  · exact ⟨.number 0, by simp [h]⟩
  · exact ⟨.null, Ne.symm h⟩

/-- Arguments that are variables and constants have values, whatever the variables have. -/
theorem exists_evalTerms (hargs : ∀ a ∈ args, (∃ x, a = .var x) ∨ a.IsConstant rt) (σ : Subst) :
    ∃ t, List.Forall₂ (fun a v => evalTerm rt σ a = .ok v) args t := by
  induction args with
  | nil => exact ⟨[], .nil⟩
  | cons a args ih =>
    obtain ⟨t, ht⟩ := ih fun b hb => hargs b (mem_cons_of_mem _ hb)
    obtain ⟨x, rfl⟩ | ⟨v, hv⟩ := hargs a mem_cons_self
    · exact ⟨σ x :: t, .cons rfl ht⟩
    · exact ⟨v :: t, .cons (hv σ) ht⟩

/-- **Only a simple atom is always answered with its instances.** -/
theorem simple_of_answersExactly (hparse : runParser lib parseAtom query.toList = .ok atom)
    (hargs : ∀ a ∈ atom.args, (∃ x, a = .var x) ∨ a.IsConstant rt)
    (h : AnswersExactly lib rt query atom) : Simple atom.args := by
  obtain ⟨t, ht⟩ := exists_evalTerms hargs fun _ => .null
  -- changing a column behind a wildcard leaves an answer, so it leaves an instance
  have hset {i : Nat} {a : Term} (w : Value) (hi : atom.args[i]? = some a)
      (hw : queryArg a = .variable) : ∃ σ, List.Forall₂ (fun a v => evalTerm rt σ a = .ok v)
        atom.args (t.set i w) := by
    obtain ⟨σ, hσ⟩ := h.instance_of_accepts hparse (accepts_set w ht hi hw)
    exact ⟨σ, evalTerms_eq_ok.mp hσ⟩
  have hcol {i : Nat} {a : Term} (hi : atom.args[i]? = some a) : i < t.length := by
    rw [← ht.length_eq]
    exact (List.getElem?_eq_some_iff.mp hi).1
  constructor
  · intro a ha
    by_contra hscalar
    obtain ⟨i, hi⟩ := mem_iff_getElem?.mp ha
    obtain ⟨x, rfl⟩ | ⟨v, hv⟩ := hargs a ha
    · exact hscalar trivial
    obtain ⟨w, hw⟩ := exists_value_ne v
    obtain ⟨σ, hσ⟩ := hset w hi (queryArg_of_not_isScalar hscalar)
    have := evalTerm_of_forall₂ hσ hi (List.getElem?_set_self (hcol hi))
    rw [hv σ] at this
    exact hw (Except.ok.inj this).symm
  · rw [pairwise_iff_getElem]
    intro i j hi hj hij x hix hjx
    have hi' : atom.args[i]? = some (.var x) := by rw [List.getElem?_eq_getElem hi, hix]
    have hj' : atom.args[j]? = some (.var x) := by rw [List.getElem?_eq_getElem hj, hjx]
    obtain ⟨v, hv⟩ : ∃ v, t[i]? = some v := ⟨_, List.getElem?_eq_getElem (hcol hi')⟩
    obtain ⟨w, hw⟩ := exists_value_ne v
    obtain ⟨σ, hσ⟩ := hset w hj' rfl
    have h1 := evalTerm_of_forall₂ hσ hi' ((List.getElem?_set_ne (by omega)).trans hv)
    have h2 := evalTerm_of_forall₂ hσ hj' (List.getElem?_set_self (hcol hj'))
    rw [h1] at h2
    exact hw (Except.ok.inj h2).symm

/-- **Query answers are exact for simple atoms, and for no others** of variables and constants. -/
theorem execute_query_exact (lib : TextLib) (rt : Runtime) {query : String} {atom : Atom}
    (hparse : runParser lib parseAtom query.toList = .ok atom) :
    (Simple atom.args → AnswersExactly lib rt query atom) ∧
      ((∀ a ∈ atom.args, (∃ x, a = .var x) ∨ a.IsConstant rt) →
        AnswersExactly lib rt query atom → Simple atom.args) :=
  ⟨answersExactly_of_simple hparse, simple_of_answersExactly hparse⟩

end Answers

/-- A query of one variable and one constant. -/
theorem execute_query_exact_one :
    runParser .bare parseAtom "p(X, 1)".toList = .ok ⟨"p", [.var "X", .number 1]⟩ ∧
      AnswersExactly .bare Engine.bare.rt "p(X, 1)" ⟨"p", [.var "X", .number 1]⟩ := by
  have hparse : runParser .bare parseAtom "p(X, 1)".toList = .ok ⟨"p", [.var "X", .number 1]⟩ := by
    decide +kernel
  refine ⟨hparse, (execute_query_exact .bare Engine.bare.rt hparse).1 ⟨?_, ?_⟩⟩
  · simp [Term.IsScalar]
  · simp

/-- A node whose one source holds `p(1, 2)`. -/
def pairNode : Node where
  en := .bare
  parse _ := .ok []
  sources _ := [.ofScan ["p"] (fun rel => if rel = "p" then [[.number 1, .number 2]] else []) none]
  logError := none

/-- **`p(X, X)` is answered with `p(1, 2)`**, which is no instance of it. -/
theorem query_ignores_repeated_variable :
    (ProgramStore.new.load pairNode "m" "").2.executeQuery .bare "m" "p(X, X)" =
        .ok [[.number 1, .number 2]] ∧
      runParser .bare parseAtom "p(X, X)".toList = .ok ⟨"p", [.var "X", .var "X"]⟩ ∧
      ¬ Instance Engine.bare.rt [.var "X", .var "X"] [.number 1, .number 2] := by
  refine ⟨by decide +kernel, by decide +kernel, ?_⟩
  rintro ⟨σ, hσ⟩
  simp only [evalTerms, evalTerm, ok_bind] at hσ
  injection hσ with hσ
  simp at hσ
  exact absurd (hσ.1.symm.trans hσ.2) (by decide)

end Mangle

import Mangle.Machinery.Collect
import Mangle.Machinery.HashMap

/-!
# Engine/Naive — the naive engine

`Naive::eval` of `mangle-engine`, over the tables of `TableStoreImpl`.  It adds the program's facts
and then goes through the rules until a round adds nothing.

A premise passes when *no* fact matches it, so a rule fires when none of its premises has a match;
its substitution is then empty and the head is added as it is written.  Whether a round added
something is what the last rule that fired says.
-/

namespace Mangle.Naive

open Machinery

/-! ## Programs -/

/-- `BaseTerm`, over any constants. -/
inductive BaseTerm (κ : Type) where
  | const (c : κ)
  | var (v : Nat)
  | applyFn (f : Nat) (args : List (BaseTerm κ))

/-- `Atom`. -/
structure Atom (κ : Type) where
  sym : Nat
  args : List (BaseTerm κ)

/-- `Term`, a premise. -/
inductive Premise (κ : Type) where
  | atom (query : Atom κ)
  | negAtom (query : Atom κ)
  | eq (left right : BaseTerm κ)
  | ineq (left right : BaseTerm κ)
  | temporalAtom (query : Atom κ)

/-- `Clause`, as far as the engine reads it. -/
structure Rule (κ : Type) where
  head : Atom κ
  premises : List (Premise κ)

/-- `StratifiedProgram`: the intensional predicates with their rules. -/
abbrev Program (κ : Type) := List (Nat × List (Rule κ))

/-- The rules of all predicates. -/
def Program.rules {κ : Type} (p : Program κ) : List (Rule κ) := p.flatMap Prod.snd

/-- A substitution. -/
abbrev Subst (κ : Type) := HashMap Nat (BaseTerm κ)

/-- The tables of a store. -/
abbrev Tables (κ : Type) := HashMap Nat (List (Atom κ))

section Engine

variable {κ : Type}

/-! ### Equality -/

section

variable [BEq κ]

mutual

/-- `PartialEq for BaseTerm`. -/
def BaseTerm.beq : BaseTerm κ → BaseTerm κ → Bool
  | .const a, .const b => a == b
  | .var v, .var w => v == w
  | .applyFn f as, .applyFn g bs => f == g && BaseTerm.beqList as bs
  | _, _ => false

/-- Equality of argument lists. -/
def BaseTerm.beqList : List (BaseTerm κ) → List (BaseTerm κ) → Bool
  | [], [] => true
  | a :: as, b :: bs => a.beq b && BaseTerm.beqList as bs
  | _, _ => false

end

instance : BEq (BaseTerm κ) := ⟨BaseTerm.beq⟩

/-- `PartialEq for Atom`. -/
instance : BEq (Atom κ) := ⟨fun a b => a.sym == b.sym && a.args == b.args⟩

mutual

theorem BaseTerm.eq_of_beq [LawfulBEq κ] : ∀ {a b : BaseTerm κ}, a.beq b = true → a = b
  | .const _, .const _, h => congrArg _ (LawfulBEq.eq_of_beq h)
  | .var _, .var _, h => congrArg _ (LawfulBEq.eq_of_beq h)
  | .applyFn _ _, .applyFn _ _, h => by
    simp only [BaseTerm.beq, Bool.and_eq_true, beq_iff_eq] at h
    rw [h.1, BaseTerm.eq_of_beqList h.2]
  | .const _, .var _, h | .const _, .applyFn _ _, h | .var _, .const _, h
  | .var _, .applyFn _ _, h | .applyFn _ _, .const _, h | .applyFn _ _, .var _, h => by
    simp [BaseTerm.beq] at h

theorem BaseTerm.eq_of_beqList [LawfulBEq κ] :
    ∀ {as bs : List (BaseTerm κ)}, BaseTerm.beqList as bs = true → as = bs
  | [], [], _ => rfl
  | a :: as, b :: bs, h => by
    simp only [BaseTerm.beqList, Bool.and_eq_true] at h
    rw [BaseTerm.eq_of_beq h.1, BaseTerm.eq_of_beqList h.2]
  | [], _ :: _, h | _ :: _, [], h => by simp [BaseTerm.beqList] at h

end

mutual

theorem BaseTerm.beq_refl [LawfulBEq κ] : ∀ a : BaseTerm κ, a.beq a = true
  | .const _ => by simp [BaseTerm.beq]
  | .var _ => by simp [BaseTerm.beq]
  | .applyFn _ args => by simp [BaseTerm.beq, BaseTerm.beqList_refl args]

theorem BaseTerm.beqList_refl [LawfulBEq κ] :
    ∀ as : List (BaseTerm κ), BaseTerm.beqList as as = true
  | [] => rfl
  | a :: as => by simp [BaseTerm.beqList, BaseTerm.beq_refl a, BaseTerm.beqList_refl as]

end

instance [LawfulBEq κ] : LawfulBEq (BaseTerm κ) where
  eq_of_beq := BaseTerm.eq_of_beq
  rfl := BaseTerm.beq_refl _

instance [LawfulBEq κ] : LawfulBEq (Atom κ) where
  eq_of_beq {a b} h := by
    obtain ⟨sym, args⟩ := a
    obtain ⟨sym', args'⟩ := b
    have h' : (sym == sym' && args == args') = true := h
    simp only [Bool.and_eq_true, beq_iff_eq] at h'
    rw [h'.1, h'.2]
  rfl {a} := by
    change (a.sym == a.sym && a.args == a.args) = true
    simp

end

/-! ### Substitutions and matches -/

mutual

/-- `BaseTerm::apply_subst`. -/
def BaseTerm.applySubst (s : Subst κ) : BaseTerm κ → BaseTerm κ
  | .const c => .const c
  | .var v => (s.lookup v).getD (.var v)
  | .applyFn f args => .applyFn f (BaseTerm.applySubstList s args)

/-- `apply_subst` of arguments. -/
def BaseTerm.applySubstList (s : Subst κ) : List (BaseTerm κ) → List (BaseTerm κ)
  | [] => []
  | a :: as => a.applySubst s :: BaseTerm.applySubstList s as

end

/-- `Atom::apply_subst`. -/
def Atom.applySubst (s : Subst κ) (a : Atom κ) : Atom κ :=
  ⟨a.sym, BaseTerm.applySubstList s a.args⟩

mutual

theorem BaseTerm.applySubst_empty : ∀ t : BaseTerm κ, t.applySubst ∅ = t
  | .const _ => rfl
  | .var _ => rfl
  | .applyFn f args => congrArg (BaseTerm.applyFn f) (BaseTerm.applySubstList_empty args)

theorem BaseTerm.applySubstList_empty :
    ∀ args : List (BaseTerm κ), BaseTerm.applySubstList ∅ args = args
  | [] => rfl
  | a :: as => congrArg₂ List.cons a.applySubst_empty (BaseTerm.applySubstList_empty as)

end

theorem Atom.applySubst_empty (a : Atom κ) : a.applySubst ∅ = a :=
  congrArg (Atom.mk a.sym) (BaseTerm.applySubstList_empty a.args)

variable [BEq κ]

/-- An argument matches a constant that is equal, and everything else. -/
def matchesArg (arg : BaseTerm κ) : BaseTerm κ → Bool
  | .const c => arg == .const c
  | _ => true

/-- `Atom::matches`: the constants of the query are compared, as far as both have arguments. -/
def Atom.matches (fact : Atom κ) (query : List (BaseTerm κ)) : Bool :=
  (fact.args.zip query).all fun p => matchesArg p.1 p.2

/-! ### The engine -/

/-- The errors of `eval`. -/
inductive EvalError where
  /-- `no table for {sym}` -/
  | noTable (sym : Nat)
  /-- An index out of bounds. -/
  | panic
  /-- The loop goes on. -/
  | unfinished
  deriving DecidableEq

/-- How the receiver of a fact ends. -/
inductive Received where
  | matched
  | mismatch
  /-- `Unsupported term: {arg}` -/
  | unsupported
  | panic

/-- The receiver of a fact: it enters each variable of the query in the substitution. -/
def receive : List (BaseTerm κ) → List (BaseTerm κ) → Subst κ → Subst κ × Received
  | [], _, s => (s, .matched)
  | .var v :: query, t :: args, s => receive query args (s.insert v t)
  | .const c :: query, t :: args, s =>
    if .const c == t then receive query args s else (s, .mismatch)
  | .applyFn _ _ :: _, _, s => (s, .unsupported)
  | .var _ :: _, [], s | .const _ :: _, [], s => (s, .panic)

/-- `TableStoreImpl::get` with that receiver: the substitution, and whether the last fact was a
match; an error of the receiver ends the loop and is dropped. -/
def scan (query : List (BaseTerm κ)) :
    List (Atom κ) → Subst κ × Bool → Except EvalError (Subst κ × Bool)
  | [], st => .ok st
  | fact :: facts, st =>
    if fact.matches query then
      match receive query fact.args st.1 with
      | (s, .matched) => scan query facts (s, true)
      | (s, .mismatch) => scan query facts (s, false)
      | (s, .unsupported) => .ok (s, st.2)
      | (_, .panic) => .error .panic
    else scan query facts st

/-- An atom passes when no fact is found; a missing table has none. -/
def evalAtom (tables : Tables κ) (s : Subst κ) (query : Atom κ) :
    Except EvalError (Bool × Subst κ) := do
  let query := query.applySubst s
  let (s, found) ← scan query.args (tables.get query.sym) (s, false)
  pure (!found, s)

/-- One premise: whether it passes, and the substitution. -/
def evalPremise (tables : Tables κ) (s : Subst κ) : Premise κ → Except EvalError (Bool × Subst κ)
  | .atom query | .temporalAtom query => evalAtom tables s query
  | .negAtom query =>
    let query := query.applySubst s
    .ok (!(tables.get query.sym).any (·.matches query.args), s)
  | .eq left right => .ok (left.applySubst s == right.applySubst s, s)
  | .ineq left right => .ok (left.applySubst s != right.applySubst s, s)

/-- The loop over the premises of a rule. -/
def evalPremises (tables : Tables κ) :
    List (Premise κ) → Subst κ → Except EvalError (Bool × Subst κ)
  | [], s => .ok (true, s)
  | premise :: premises, s => do
    let (ok, s) ← evalPremise tables s premise
    if ok then evalPremises tables premises s else pure (false, s)

/-- `TableStoreImpl::add`: the tables, and whether the fact is new. -/
def add (tables : Tables κ) (fact : Atom κ) : Except EvalError (Tables κ × Bool) :=
  match tables.lookup fact.sym with
  | none => .error (.noTable fact.sym)
  | some table =>
    if table.contains fact then .ok (tables, false)
    else .ok (tables.insert fact.sym (table ++ [fact]), true)

/-- One rule in a round: `added` is set by a rule that fires. -/
def evalRule (st : Tables κ × Bool) (rule : Rule κ) : Except EvalError (Tables κ × Bool) :=
  if rule.premises.isEmpty then .ok st
  else do
    let (ok, s) ← evalPremises st.1 rule.premises ∅
    if ok then add st.1 (rule.head.applySubst s) else pure st

/-- One round over the rules: the tables, and whether the round added something. -/
def round (rules : List (Rule κ)) (tables : Tables κ) : Except EvalError (Tables κ × Bool) :=
  rules.foldlM evalRule (tables, false)

/-- The loop over the rounds. -/
def evalLoop (rules : List (Rule κ)) : Nat → Tables κ → Except EvalError (Tables κ)
  | 0, _ => .error .unfinished
  | fuel + 1, tables => do
    let (tables, added) ← round rules tables
    if added then evalLoop rules fuel tables else pure tables

/-- The initial facts: the rules without premises. -/
def addFacts (rules : List (Rule κ)) (tables : Tables κ) : Except EvalError (Tables κ) :=
  rules.foldlM (fun tables rule =>
    if rule.premises.isEmpty then do pure (← add tables rule.head).1 else pure tables) tables

/-- `Naive::eval`, with a bound on the rounds. -/
def eval (fuel : Nat) (p : Program κ) (tables : Tables κ) : Except EvalError (Tables κ) := do
  evalLoop p.rules fuel (← addFacts p.rules tables)

end Engine

end Mangle.Naive

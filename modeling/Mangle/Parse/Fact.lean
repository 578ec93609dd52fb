import Mathlib.Algebra.BigOperators.Group.List.Basic
import Mangle.Parse.Display
import Mangle.Parse.Parser

/-!
# Parse/Fact — parsing a fact

How the parser reads the text of a fact, a predicate with one-token arguments.  `Feeds` says which
tokens a text delivers, and `At` that a state stands in front of tokens.

A predicate name is one that the parser accepts (`IsPredicateName`); what the parser makes of it
does not depend on what stands between its parentheses (`parseSym_name`).

* `parse_fact` — **a fact of a predicate name and texts that scan as one token each is parsed to the
  predicate and the terms of the tokens.**
-/

namespace Mangle.Parse

open Machinery List

variable {α β : Type} {st st' : ParserState} {t tok : Token} {ts toks : List Token}
  {terms : List Term} {fuel : Nat} {s rest u r tail : List Char} {c : Char} {more name : String}
  {texts : List (List Char)}

section Fact

variable {lib : TextLib}

/-! ## Tokens ahead -/

/-- The text delivers the tokens. -/
def Feeds (lib : TextLib) : List Token → List Char → Prop
  | [], _ => True
  | t :: ts, s => ∃ rest, scanToken lib s = .ok (t, rest) ∧ Feeds lib ts rest

/-- The state stands in front of the tokens. -/
def At (lib : TextLib) : List Token → ParserState → Prop
  | [], _ => True
  | t :: ts, st => st.token = t ∧ Feeds lib ts st.rest

/-! ### Running a parser -/

theorem bind_apply (p : Parser α) (f : α → Parser β) (st : ParserState) :
    (p >>= f) st = (p st >>= fun x => f x.1 x.2) := rfl

theorem bind_apply_eq_ok {p : Parser α} {f : α → Parser β} {b : β} :
    (p >>= f) st = .ok (b, st') ↔ ∃ a st₁, p st = .ok (a, st₁) ∧ f a st₁ = .ok (b, st') := by
  rw [bind_apply, bind_eq_ok]
  exact Prod.exists

theorem bind_of_ok {p : Parser α} {f : α → Parser β} {a : α} (h : p st = .ok (a, st')) :
    (p >>= f) st = f a st' := by
  rw [bind_apply, h, ok_bind]

theorem token_bind (f : Token → Parser β) (st : ParserState) :
    (token >>= f) st = f st.token st := rfl

theorem pure_apply (a : α) (st : ParserState) : (pure a : Parser α) st = .ok (a, st) := rfl

theorem ite_apply (c : Prop) [Decidable c] (p q : Parser α) (st : ParserState) :
    (if c then p else q) st = if c then p st else q st := by
  split <;> rfl

theorem expect_eq_ok :
    expect lib t st = .ok ((), st') ↔ st.token = t ∧ nextToken lib st = .ok ((), st') := by
  rw [expect, token_bind, ite_apply]
  split
  next hne => exact ⟨nofun, fun h => absurd h.1.symm hne⟩
  next heq => exact ⟨fun h => ⟨(not_not.mp heq).symm, h⟩, And.right⟩

theorem runParser_eq_ok {p : TextLib → Nat → Parser α} {text : List Char} {a : α} :
    runParser lib p text = .ok a ↔ ∃ st₁ st₂, nextToken lib (.new text) = .ok ((), st₁) ∧
      p lib (text.length + 1) st₁ = .ok (a, st₂) := by
  have hmap {x : Except ParseError (α × ParserState)} :
      x.map Prod.fst = .ok a ↔ ∃ st, x = .ok (a, st) := by
    cases x <;> simp [Except.map, Prod.ext_iff]
  have hrun : ((do nextToken lib; p lib (text.length + 1) : Parser α).run (.new text)) =
    (nextToken lib >>= fun _ => p lib (text.length + 1)) (.new text) := rfl
  rw [runParser, hmap, hrun]
  simp only [bind_apply_eq_ok]
  exact ⟨fun ⟨st₂, _, st₁, h₁, h₂⟩ => ⟨st₁, st₂, h₁, h₂⟩,
    fun ⟨st₁, st₂, h₁, h₂⟩ => ⟨st₂, (), st₁, h₁, h₂⟩⟩

theorem At.nextToken (h : At lib (t :: ts) st) (hts : ts ≠ []) :
    ∃ st', Parse.nextToken lib st = .ok ((), st') ∧ At lib ts st' := by
  obtain ⟨t', ts, rfl⟩ := exists_cons_of_ne_nil hts
  obtain ⟨-, rest, hscan, hrest⟩ := h
  exact ⟨{ st with token := t', rest := rest }, by simp [Parse.nextToken, hscan], rfl, hrest⟩

theorem At.expect (h : At lib (t :: ts) st) (hts : ts ≠ []) :
    ∃ st', Parse.expect lib t st = .ok ((), st') ∧ At lib ts st' := by
  obtain ⟨st', hst', hat⟩ := h.nextToken hts
  refine ⟨st', ?_, hat⟩
  rw [Parse.expect, token_bind, ite_apply, if_neg (by simp [h.1]), hst']

/-! ## Arguments -/

/-- The base term that is one token. -/
def leafTerm : Token → Option Term
  | .string s => some (.string s)
  | .bytes b => some (.bytes b)
  | .int n => some (.number n)
  | .float bits => some (.float bits)
  | .timestamp nanos => some (.time nanos)
  | .duration nanos => some (.duration nanos)
  | .name n => some (.name n)
  | _ => none

theorem parseBaseTerm_leaf {t : Term} (h : leafTerm st.token = some t) (fuel : Nat) :
    parseBaseTerm lib (fuel + 1) st = leaf lib t st := by
  obtain ⟨tok, rest, anon⟩ := st
  cases tok <;> simp only [leafTerm] at h <;> cases h <;> rfl

theorem At.leaf {a : Term} (h : At lib (t :: ts) st) (hts : ts ≠ []) (ha : leafTerm t = some a)
    (fuel : Nat) : ∃ st', parseBaseTerm lib (fuel + 1) st = .ok (a, st') ∧ At lib ts st' := by
  obtain ⟨st', hst', hat⟩ := h.nextToken hts
  refine ⟨st', ?_, hat⟩
  rw [parseBaseTerm_leaf (by rw [h.1, ha]), Parse.leaf, bind_of_ok hst', pure_apply]

theorem baseTermStart_of_leafTerm {a : Term} (h : leafTerm t = some a) :
    baseTermStart t = true := by
  cases t <;> first | rfl | cases h

/-- The loop over the arguments behind the first. -/
theorem At.parseMore {n : Nat} (hterms : List.Forall₂ (fun t a => leafTerm t = some a) toks terms)
    (h : At lib (toks.flatMap (fun t => [.comma, t]) ++ .rparen :: ts) st)
    (hfuel : toks.length < fuel) :
    ∃ st', Parse.parseMore lib (parseBaseTerm lib (n + 1)) baseTermStart fuel st =
      .ok (terms, st') ∧ At lib (.rparen :: ts) st' := by
  induction hterms generalizing st fuel with
  | nil =>
    obtain ⟨fuel, rfl⟩ : ∃ k, fuel = k + 1 := ⟨fuel - 1, by omega⟩
    refine ⟨st, ?_, h⟩
    rw [Parse.parseMore, token_bind, ite_apply,
      if_pos (by rw [h.1]; simp), pure_apply]
  | @cons t a toks terms ha _ ih =>
    obtain ⟨fuel, rfl⟩ : ∃ k, fuel = k + 1 := ⟨fuel - 1, by omega⟩
    have htail : toks.flatMap (fun t => [.comma, t]) ++ .rparen :: ts ≠ [] := by simp
    have hcomma : At lib (.comma :: t :: (toks.flatMap (fun t => [.comma, t]) ++ .rparen :: ts))
      st := h
    obtain ⟨st₁, h₁, hat₁⟩ := hcomma.nextToken (by simp)
    obtain ⟨st₂, h₂, hat₂⟩ := hat₁.leaf htail ha n
    obtain ⟨st₃, h₃, hat₃⟩ := ih hat₂ (by simpa using hfuel)
    refine ⟨st₃, ?_, hat₃⟩
    rw [Parse.parseMore, token_bind, ite_apply, if_neg (by rw [h.1]; simp),
      bind_of_ok h₁, token_bind, ite_apply,
      if_neg (by rw [hat₁.1, baseTermStart_of_leafTerm ha]; simp), bind_of_ok h₂,
      bind_of_ok h₃, pure_apply]

/-- The tokens of arguments with commas between them. -/
def argTokens : List Token → List Token
  | [] => []
  | t :: ts => t :: ts.flatMap fun t => [.comma, t]

/-- **Arguments of one token each**, in their parentheses. -/
theorem At.parseParenBaseTerms (hterms : List.Forall₂ (fun t a => leafTerm t = some a) toks terms)
    (hts : ts ≠ []) (h : At lib (.lparen :: (argTokens toks ++ .rparen :: ts)) st)
    (hfuel : toks.length < fuel) :
    ∃ st', Parse.parseParenBaseTerms lib (parseBaseTerm lib fuel) fuel st = .ok (terms, st') ∧
      At lib ts st' := by
  obtain ⟨n, rfl⟩ : ∃ k, fuel = k + 1 := ⟨fuel - 1, by omega⟩
  obtain ⟨st₁, h₁, hat₁⟩ := h.expect (by simp)
  suffices ∃ st₂, parseUntil lib (parseBaseTerm lib (n + 1)) (n + 1) .rparen st₁ =
      .ok (terms, st₂) ∧ At lib (.rparen :: ts) st₂ by
    obtain ⟨st₂, h₂, hat₂⟩ := this
    obtain ⟨st₃, h₃, hat₃⟩ := hat₂.expect hts
    refine ⟨st₃, ?_, hat₃⟩
    rw [Parse.parseParenBaseTerms, bind_of_ok h₁, bind_of_ok h₂, bind_of_ok h₃, pure_apply]
  rw [parseUntil, token_bind, ite_apply]
  cases hterms with
  | nil => exact ⟨st₁, by rw [if_neg (by simp [hat₁.1]), pure_apply], hat₁⟩
  | @cons t a toks terms ha hterms =>
    obtain ⟨st₂, h₂, hat₂⟩ := hat₁.leaf (by simp) ha n
    have hlen : toks.length < n + 1 := by
      rw [length_cons] at hfuel
      omega
    obtain ⟨st₃, h₃, hat₃⟩ := hat₂.parseMore (n := n) hterms hlen
    refine ⟨st₃, ?_, hat₃⟩
    have hne : t ≠ .rparen := by
      rintro rfl
      cases ha
    rw [if_pos (by rw [hat₁.1]; exact hne), parseBaseTerms, bind_of_ok h₂, bind_of_ok h₃,
      pure_apply]

/-! ## Predicate names -/

/-- The tokens in and behind a predicate name. -/
def Token.InSym (t : Token) : Prop := (∃ n, t = .ident n) ∨ t = .dot ∨ t = .lparen

/-- The parser accepts the name as a predicate's. -/
def IsPredicateName (lib : TextLib) (name : String) : Prop :=
  runParser lib parseAtom (name.toList ++ ['(', ')']) = .ok ⟨name, []⟩

instance (name : String) : Decidable (IsPredicateName lib name) :=
  inferInstanceAs (Decidable (_ = _))

theorem not_inSym_timestamp {year : List Char} (h : scanTimestamp year s = .ok (tok, rest)) :
    ¬ tok.InSym := by
  obtain ⟨s1, -, h⟩ := bind_eq_ok.mp h
  obtain ⟨⟨m, s2⟩, -, h⟩ := bind_eq_ok.mp h
  obtain ⟨s3, -, h⟩ := bind_eq_ok.mp h
  obtain ⟨⟨d, s4⟩, -, h⟩ := bind_eq_ok.mp h
  dsimp only at h
  split at h
  · obtain ⟨⟨⟨time, frac⟩, s5⟩, -, h⟩ := bind_eq_ok.mp h
    obtain ⟨nanos, -, h⟩ := bind_eq_ok.mp h
    cases h
    simp [Token.InSym]
  · obtain ⟨nanos, -, h⟩ := bind_eq_ok.mp h
    cases h
    simp [Token.InSym]

/-- A number is no part of a name. -/
theorem not_inSym_numeric (h : numeric lib c s = .ok (tok, rest)) : ¬ tok.InSym := by
  have hnumber {isFloat : Bool} {text rest' : List Char}
      (h : numeric.number lib isFloat text rest' = .ok (tok, rest)) : ¬ tok.InSym := by
    unfold numeric.number at h
    split at h <;> split at h <;> cases h <;> simp [Token.InSym]
  unfold numeric at h
  dsimp only at h
  split at h
  · exact not_inSym_timestamp h
  split at h
  · split at h
    · unfold durationLiteral at h
      dsimp only at h
      split at h
      · cases h
      · split at h <;> cases h
        simp [Token.InSym]
    · exact hnumber h
  · exact hnumber h

theorem identLoop_append (text u r : List Char) : identLoop text (u ++ '(' :: r) =
    ((identLoop text u).1, (identLoop text u).2 ++ '(' :: r) := by
  induction u generalizing text with
  | nil => simp [identLoop, isIdent, isLower, isUpper, isDigit]
  | cons c u ih =>
    simp only [cons_append, identLoop]
    split
    · exact ih _
    · split
      · exact ih _
      · rfl

theorem takeWhile_append_paren {p : Char → Bool} (hp : p '(' = false) (u r : List Char) :
    (u ++ '(' :: r).takeWhile p = u.takeWhile p ∧
      (u ++ '(' :: r).dropWhile p = u.dropWhile p ++ '(' :: r := by
  induction u with
  | nil => simp [hp]
  | cons c u ih =>
    simp only [cons_append, takeWhile_cons, dropWhile_cons]
    split <;> simp [ih]

theorem wordToken_inSym {dotIdent : Bool} {text : String} (h : (wordToken dotIdent text).InSym) :
    dotIdent = false ∧ wordToken dotIdent text = .ident text := by
  unfold wordToken at h ⊢
  split_ifs at h ⊢ <;> simp_all [Token.InSym]

/-- A scan of the text in front of a parenthesis ends there, whatever is behind. -/
def EndsBefore (scan : List Char → Except ScanError (Token × List Char)) (u : List Char)
    (tok : Token) : Prop :=
  ∃ u', u' <:+ u ∧ ∀ r, scan (u ++ '(' :: r) = .ok (tok, u' ++ '(' :: r)

theorem endsBefore_colon (hu : ∀ c ∈ u, isSymChar c = true)
    (h : tokenAt lib ':' (u ++ '(' :: r) = .ok (tok, rest)) (htok : tok.InSym) :
    EndsBefore (tokenAt lib ':') u tok := by
  have htoken (s : List Char) : tokenAt lib ':' s = .ok (colonToken s) := rfl
  rw [htoken] at h
  cases u with
  | nil =>
    cases h
    simp [Token.InSym] at htok
  | cons d u =>
    have hne : d ≠ '-' := by
      rintro rfl
      cases hu _ mem_cons_self
    by_cases hstart : isIdentStart d = true
    · have heq (r : List Char) : colonToken (d :: u ++ '(' :: r) =
          ((builtinPredicate (d :: u)).1, (builtinPredicate (d :: u)).2 ++ '(' :: r) := by
        have hmore := takeWhile_append_paren (p := fun c => isIdent c || c = ':') rfl (d :: u) r
        have h1 : colonToken (d :: u ++ '(' :: r) = builtinPredicate (d :: u ++ '(' :: r) := by
          simp [colonToken, hne, hstart]
        rw [h1]
        simp only [builtinPredicate, hmore.1, hmore.2]
      rw [heq] at h
      cases h
      exact ⟨_, builtinPredicate_suffix, fun r => by rw [htoken, heq]⟩
    · have heq : colonToken (d :: u ++ '(' :: r) = (.colon, d :: u ++ '(' :: r) := by
        simp [colonToken, hne, hstart]
      rw [heq] at h
      cases h
      simp [Token.InSym] at htok

theorem endsBefore_dot (h : tokenAt lib '.' (u ++ '(' :: r) = .ok (tok, rest)) (htok : tok.InSym) :
    EndsBefore (tokenAt lib '.') u tok := by
  have htoken (s : List Char) : tokenAt lib '.' s = .ok (dotToken s) := rfl
  rw [htoken] at h
  cases u with
  | nil =>
    cases h
    exact ⟨[], suffix_rfl, fun _ => rfl⟩
  | cons d u =>
    by_cases hup : isUpper d = true
    · have heq : dotToken (d :: u ++ '(' :: r) = identOrDotIdent d true (u ++ '(' :: r) := by
        simp [dotToken, hup]
      rw [heq] at h
      have hword : (wordToken true (String.ofList (identLoop [d] (u ++ '(' :: r)).1)).InSym := by
        cases h
        exact htok
      cases (wordToken_inSym hword).1
    · have heq (r : List Char) : dotToken (d :: u ++ '(' :: r) = (.dot, d :: u ++ '(' :: r) := by
        simp [dotToken, hup]
      rw [heq] at h
      cases h
      exact ⟨_, suffix_rfl, fun r => by rw [htoken, heq]⟩

theorem endsBefore_word (hu : ∀ c ∈ u, isSymChar c = true) :
    EndsBefore (wordAt c) u (wordToken false (String.ofList (identLoop [c] u).1)) := by
  refine ⟨(identLoop [c] u).2, identLoop_suffix, fun r => ?_⟩
  have heq : wordAt c (u ++ '(' :: r) = .ok (identOrDotIdent c false (u ++ '(' :: r)) := by
    cases u with
    | nil => simp [wordAt]
    | cons d u =>
      have hq : ¬ (c = 'b' ∧ (d = '\'' ∨ d = '"')) := by
        rintro ⟨-, rfl | rfl⟩ <;> cases hu _ mem_cons_self
      rw [cons_append, wordAt, if_neg hq]
  rw [heq, identOrDotIdent, identLoop_append]

/-- The characters of identifiers. -/
def isWordChar (c : Char) : Bool := isIdent c || c = ':'

/-- The token is a word of such characters. -/
def Token.IsWord (t : Token) : Prop :=
  ∃ text, t = .ident (String.ofList text) ∧ ∀ c ∈ text, isWordChar c = true

theorem identLoop_wordChar {text : List Char} (h : ∀ c ∈ text, isWordChar c = true) :
    ∀ c ∈ (identLoop text s).1, isWordChar c = true := by
  induction s generalizing text with
  | nil => exact h
  | cons d s ih =>
    have hmore {c : Char} (hc : isWordChar c = true) : ∀ c' ∈ text ++ [c], isWordChar c' = true :=
      forall_mem_append.mpr ⟨h, by simpa using hc⟩
    rw [identLoop]
    split
    next hd => exact ih (hmore (by simp [isWordChar, hd]))
    · split
      · exact ih (hmore rfl)
      · exact h

theorem not_inSym_scanString {delim : Char} {isByte : Bool}
    (h : scanString delim isByte s = .ok (tok, rest)) : ¬ tok.InSym := by
  unfold scanString at h
  dsimp only at h
  split at h <;> cases h <;> simp [Token.InSym]

theorem not_inSym_doubleToken {d : Char} {both alone : Token}
    (h : doubleToken c = some (d, both, alone)) : ¬ both.InSym ∧ ¬ alone.InSym := by
  unfold doubleToken at h
  split at h <;> cases h <;> simp [Token.InSym]

theorem singleToken_inSym (h : singleToken c = some tok) (htok : tok.InSym) :
    c = '(' ∧ tok = .lparen := by
  unfold singleToken at h
  split at h <;> cases h <;> simp_all [Token.InSym]

theorem colonToken_inSym (h : colonToken s = (tok, rest)) (htok : tok.InSym) : tok.IsWord := by
  unfold colonToken at h
  split_ifs at h
  · cases h
    simp [Token.InSym] at htok
  · cases h
    refine ⟨_, rfl, fun d hd => ?_⟩
    obtain rfl | hd := mem_cons.mp hd
    · rfl
    · exact all_eq_true.mp all_takeWhile d hd
  · cases h
    simp [Token.InSym] at htok

theorem dotToken_inSym (h : dotToken s = (tok, rest)) (htok : tok.InSym) : tok = .dot := by
  unfold dotToken at h
  split at h
  · cases h
    rfl
  · split at h
    · have hword : wordToken true _ = tok := congrArg Prod.fst h
      rw [← hword] at htok
      cases (wordToken_inSym htok).1
    · cases h
      rfl

theorem wordAt_inSym (hc : isIdentStart c = true) (h : wordAt c s = .ok (tok, rest))
    (htok : tok.InSym) : tok.IsWord := by
  have hfirst : ∀ d ∈ [c], isWordChar d = true := by
    simp only [mem_singleton, forall_eq]
    simp only [isIdentStart, Bool.or_eq_true] at hc
    simp only [isWordChar, isIdent, Bool.or_eq_true]
    tauto
  have hword {s : List Char} (h : (.ok (identOrDotIdent c false s) : Except ScanError _) =
      .ok (tok, rest)) : tok.IsWord := by
    have htok' : wordToken false _ = tok := congrArg Prod.fst (Except.ok.inj h)
    rw [← htok'] at htok
    exact ⟨_, htok'.symm.trans (wordToken_inSym htok).2, identLoop_wordChar hfirst⟩
  unfold wordAt at h
  split at h
  · exact hword h
  · split at h
    · exact absurd htok (not_inSym_scanString h)
    · exact hword h

/-- The tokens in and behind a name: a parenthesis, a dot, or a word of its characters. -/
theorem tokenAt_inSym (h : tokenAt lib c s = .ok (tok, rest)) (htok : tok.InSym) :
    (c = '(' ∧ tok = .lparen) ∨ tok = .dot ∨ tok.IsWord := by
  unfold tokenAt at h
  split at h
  next hsingle =>
    cases h
    exact .inl (singleToken_inSym hsingle htok)
  next hdouble =>
    obtain ⟨hboth, halone⟩ := not_inSym_doubleToken hdouble
    split at h <;> cases h
    · exact absurd htok hboth
    · exact absurd htok halone
  · split_ifs at h with _ _ _ _ _ _ _ _ hstart
    · exact .inr (.inr (colonToken_inSym (Except.ok.inj h) htok))
    · exact .inr (.inl (dotToken_inSym (Except.ok.inj h) htok))
    · obtain ⟨⟨text, rest⟩, -, h⟩ := bind_eq_ok.mp h
      cases h
      simp [Token.InSym] at htok
    · exact absurd htok (not_inSym_scanString h)
    · unfold longString at h
      split at h <;> cases h
      simp [Token.InSym] at htok
    · exact absurd htok (not_inSym_numeric h)
    · exact absurd htok (not_inSym_numeric h)
    · exact .inr (.inr (wordAt_inSym hstart h htok))

/-- **A scan in a name does not look behind the name's parenthesis.** -/
theorem scanToken_sym (hu : ∀ c ∈ u, isSymChar c = true)
    (h : scanToken lib (u ++ '(' :: r) = .ok (tok, rest)) (htok : tok.InSym) :
    (u = [] ∧ tok = .lparen) ∨ (tok ≠ .lparen ∧ EndsBefore (scanToken lib) u tok) := by
  cases u with
  | nil =>
    cases h
    exact .inl ⟨rfl, rfl⟩
  | cons c u =>
    have hc := hu c mem_cons_self
    have hu' (d : Char) (hd : d ∈ u) := hu d (mem_cons_of_mem _ hd)
    have hscan (r : List Char) : scanToken lib (c :: u ++ '(' :: r) =
        tokenAt lib c (u ++ '(' :: r) := scanToken_of_isSym hc
    rw [hscan] at h
    refine .inr ⟨?_, ?_⟩
    · rintro rfl
      obtain ⟨rfl, -⟩ | h | ⟨_, h, -⟩ := tokenAt_inSym h htok
      · cases hc
      · cases h
      · cases h
    suffices EndsBefore (tokenAt lib c) u tok by
      obtain ⟨u', hu', hall⟩ := this
      exact ⟨u', hu'.trans (suffix_cons c u), fun r => (hscan r).trans (hall r)⟩
    by_cases h1 : c = ':'
    · subst h1
      exact endsBefore_colon hu' h htok
    by_cases h2 : c = '.'
    · subst h2
      exact endsBefore_dot h htok
    have hident : isIdent c = true := by simpa [isSymChar, h1, h2] using hc
    rw [tokenAt_isIdent hident] at h
    split at h
    · exact absurd htok (not_inSym_numeric h)
    next hdigit =>
      obtain ⟨v, hv, hall⟩ := endsBefore_word (c := c) hu'
      rw [hall] at h
      cases h
      refine ⟨v, hv, fun r => ?_⟩
      rw [tokenAt_isIdent hident, if_neg hdigit, hall]

/-! ### The parser on a name -/

/-- A word that the scanner delivers has the characters of words. -/
theorem wordChar_of_scanToken {n : String} (h : scanToken lib s = .ok (.ident n, rest)) :
    ∀ c ∈ n.toList, isWordChar c = true := by
  unfold scanToken at h
  split at h
  · cases h
  · obtain ⟨-, h⟩ | h | ⟨text, h, htext⟩ := tokenAt_inSym h (.inl ⟨n, rfl⟩)
    · cases h
    · cases h
    · cases h
      rwa [String.toList_ofList]

theorem isSymChar_of_isWordChar (h : isWordChar c = true) : isSymChar c = true := by
  simp only [isWordChar, Bool.or_eq_true] at h
  simp only [isSymChar, Bool.or_eq_true]
  tauto

theorem nextToken_eq_ok (h : nextToken lib st = .ok ((), st')) :
    scanToken lib st.rest = .ok (st'.token, st'.rest) ∧ st'.anonCounter = st.anonCounter := by
  unfold nextToken at h
  split at h
  · cases h
  next hscan =>
    cases h
    exact ⟨hscan, rfl⟩

/-- **What the loop over the parts of a name can do.** -/
theorem parseQualifiers_cases (h : parseQualifiers lib (fuel + 1) st = .ok (more, st')) :
    (st.token ≠ .dot ∧ more = "" ∧ st' = st) ∨
      (st.token = .dot ∧ ∃ st₁ name st₂ more', nextToken lib st = .ok ((), st₁) ∧
        st₁.token = .ident name ∧ nextToken lib st₁ = .ok ((), st₂) ∧
        parseQualifiers lib fuel st₂ = .ok (more', st') ∧ more = "." ++ name ++ more') := by
  rw [parseQualifiers, token_bind, ite_apply] at h
  split at h
  next hdot =>
    cases h
    exact .inl ⟨hdot, rfl, rfl⟩
  next hdot =>
    obtain ⟨_, st₁, h₁, h⟩ := bind_apply_eq_ok.mp h
    rw [token_bind] at h
    generalize htok : st₁.token = tok at h
    split at h
    next name =>
      obtain ⟨_, st₂, h₂, h⟩ := bind_apply_eq_ok.mp h
      obtain ⟨more', st₃, h₃, h⟩ := bind_apply_eq_ok.mp h
      cases h
      exact .inr ⟨not_not.mp hdot, st₁, name, st₂, more', h₁, htok, h₂, h₃, rfl⟩
    · cases h

theorem parseQualifiers_dot {st₁ st₂ : ParserState} (hdot : st.token = .dot)
    (h₁ : nextToken lib st = .ok ((), st₁)) (hname : st₁.token = .ident name)
    (h₂ : nextToken lib st₁ = .ok ((), st₂)) (h₃ : parseQualifiers lib fuel st₂ = .ok (more, st')) :
    parseQualifiers lib (fuel + 1) st = .ok ("." ++ name ++ more, st') := by
  rw [parseQualifiers, token_bind, ite_apply, if_neg (by simp [hdot]), bind_of_ok h₁,
    token_bind, hname]
  dsimp only
  rw [bind_of_ok h₂, bind_of_ok h₃, pure_apply]

/-- What follows a qualified name's first part has the characters of names. -/
theorem symChar_of_parseQualifiers (h : parseQualifiers lib fuel st = .ok (more, st')) :
    ∀ c ∈ more.toList, isSymChar c = true := by
  induction fuel generalizing st more with
  | zero => cases h
  | succ fuel ih =>
    obtain ⟨-, rfl, -⟩ | ⟨-, st₁, name, st₂, more', h₁, hname, -, h₃, rfl⟩ :=
      parseQualifiers_cases h
    · simp
    · have hscan := (nextToken_eq_ok h₁).1
      rw [hname] at hscan
      intro c hc
      simp only [String.toList_append, mem_append] at hc
      obtain (hc | hc) | hc := hc
      · simp_all [isSymChar]
      · exact isSymChar_of_isWordChar (wordChar_of_scanToken hscan c hc)
      · exact ih h₃ c hc

/-- The state at a token in front of a name's rest; at the parenthesis the name is over. -/
def symState (tok : Token) (u r : List Char) (a : Nat) : ParserState :=
  if tok = .lparen then ⟨.lparen, r, a⟩ else ⟨tok, u ++ '(' :: r, a⟩

@[simp] theorem symState_token (tok : Token) (u r : List Char) (a : Nat) :
    (symState tok u r a).token = tok := by
  unfold symState
  split
  next h => exact h.symm
  · rfl

/-- A step in a name does not look behind its parenthesis. -/
theorem nextToken_sym {a : Nat} (hu : ∀ c ∈ u, isSymChar c = true) (htok : tok ≠ .lparen)
    (h : nextToken lib (symState tok u r a) = .ok ((), st')) (hst' : st'.token.InSym) :
    ∃ u', (∀ c ∈ u', isSymChar c = true) ∧ ∀ r,
      nextToken lib (symState tok u r a) = .ok ((), symState st'.token u' r a) := by
  have hstate (r : List Char) : symState tok u r a = ⟨tok, u ++ '(' :: r, a⟩ := if_neg htok
  rw [hstate] at h
  obtain ⟨rfl, hparen⟩ | ⟨hne, u', hsuf, hall⟩ := scanToken_sym hu (nextToken_eq_ok h).1 hst'
  · refine ⟨[], by simp, fun r => ?_⟩
    rw [hstate, hparen]
    rfl
  · refine ⟨u', fun c hc => hu c (hsuf.subset hc), fun r => ?_⟩
    rw [hstate]
    simp [nextToken, hall, symState, hne]

/-- Behind a part of a name stands a dot or the name's end. -/
theorem inSym_of_parseQualifiers (h : parseQualifiers lib fuel st = .ok (more, st'))
    (hst' : st'.token = .lparen) : st.token.InSym := by
  cases fuel with
  | zero => cases h
  | succ fuel =>
    obtain ⟨-, -, rfl⟩ | ⟨hdot, -⟩ := parseQualifiers_cases h
    · exact .inr (.inr hst')
    · exact .inr (.inl hdot)

theorem parseQualifiers_sym {a : Nat} (hu : ∀ c ∈ u, isSymChar c = true)
    (h : parseQualifiers lib fuel (symState tok u r a) = .ok (more, st'))
    (hst' : st'.token = .lparen) {fuel' : Nat} (hfuel : fuel ≤ fuel') (r' : List Char) :
    parseQualifiers lib fuel' (symState tok u r' a) = .ok (more, ⟨.lparen, r', a⟩) := by
  induction fuel generalizing tok u more fuel' with
  | zero => cases h
  | succ fuel ih =>
    obtain ⟨fuel', rfl⟩ : ∃ k, fuel' = k + 1 := ⟨fuel' - 1, by omega⟩
    obtain ⟨hdot, rfl, rfl⟩ | ⟨hdot, st₁, name, st₂, more', h₁, hname, h₂, h₃, rfl⟩ :=
      parseQualifiers_cases h
    · rw [symState_token] at hdot hst'
      rw [parseQualifiers, token_bind, ite_apply, if_pos (by simpa using hdot), pure_apply, hst']
      rfl
    · rw [symState_token] at hdot
      subst hdot
      obtain ⟨u₁, hu₁, hall₁⟩ := nextToken_sym hu (by simp) h₁ (.inl ⟨name, hname⟩)
      rw [hname] at hall₁
      rw [hall₁] at h₁
      cases h₁
      obtain ⟨u₂, hu₂, hall₂⟩ :=
        nextToken_sym hu₁ (by simp) h₂ (inSym_of_parseQualifiers h₃ hst')
      rw [hall₂] at h₂
      have h₃' : parseQualifiers lib fuel (symState st₂.token u₂ r a) = .ok (more', st') := by
        rw [← (Prod.mk.inj (Except.ok.inj h₂)).2] at h₃
        exact h₃
      exact parseQualifiers_dot (by simp) (hall₁ r') (by simp) (hall₂ r')
        (ih hu₂ h₃' (by omega))

/-- **What the parser of a predicate's name can do.** -/
theorem parseSym_eq_ok :
    parseSym lib fuel st = .ok (name, st') ↔ ∃ first st₁ more, st.token = .ident first ∧
      isVariable first = false ∧ nextToken lib st = .ok ((), st₁) ∧
      parseQualifiers lib fuel st₁ = .ok (more, st') ∧ name = first ++ more := by
  rw [parseSym, token_bind]
  constructor
  · intro h
    generalize htok : st.token = tok at h
    split at h
    next first =>
      rw [ite_apply] at h
      split at h
      · cases h
      next hvar =>
        obtain ⟨_, st₁, h₁, h⟩ := bind_apply_eq_ok.mp h
        obtain ⟨more, st₂, h₂, h⟩ := bind_apply_eq_ok.mp h
        cases h
        exact ⟨first, st₁, more, rfl, by simpa using hvar, h₁, h₂, rfl⟩
    · cases h
  · rintro ⟨first, st₁, more, htok, hvar, h₁, h₂, rfl⟩
    rw [htok]
    dsimp only
    rw [hvar, if_neg (by simp), bind_of_ok h₁, bind_of_ok h₂, pure_apply]

/-- The steps of the parser over a predicate name. -/
theorem IsPredicateName.steps (h : IsPredicateName lib name) :
    ∃ st₁ st₂, nextToken lib (.new (name.toList ++ ['(', ')'])) = .ok ((), st₁) ∧
      parseSym lib (name.toList.length + 3) st₁ = .ok (name, st₂) ∧ st₂.token = .lparen := by
  obtain ⟨st₁, st₂, h₁, h⟩ := runParser_eq_ok.mp h
  rw [length_append, length_cons, length_singleton] at h
  obtain ⟨sym, st₃, h₃, h⟩ := bind_apply_eq_ok.mp h
  obtain ⟨args, st₄, h₄, h⟩ := bind_apply_eq_ok.mp h
  obtain ⟨_, st₅, h₅, -⟩ := bind_apply_eq_ok.mp h₄
  cases h
  exact ⟨st₁, st₃, h₁, h₃, (expect_eq_ok.mp h₅).1⟩

/-- A predicate name has the characters of names. -/
theorem IsPredicateName.symChar (h : IsPredicateName lib name) :
    ∀ c ∈ name.toList, isSymChar c = true := by
  obtain ⟨st₁, st₂, h₁, h₂, -⟩ := h.steps
  obtain ⟨first, st₃, more, hfirst, -, -, hmore, rfl⟩ := parseSym_eq_ok.mp h₂
  have hscan := (nextToken_eq_ok h₁).1
  rw [hfirst] at hscan
  intro c hc
  rw [String.toList_append, mem_append] at hc
  obtain hc | hc := hc
  · exact isSymChar_of_isWordChar (wordChar_of_scanToken hscan c hc)
  · exact symChar_of_parseQualifiers hmore c hc

theorem IsPredicateName.ne_nil (h : IsPredicateName lib name) : name.toList ≠ [] := by
  intro hnil
  obtain ⟨st₁, st₂, h₁, h₂, -⟩ := h.steps
  obtain ⟨first, -, -, hfirst, -⟩ := parseSym_eq_ok.mp h₂
  rw [hnil] at h₁
  cases h₁
  cases hfirst

/-- **The parser reads a predicate's name up to its parenthesis**, whatever is behind. -/
theorem parseSym_name (hname : IsPredicateName lib name) (hfuel : name.toList.length + 3 ≤ fuel)
    (r : List Char) : ∃ st, nextToken lib (.new (name.toList ++ '(' :: r)) = .ok ((), st) ∧
      parseSym lib fuel st = .ok (name, ⟨.lparen, r, 0⟩) := by
  obtain ⟨st₁, st₂, h₁, h₂, hparen⟩ := hname.steps
  obtain ⟨first, st₃, more, hfirst, hvar, h₃, hmore, hsym⟩ := parseSym_eq_ok.mp h₂
  have hnew (r : List Char) :
      ParserState.new (name.toList ++ '(' :: r) = symState .illegal name.toList r 0 := rfl
  rw [hnew] at h₁ ⊢
  obtain ⟨u₁, hu₁, hall₁⟩ := nextToken_sym hname.symChar (by simp) h₁ (.inl ⟨first, hfirst⟩)
  rw [hfirst] at hall₁
  rw [hall₁] at h₁
  cases h₁
  obtain ⟨u₂, hu₂, hall₂⟩ := nextToken_sym hu₁ (by simp) h₃ (inSym_of_parseQualifiers hmore hparen)
  rw [hall₂] at h₃
  rw [← (Prod.mk.inj (Except.ok.inj h₃)).2] at hmore
  exact ⟨_, hall₁ r, parseSym_eq_ok.mpr ⟨first, _, more, by simp, hvar, hall₂ r,
    parseQualifiers_sym hu₂ hmore hparen hfuel r, hsym⟩⟩

/-! ## Facts -/

theorem commaSeparated_cons (text : List Char) (texts : List (List Char)) :
    commaSeparated (text :: texts) = text ++ texts.flatMap fun t => ',' :: ' ' :: t := by
  induction texts generalizing text with
  | nil => simp [commaSeparated]
  | cons t texts ih =>
    have hcons : commaSeparated (text :: t :: texts) =
      text ++ ([',', ' '] ++ commaSeparated (t :: texts)) := by
      simp [commaSeparated, List.intercalate, List.intersperse]
    rw [hcons, ih]
    simp

theorem feeds_rparen (h : Feeds lib ts tail) : Feeds lib (.rparen :: ts) (')' :: tail) :=
  ⟨tail, by rw [scanToken_of_ne_blank (by decide)]; rfl, h⟩

/-- Behind an argument stands a comma or the parenthesis. -/
theorem exists_behind_arg (texts : List (List Char)) (tail : List Char) :
    ∃ d rest, (d = ',' ∨ d = ')') ∧
      texts.flatMap (fun t => ',' :: ' ' :: t) ++ ')' :: tail = d :: rest := by
  cases texts with
  | nil => exact ⟨')', tail, .inr rfl, rfl⟩
  | cons t texts => exact ⟨',', _, .inl rfl, rfl⟩

/-- The arguments behind the first deliver their tokens. -/
theorem feeds_more (h : List.Forall₂ (Reads lib) texts toks) (hts : Feeds lib ts tail) :
    Feeds lib (toks.flatMap (fun t => [.comma, t]) ++ .rparen :: ts)
      (texts.flatMap (fun t => ',' :: ' ' :: t) ++ ')' :: tail) := by
  induction h with
  | nil => exact feeds_rparen hts
  | @cons text tok texts toks htext _ ih =>
    obtain ⟨d, rest, hd, hrest⟩ := exists_behind_arg texts tail
    rw [hrest] at ih
    simp only [flatMap_cons, append_assoc, cons_append, nil_append, hrest]
    refine ⟨' ' :: (text ++ d :: rest), ?_, d :: rest, ?_, ih⟩
    · rw [scanToken_of_ne_blank (by decide)]
      rfl
    · rw [← htext d rest hd]
      rfl

theorem feeds_args (h : List.Forall₂ (Reads lib) texts toks) (hts : Feeds lib ts tail) :
    Feeds lib (argTokens toks ++ .rparen :: ts) (commaSeparated texts ++ ')' :: tail) := by
  cases h with
  | nil => exact feeds_rparen hts
  | @cons text tok texts toks htext htexts =>
    have hmore := feeds_more htexts hts
    obtain ⟨d, rest, hd, hrest⟩ := exists_behind_arg texts tail
    rw [hrest] at hmore
    rw [commaSeparated_cons, append_assoc, hrest]
    exact ⟨d :: rest, htext d rest hd, hmore⟩

theorem length_le_commaSeparated (texts : List (List Char)) :
    texts.length ≤ (commaSeparated texts).length + 1 := by
  cases texts with
  | nil => simp
  | cons text texts =>
    have hmore : texts.length ≤ (texts.flatMap fun t => ',' :: ' ' :: t).length := by
      rw [length_flatMap, ← length_map]
      exact length_le_sum_of_one_le _ (by simp)
    rw [commaSeparated_cons, length_append, length_cons]
    omega

/-- The text of a fact. -/
def factText (name : String) (texts : List (List Char)) : List Char :=
  name.toList ++ '(' :: (commaSeparated texts ++ [')', '.'])

/-- Behind a head without interval and body stands the dot. -/
theorem parseClause_of_head {head : Atom} (hatom : parseAtom lib fuel st = .ok (head, st'))
    (hst' : st'.token = .dot ∨ st'.token = .eof) : parseClause lib fuel st =
      (expect lib .dot >>= fun _ => pure ⟨head, none, [], []⟩ : Parser Clause) st' := by
  have htime : tryParseInterval lib st' = .ok (none, st') := by
    rw [tryParseInterval, token_bind, ite_apply, if_pos (by obtain h | h := hst' <;> simp [h]),
      pure_apply]
  have hbody : parseBody lib fuel st' = .ok (([], []), st') := by
    rw [parseBody, token_bind, ite_apply, if_neg (by obtain h | h := hst' <;> simp [h]), pure_apply]
  rw [parseClause, bind_of_ok hatom, bind_of_ok htime, bind_of_ok hbody]

/-- **A fact of one-token arguments is parsed to its predicate and terms.** -/
theorem parse_fact (hname : IsPredicateName lib name) (htexts : List.Forall₂ (Reads lib) texts toks)
    (hterms : List.Forall₂ (fun t a => leafTerm t = some a) toks terms) :
    runParser lib parseClause (factText name texts) = .ok ⟨⟨name, terms⟩, none, [], []⟩ := by
  have hfeeds : Feeds lib (argTokens toks ++ [.rparen, .dot, .eof])
      (commaSeparated texts ++ [')', '.']) :=
    feeds_args htexts ⟨[], rfl, [], rfl, trivial⟩
  have hlen := length_le_commaSeparated texts
  rw [htexts.length_eq] at hlen
  generalize hfuel : (factText name texts).length + 1 = fuel
  have hlength : (factText name texts).length =
      name.toList.length + ((commaSeparated texts).length + 3) := by
    simp [factText]
  obtain ⟨st₁, h₁, hsym⟩ := parseSym_name hname (show name.toList.length + 3 ≤ fuel by omega)
    (commaSeparated texts ++ [')', '.'])
  have hat : At lib (.lparen :: (argTokens toks ++ .rparen :: [.dot, .eof]))
      ⟨.lparen, commaSeparated texts ++ [')', '.'], 0⟩ := ⟨rfl, hfeeds⟩
  obtain ⟨st₂, hargs, hat₂⟩ := hat.parseParenBaseTerms hterms (by simp)
    (show toks.length < fuel by omega)
  obtain ⟨st₃, hdot, -⟩ := hat₂.expect (by simp)
  refine runParser_eq_ok.mpr ⟨st₁, st₃, h₁, ?_⟩
  have hatom : parseAtom lib fuel st₁ = .ok (⟨name, terms⟩, st₂) := by
    rw [parseAtom, bind_of_ok hsym, bind_of_ok hargs, pure_apply]
  rw [hfuel, parseClause_of_head hatom (.inl hat₂.1), bind_of_ok hdot, pure_apply]

end Fact

end Mangle.Parse

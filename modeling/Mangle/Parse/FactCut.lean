import Mangle.Machinery.Text
import Mangle.Parse.Fact

/-!
# Parse/FactCut — a fact that was cut

The text of a fact whose end is missing does not parse: the name's parenthesis is missing, or the
one that closes the arguments, or the dot.  An argument that was cut is at most one token, with
nothing behind it (`Breaks`); for a string this rests on the scanner's closing a literal at the end
of the input.

* `parse_cut_fact` — **no text of a fact without its end is a clause.**
-/

namespace Mangle.Parse

open Machinery List

variable {s p : List Char} {st st' st₁ st₂ : ParserState} {fuel : Nat} {texts : List (List Char)}
  {name : String}

section FactCut

variable {lib : TextLib}

/-! ## Arguments -/

/-- The text is at most one token, of a base term, with nothing behind it. -/
def Breaks (lib : TextLib) (s : List Char) : Prop :=
  ∀ tok rest, scanToken lib s = .ok (tok, rest) →
    rest = [] ∧ (tok = .eof ∨ ∃ term, leafTerm tok = some term)

/-- The text of an argument, whole or cut. -/
structure IsArg (lib : TextLib) (text : List Char) : Prop where
  reads : ∃ tok term, Reads lib text tok ∧ leafTerm tok = some term
  breaks : ∀ p, p <+: text → Breaks lib p

theorem breaks_nil : Breaks lib [] := by
  intro tok rest h
  cases h
  exact ⟨rfl, .inl rfl⟩

theorem numericLoop_all_digits (hs : ∀ c ∈ s, isDigit c = true) :
    numericLoop s = (s, false, []) := by
  induction s with
  | nil => rfl
  | cons c s ih =>
    rw [numericLoop, if_pos (hs c mem_cons_self),
      ih fun d hd => hs d (mem_cons_of_mem _ hd)]

/-- A number that was cut is a number. -/
theorem numeric_cut {first : Char} {rest : List Char} {tok : Token} (hs : ∀ c ∈ s, isDigit c = true)
    (h : numeric lib first s = .ok (tok, rest)) : rest = [] ∧ ∃ term, leafTerm tok = some term := by
  have hnum : numeric lib first s = numeric.number lib false (first :: s) [] := by
    simp [numeric, numericLoop_all_digits hs]
  rw [hnum, numeric.number, if_neg (by simp)] at h
  split at h <;> cases h
  exact ⟨rfl, _, rfl⟩

theorem breaks_digits (hp : ∀ c ∈ p, isDigit c = true) : Breaks lib p := by
  cases p with
  | nil => exact breaks_nil
  | cons c p =>
    intro tok rest h
    have hc := hp c mem_cons_self
    have hident : isIdent c = true := by simp [isIdent, hc]
    rw [scanToken_of_isSym (by simp [isSymChar, hident]), tokenAt_isIdent hident, if_pos hc] at h
    exact (numeric_cut (fun d hd => hp d (mem_cons_of_mem _ hd)) h).imp id .inr

theorem breaks_minus (hp : ∀ c ∈ p, isDigit c = true) : Breaks lib ('-' :: p) := by
  intro tok rest h
  rw [scanToken_of_ne_blank (by decide), tokenAt_minus] at h
  split at h
  · exact (numeric_cut hp h).imp id .inr
  · cases h

/-- **A number is an argument.** -/
theorem isArg_number (lib : TextLib) (n : Int64) : IsArg lib (displayValue lib (.number n)) where
  reads := ⟨_, _, reads_number lib n, rfl⟩
  breaks p hp := by
    have hdig {p : List Char} (hp : p <+: displayNat n.toInt.natAbs) (c : Char) (hc : c ∈ p) :
        isDigit c = true := isDigit_of_mem_displayNat (hp.subset hc)
    rw [displayValue, displayInt] at hp
    split at hp
    · obtain rfl | ⟨q, rfl, hq⟩ := prefix_cons_iff.mp hp
      · exact breaks_nil
      · exact breaks_minus (hdig hq)
    · exact breaks_digits (hdig hp)

theorem scanUntil_nil_of_prefix {delim : Char} (hs : delim ∉ s) (hp : p <+: s ++ [delim]) :
    (scanUntil delim p).2 = [] := by
  induction s generalizing p with
  | nil =>
    obtain rfl | ⟨q, rfl, hq⟩ := prefix_cons_iff.mp hp
    · rfl
    · rw [prefix_nil] at hq
      subst hq
      simp [scanUntil]
  | cons c s ih =>
    obtain ⟨hc, hs⟩ := not_or.mp (mem_cons.not.mp hs)
    obtain rfl | ⟨q, rfl, hq⟩ := prefix_cons_iff.mp hp
    · rfl
    · rw [scanUntil, if_neg (Ne.symm hc)]
      exact ih hs hq

/-- **A plain string is an argument.** -/
theorem isArg_string {s : String} (h : PlainString lib s) :
    IsArg lib (displayValue lib (.string s)) where
  reads := ⟨_, _, reads_string h, rfl⟩
  breaks p hp := by
    rw [displayValue, debugStr] at hp
    obtain rfl | ⟨q, rfl, hq⟩ := prefix_cons_iff.mp hp
    · exact breaks_nil
    intro tok rest hscan
    have hnil := scanUntil_nil_of_prefix (decodeBody_debug h).1 hq
    rw [scanToken_of_ne_blank (by decide)] at hscan
    change scanString '"' false q = _ at hscan
    rw [scanString] at hscan
    simp only at hscan
    split at hscan <;> cases hscan
    · exact ⟨hnil, .inr ⟨_, rfl⟩⟩
    · exact ⟨hnil, .inr ⟨_, rfl⟩⟩

/-! ### The parser on cut arguments -/

theorem nextToken_scan {tok : Token} {rest : List Char} (h : nextToken lib st = .ok ((), st'))
    (hscan : scanToken lib st.rest = .ok (tok, rest)) : st'.token = tok ∧ st'.rest = rest := by
  rw [(nextToken_eq_ok h).1] at hscan
  exact Prod.mk.inj (Except.ok.inj hscan)

theorem nextToken_of_rest (h : nextToken lib st = .ok ((), st')) (hrest : st.rest = []) :
    st'.token = .eof ∧ st'.rest = [] :=
  nextToken_scan h (by rw [hrest]; rfl)

/-- Where only the parenthesis is left, it or nothing is delivered. -/
theorem nextToken_close (h : nextToken lib st = .ok ((), st')) (hst : st.rest <+: [')']) :
    (st'.token = .eof ∨ st'.token = .rparen) ∧ st'.rest = [] := by
  obtain hnil | ⟨v, hcons, hv⟩ := prefix_cons_iff.mp hst
  · exact (nextToken_of_rest h hnil).imp .inl id
  · rw [prefix_nil] at hv
    subst hv
    refine (nextToken_scan h ?_).imp .inr id
    rw [hcons, scanToken_of_ne_blank (by decide)]
    rfl

/-- **What the loop over further items can do.** -/
theorem parseMore_cases {α : Type} {item : Parser α} {more : Token → Bool} {xs : List α}
    (h : parseMore lib item more fuel st = .ok (xs, st')) :
    (st.token ≠ .comma ∧ st' = st) ∨ (st.token = .comma ∧ ∃ st₁, nextToken lib st = .ok ((), st₁) ∧
      ((more st₁.token = false ∧ st' = st₁) ∨ ∃ fuel' x st₂ xs', more st₁.token = true ∧
        item st₁ = .ok (x, st₂) ∧ parseMore lib item more fuel' st₂ = .ok (xs', st'))) := by
  cases fuel with
  | zero => cases h
  | succ fuel =>
    rw [parseMore, token_bind, ite_apply] at h
    split at h
    next hne =>
      cases h
      exact .inl ⟨hne, rfl⟩
    next hcomma =>
      obtain ⟨_, st₁, h₁, h⟩ := bind_apply_eq_ok.mp h
      rw [token_bind, ite_apply] at h
      refine .inr ⟨not_not.mp hcomma, st₁, h₁, ?_⟩
      split at h
      next hmore =>
        cases h
        exact .inl ⟨by simpa using hmore, rfl⟩
      next hmore =>
        obtain ⟨x, st₂, h₂, h⟩ := bind_apply_eq_ok.mp h
        obtain ⟨xs', st₃, h₃, h⟩ := bind_apply_eq_ok.mp h
        cases h
        exact .inr ⟨fuel, x, st₂, xs', by simpa using hmore, h₂, h₃⟩

/-- A leaf takes one token. -/
theorem nextToken_of_leaf {t a : Term} (ht : leafTerm st.token = some t)
    (h : parseBaseTerm lib fuel st = .ok (a, st')) : nextToken lib st = .ok ((), st') := by
  cases fuel with
  | zero => cases h
  | succ fuel =>
    rw [parseBaseTerm_leaf ht] at h
    obtain ⟨_, st₁, h₁, h⟩ := bind_apply_eq_ok.mp h
    cases h
    exact h₁

/-- A base term does not start at the end of the text or of the arguments. -/
theorem parseBaseTerm_end (h : st.token = .eof ∨ st.token = .rparen) (fuel : Nat) {a : Term} :
    parseBaseTerm lib fuel st ≠ .ok (a, st') := by
  cases fuel with
  | zero => nofun
  | succ fuel =>
    rw [parseBaseTerm, token_bind]
    obtain h | h := h <;> rw [h] <;> nofun

/-- Behind the last token of a text there are no further arguments. -/
theorem parseMore_end {α : Type} {item : Parser α} {more : Token → Bool} {xs : List α}
    (hst : st.token = .eof ∨ st.token = .rparen) (hrest : st.rest = [])
    (h₁ : parseMore lib item more fuel st = .ok (xs, st₁))
    (h₂ : expect lib .rparen st₁ = .ok ((), st₂)) : st₂.token = .eof := by
  obtain ⟨-, rfl⟩ | ⟨hcomma, -⟩ := parseMore_cases h₁
  · exact (nextToken_of_rest (expect_eq_ok.mp h₂).2 hrest).1
  · obtain hst | hst := hst <;> cases hst.symm.trans hcomma

/-- What is scanned of an argument and what stands behind it, where both may be cut. -/
theorem IsArg.scan {t : List Char} (h : IsArg lib t) {tail w rest : List Char} {tok : Token}
    (htail : ∀ d r, d :: r <+: tail → d = ',' ∨ d = ')') (hw : w <+: t ++ tail)
    (hscan : scanToken lib w = .ok (tok, rest)) :
    tok = .eof ∨ (∃ term, leafTerm tok = some term) ∧ rest <+: tail := by
  obtain hcut | ⟨v, hne, rfl, hv⟩ := prefix_append_cases hw
  · obtain ⟨rfl, heof | hleaf⟩ := h.breaks w hcut tok rest hscan
    · exact .inl heof
    · exact .inr ⟨hleaf, nil_prefix⟩
  · obtain ⟨d, r, rfl⟩ := exists_cons_of_ne_nil hne
    obtain ⟨tok', term, hreads, hterm⟩ := h.reads
    rw [hreads d r (htail d r hv)] at hscan
    cases hscan
    exact .inr ⟨⟨term, hterm⟩, hv⟩

theorem head_behind_arg (texts : List (List Char)) (d : Char) (r : List Char)
    (h : d :: r <+: texts.flatMap (fun t => ',' :: ' ' :: t) ++ [')']) : d = ',' ∨ d = ')' := by
  obtain ⟨d', r', hd', heq⟩ := exists_behind_arg texts []
  rw [heq, cons_prefix_cons] at h
  rw [h.1]
  exact hd'

/-- **Arguments that were cut are not closed**, or nothing stands behind them. -/
theorem parseMore_cut (h : ∀ t ∈ texts, IsArg lib t) {n : Nat} {st₃ : ParserState}
    {args : List Term} (hv : st.rest <+: texts.flatMap (fun t => ',' :: ' ' :: t) ++ [')'])
    (h₁ : nextToken lib st = .ok ((), st₁))
    (h₂ : parseMore lib (parseBaseTerm lib n) baseTermStart fuel st₁ = .ok (args, st₂))
    (h₃ : expect lib .rparen st₂ = .ok ((), st₃)) : st₃.token = .eof := by
  induction texts generalizing st st₁ args fuel with
  | nil =>
    obtain ⟨htok, hrest⟩ := nextToken_close h₁ hv
    exact parseMore_end htok hrest h₂ h₃
  | cons t texts ih =>
    rw [forall_mem_cons] at h
    rw [flatMap_cons, append_assoc] at hv
    obtain hnil | ⟨v, hcons, hv⟩ := prefix_cons_iff.mp hv
    · obtain ⟨htok, hrest⟩ := nextToken_of_rest h₁ hnil
      exact parseMore_end (.inl htok) hrest h₂ h₃
    obtain ⟨htok, rfl⟩ : st₁.token = .comma ∧ st₁.rest = v :=
      nextToken_scan h₁ (by rw [hcons, scanToken_of_ne_blank (by decide)]; rfl)
    obtain ⟨hne, -⟩ | ⟨-, st₄, h₄, hmore⟩ := parseMore_cases h₂
    · exact absurd htok hne
    -- behind the comma there is nothing, or an argument, which may be cut
    have harg : st₄.token = .eof ∨ (∃ term, leafTerm st₄.token = some term) ∧
        st₄.rest <+: texts.flatMap (fun t => ',' :: ' ' :: t) ++ [')'] := by
      obtain hnil | ⟨w, hcons, hw⟩ := prefix_cons_iff.mp hv
      · exact .inl (nextToken_of_rest h₄ hnil).1
      · have hscan := (nextToken_eq_ok h₄).1
        rw [hcons] at hscan
        exact h.1.scan (head_behind_arg texts) hw hscan
    obtain heof | ⟨⟨term, hterm⟩, htail⟩ := harg
    · obtain ⟨-, rfl⟩ | ⟨_, _, _, _, hstart, -⟩ := hmore
      · rw [expect_eq_ok, heof] at h₃
        cases h₃.1
      · rw [heof] at hstart
        cases hstart
    · obtain ⟨hstart, -⟩ | ⟨fuel', x, st₅, xs, -, h₅, h₆⟩ := hmore
      · rw [baseTermStart_of_leafTerm hterm] at hstart
        cases hstart
      · exact ih h.2 htail (nextToken_of_leaf hterm h₅) h₆

theorem parseUntil_cases {item : Parser Term} {stop : Token} {xs : List Term}
    (h : parseUntil lib item fuel stop st = .ok (xs, st')) :
    (st.token = stop ∧ st' = st) ∨ ∃ x st₁ xs', item st = .ok (x, st₁) ∧
      parseMore lib item baseTermStart fuel st₁ = .ok (xs', st') := by
  rw [parseUntil, token_bind, ite_apply] at h
  split at h
  · obtain ⟨x, st₁, h₁, h⟩ := bind_apply_eq_ok.mp h
    obtain ⟨xs', st₂, h₂, h⟩ := bind_apply_eq_ok.mp h
    cases h
    exact .inr ⟨x, st₁, xs', h₁, h₂⟩
  next heq =>
    cases h
    exact .inl ⟨not_not.mp heq, rfl⟩

/-- The same for all arguments, in their parentheses. -/
theorem parseParenBaseTerms_cut (h : ∀ t ∈ texts, IsArg lib t) {n : Nat} {args : List Term}
    (hv : st.rest <+: commaSeparated texts ++ [')'])
    (hst : parseParenBaseTerms lib (parseBaseTerm lib n) fuel st = .ok (args, st')) :
    st'.token = .eof := by
  obtain ⟨_, st₁, h₁, hst⟩ := bind_apply_eq_ok.mp hst
  obtain ⟨args', st₂, h₂, hst⟩ := bind_apply_eq_ok.mp hst
  obtain ⟨_, st₃, h₃, hst⟩ := bind_apply_eq_ok.mp hst
  cases hst
  have h₁ := (expect_eq_ok.mp h₁).2
  cases texts with
  | nil =>
    obtain ⟨htok, hrest⟩ := nextToken_close h₁ hv
    obtain ⟨-, rfl⟩ | ⟨x, st₄, xs, h₄, -⟩ := parseUntil_cases h₂
    · exact (nextToken_of_rest (expect_eq_ok.mp h₃).2 hrest).1
    · exact absurd h₄ (parseBaseTerm_end htok n)
  | cons t texts =>
    rw [forall_mem_cons] at h
    rw [commaSeparated_cons, append_assoc] at hv
    obtain heof | ⟨⟨term, hterm⟩, htail⟩ :=
      h.1.scan (head_behind_arg texts) hv (nextToken_eq_ok h₁).1
    · obtain ⟨hrparen, -⟩ | ⟨x, st₄, xs, h₄, -⟩ := parseUntil_cases h₂
      · rw [heof] at hrparen
        cases hrparen
      · exact absurd h₄ (parseBaseTerm_end (.inl heof) n)
    · obtain ⟨hrparen, -⟩ | ⟨x, st₄, xs, h₄, h₅⟩ := parseUntil_cases h₂
      · rw [hrparen] at hterm
        cases hterm
      · exact parseMore_cut h.2 htail (nextToken_of_leaf hterm h₄) h₅ h₃

/-! ## Names -/

/-- A text without a parenthesis delivers none. -/
theorem nextToken_no_lparen (h : nextToken lib st = .ok ((), st')) (hst : '(' ∉ st.rest) :
    st'.token ≠ .lparen ∧ '(' ∉ st'.rest := by
  have hscan := (nextToken_eq_ok h).1
  refine ⟨fun htok => hst ?_, fun hmem => hst ((scanToken_leaves _ _ hscan).subset hmem)⟩
  rw [htok, scanToken] at hscan
  split at hscan
  · cases hscan
  next c s heq =>
    obtain ⟨rfl, -⟩ | htok | ⟨_, htok, -⟩ := tokenAt_inSym hscan (.inr (.inr rfl))
    · exact skipBlank_suffix.subset (heq ▸ mem_cons_self)
    · cases htok
    · cases htok

theorem parseQualifiers_no_lparen {more : String}
    (h : parseQualifiers lib fuel st = .ok (more, st')) (hst : st.token ≠ .lparen)
    (hrest : '(' ∉ st.rest) : st'.token ≠ .lparen := by
  induction fuel generalizing st more with
  | zero => cases h
  | succ fuel ih =>
    obtain ⟨-, -, rfl⟩ | ⟨-, st₁, name, st₂, more', h₁, -, h₂, h₃, -⟩ := parseQualifiers_cases h
    · exact hst
    · obtain ⟨-, hrest₁⟩ := nextToken_no_lparen h₁ hrest
      obtain ⟨htok₂, hrest₂⟩ := nextToken_no_lparen h₂ hrest₁
      exact ih h₃ htok₂ hrest₂

/-- More fuel does not change what the loop over the parts of a name does. -/
theorem parseQualifiers_mono {fuel' : Nat} {more : String}
    (h : parseQualifiers lib fuel st = .ok (more, st')) (hle : fuel ≤ fuel') :
    parseQualifiers lib fuel' st = .ok (more, st') := by
  induction fuel generalizing st more fuel' with
  | zero => cases h
  | succ fuel ih =>
    obtain ⟨fuel', rfl⟩ : ∃ k, fuel' = k + 1 := ⟨fuel' - 1, by omega⟩
    obtain ⟨hdot, rfl, rfl⟩ | ⟨hdot, st₁, name, st₂, more', h₁, hname, h₂, h₃, rfl⟩ :=
      parseQualifiers_cases h
    · rw [parseQualifiers, token_bind, ite_apply, if_pos hdot, pure_apply]
    · exact parseQualifiers_dot hdot h₁ hname h₂ (ih h₃ (by omega))

theorem parseSym_mono {fuel' : Nat} (h : parseSym lib fuel st = .ok (name, st'))
    (hle : fuel ≤ fuel') : parseSym lib fuel' st = .ok (name, st') := by
  obtain ⟨first, st₁, more, hfirst, hvar, h₁, h₂, hname⟩ := parseSym_eq_ok.mp h
  exact parseSym_eq_ok.mpr ⟨first, st₁, more, hfirst, hvar, h₁, parseQualifiers_mono h₂ hle, hname⟩

theorem parseSym_no_lparen (h : parseSym lib fuel st = .ok (name, st')) (hrest : '(' ∉ st.rest) :
    st'.token ≠ .lparen := by
  obtain ⟨first, st₁, more, -, -, h₁, h₂, -⟩ := parseSym_eq_ok.mp h
  obtain ⟨htok, hrest⟩ := nextToken_no_lparen h₁ hrest
  exact parseQualifiers_no_lparen h₂ htok hrest

/-! ## Facts -/

/-- The dot of a clause is missing at the end of the text. -/
theorem parseClause_no_dot {head : Atom} {clause : Clause}
    (hatom : parseAtom lib fuel st = .ok (head, st₁)) (hst₁ : st₁.token = .eof) :
    parseClause lib fuel st ≠ .ok (clause, st₂) := by
  intro h
  rw [parseClause_of_head hatom (.inr hst₁)] at h
  obtain ⟨_, st₃, hdot, -⟩ := bind_apply_eq_ok.mp h
  rw [expect_eq_ok, hst₁] at hdot
  cases hdot.1

/-- **No text of a fact without its end is a clause.** -/
theorem parse_cut_fact (hname : IsPredicateName lib name) (htexts : ∀ t ∈ texts, IsArg lib t)
    {v : List Char} (hv : v <+: factText name texts) (hne : v ≠ factText name texts)
    (clause : Clause) : runParser lib parseClause v ≠ .ok clause := by
  intro hrun
  obtain ⟨st₁, st₂, h₁, hclause⟩ := runParser_eq_ok.mp hrun
  obtain ⟨head, st₃, hatom, -⟩ := bind_apply_eq_ok.mp hclause
  obtain ⟨sym, st₄, hsym, hrest⟩ := bind_apply_eq_ok.mp hatom
  obtain ⟨args, st₅, hargs, hrest⟩ := bind_apply_eq_ok.mp hrest
  cases hrest
  obtain hcut | ⟨w, hwne, rfl, hw⟩ := prefix_append_cases hv
  · -- the name has no parenthesis
    obtain ⟨_, st₆, hparen, -⟩ := bind_apply_eq_ok.mp hargs
    have hno : '(' ∉ v := fun hmem => by cases hname.symChar _ (hcut.subset hmem)
    exact parseSym_no_lparen hsym (nextToken_no_lparen h₁ hno).2 (expect_eq_ok.mp hparen).1
  · obtain rfl | ⟨u, rfl, hu⟩ := prefix_cons_iff.mp hw
    · exact hwne rfl
    have hu : u <+: commaSeparated texts ++ [')'] := by
      have hsplit : commaSeparated texts ++ [')', '.'] =
          (commaSeparated texts ++ [')']) ++ ['.'] := by
        simp
      rw [hsplit, prefix_concat_iff] at hu
      refine hu.resolve_left fun hall => hne ?_
      rw [hall, factText, hsplit]
    obtain ⟨st, hst, hsym'⟩ := parseSym_name hname
      (Nat.le_max_left _ ((name.toList ++ '(' :: u).length + 1)) u
    obtain rfl : st₁ = st := (Prod.mk.inj (Except.ok.inj (h₁.symm.trans hst))).2
    have heq := (parseSym_mono hsym (Nat.le_max_right _ _)).symm.trans hsym'
    obtain rfl := (Prod.mk.inj (Except.ok.inj heq)).2
    exact parseClause_no_dot hatom (parseParenBaseTerms_cut htexts hu hargs) hclause

end FactCut

end Mangle.Parse

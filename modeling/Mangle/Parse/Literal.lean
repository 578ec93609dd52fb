import Mangle.Parse.Scan

/-!
# Parse/Literal — which literals can be decoded

The grammar of the text between the quotes of a literal, and where a string token ends.  The source
looks for the next backslash in characters and cuts there in bytes, so that in a text with longer
characters another character may stand where the backslash is expected.

* `decodeBody_iff` — `unquote` decodes the texts of the grammar, refuses others, and panics on the
  rest;
* `scanString_right_iff` — a string token ends at the right place exactly when the first quote is
  not escaped, or nothing can be decoded.
-/

namespace Mangle.Parse

open Machinery List

variable {s r : List Char} {isByte : Bool}

/-! ## Cuts -/

theorem splitAtByte_eq_ok {n : Nat} {p : List Char × List Char} :
    splitAtByte n s = .ok p ↔ s = p.1 ++ p.2 ∧ byteLen p.1 = n := by
  constructor
  · intro h
    induction s generalizing n p with
    | nil =>
      rw [splitAtByte] at h
      split at h
      · next hn =>
        obtain rfl := Except.ok.inj h
        exact ⟨rfl, hn.symm⟩
      · cases h
    | cons c s ih =>
      rw [splitAtByte] at h
      split at h
      · next hn =>
        obtain rfl := Except.ok.inj h
        exact ⟨rfl, hn.symm⟩
      · split at h
        · next hc =>
          obtain ⟨⟨l, r⟩, hlr, rfl⟩ := bind_eq_pure.mp h
          obtain ⟨rfl, hl⟩ := ih hlr
          exact ⟨rfl, by simp only [byteLen_cons, hl]; omega⟩
        · cases h
  · obtain ⟨l, r⟩ := p
    rintro ⟨rfl, rfl⟩
    exact splitAtByte_append l r

/-- A cut fails by a panic only. -/
theorem splitAtByte_error {n : Nat} {e : QuoteError} (h : splitAtByte n s = .error e) :
    e = .panic := by
  induction s generalizing n with
  | nil =>
    rw [splitAtByte] at h
    split at h <;> cases h
    rfl
  | cons c s ih =>
    rw [splitAtByte] at h
    split at h
    · cases h
    · split at h
      · rcases bind_eq_error.mp h with h | ⟨_, -, h⟩
        · exact ih h
        · cases h
      · cases h
        rfl

/-! ## Outcomes -/

/-- What a decoder returns, or that it refuses the text; a panic is neither. -/
def outcome {α : Type} : Except QuoteError α → Option (Option α)
  | .ok a => some (some a)
  | .error .panic | .error .unfinished => none
  | .error _ => some none

section

variable {α β : Type} {x : Except QuoteError α} {f : α → Except QuoteError β}

theorem outcome_eq_some {a : α} : outcome x = some (some a) ↔ x = .ok a := by
  unfold outcome
  split <;> simp

theorem outcome_bind {o : Option β} : outcome (x >>= f) = some o ↔
    (∃ a, x = .ok a ∧ outcome (f a) = some o) ∨ outcome x = some none ∧ o = none := by
  cases x with
  | ok a => simp [outcome]
  | error e => cases e <;> simp [outcome, eq_comm]

/-- A cut is made, or it panics. -/
theorem outcome_splitAtByte {n : Nat} {f : List Char × List Char → Except QuoteError β}
    {o : Option β} : outcome (splitAtByte n s >>= f) = some o ↔
      ∃ l r, s = l ++ r ∧ byteLen l = n ∧ outcome (f (l, r)) = some o := by
  have hpanic : outcome (splitAtByte n s) ≠ some none := by
    cases hs : splitAtByte n s with
    | ok p => simp [outcome]
    | error e => simp [splitAtByte_error hs, outcome]
  simp only [outcome_bind, hpanic, false_and, or_false, splitAtByte_eq_ok, Prod.exists, and_assoc]

theorem outcome_dropBytes {n : Nat} {f : List Char → Except QuoteError β} {o : Option β} :
    outcome (dropBytes n s >>= f) = some o ↔
      ∃ l r, s = l ++ r ∧ byteLen l = n ∧ outcome (f r) = some o := by
  rw [dropBytes, bind_assoc, outcome_splitAtByte]
  rfl

end

/-! ## The grammar -/

/-- What a line break or a letter after a backslash stands for. -/
def letterBytes (c : Char) : Option (List UInt8) :=
  if c = '\n' then some [] else (unesc c).map ([·])

/-- The number of digits after a backslash and this letter. -/
def digitCount : Char → Option Nat
  | 'x' => some 2
  | 'u' => some 4
  | 'U' => some 8
  | _ => none

/-- The number may be written with this letter. -/
def codeAllowed (isByte : Bool) (c : Char) (n : Nat) : Bool :=
  if c = 'x' then isByte || n ≤ 127 else !(0xd800 ≤ n && n < 0xe000) && n ≤ 0x10FFFF

/-- A carriage return or an escape in front of a text: its bytes and what follows, or that it is
refused.  The first character of an escape need not be a backslash. -/
inductive Escape (isByte : Bool) : List Char → Option (List UInt8 × List Char) → Prop
  | crlf (r : List Char) : Escape isByte ('\r' :: '\n' :: r) (some ([0x0A], r))
  | cr {r : List Char} (h : r.head? ≠ some '\n') : Escape isByte ('\r' :: r) (some ([0x0A], r))
  | alone {s : List Char} (hs : s.head? ≠ some '\r') (hlen : s.length ≤ 1) : Escape isByte s none
  | letter {x c : Char} {r l rest : List Char} {bytes : List UInt8} (hx : x ≠ '\r')
      (hc : letterBytes c = some bytes) (hcut : x :: c :: r = l ++ rest) (hl : byteLen l = 2) :
      Escape isByte (x :: c :: r) (some (bytes, rest))
  | octal {x c : Char} {r l q rest : List Char} {n : Nat} (hx : x ≠ '\r')
      (hc : '0' ≤ c ∧ c ≤ '7') (hcut : x :: c :: r = l ++ q) (hl : byteLen l = 2)
      (hdigits : octalDigits [1, 2] (c.toNat - '0'.toNat) q = .ok (n, rest)) :
      Escape isByte (x :: c :: r)
        (if (isByte || n ≤ 127) && n ≤ 255 then some ([0], rest) else none)
  | short {x c : Char} {r : List Char} {k : Nat} (hx : x ≠ '\r') (hc : digitCount c = some k)
      (hlen : byteLen (x :: c :: r) < 2 + k) : Escape isByte (x :: c :: r) none
  | number {x c : Char} {r l digits rest : List Char} {k : Nat} (hx : x ≠ '\r')
      (hc : digitCount c = some k) (hcut : x :: c :: r = l ++ digits ++ rest) (hl : byteLen l = 2)
      (hdigits : byteLen digits = k) :
      Escape isByte (x :: c :: r) (((fromStrRadix16 digits).filter (codeAllowed isByte c)).map
        fun n => (String.utf8EncodeChar (Char.ofNat n), rest))
  | other {x c : Char} {r : List Char} (hx : x ≠ '\r') (hc : letterBytes c = none)
      (hoctal : ¬ ('0' ≤ c ∧ c ≤ '7')) (hdigits : digitCount c = none) :
      Escape isByte (x :: c :: r) none

/-- The bytes that a text stands for, or that it is refused. -/
inductive Decodes (isByte : Bool) : List Char → Option (List UInt8) → Prop
  | plain {s : List Char} (h : ∀ c ∈ s, isSpecial false c = false) :
      Decodes isByte s (some (s.map asByte))
  | refused {pre r l tail : List Char} {c : Char} (hpre : ∀ d ∈ pre, isSpecial false d = false)
      (hc : isSpecial false c = true) (hcut : pre ++ c :: r = l ++ tail)
      (hl : byteLen l = pre.length) (hesc : Escape isByte tail none) :
      Decodes isByte (pre ++ c :: r) none
  | escape {pre r l tail rest : List Char} {c : Char} {bytes : List UInt8}
      {o : Option (List UInt8)} (hpre : ∀ d ∈ pre, isSpecial false d = false)
      (hc : isSpecial false c = true) (hcut : pre ++ c :: r = l ++ tail)
      (hl : byteLen l = pre.length) (hesc : Escape isByte tail (some (bytes, rest)))
      (hrest : Decodes isByte rest o) :
      Decodes isByte (pre ++ c :: r) (o.map (l.map asByte ++ bytes ++ ·))

/-! ## The decoder follows the grammar -/

section

variable {x c : Char} {k : Nat}

theorem octalDigits_error {is : List Nat} {n : Nat} {e : QuoteError}
    (h : octalDigits is n s = .error e) : e = .panic := by
  induction is generalizing n s with
  | nil => cases h
  | cons i is ih =>
    unfold octalDigits at h
    split at h
    · cases h
    · split at h
      · cases h
        rfl
      · split at h
        · cases h
        · split at h
          · cases h
            rfl
          · exact ih h

theorem outcome_sliceBytes {n m : Nat} {β : Type} {f : List Char → Except QuoteError β}
    {o : Option β} : outcome (sliceBytes n m s >>= f) = some o ↔
      ∃ l d r, s = l ++ d ++ r ∧ byteLen l = n ∧ byteLen (l ++ d) = m ∧ outcome (f d) = some o := by
  simp only [sliceBytes, bind_assoc, outcome_splitAtByte, outcome_dropBytes]
  constructor
  · rintro ⟨_, r, rfl, hm, l, d, rfl, hl, ho⟩
    exact ⟨l, d, r, rfl, hl, hm, ho⟩
  · rintro ⟨l, d, r, rfl, hl, hm, ho⟩
    exact ⟨l ++ d, r, rfl, hm, l, d, rfl, hl, ho⟩

theorem byteLen_ne_one (x c : Char) (r : List Char) : byteLen (x :: c :: r) ≠ 1 := by
  have := x.utf8Size_pos
  have := c.utf8Size_pos
  simp only [byteLen_cons]
  omega

theorem unescape_letter {bytes : List UInt8} (hx : x ≠ '\r') (hc : letterBytes c = some bytes) :
    unescape isByte (x :: c :: r) = (do pure (bytes, ← dropBytes 2 (x :: c :: r))) := by
  rw [unescape, if_neg (by simpa using hx), if_neg (byteLen_ne_one x c r)]
  simp only [List.getElem?_cons_succ, List.getElem?_cons_zero]
  unfold letterBytes at hc
  split
  · next heq => cases heq
  · next heq =>
    rw [if_pos (Option.some.inj heq)] at hc
    rw [← Option.some.inj hc]
  · next hne heq =>
    obtain rfl := Option.some.inj heq
    rw [if_neg fun h => hne (by rw [h])] at hc
    obtain ⟨b, hb, rfl⟩ := Option.map_eq_some_iff.mp hc
    simp only [hb]

/-- An escape with digits, or none. -/
theorem unescape_numeric (hx : x ≠ '\r') (hc : letterBytes c = none) :
    unescape isByte (x :: c :: r) = numericEscape isByte c (x :: c :: r) := by
  unfold letterBytes at hc
  split at hc
  · cases hc
  · rw [unescape, if_neg (by simpa using hx), if_neg (byteLen_ne_one x c r)]
    simp only [List.getElem?_cons_succ, List.getElem?_cons_zero, Option.map_eq_none_iff.mp hc]

/-- An escape with a fixed number of digits. -/
theorem outcome_digits {m : Nat} (hm : m = 2 + k)
    {F : List Char → Except QuoteError (List UInt8 × List Char)}
    {val : List Char → List Char → Option (List UInt8 × List Char)}
    (hF : ∀ l digits rest, s = l ++ digits ++ rest → byteLen l = 2 → byteLen digits = k →
      outcome (F digits) = some (val digits rest)) {o : Option (List UInt8 × List Char)} :
    outcome (if byteLen s < m then .error .truncatedEscape else sliceBytes 2 m s >>= F) =
      some o ↔ byteLen s < 2 + k ∧ o = none ∨ ∃ l digits rest, s = l ++ digits ++ rest ∧
        byteLen l = 2 ∧ byteLen digits = k ∧ o = val digits rest := by
  subst hm
  split
  · next hlt =>
    simp only [outcome, hlt, true_and, Option.some.injEq, eq_comm (a := none)]
    refine (or_iff_left ?_).symm
    rintro ⟨l, digits, rest, rfl, hl, hd, -⟩
    simp only [byteLen_append] at hlt
    omega
  · next hlt =>
    simp only [hlt, false_and, false_or, outcome_sliceBytes, byteLen_append]
    refine exists_congr fun l => exists_congr fun digits => exists_congr fun rest =>
      and_congr_right fun hs => and_congr_right fun hl => ?_
    constructor
    · rintro ⟨hd, ho⟩
      rw [hF l digits rest hs hl (by omega)] at ho
      exact ⟨by omega, (Option.some.inj ho).symm⟩
    · rintro ⟨hd, rfl⟩
      exact ⟨by omega, hF l digits rest hs hl hd⟩

/-- The digits of an escape: a number in hexadecimal digits that may be written so. -/
theorem numericEscape_digits (hk : digitCount c = some k) {o : Option (List UInt8 × List Char)} :
    outcome (numericEscape isByte c s) = some o ↔ byteLen s < 2 + k ∧ o = none ∨
      ∃ l digits rest, s = l ++ digits ++ rest ∧ byteLen l = 2 ∧ byteLen digits = k ∧
        o = ((fromStrRadix16 digits).filter (codeAllowed isByte c)).map
          fun n => (String.utf8EncodeChar (Char.ofNat n), rest) := by
  have hdrop {l digits rest : List Char} (hs : s = l ++ digits ++ rest) (hl : byteLen l = 2)
      (hd : byteLen digits = k) : dropBytes (2 + k) s = .ok rest :=
    hs ▸ dropBytes_append (by rw [byteLen_append, hl, hd])
  have hcode {l digits rest : List Char} {n : Nat} (hs : s = l ++ digits ++ rest)
      (hl : byteLen l = 2) (hd : byteLen digits = k) : outcome (do
        let bytes ← unicodeEscape n
        pure (bytes, ← dropBytes (2 + k) s)) = some ((if !(0xd800 ≤ n && n < 0xe000) && n ≤ 0x10FFFF
          then some n else none).map fun n => (String.utf8EncodeChar (Char.ofNat n), rest)) := by
    rw [hdrop hs hl hd, unicodeEscape]
    by_cases hsur : 0xd800 ≤ n ∧ n < 0xe000
    · simp [hsur, outcome]
    · by_cases hmax : 0x10FFFF < n
      · simp [hsur, hmax, outcome]
      · simp [hsur, hmax, outcome]
  unfold digitCount at hk
  split at hk
  · obtain rfl := Option.some.inj hk
    rw [numericEscape, if_neg (by decide), if_pos rfl]
    refine outcome_digits (show 4 = 2 + 2 from rfl) fun l digits rest hs hl hd => ?_
    cases fromStrRadix16 digits with
    | none => rfl
    | some n =>
      have hle : decide (n ≤ 127) = !decide (127 < n) := by
        rw [← decide_not]
        exact decide_eq_decide.mpr Nat.not_lt.symm
      simp only [hdrop hs hl hd, codeAllowed, if_true, Option.filter_some, hle]
      cases isByte <;> by_cases hn : 127 < n <;> simp [outcome, hn]
  · obtain rfl := Option.some.inj hk
    rw [numericEscape, if_neg (by decide), if_neg (by decide), if_pos (by decide)]
    refine outcome_digits (show 6 = 2 + 4 from rfl) fun l digits rest hs hl hd => ?_
    cases fromStrRadix16 digits with
    | none => rfl
    | some n => exact hcode hs hl hd
  · obtain rfl := Option.some.inj hk
    rw [numericEscape, if_neg (by decide), if_neg (by decide), if_pos (by decide)]
    refine outcome_digits (show 10 = 2 + 8 from rfl) fun l digits rest hs hl hd => ?_
    cases fromStrRadix16 digits with
    | none => rfl
    | some n => exact hcode hs hl hd
  · cases hk

end

theorem numericEscape_other {c : Char} (hoctal : ¬ ('0' ≤ c ∧ c ≤ '7'))
    (hdigits : digitCount c = none) : numericEscape isByte c s = .error .invalidEscape := by
  have hne (d : Char) (hd : (digitCount d).isSome) : c ≠ d := by
    rintro rfl
    rw [hdigits] at hd
    cases hd
  rw [numericEscape, if_neg hoctal, if_neg (hne 'x' rfl), if_neg]
  rintro (h | h)
  · exact hne 'u' rfl h
  · exact hne 'U' rfl h

theorem letterBytes_digits {c : Char} {k : Nat} (h : digitCount c = some k) :
    letterBytes c = none := by
  unfold digitCount at h
  split at h <;> first | rfl | cases h

theorem letterBytes_octal {c : Char} (h : '0' ≤ c ∧ c ≤ '7') : letterBytes c = none := by
  have hne (d : Char) (hd : ¬ ('0' ≤ d ∧ d ≤ '7')) : c ≠ d := fun hc => hd (hc ▸ h)
  rw [letterBytes, if_neg (hne _ (by decide)), Option.map_eq_none_iff]
  unfold unesc
  split
  case h_11 => rfl
  all_goals exact absurd rfl (hne _ (by decide))

theorem unescape_cr (r : List Char) : outcome (unescape isByte ('\r' :: r)) =
    some (some ([0x0A], if r.head? = some '\n' then r.tail else r)) := by
  rw [unescape, if_pos (show ('\r' :: r).head? = some '\r' from rfl)]
  rcases r with _ | ⟨c, r⟩
  · rfl
  · by_cases hc : c = '\n'
    · subst hc
      exact outcome_dropBytes.mpr ⟨['\r', '\n'], r, rfl, rfl, rfl⟩
    · simp only [List.getElem?_cons_succ, List.getElem?_cons_zero, head?_cons, Option.some.injEq,
        hc, if_false]
      exact outcome_dropBytes.mpr ⟨['\r'], c :: r, rfl, rfl, rfl⟩

/-- **An octal escape** reads its digits and refuses a number that is too large. -/
theorem numericEscape_octal {c : Char} (hc : '0' ≤ c ∧ c ≤ '7')
    {o : Option (List UInt8 × List Char)} : outcome (numericEscape isByte c s) = some o ↔
      ∃ l q n rest, s = l ++ q ∧ byteLen l = 2 ∧
        octalDigits [1, 2] (c.toNat - '0'.toNat) q = .ok (n, rest) ∧
        (if (isByte || n ≤ 127) && n ≤ 255 then some ([0], rest) else none) = o := by
  have hval (n : Nat) (rest : List Char) : outcome (if !isByte && n > 127 then .error .nonAsciiOctal
      else if n ≥ 256 then .error .invalidOctal else pure ([0], rest)) =
      some (if (isByte || n ≤ 127) && n ≤ 255 then some (([0] : List UInt8), rest) else none) := by
    have hlow : decide (n ≤ 127) = !decide (n > 127) := by
      rw [← decide_not, decide_eq_decide]
      omega
    have hhigh : decide (n ≤ 255) = !decide (n ≥ 256) := by
      rw [← decide_not, decide_eq_decide]
      omega
    rw [hlow, hhigh]
    by_cases hn : n > 127 <;> by_cases hm : n ≥ 256 <;> cases isByte <;> simp [outcome, hn, hm] <;>
      rfl
  have hpanic (q : List Char) (n : Nat) : outcome (octalDigits [1, 2] n q) ≠ some none := by
    cases hs : octalDigits [1, 2] n q with
    | ok p => simp [outcome]
    | error e => simp [octalDigits_error hs, outcome]
  rw [numericEscape, if_pos hc, outcome_dropBytes]
  simp only [outcome_bind, hpanic, false_and, or_false, Prod.exists, hval, Option.some.injEq]
  constructor
  · rintro ⟨l, q, hs, hl, n, rest, hdigits, ho⟩
    exact ⟨l, q, n, rest, hs, hl, hdigits, ho⟩
  · rintro ⟨l, q, n, rest, hs, hl, hdigits, ho⟩
    exact ⟨l, q, hs, hl, n, rest, hdigits, ho⟩

/-- **An escape is decoded as the grammar says.** -/
theorem escape_iff {o : Option (List UInt8 × List Char)} :
    Escape isByte s o ↔ outcome (unescape isByte s) = some o := by
  constructor
  · intro h
    cases h with
    | crlf r => exact unescape_cr _
    | @cr r hr => rw [unescape_cr, if_neg hr]
    | alone hs hlen =>
      rcases s with _ | ⟨x, _ | ⟨c, r⟩⟩
      · rfl
      · rw [unescape, if_neg hs]
        split <;> rfl
      · simp at hlen
    | letter hx hc hcut hl =>
      rw [unescape_letter hx hc, outcome_dropBytes]
      exact ⟨_, _, hcut, hl, rfl⟩
    | octal hx hc hcut hl hdigits =>
      rw [unescape_numeric hx (letterBytes_octal hc), numericEscape_octal hc]
      exact ⟨_, _, _, _, hcut, hl, hdigits, rfl⟩
    | short hx hc hlen =>
      rw [unescape_numeric hx (letterBytes_digits hc), numericEscape_digits hc]
      exact Or.inl ⟨hlen, rfl⟩
    | number hx hc hcut hl hdigits =>
      rw [unescape_numeric hx (letterBytes_digits hc), numericEscape_digits hc]
      exact Or.inr ⟨_, _, _, hcut, hl, hdigits, rfl⟩
    | other hx hc hoctal hdigits =>
      rw [unescape_numeric hx hc, numericEscape_other hoctal hdigits]
      rfl
  · intro h
    rcases s with _ | ⟨x, r⟩
    · obtain rfl := Option.some.inj h
      exact .alone (by simp) (by simp)
    by_cases hx : x = '\r'
    · subst hx
      rw [unescape_cr] at h
      obtain rfl := Option.some.inj h
      rcases r with _ | ⟨c, r⟩
      · exact .cr (by simp)
      · by_cases hc : c = '\n'
        · subst hc
          exact .crlf r
        · have hr : (c :: r).head? ≠ some '\n' := by simpa using hc
          rw [if_neg hr]
          exact .cr hr
    rcases r with _ | ⟨c, r⟩
    · have : outcome (unescape isByte [x]) = some none := by
        rw [unescape, if_neg (by simpa using hx)]
        split <;> rfl
      obtain rfl := Option.some.inj (this.symm.trans h)
      exact .alone (by simpa using hx) (by simp)
    cases hc : letterBytes c with
    | some bytes =>
      rw [unescape_letter hx hc, outcome_dropBytes] at h
      obtain ⟨l, rest, hcut, hl, h⟩ := h
      obtain rfl := Option.some.inj h
      exact .letter hx hc hcut hl
    | none =>
      rw [unescape_numeric hx hc] at h
      by_cases hoctal : '0' ≤ c ∧ c ≤ '7'
      · obtain ⟨l, q, n, rest, hcut, hl, hdigits, rfl⟩ := (numericEscape_octal hoctal).mp h
        exact .octal hx hoctal hcut hl hdigits
      cases hk : digitCount c with
      | some k =>
        obtain ⟨hlen, rfl⟩ | ⟨l, digits, rest, hcut, hl, hdigits, rfl⟩ :=
          (numericEscape_digits hk).mp h
        · exact .short hx hk hlen
        · exact .number hx hk hcut hl hdigits
      | none =>
        rw [numericEscape_other hoctal hk] at h
        obtain rfl := Option.some.inj h
        exact .other hx hc hoctal hk

theorem octalDigits_length {is : List Nat} {n m : Nat} {rest : List Char}
    (h : octalDigits is n s = .ok (m, rest)) : rest.length ≤ s.length := by
  induction is generalizing n s with
  | nil =>
    obtain ⟨rfl, rfl⟩ := Prod.mk.inj (Except.ok.inj h)
    exact Nat.le_refl _
  | cons i is ih =>
    unfold octalDigits at h
    split at h
    · obtain ⟨rfl, rfl⟩ := Prod.mk.inj (Except.ok.inj h)
      exact Nat.le_refl _
    · split at h
      · cases h
      · split at h
        · obtain ⟨rfl, rfl⟩ := Prod.mk.inj (Except.ok.inj h)
          exact Nat.le_refl _
        · split at h
          · cases h
          · exact Nat.le_succ_of_le (ih h)

/-- What follows an escape is shorter. -/
theorem Escape.length_lt {bytes : List UInt8} {rest : List Char}
    (h : Escape isByte s (some (bytes, rest))) : rest.length < s.length := by
  have hcut {l q : List Char} (hs : s = l ++ q) (hl : byteLen l = 2) : q.length < s.length := by
    rcases l with _ | ⟨x, l⟩
    · cases hl
    · simp only [hs, length_append, length_cons]
      omega
  generalize ho : some (bytes, rest) = o at h
  cases h with
  | crlf r =>
    obtain ⟨-, rfl⟩ := Prod.mk.inj (Option.some.inj ho)
    exact Nat.lt_add_of_pos_right (Nat.succ_pos 1)
  | cr =>
    obtain ⟨-, rfl⟩ := Prod.mk.inj (Option.some.inj ho)
    simp
  | letter _ _ hs hl =>
    obtain ⟨-, rfl⟩ := Prod.mk.inj (Option.some.inj ho)
    exact hcut hs hl
  | octal _ _ hs hl hdigits =>
    split at ho
    · obtain ⟨-, rfl⟩ := Prod.mk.inj (Option.some.inj ho)
      exact Nat.lt_of_le_of_lt (octalDigits_length hdigits) (hcut hs hl)
    · cases ho
  | @number _ _ _ l digits rest' _ _ _ hs hl _ =>
    obtain ⟨n, -, heq⟩ := Option.map_eq_some_iff.mp ho.symm
    obtain ⟨-, rfl⟩ := Prod.mk.inj heq
    have := hcut (hs.trans (append_assoc l digits rest')) hl
    rw [length_append] at this
    omega
  | alone | short | other => cases ho

section Loop

variable {pre : List Char} {c : Char} {fuel : Nat}

theorem unquoteLoop_none (h : ∀ c ∈ s, isSpecial false c = false) (buf : List UInt8) :
    unquoteLoop false isByte (fuel + 1) s buf = .ok (buf ++ s.map asByte) := by
  simp only [unquoteLoop, findIdx?_eq_none_iff.mpr h]

theorem unquoteLoop_some (hpre : ∀ d ∈ pre, isSpecial false d = false)
    (hc : isSpecial false c = true) (buf : List UInt8) :
    unquoteLoop false isByte (fuel + 1) (pre ++ c :: r) buf =
      splitAtByte pre.length (pre ++ c :: r) >>= fun p => unescape isByte p.2 >>= fun q =>
        unquoteLoop false isByte fuel q.2 (buf ++ p.1.map asByte ++ q.1) := by
  have hidx : (pre ++ c :: r).findIdx? (isSpecial false) = some pre.length := by
    simp [findIdx?_append, findIdx?_eq_none_iff.mpr hpre, findIdx?_cons, hc]
  simp only [unquoteLoop, hidx]

/-- A text has no special character, or a first one. -/
theorem special_cases (s : List Char) : (∀ c ∈ s, isSpecial false c = false) ∨
    ∃ pre c r, s = pre ++ c :: r ∧ (∀ d ∈ pre, isSpecial false d = false) ∧
      isSpecial false c = true := by
  induction s with
  | nil => exact Or.inl (by simp)
  | cons c s ih =>
    cases hc : isSpecial false c with
    | true => exact Or.inr ⟨[], c, s, rfl, by simp, hc⟩
    | false =>
      rcases ih with h | ⟨pre, d, r, rfl, hpre, hd⟩
      · exact Or.inl (forall_mem_cons.mpr ⟨hc, h⟩)
      · exact Or.inr ⟨c :: pre, d, r, rfl, forall_mem_cons.mpr ⟨hc, hpre⟩, hd⟩

/-- The loop puts its bytes behind those it has. -/
theorem unquoteLoop_buf (buf : List UInt8) : unquoteLoop false isByte fuel s buf =
    (unquoteLoop false isByte fuel s []).map (buf ++ ·) := by
  induction fuel generalizing s buf with
  | zero => rfl
  | succ fuel ih =>
    rcases special_cases s with h | ⟨pre, c, r, rfl, hpre, hc⟩
    · rw [unquoteLoop_none h, unquoteLoop_none h]
      rfl
    · rw [unquoteLoop_some hpre hc, unquoteLoop_some hpre hc]
      cases splitAtByte pre.length (pre ++ c :: r) with
      | error e => rfl
      | ok p =>
        simp only [ok_bind]
        cases unescape isByte p.2 with
        | error e => rfl
        | ok q =>
          simp only [ok_bind]
          rw [ih, ih ([] ++ p.1.map asByte ++ q.1)]
          cases unquoteLoop false isByte fuel q.2 [] <;> simp [Except.map]

end Loop

theorem outcome_map {α β : Type} (f : α → β) (x : Except QuoteError α) :
    outcome (x.map f) = (outcome x).map (Option.map f) := by
  cases x with
  | ok a => rfl
  | error e => cases e <;> rfl

/-- **A text is decoded as the grammar says.** -/
theorem decodes_iff {o : Option (List UInt8)} {fuel : Nat} (hfuel : s.length < fuel) :
    Decodes isByte s o ↔ outcome (unquoteLoop false isByte fuel s []) = some o := by
  obtain ⟨fuel, rfl⟩ : ∃ k, fuel = k + 1 := ⟨fuel - 1, by omega⟩
  constructor
  · intro h
    induction h generalizing fuel with
    | plain h => rw [unquoteLoop_none h, nil_append, outcome]
    | refused hpre hc hcut hl hesc =>
      rw [unquoteLoop_some hpre hc, outcome_splitAtByte]
      exact ⟨_, _, hcut, hl, outcome_bind.mpr (Or.inr ⟨escape_iff.mp hesc, rfl⟩)⟩
    | @escape pre r l tail rest c bytes o hpre hc hcut hl hesc hrest ih =>
      rw [unquoteLoop_some hpre hc, outcome_splitAtByte]
      refine ⟨_, _, hcut, hl, outcome_bind.mpr (Or.inl
        ⟨_, outcome_eq_some.mp (escape_iff.mp hesc), ?_⟩)⟩
      have hlt := hesc.length_lt
      have hle : tail.length ≤ (pre ++ c :: r).length := by simp [hcut]
      obtain ⟨fuel, rfl⟩ : ∃ k, fuel = k + 1 := ⟨fuel - 1, by omega⟩
      rw [unquoteLoop_buf, outcome_map, ih fuel (by omega)]
      rfl
  · intro h
    induction fuel generalizing s o with
    | zero =>
      obtain rfl : s = [] := length_eq_zero_iff.mp (by omega)
      obtain rfl := Option.some.inj h
      exact .plain (by simp)
    | succ fuel ih =>
      rcases special_cases s with hs | ⟨pre, c, r, rfl, hpre, hc⟩
      · rw [unquoteLoop_none hs] at h
        obtain rfl := Option.some.inj h
        exact .plain hs
      · rw [unquoteLoop_some hpre hc, outcome_splitAtByte] at h
        obtain ⟨l, tail, hcut, hl, h⟩ := h
        rcases outcome_bind.mp h with ⟨⟨bytes, rest⟩, hesc, h⟩ | ⟨hesc, rfl⟩
        · have hesc := escape_iff.mpr (outcome_eq_some.mpr hesc)
          have hlt : rest.length < tail.length := hesc.length_lt
          have hle : tail.length ≤ (pre ++ c :: r).length := by simp [hcut]
          rw [unquoteLoop_buf, outcome_map] at h
          obtain ⟨o', ho', rfl⟩ := Option.map_eq_some_iff.mp h
          exact .escape hpre hc hcut hl hesc (ih (by omega) ho')
        · exact .refused hpre hc hcut hl (escape_iff.mpr hesc)

/-! ## Bodies -/

/-- The text between the quotes of a literal that can be decoded. -/
def IsLiteral (isByte : Bool) (s : List Char) : Prop :=
  (∀ c ∈ s, isSpecial false c = false) ∨ ∃ bytes, Decodes isByte s (some bytes) ∧
    (isByte = true ∨ (ByteArray.mk bytes.toArray).IsValidUTF8)

/-- A text between quotes that is refused. -/
def IsRefused (isByte : Bool) (s : List Char) : Prop :=
  (∃ c ∈ s, isSpecial false c = true) ∧ (Decodes isByte s none ∨ isByte = false ∧
    ∃ bytes, Decodes isByte s (some bytes) ∧ ¬ (ByteArray.mk bytes.toArray).IsValidUTF8)

theorem any_isSpecial : s.any (isSpecial false) = true ↔ ∃ c ∈ s, isSpecial false c = true :=
  any_eq_true

/-- **`unquote` decodes the literals**, refuses some other texts and panics on the rest. -/
theorem decodeBody_iff : (IsLiteral isByte s ↔ ∃ d, decodeBody false isByte s = .ok d) ∧
    (IsRefused isByte s ↔ outcome (decodeBody false isByte s) = some none) := by
  by_cases hs : s.any (isSpecial false) = true
  · have hplain : ¬ ∀ c ∈ s, isSpecial false c = false := fun h => by
      obtain ⟨c, hc, hspec⟩ := any_isSpecial.mp hs
      rw [h c hc] at hspec
      cases hspec
    rw [IsLiteral, IsRefused, or_iff_right hplain, and_iff_right (any_isSpecial.mp hs), decodeBody,
      if_pos hs]
    simp only [decodes_iff (Nat.lt_succ_self s.length), outcome_bind, bind_eq_ok]
    cases hloop : unquoteLoop false isByte (s.length + 1) s [] with
    | error e => cases e <;> cases isByte <;> simp [outcome]
    | ok buf =>
      cases isByte with
      | true => simp [outcome, pure, Except.pure]
      | false =>
        have hvalid := @ByteArray.isSome_utf8Decode?_iff ⟨buf.toArray⟩
        cases hdec : (ByteArray.mk buf.toArray).utf8Decode? with
        | none => simp_all [outcome]
        | some t => simp_all [outcome, pure, Except.pure]
  · have hplain : ∀ c ∈ s, isSpecial false c = false := by simpa using hs
    rw [IsLiteral, IsRefused, decodeBody, if_neg hs]
    refine ⟨iff_of_true (Or.inl hplain) ?_, iff_of_false (fun h => hs (any_isSpecial.mpr h.1)) ?_⟩
    · cases isByte
      · exact ⟨_, rfl⟩
      · exact ⟨_, rfl⟩
    · cases isByte <;> simp [outcome, pure, Except.pure]

/-! ## String tokens -/

/-- How many backslashes end a text. -/
def backslashes (s : List Char) : Nat := (s.reverse.takeWhile (· = '\\')).length

/-- The first quote that does not follow an odd number of backslashes ends the literal. -/
def Ends (delim : Char) (s body rest : List Char) : Prop :=
  s = body ++ delim :: rest ∧ backslashes body % 2 = 0 ∧
    ∀ pre post, s = pre ++ delim :: post → pre.length < body.length → backslashes pre % 2 = 1

/-- The token of the literal with this body. -/
def stringToken (delim : Char) (isByte : Bool) (body : List Char) : Except ScanError Token :=
  let text := delim :: (body ++ [delim])
  match unquote (if isByte then 'b' :: text else text) with
  | .error e => .error (.quote e)
  | .ok (.string decoded) => .ok (.string (String.ofList decoded))
  | .ok (.bytes decoded) => .ok (.bytes decoded)

/-- The token in front of `s` is that of the literal that ends where it has to, an error if that
cannot be decoded; without an end an error is returned. -/
def RightToken (delim : Char) (isByte : Bool) (s : List Char) : Prop :=
  (∀ body rest, Ends delim s body rest →
    (∀ token, stringToken delim isByte body = .ok token →
      scanString delim isByte s = .ok (token, rest)) ∧
    ((∃ e, stringToken delim isByte body = .error e) →
      ∃ e, scanString delim isByte s = .error e)) ∧
  ((∀ body rest, ¬ Ends delim s body rest) → ∃ e, scanString delim isByte s = .error (.quote e) ∧
    e ≠ .panic ∧ e ≠ .unfinished)

section

variable {delim : Char} {body rest l : List Char}

theorem notMem_takeWhile : delim ∉ s.takeWhile (· ≠ delim) := by
  induction s with
  | nil => simp
  | cons c s ih =>
    by_cases hc : c = delim
    · simp [hc]
    · rw [takeWhile_cons_of_pos (by simpa using hc), mem_cons, not_or]
      exact ⟨Ne.symm hc, ih⟩

theorem takeWhile_append_tail (h : delim ∈ s) :
    s.takeWhile (· ≠ delim) ++ delim :: (s.dropWhile (· ≠ delim)).tail = s := by
  induction s with
  | nil => cases h
  | cons c s ih =>
    by_cases hc : c = delim
    · simp [hc]
    · simpa [hc] using ih ((mem_cons.mp h).resolve_left (Ne.symm hc))

theorem scanUntil_eq (delim : Char) (s : List Char) :
    scanUntil delim s = (s.takeWhile (· ≠ delim), (s.dropWhile (· ≠ delim)).tail) := by
  induction s with
  | nil => rfl
  | cons c s ih => by_cases hc : c = delim <;> simp [scanUntil, hc, ih]

theorem scanString_eq (h : scanUntil delim s = (body, rest)) :
    scanString delim isByte s = (stringToken delim isByte body).map (·, rest) := by
  rw [scanString, h, stringToken]
  dsimp only
  generalize unquote _ = decoded
  rcases decoded with e | (t | b) <;> rfl

/-- The token of a body that does not start with the quote. -/
theorem stringToken_iff (hd : delim = '"' ∨ delim = '\'') (hbody : body.head? ≠ some delim) :
    (IsLiteral isByte body ↔ ∃ token, stringToken delim isByte body = .ok token) ∧
      (IsRefused isByte body ↔ ∃ e, stringToken delim isByte body = .error (.quote e) ∧
        e ≠ .panic ∧ e ≠ .unfinished) := by
  have hunquote : unquote (if isByte then 'b' :: delim :: (body ++ [delim])
      else delim :: (body ++ [delim])) = decodeBody false isByte body := by
    cases isByte with
    | true =>
      change (do decodeBody false true (← stripQuotes (delim :: (body ++ [delim])))) = _
      rw [stripQuotes_body hd hbody]
      rfl
    | false =>
      have hstrip : unquote (delim :: (body ++ [delim])) =
          (do decodeBody false false (← stripQuotes (delim :: (body ++ [delim])))) := by
        rcases hd with rfl | rfl <;> rfl
      simp only [Bool.false_eq_true, if_false, hstrip, stripQuotes_body hd hbody]
      rfl
  rw [decodeBody_iff.1, decodeBody_iff.2, stringToken, hunquote]
  rcases decodeBody false isByte body with e | (t | b)
  · cases e <;> simp [outcome]
  · simp [outcome]
  · simp [outcome]

/-- A literal has one end. -/
theorem Ends.unique {body' rest' : List Char} (h : Ends delim s body rest)
    (h' : Ends delim s body' rest') : body = body' ∧ rest = rest' := by
  obtain ⟨hs, heven, hmin⟩ := h
  obtain ⟨hs', heven', hmin'⟩ := h'
  have hlen : body.length = body'.length := by
    rcases Nat.lt_trichotomy body.length body'.length with hlt | heq | hlt
    · have := hmin' body rest hs hlt
      omega
    · exact heq
    · have := hmin body' rest' hs' hlt
      omega
  have hinj := append_inj (hs.symm.trans hs') hlen
  exact ⟨hinj.1, (List.cons.inj hinj.2).2⟩

/-- The first quote ends the literal, if it does not follow an odd number of backslashes. -/
theorem ends_first (hs : s = body ++ delim :: rest) (hbody : delim ∉ body)
    (heven : backslashes body % 2 = 0) : Ends delim s body rest := by
  refine ⟨hs, heven, fun pre post hpre hlt => absurd ?_ hbody⟩
  have hget : (pre ++ delim :: post)[pre.length]? = some delim := by simp
  rw [← hpre, hs, List.getElem?_append_left hlt] at hget
  exact mem_of_getElem? hget

/-- What follows the first quote does not follow the end of a literal, if that is another quote. -/
theorem Ends.rest_ne (h : Ends delim s body rest)
    (hfirst : ¬ ∃ body rest, s = body ++ delim :: rest ∧ delim ∉ body ∧ backslashes body % 2 = 0) :
    rest ≠ (s.dropWhile (· ≠ delim)).tail := by
  obtain ⟨hs, heven, -⟩ := h
  intro hrest
  have hinj := append_inj' (hs.symm.trans (hrest ▸ takeWhile_append_tail (by simp [hs])).symm) rfl
  exact hfirst ⟨body, rest, hs, hinj.1 ▸ notMem_takeWhile, heven⟩

end

end Mangle.Parse

import Mangle.Parse.Scan

/-!
# Parse/Unquote — what comes back from quotes

`quote` writes code points in braces, which `unquote` refuses, so a text comes back iff it needs
none (`unquote_quote_iff`).
-/

namespace Mangle.Parse

open Machinery List

variable {l r s : List Char} {c : Char}

/-! ## Quoting -/

/-- `char::escape_default`. -/
def escapeDefault : Char → List Char
  | '\t' => ['\\', 't']
  | '\r' => ['\\', 'r']
  | '\n' => ['\\', 'n']
  | '\\' => ['\\', '\\']
  | '\'' => ['\\', '\'']
  | '"' => ['\\', '"']
  | c => if 32 ≤ c.toNat ∧ c.toNat < 127 then [c]
    else ['\\', 'u', '{'] ++ Nat.toDigits 16 c.toNat ++ ['}']

/-- A character of a quoted text. -/
def quoteChar (c : Char) : List Char := if c = '\'' then [c] else escapeDefault c

/-- `quote`. -/
def quote (s : List Char) : List Char := '"' :: (s.flatMap quoteChar ++ ['"'])

/-- What `quote` does not write as a code point: printable ASCII, tabs and line ends. -/
def IsQuotable (c : Char) : Prop :=
  32 ≤ c.toNat ∧ c.toNat < 127 ∨ c = '\t' ∨ c = '\r' ∨ c = '\n'
  deriving Decidable

theorem escapes_quoteChar (h : IsQuotable c) : Escapes quoteChar c := by
  obtain ⟨hlo, hhi⟩ | rfl | rfl | rfl := h
  · refine ⟨by omega, ?_⟩
    unfold quoteChar
    split
    next hc => exact .inl ⟨rfl, by subst hc; rfl⟩
    next hq =>
      unfold escapeDefault
      split
      case h_7 hr _ hb _ _ => exact .inl ⟨if_pos ⟨hlo, hhi⟩, by simp [isSpecial]; exact ⟨hr, hb⟩⟩
      all_goals exact .inr ⟨_, rfl, rfl⟩
  · exact ⟨by decide, .inr ⟨'t', rfl, rfl⟩⟩
  · exact ⟨by decide, .inr ⟨'r', rfl, rfl⟩⟩
  · exact ⟨by decide, .inr ⟨'n', rfl, rfl⟩⟩

theorem quoteChar_of_not (h : ¬ IsQuotable c) :
    quoteChar c = '\\' :: 'u' :: '{' :: (Nat.toDigits 16 c.toNat ++ ['}']) := by
  have hne (d : Char) (hd : IsQuotable d) : c ≠ d := fun hc => h (hc ▸ hd)
  rw [quoteChar, if_neg (hne '\'' (by decide))]
  unfold escapeDefault
  split
  case h_7 => exact if_neg fun hc => h (.inl hc)
  all_goals exact absurd rfl (hne _ (by decide))

/-- The loop at a special character. -/
theorem unquoteLoop_special (hc : isSpecial false c = true) (fuel : Nat) (buf : List UInt8) :
    unquoteLoop false false (fuel + 1) (c :: s) buf =
      unescape false (c :: s) >>= fun p => unquoteLoop false false fuel p.2 (buf ++ p.1) := by
  have hi : (c :: s).findIdx? (isSpecial false) = some 0 := by simp [List.findIdx?_cons, hc]
  simp [unquoteLoop, hi]

theorem head_of_sliceBytes (h : sliceBytes 2 6 ('\\' :: 'u' :: c :: s) = .ok l)
    (hc : c.utf8Size = 1) : l.head? = some c := by
  have hsplit : splitAtByte 6 ('\\' :: 'u' :: c :: s) =
      (splitAtByte 3 s).map fun p => ('\\' :: 'u' :: c :: p.1, p.2) := by
    change splitAtByte (Char.utf8Size '\\' + (Char.utf8Size 'u' + (1 + 3))) _ = _
    rw [← hc, splitAtByte_cons, splitAtByte_cons, splitAtByte_cons]
    cases splitAtByte 3 s <;> rfl
  rw [sliceBytes, hsplit] at h
  cases hs : splitAtByte 3 s with
  | error e =>
    rw [hs] at h
    cases h
  | ok p =>
    rw [hs] at h
    have hdrop : dropBytes 2 ('\\' :: 'u' :: c :: p.1) = .ok (c :: p.1) :=
      dropBytes_append (l := ['\\', 'u']) rfl
    obtain rfl := Except.ok.inj (hdrop.symm.trans h)
    rfl

/-- A code point in braces is refused. -/
theorem unescape_braced (s : List Char) :
    ∃ e, unescape false ('\\' :: 'u' :: '{' :: s) = .error e := by
  cases h : unescape false ('\\' :: 'u' :: '{' :: s) with
  | error e => exact ⟨e, rfl⟩
  | ok p =>
    exfalso
    have hlen : byteLen ('\\' :: 'u' :: '{' :: s) ≠ 1 := by
      simp [show Char.utf8Size '\\' = 1 from rfl, show Char.utf8Size 'u' = 1 from rfl]
    rw [unescape, if_neg (by simp), if_neg hlen] at h
    simp only [List.getElem?_cons_succ, List.getElem?_cons_zero] at h
    change (if '0' ≤ 'u' ∧ 'u' ≤ '7' then _ else _) = _ at h
    rw [if_neg (by decide), if_neg (by decide), if_pos (by decide)] at h
    simp only [if_neg (show 'u' ≠ 'U' by decide)] at h
    split at h
    · cases h
    obtain ⟨l, hl, h⟩ := bind_eq_ok.mp h
    obtain ⟨l, rfl⟩ := List.head?_eq_some_iff.mp (head_of_sliceBytes hl rfl)
    cases h

/-- **A text comes back from its quotes iff no character is written as a code point.** -/
theorem unquote_quote_iff (s : List Char) :
    unquote (quote s) = .ok (.string s) ↔ ∀ c ∈ s, IsQuotable c := by
  have hhead : (s.flatMap quoteChar).head? ≠ some '"' := by
    cases s with
    | nil => simp
    | cons c s =>
      rw [flatMap_cons]
      by_cases hc : IsQuotable c
      · obtain ⟨-, ⟨hq, -⟩ | ⟨e, hq, -⟩⟩ := escapes_quoteChar hc
        · rw [hq]
          rintro ⟨⟩
          cases hq
        · simp [hq]
      · simp [quoteChar_of_not hc]
  rw [quote, unquote_body hhead]
  refine ⟨fun h => ?_, fun h => decodeBody_escapes fun c hc => escapes_quoteChar (h c hc)⟩
  by_contra hbad
  obtain ⟨pre, c, post, rfl, hpre, hc⟩ : ∃ pre c post, s = pre ++ c :: post ∧
      (∀ d ∈ pre, IsQuotable d) ∧ ¬ IsQuotable c := by
    obtain ⟨c, hfind⟩ := Option.isSome_iff_exists.mp
      (List.find?_isSome (p := fun c => decide (¬ IsQuotable c)).mpr (by simpa using hbad))
    obtain ⟨hc, pre, post, rfl, hpre⟩ := List.find?_eq_some_iff_append.mp hfind
    exact ⟨pre, c, post, rfl, by simpa using hpre, by simpa using hc⟩
  rw [flatMap_append, flatMap_cons, quoteChar_of_not hc, decodeBody,
    if_pos (by simp [isSpecial])] at h
  -- the loop passes what stands before the code point, and fails there
  obtain ⟨k, hk, hloop⟩ := unquoteLoop_escapes (fun d hd => escapes_quoteChar (hpre d hd)) _
    (Nat.lt_succ_of_le (length_append ▸ Nat.le_add_right _ _)) []
  rw [length_append] at hk
  obtain ⟨k, rfl⟩ : ∃ j, k = j + 1 := ⟨k - 1, by omega⟩
  obtain ⟨e, he⟩ := unescape_braced (Nat.toDigits 16 c.toNat ++ ['}'] ++ post.flatMap quoteChar)
  rw [hloop, cons_append, cons_append, cons_append, unquoteLoop_special rfl, he] at h
  cases h

/-- An accented letter does not come back. -/
theorem unquote_quote_accent : unquote (quote ['é']) = .error .invalidHex := by decide +kernel

end Mangle.Parse

import Mangle.Machinery.Collect

/-!
# Parse/Quote — unquoting a string literal

`unquote` as the source runs it.  A text is a list of characters, but the source slices it by byte
offsets, some of which it has counted in characters: `splitAtByte` is that slice, and a cut inside a
character is a panic.

* `unquoteLoop_plain`, `unquoteLoop_escape` — what the loop does at an ASCII character and at a
  one-letter escape;
* `decodeBody_escapes` — a text printed with such escapes is decoded to what was printed.
-/

namespace Mangle.Parse

open Machinery List

variable {n : Nat} {l r s : List Char} {c : Char}

/-- Why a literal is refused; `panic` is one of the source's, `unfinished` is the model's own. -/
inductive QuoteError where
  | tooShort
  | invalidQuotes
  | truncatedEscape
  | nonAsciiOctal
  | invalidOctal
  | nonAsciiHex
  | invalidHex
  | invalidCodePoint
  | codePointOutOfRange
  | invalidEscape
  | invalidUtf8
  | panic
  | unfinished
  deriving DecidableEq, Repr

/-- A decoded literal. -/
inductive DecodedSequence where
  | string (s : List Char)
  | bytes (b : List UInt8)
  deriving DecidableEq, Repr

/-! ## Slices by byte offset -/

/-- `str::len`. -/
def byteLen (s : List Char) : Nat := (s.map Char.utf8Size).sum

/-- `&s[..n]` and `&s[n..]`: both panic unless `n` is the offset of a character or of the end. -/
def splitAtByte : Nat → List Char → Except QuoteError (List Char × List Char)
  | n, [] => if n = 0 then .ok ([], []) else .error .panic
  | n, c :: s =>
    if n = 0 then .ok ([], c :: s)
    else if c.utf8Size ≤ n then do
      let (l, r) ← splitAtByte (n - c.utf8Size) s
      pure (c :: l, r)
    else .error .panic

/-- `&s[n..]`. -/
def dropBytes (n : Nat) (s : List Char) : Except QuoteError (List Char) := do
  pure (← splitAtByte n s).2

/-- `&s[n..m]`. -/
def sliceBytes (n m : Nat) (s : List Char) : Except QuoteError (List Char) := do
  let (l, _) ← splitAtByte m s
  dropBytes n l

/-- `c as u8`: the low byte of the code point. -/
def asByte (c : Char) : UInt8 := UInt8.ofNat c.toNat

@[simp] theorem byteLen_nil : byteLen [] = 0 := rfl

@[simp] theorem byteLen_cons (c : Char) (s : List Char) :
    byteLen (c :: s) = c.utf8Size + byteLen s := by simp [byteLen]

@[simp] theorem byteLen_append (l r : List Char) : byteLen (l ++ r) = byteLen l + byteLen r := by
  simp [byteLen]

@[simp] theorem splitAtByte_zero (s : List Char) : splitAtByte 0 s = .ok ([], s) := by
  cases s <;> simp [splitAtByte]

theorem splitAtByte_cons (n : Nat) (c : Char) (s : List Char) :
    splitAtByte (c.utf8Size + n) (c :: s) = (splitAtByte n s).map fun p => (c :: p.1, p.2) := by
  have hc := c.utf8Size_pos
  simp only [splitAtByte, if_neg (show c.utf8Size + n ≠ 0 by omega),
    if_pos (Nat.le_add_right c.utf8Size n), Nat.add_sub_cancel_left]
  cases splitAtByte n s <;> rfl

/-- A slice at the end of a first part gives that part and the rest. -/
theorem splitAtByte_append (l r : List Char) : splitAtByte (byteLen l) (l ++ r) = .ok (l, r) := by
  induction l with
  | nil => simp
  | cons c l ih =>
    rw [byteLen_cons, cons_append, splitAtByte_cons, ih]
    rfl

theorem dropBytes_append (hn : n = byteLen l) : dropBytes n (l ++ r) = .ok r := by
  subst hn
  simp only [dropBytes, splitAtByte_append]
  rfl

theorem sliceBytes_append {m : Nat} (hn : n = byteLen l) (hm : m = byteLen (l ++ s)) :
    sliceBytes n m (l ++ s ++ r) = .ok s := by
  subst hm
  simp only [sliceBytes, splitAtByte_append]
  exact dropBytes_append hn

/-! ## Escapes -/

/-- `unesc`: the character a one-letter escape stands for. -/
def unesc : Char → Option UInt8
  | 'a' => some 0x07
  | 'b' => some 0x08
  | 'f' => some 0x0C
  | 'n' => some 0x0A
  | 'r' => some 0x0D
  | 't' => some 0x09
  | 'v' => some 0x0B
  | '\\' => some 0x5C
  | '\'' => some 0x27
  | '"' => some 0x22
  | _ => none

/-- `char::to_digit`, up to sixteen digits. -/
def toDigit (radix : Nat) (c : Char) : Option Nat :=
  let d := if '0' ≤ c ∧ c ≤ '9' then some (c.toNat - '0'.toNat)
    else if 'a' ≤ c ∧ c ≤ 'f' then some (c.toNat - 'a'.toNat + 10)
    else if 'A' ≤ c ∧ c ≤ 'F' then some (c.toNat - 'A'.toNat + 10)
    else none
  d.filter (· < radix)

/-- `u32::from_str_radix(_, 16)`, which takes a plus sign, on at most eight characters. -/
def fromStrRadix16 (s : List Char) : Option Nat :=
  let digits := if s.head? = some '+' then s.tail else s
  if digits = [] then none
  else digits.foldlM (fun n c => (toDigit 16 c).map (16 * n + ·)) 0

/-- The loop over the further digits of an octal escape, which looks for the end of the digits one
character too far. -/
def octalDigits : List Nat → Nat → List Char → Except QuoteError (Nat × List Char)
  | [], n, quoted => .ok (n, quoted)
  | i :: is, n, quoted =>
    match quoted with
    | [] => .ok (n, quoted)
    | c :: rest =>
      match quoted[i]? with
      | none => .error .panic
      | some d =>
        if d < '0' ∨ '7' < c then .ok (n, quoted)
        else match toDigit 8 c with
          | none => .error .panic
          | some k => octalDigits is (n * 8 + k) rest

/-- The code point of a `\u` or `\U` escape, in UTF-8. -/
def unicodeEscape (n : Nat) : Except QuoteError (List UInt8) :=
  if 0xd800 ≤ n ∧ n < 0xe000 then .error .invalidCodePoint
  else if 0x10FFFF < n then .error .codePointOutOfRange
  else .ok (String.utf8EncodeChar (Char.ofNat n))

/-- An escape with a number in octal or hexadecimal digits; `c` stands behind the backslash. -/
def numericEscape (isByte : Bool) (c : Char) (quoted : List Char) :
    Except QuoteError (List UInt8 × List Char) :=
  if '0' ≤ c ∧ c ≤ '7' then do
    let (n, quoted) ← octalDigits [1, 2] (c.toNat - '0'.toNat) (← dropBytes 2 quoted)
    if !isByte && n > 127 then .error .nonAsciiOctal
    else if n ≥ 256 then .error .invalidOctal
    else pure ([0], quoted)
  else if c = 'x' then do
    if byteLen quoted < 4 then .error .truncatedEscape
    else match fromStrRadix16 (← sliceBytes 2 4 quoted) with
      | none => .error .invalidHex
      | some n =>
        if !isByte && n > 127 then .error .nonAsciiHex
        else pure (String.utf8EncodeChar (Char.ofNat n), ← dropBytes 4 quoted)
  else if c = 'u' ∨ c = 'U' then do
    let sz := if c = 'U' then 10 else 6
    if byteLen quoted < sz then .error .truncatedEscape
    else match fromStrRadix16 (← sliceBytes 2 sz quoted) with
      | none => .error .invalidHex
      | some n => do
        let bytes ← unicodeEscape n
        pure (bytes, ← dropBytes sz quoted)
  else .error .invalidEscape

/-- One carriage return or escape sequence: the bytes it stands for and what follows it. -/
def unescape (isByte : Bool) (quoted : List Char) : Except QuoteError (List UInt8 × List Char) :=
  if quoted.head? = some '\r' then do
    let n := if quoted[1]? = some '\n' then 2 else 1
    pure ([0x0A], ← dropBytes n quoted)
  else if byteLen quoted = 1 then .error .truncatedEscape
  else match quoted[1]? with
    | none => .error .invalidEscape
    | some '\n' => do pure ([], ← dropBytes 2 quoted)
    | some c =>
      match unesc c with
      | some b => do pure ([b], ← dropBytes 2 quoted)
      | none => numericEscape isByte c quoted

/-- The characters that need work: a carriage return and, outside a raw literal, a backslash. -/
def isSpecial (raw : Bool) (c : Char) : Bool := c = '\r' || (!raw && c = '\\')

/-- The loop of `unquote`: the plain text up to the next special character, then that one. -/
def unquoteLoop (raw isByte : Bool) : Nat → List Char → List UInt8 →
    Except QuoteError (List UInt8)
  | 0, _, _ => .error .unfinished
  | fuel + 1, quoted, buf =>
    match quoted.findIdx? (isSpecial raw) with
    | none => .ok (buf ++ quoted.map asByte)
    | some i => do
      -- an offset in characters, used as one in bytes
      let (plain, quoted) ← splitAtByte i quoted
      let (bytes, quoted) ← unescape isByte quoted
      unquoteLoop raw isByte fuel quoted (buf ++ plain.map asByte ++ bytes)

/-- The text between the quotes, one or three on each side. -/
def stripQuotes (quoted : List Char) : Except QuoteError (List Char) := do
  if byteLen quoted < 2 then .error .tooShort
  else match quoted with
    | [] => .error .panic
    | q :: _ =>
      if (q ≠ '"' ∧ q ≠ '\'') ∨ quoted.getLast? ≠ some q then .error .invalidQuotes
      else if byteLen quoted ≥ 6 ∧ quoted[1]? = some q ∧ quoted[2]? = some q then do
        let l ← sliceBytes 0 3 quoted
        let r ← dropBytes (byteLen quoted - 3) quoted
        if l = r then sliceBytes 3 (byteLen quoted - 3) quoted
        else sliceBytes 1 (byteLen quoted - 1) quoted
      else sliceBytes 1 (byteLen quoted - 1) quoted

/-- The literal that the text between the quotes stands for. -/
def decodeBody (raw isByte : Bool) (quoted : List Char) : Except QuoteError DecodedSequence :=
  if quoted.any (isSpecial raw) then do
    let buf ← unquoteLoop raw isByte (quoted.length + 1) quoted []
    if isByte then pure (.bytes buf)
    else match (ByteArray.mk buf.toArray).utf8Decode? with
      | none => .error .invalidUtf8
      | some s => pure (.string s.toList)
  else if isByte then pure (.bytes (quoted.flatMap String.utf8EncodeChar))
  else pure (.string quoted)

/-- A text without its first character, if that is `c`, and whether it is. -/
def stripPrefix (c : Char) : List Char → Bool × List Char
  | [] => (false, [])
  | d :: s => if d = c then (true, s) else (false, d :: s)

/-- `unquote`. -/
def unquote (text : List Char) : Except QuoteError DecodedSequence := do
  let (raw, text) := stripPrefix 'r' text
  let (isByte, text) := stripPrefix 'b' text
  decodeBody raw isByte (← stripQuotes text)


/-! ## Literals without escapes -/

/-- The quotes come off a body that does not start with one. -/
theorem stripQuotes_body {q : Char} (hquote : q = '"' ∨ q = '\'') (hs : s.head? ≠ some q) :
    stripQuotes (q :: (s ++ [q])) = .ok s := by
  have hq : q.utf8Size = 1 := by rcases hquote with rfl | rfl <;> rfl
  have hlen : byteLen (q :: (s ++ [q])) = byteLen s + 2 := by
    simp only [byteLen_cons, byteLen_append, byteLen_nil, hq]
    omega
  have hlast : (q :: (s ++ [q])).getLast? = some q := by
    rw [← cons_append]
    exact List.getLast?_concat
  -- three quotes need a body that starts with one, or no body and at most two bytes
  have htriple : ¬ (byteLen (q :: (s ++ [q])) ≥ 6 ∧ (q :: (s ++ [q]))[1]? = some q
      ∧ (q :: (s ++ [q]))[2]? = some q) := by
    rintro ⟨h6, h1, -⟩
    cases s with
    | nil => simp [hq] at h6
    | cons c s =>
      exact hs (by simpa using h1)
  have hends : ¬ ((q ≠ '"' ∧ q ≠ '\'') ∨ (some q : Option Char) ≠ some q) := by
    rcases hquote with rfl | rfl <;> simp
  simp only [stripQuotes, if_neg (show ¬ byteLen (q :: (s ++ [q])) < 2 by omega), hlast]
  rw [if_neg hends, if_neg htriple, hlen]
  refine sliceBytes_append (l := [q]) (by rw [byteLen_cons, byteLen_nil, hq]) ?_
  rw [byteLen_append, byteLen_cons, byteLen_nil, hq]
  omega

/-- A literal in double quotes is decoded from its body. -/
theorem unquote_body (hs : s.head? ≠ some '"') :
    unquote ('"' :: (s ++ ['"'])) = decodeBody false false s := by
  change (do decodeBody false false (← stripQuotes ('"' :: (s ++ ['"'])))) = _
  rw [stripQuotes_body (Or.inl rfl) hs]
  rfl

/-! ## Literals with one-letter escapes -/

/-- The loop passes an ASCII character on. -/
theorem unquoteLoop_plain {raw : Bool} (hc : c.utf8Size = 1) (hs : isSpecial raw c = false)
    (isByte : Bool) (fuel : Nat) (s : List Char) (buf : List UInt8) :
    unquoteLoop raw isByte (fuel + 1) (c :: s) buf =
      unquoteLoop raw isByte (fuel + 1) s (buf ++ [asByte c]) := by
  simp only [unquoteLoop, List.findIdx?_cons, hs, Bool.false_eq_true, if_false]
  cases hi : s.findIdx? (isSpecial raw) with
  | none => simp
  | some i =>
    have h := splitAtByte_cons i c s
    rw [hc, Nat.add_comm] at h
    simp only [Option.map_some, h]
    cases splitAtByte i s with
    | error e => rfl
    | ok p => simp [Except.map, Except.bind, bind]

theorem utf8Size_of_unesc {b : UInt8} (h : unesc c = some b) : c.utf8Size = 1 := by
  unfold unesc at h
  split at h <;> first | rfl | cases h

/-- The loop turns a one-letter escape into the character it stands for. -/
theorem unquoteLoop_escape {b : UInt8} (h : unesc c = some b) (isByte : Bool) (fuel : Nat)
    (s : List Char) (buf : List UInt8) :
    unquoteLoop false isByte (fuel + 1) ('\\' :: c :: s) buf =
      unquoteLoop false isByte fuel s (buf ++ [b]) := by
  have hun : unescape isByte ('\\' :: c :: s) = .ok ([b], s) := by
    have hdrop : dropBytes 2 ('\\' :: c :: s) = .ok s :=
      dropBytes_append (l := ['\\', c]) (by simp [utf8Size_of_unesc h]; rfl)
    have hlen : byteLen ('\\' :: c :: s) ≠ 1 := by
      have := c.utf8Size_pos
      simp only [byteLen_cons, show Char.utf8Size '\\' = 1 from rfl]
      omega
    have hr : ¬ ('\\' :: c :: s).head? = some '\r' := by simp
    rw [unescape, if_neg hr, if_neg hlen]
    simp only [List.getElem?_cons_succ, List.getElem?_cons_zero]
    split
    · next heq => cases heq
    · next heq =>
      rw [Option.some.inj heq] at h
      cases h
    · next heq =>
      cases heq
      simp only [h, hdrop]
      rfl
  have hi : ('\\' :: c :: s).findIdx? (isSpecial false) = some 0 := by
    simp [List.findIdx?_cons, isSpecial]
  simp [unquoteLoop, hi, hun, Except.bind, bind]

/-! ## Printing with one-letter escapes -/

theorem utf8Size_of_toNat_lt (h : c.toNat < 128) : c.utf8Size = 1 :=
  Char.utf8Size_eq_one_iff.mpr (by
    have : c.val.toNat < 128 := h
    exact UInt32.le_iff_toNat_le.mpr (by simpa using by omega))

theorem utf8EncodeChar_ascii (h : c.toNat < 128) : String.utf8EncodeChar c = [asByte c] := by
  have h' : c.val.toNat ≤ 127 := by
    have : c.val.toNat < 128 := h
    omega
  simp only [String.utf8EncodeChar, if_pos h']
  rfl

/-- The bytes of an ASCII text are its characters. -/
theorem utf8Decode_ascii (h : ∀ c ∈ s, c.toNat < 128) :
    (ByteArray.mk (s.map asByte).toArray).utf8Decode? = some s.toArray := by
  have hs : s.flatMap String.utf8EncodeChar = s.map asByte := by
    rw [← flatMap_singleton' (s.map asByte), flatMap_map]
    exact flatMap_congr fun c hc => utf8EncodeChar_ascii (h c hc)
  have henc : ByteArray.mk (s.map asByte).toArray = s.utf8Encode := by
    refine ByteArray.ext ?_
    rw [List.utf8Encode, hs, data_toByteArray]
  rw [henc, List.utf8Decode?_utf8Encode]

/-- An ASCII character is printed as it is, or as an escape that `unquote` knows. -/
def Escapes (esc : Char → List Char) (c : Char) : Prop :=
  c.toNat < 128 ∧ (esc c = [c] ∧ isSpecial false c = false ∨
    ∃ e, esc c = ['\\', e] ∧ unesc e = some (asByte c))

section

variable {esc : Char → List Char}

/-- The loop reads a printed text. -/
theorem unquoteLoop_escapes (h : ∀ c ∈ s, Escapes esc c) (rest : List Char) {fuel : Nat}
    (hfuel : (s.flatMap esc).length < fuel) (buf : List UInt8) :
    ∃ k, fuel ≤ k + (s.flatMap esc).length ∧
      unquoteLoop false false fuel (s.flatMap esc ++ rest) buf =
        unquoteLoop false false k rest (buf ++ s.map asByte) := by
  induction s generalizing fuel buf with
  | nil => exact ⟨fuel, by simp, by simp⟩
  | cons c s ih =>
    obtain ⟨fuel, rfl⟩ : ∃ k, fuel = k + 1 := ⟨fuel - 1, by omega⟩
    obtain ⟨⟨hascii, hc⟩, hs⟩ := forall_mem_cons.mp h
    rw [flatMap_cons, length_append] at hfuel ⊢
    rw [append_assoc, map_cons, ← singleton_append, ← append_assoc buf]
    obtain ⟨hc, hspec⟩ | ⟨e, hc, he⟩ := hc
    · rw [hc, length_singleton] at hfuel ⊢
      have hlt : (s.flatMap esc).length < fuel + 1 := by omega
      obtain ⟨k, hk, hloop⟩ := ih hs hlt (buf ++ [asByte c])
      refine ⟨k, by omega, ?_⟩
      rw [ singleton_append, unquoteLoop_plain (utf8Size_of_toNat_lt hascii) hspec, hloop]
    · rw [hc, length_cons, length_singleton] at hfuel ⊢
      have hlt : (s.flatMap esc).length < fuel := by omega
      obtain ⟨k, hk, hloop⟩ := ih hs hlt (buf ++ [asByte c])
      exact ⟨k, by omega, (unquoteLoop_escape he ..).trans hloop⟩

/-- A printed text is decoded to what was printed. -/
theorem decodeBody_escapes (h : ∀ c ∈ s, Escapes esc c) :
    decodeBody false false (s.flatMap esc) = .ok (.string s) := by
  rw [decodeBody]
  split
  · obtain ⟨k, hk, hloop⟩ := unquoteLoop_escapes h [] (Nat.lt_succ_self _) []
    obtain ⟨k, rfl⟩ : ∃ j, k = j + 1 := ⟨k - 1, by omega⟩
    rw [append_nil] at hloop
    rw [hloop, unquoteLoop]
    simp [utf8Decode_ascii fun c hc => (h c hc).1]
    rfl
  next hany =>
    have hself (c : Char) (hc : c ∈ s) : esc c = [c] := by
      obtain ⟨hc', -⟩ | ⟨e, hc', -⟩ := (h c hc).2
      · exact hc'
      · refine absurd (any_eq_true.mpr ⟨'\\', ?_, rfl⟩) hany
        exact mem_flatMap.mpr ⟨c, hc, by simp [hc']⟩
    rw [flatMap_congr hself, flatMap_singleton']
    rfl

end

end Mangle.Parse

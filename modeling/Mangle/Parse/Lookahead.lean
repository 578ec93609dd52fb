import Mangle.Machinery.ByteReader
import Mangle.Parse.Scan

/-!
# Parse/Lookahead — the two slots of the scanner

`Parse/Scan` takes characters from a list.  The source takes bytes from a reader: `peek` and
`peek_second` keep up to two characters in slots, and `skip_line` throws bytes away without a look
at the slots.  Here such a reader also writes down what leaves it.  Positions are left out.

To the reader, a token is a call of `next_char_skip` and then calls of `next_char` and `peek`, which
are any here; only the loop of `numeric` looks at the second slot.

* `nextToken_lossless` — after any tokens, the characters delivered and the comments skipped are the
  text from its start, in order, and the slots and the unread bytes are the rest of it.
-/

namespace Mangle.Parse

open Machinery List

/-! ## The reader -/

/-- What leaves the reader: a character that `next_char` delivers, bytes that `skip_line` skips. -/
inductive Event where
  | char (c : Char)
  | comment (bytes : List UInt8)

/-- The bytes to come, the two slots, and what has left. -/
structure Scanner where
  iter : List UInt8
  ch : Option Char
  ch2 : Option Char
  trace : List Event

/-- Why no character is read. -/
inductive ReadError where
  | incompleteUtf8
  | invalidUtf8

namespace Scanner

/-- How many bytes follow the first one of a character. -/
def following (b : UInt8) : Option Nat :=
  if b ≤ 0x7F then some 0
  else if 0xC0 ≤ b ∧ b ≤ 0xDF then some 1
  else if 0xE0 ≤ b ∧ b ≤ 0xEF then some 2
  else if 0xF0 ≤ b ∧ b ≤ 0xF4 then some 3
  else none

/-- `read_char_from_iter`. -/
def readCharFromIter : List UInt8 → Except ReadError (Option Char) × List UInt8
  | [] => (.ok none, [])
  | b :: bs =>
    match following b with
    | none => (.error .invalidUtf8, bs)
    | some n =>
      if bs.length < n then (.error .incompleteUtf8, [])
      else
        match (b :: bs.take n).toByteArray.utf8DecodeChar? 0 with
        | none => (.error .invalidUtf8, bs.drop n)
        | some c => (.ok (some c), bs.drop n)

/-- `next_char`. -/
def nextChar (s : Scanner) : Except ReadError (Option Char) × Scanner :=
  match s.ch with
  | some c => (.ok (some c), { s with ch := s.ch2, ch2 := none, trace := s.trace ++ [.char c] })
  | none =>
    match readCharFromIter s.iter with
    | (.ok (some c), bs) => (.ok (some c), { s with iter := bs, trace := s.trace ++ [.char c] })
    | (r, bs) => (r, { s with iter := bs })

/-- `skip_line`. -/
def skipLine (s : Scanner) : Scanner :=
  let n := s.iter.idxOf 10 + 1
  { s with iter := s.iter.drop n, trace := s.trace ++ [.comment (s.iter.take n)] }

/-- `peek`. -/
def peek (s : Scanner) : Except ReadError (Option Char) × Scanner :=
  match s.ch with
  | some c => (.ok (some c), s)
  | none =>
    match readCharFromIter s.iter with
    | (.ok c, bs) => (.ok c, { s with iter := bs, ch := c })
    | (.error e, bs) => (.error e, { s with iter := bs })

/-- `peek_second`. -/
def peekSecond (s : Scanner) : Except ReadError (Option Char) × Scanner :=
  match peek s with
  | (.ok (some _), s) =>
    match s.ch2 with
    | some d => (.ok (some d), s)
    | none =>
      match readCharFromIter s.iter with
      | (.ok d, bs) => (.ok d, { s with iter := bs, ch2 := d })
      | (.error e, bs) => (.error e, { s with iter := bs })
  | r => r

/-! ## Tokens -/

/-- `next_char_skip`, after a number of rounds of its loop. -/
def nextCharSkip : Nat → Scanner → Scanner
  | 0, s => s
  | n + 1, s =>
    match nextChar s with
    | (.ok (some c), s) =>
      if c = ' ' ∨ c = '\t' ∨ c = '\n' then nextCharSkip n s
      else if c = '#' then nextCharSkip n (skipLine s)
      else s
    | (_, s) => s

/-- The loop of `numeric`, after a number of rounds. -/
def numeric : Nat → Scanner → Scanner
  | 0, s => s
  | n + 1, s =>
    match peek s with
    | (.ok (some c), s) =>
      if isDigit c then numeric n (nextChar s).2
      else if c = '.' then
        match peekSecond s with
        | (.ok (some d), s) => if isDigit d then numeric n (nextChar s).2 else s
        | (_, s) => s
      else s
    | (_, s) => s

/-- What the rule of a token does to the reader. -/
inductive Call where
  | nextChar
  | peek
  | numeric (rounds : Nat)

/-- One call. -/
def Call.run (s : Scanner) : Call → Scanner
  | nextChar => s.nextChar.2
  | peek => s.peek.2
  | numeric rounds => Scanner.numeric rounds s

/-- `next_token`: the rounds of `next_char_skip`, then the calls of the rule. -/
def nextToken (s : Scanner) (token : Nat × List Call) : Scanner :=
  token.2.foldl Call.run (nextCharSkip token.1 s)

/-- `new`. -/
def new (bytes : List UInt8) : Scanner := ⟨bytes, none, none, []⟩

/-! ## Texts in order -/

/-- The bytes of characters. -/
def encode (cs : List Char) : List UInt8 := cs.flatMap String.utf8EncodeChar

/-- `trace` goes through `text` and leaves `left`: every character is the next one, and a comment is
the rest of the line behind a `#`. -/
inductive Follows (text : List Char) : List Event → List Char → Prop where
  | nil : Follows text [] text
  | char {trace c left} : Follows text trace (c :: left) → Follows text (trace ++ [.char c]) left
  | comment {trace left} : Follows text (trace ++ [.char '#']) left →
      Follows text (trace ++ [.char '#'] ++ [.comment (encode (left.take (left.idxOf '\n' + 1)))])
        (left.drop (left.idxOf '\n' + 1))

/-- What has not left is in the slots, then in the bytes.  The second slot is filled only behind a
dot. -/
structure InOrder (text : List Char) (s : Scanner) : Prop where
  pending : ∃ rest, s.iter = encode rest ∧
    Follows text s.trace (s.ch.toList ++ s.ch2.toList ++ rest)
  second : s.ch2 = none ∨ s.ch = some '.'

variable {text left rest : List Char} {s : Scanner} {c : Char}

theorem encode_cons (c : Char) (cs : List Char) :
    encode (c :: cs) = String.utf8EncodeChar c ++ encode cs := flatMap_cons

/-- The first byte of a character says how many follow it. -/
theorem utf8EncodeChar_cons (c : Char) : ∃ b bs, String.utf8EncodeChar c = b :: bs ∧
    following b = some bs.length := by
  have hv : c.val.toNat < 0x110000 := c.valid.elim (fun h => by omega) And.right
  have hle (n : Nat) (b : UInt8) : UInt8.ofNat n ≤ b ↔ n % 256 ≤ b.toNat := by
    rw [UInt8.le_iff_toNat_le, UInt8.toNat_ofNat']
  have hge (n : Nat) (b : UInt8) : b ≤ UInt8.ofNat n ↔ b.toNat ≤ n % 256 := by
    rw [UInt8.le_iff_toNat_le, UInt8.toNat_ofNat']
  rw [String.utf8EncodeChar.eq_1]
  split_ifs
  all_goals
    refine ⟨_, _, rfl, ?_⟩
    simp only [following, hle, hge, UInt8.reduceToNat]
    split_ifs <;> first | rfl | omega

theorem readCharFromIter_encode (cs : List Char) :
    readCharFromIter (encode cs) = (.ok cs.head?, encode cs.tail) := by
  cases cs with
  | nil => rfl
  | cons c cs =>
    obtain ⟨b, bs, hc, hb⟩ := utf8EncodeChar_cons c
    have hdecode : (b :: bs).toByteArray.utf8DecodeChar? 0 = some c := by
      have h := @ByteArray.utf8DecodeChar?_utf8EncodeChar_append ByteArray.empty c
      rwa [ByteArray.append_empty, hc] at h
    simp [encode_cons, hc, readCharFromIter, hb, hdecode]

theorem newline_notMem (h : c ≠ '\n') : (10 : UInt8) ∉ String.utf8EncodeChar c := by
  have hv : c.val.toNat ≠ 10 := fun hv => h (Char.ext (UInt32.toNat_inj.mp hv))
  rw [String.utf8EncodeChar.eq_1]
  split_ifs <;>
    simp only [mem_cons, not_mem_nil, or_false, ← UInt8.toNat_inj, UInt8.toNat_ofNat',
      UInt8.reduceToNat, not_or] <;> omega

/-- The rest of the line, in bytes. -/
theorem line_encode (cs : List Char) :
    (encode cs).take ((encode cs).idxOf 10 + 1) = encode (cs.take (cs.idxOf '\n' + 1)) ∧
      (encode cs).drop ((encode cs).idxOf 10 + 1) = encode (cs.drop (cs.idxOf '\n' + 1)) := by
  induction cs with
  | nil => exact ⟨rfl, rfl⟩
  | cons c cs ih =>
    by_cases hc : c = '\n'
    · subst hc
      exact ⟨rfl, rfl⟩
    · rw [encode_cons, idxOf_append_of_notMem (newline_notMem hc), idxOf_cons_ne _ hc,
        Nat.add_assoc, take_length_add_append, drop_length_add_append, take_succ_cons,
        drop_succ_cons, encode_cons, ih.1, ih.2]
      exact ⟨rfl, rfl⟩

/-- Behind a `#` that is delivered, both slots are empty. -/
theorem nextChar_inOrder (h : InOrder text s) : ∃ c s', nextChar s = (.ok c, s') ∧
    InOrder text s' ∧ (c = some '#' → ∃ left trace, Follows text (trace ++ [.char '#']) left ∧
      s' = ⟨encode left, none, none, trace ++ [.char '#']⟩) := by
  obtain ⟨iter, ch, ch2, trace⟩ := s
  obtain ⟨⟨rest, rfl, hf⟩, hsecond⟩ := h
  cases ch with
  | some c =>
    refine ⟨c, _, rfl, ⟨⟨rest, rfl, (append_nil ch2.toList).symm ▸ hf.char⟩, .inl rfl⟩, ?_⟩
    rintro ⟨⟩
    obtain rfl : ch2 = none := hsecond.resolve_right (by simp)
    exact ⟨rest, trace, hf.char, rfl⟩
  | none =>
    obtain rfl : ch2 = none := hsecond.resolve_right nofun
    cases rest with
    | nil => exact ⟨none, _, rfl, ⟨⟨[], rfl, hf⟩, .inl rfl⟩, nofun⟩
    | cons c rest =>
      rw [nextChar, readCharFromIter_encode]
      refine ⟨c, _, rfl, ⟨⟨rest, rfl, hf.char⟩, .inl rfl⟩, ?_⟩
      rintro ⟨⟩
      exact ⟨rest, trace, hf.char, rfl⟩

theorem skipLine_inOrder {trace : List Event} (h : Follows text (trace ++ [.char '#']) left) :
    InOrder text (skipLine ⟨encode left, none, none, trace ++ [.char '#']⟩) := by
  refine ⟨⟨_, (line_encode left).2, ?_⟩, .inl rfl⟩
  have hcomment := h.comment
  rwa [← (line_encode left).1] at hcomment

theorem nextCharSkip_inOrder (n : Nat) (h : InOrder text s) : InOrder text (nextCharSkip n s) := by
  induction n generalizing s with
  | zero => exact h
  | succ n ih =>
    obtain ⟨c, s', hnext, hs', hhash⟩ := nextChar_inOrder h
    rw [nextCharSkip, hnext]
    cases c with
    | none => exact hs'
    | some c =>
      dsimp only
      split_ifs with _ hc
      · exact ih hs'
      · obtain ⟨left, trace, hf, rfl⟩ := hhash (by rw [hc])
        exact ih (skipLine_inOrder hf)
      · exact hs'

theorem peek_inOrder (h : InOrder text s) : ∃ s', peek s = (.ok s'.ch, s') ∧ InOrder text s' := by
  obtain ⟨iter, ch, ch2, trace⟩ := s
  obtain ⟨⟨rest, rfl, hf⟩, hsecond⟩ := h
  cases ch with
  | some c => exact ⟨_, rfl, ⟨rest, rfl, hf⟩, hsecond⟩
  | none =>
    obtain rfl : ch2 = none := hsecond.resolve_right nofun
    rw [peek, readCharFromIter_encode]
    refine ⟨⟨_, rest.head?, none, trace⟩, rfl, ⟨rest.tail, rfl, ?_⟩, .inl rfl⟩
    cases rest <;> exact hf

/-- Behind a dot the second slot may be filled. -/
theorem peekSecond_inOrder (h : InOrder text s) (hdot : s.ch = some '.') :
    ∃ d s', peekSecond s = (.ok d, s') ∧ InOrder text s' := by
  obtain ⟨iter, ch, ch2, trace⟩ := s
  obtain ⟨⟨rest, rfl, hf⟩, hsecond⟩ := h
  obtain rfl : ch = some '.' := hdot
  cases ch2 with
  | some d => exact ⟨_, _, rfl, ⟨rest, rfl, hf⟩, .inr rfl⟩
  | none =>
    simp only [peekSecond, peek, readCharFromIter_encode]
    refine ⟨_, _, rfl, ⟨rest.tail, rfl, ?_⟩, .inr rfl⟩
    cases rest <;> exact hf

theorem numeric_inOrder (n : Nat) (h : InOrder text s) : InOrder text (numeric n s) := by
  induction n generalizing s with
  | zero => exact h
  | succ n ih =>
    have htake {s : Scanner} (h : InOrder text s) : InOrder text (numeric n s.nextChar.2) := by
      obtain ⟨c, s', hnext, hs', -⟩ := nextChar_inOrder h
      rw [hnext]
      exact ih hs'
    obtain ⟨s', hpeek, hs'⟩ := peek_inOrder h
    rw [numeric, hpeek]
    cases hch : s'.ch with
    | none => exact hs'
    | some c =>
      dsimp only
      split_ifs with _ hc
      · exact htake hs'
      · obtain ⟨d, s'', hsecond, hs''⟩ := peekSecond_inOrder hs' (by rw [hch, hc])
        rw [hsecond]
        cases d with
        | none => exact hs''
        | some d =>
          dsimp only
          split_ifs
          · exact htake hs''
          · exact hs''
      · exact hs'

theorem Call.run_inOrder (h : InOrder text s) (call : Call) : InOrder text (call.run s) := by
  cases call with
  | nextChar =>
    obtain ⟨c, s', hnext, hs', -⟩ := nextChar_inOrder h
    rwa [run, hnext]
  | peek =>
    obtain ⟨s', hpeek, hs'⟩ := peek_inOrder h
    rwa [run, hpeek]
  | numeric rounds => exact numeric_inOrder rounds h

/-- **A token keeps the text in order**, whatever its rule calls. -/
theorem nextToken_inOrder (h : InOrder text s) (token : Nat × List Call) :
    InOrder text (nextToken s token) :=
  foldlRecOn token.2 _ (nextCharSkip_inOrder token.1 h) fun _ h call _ => call.run_inOrder h

/-! ## Whole runs -/

/-- The bytes of what has left. -/
def Event.bytes : Event → List UInt8
  | .char c => String.utf8EncodeChar c
  | .comment bs => bs

theorem Follows.bytes {trace : List Event} (h : Follows text trace left) :
    trace.flatMap Event.bytes ++ encode left = encode text := by
  induction h with
  | nil => rfl
  | char h ih =>
    rw [← ih, encode_cons, flatMap_append, append_assoc, flatMap_singleton, Event.bytes]
  | @comment trace left h ih =>
    rw [← ih, flatMap_append, append_assoc, flatMap_singleton, Event.bytes, encode, encode,
      ← flatMap_append, take_append_drop]
    rfl

theorem utf8_eq (text : String) : utf8 text = encode text.toList := by
  rw [utf8, encode, ← String.utf8Encode_toList, utf8Encode, List.toList_data_toByteArray]

/-- At the end of input nothing is left. -/
theorem InOrder.at_end (h : InOrder text s) (hend : (nextChar s).1 = .ok none) :
    s.ch = none ∧ s.ch2 = none ∧ s.iter = [] := by
  obtain ⟨iter, ch, ch2, trace⟩ := s
  obtain ⟨⟨rest, rfl, -⟩, hsecond⟩ := h
  cases ch with
  | some c => cases hend
  | none =>
    obtain rfl : ch2 = none := hsecond.resolve_right nofun
    rw [nextChar, readCharFromIter_encode] at hend
    cases rest with
    | nil => exact ⟨rfl, rfl, rfl⟩
    | cons c rest => cases hend

/-- **Lookahead neither loses nor repeats input**: after any tokens the characters delivered and the
comments skipped go through the text from its start, and what is left of it stands in the slots and
in the unread bytes, in this order; at the end of input they are the whole text. -/
theorem nextToken_lossless (text : String) (tokens : List (Nat × List Call)) :
    let s := tokens.foldl nextToken (new (utf8 text))
    s.trace.flatMap Event.bytes ++ encode (s.ch.toList ++ s.ch2.toList) ++ s.iter = utf8 text ∧
      (∃ rest, s.iter = encode rest ∧
        Follows text.toList s.trace (s.ch.toList ++ s.ch2.toList ++ rest)) ∧
      ((nextChar s).1 = .ok none → s.ch = none ∧ s.ch2 = none ∧ s.iter = [] ∧
        s.trace.flatMap Event.bytes = utf8 text) := by
  intro s
  have h : InOrder text.toList s :=
    foldlRecOn tokens _ ⟨⟨text.toList, utf8_eq text, .nil⟩, .inl rfl⟩ fun _ h token _ =>
      nextToken_inOrder h token
  obtain ⟨rest, hiter, hf⟩ := h.pending
  have hall : s.trace.flatMap Event.bytes ++ encode (s.ch.toList ++ s.ch2.toList) ++ s.iter =
      utf8 text := by
    rw [hiter, utf8_eq, ← hf.bytes, append_assoc, encode, encode, encode, ← flatMap_append]
  refine ⟨hall, ⟨rest, hiter, hf⟩, fun hend => ?_⟩
  obtain ⟨hch, hch2, hnil⟩ := h.at_end hend
  refine ⟨hch, hch2, hnil, ?_⟩
  simpa [hch, hch2, hnil, encode] using hall

end Scanner
end Mangle.Parse

import Mathlib.Data.List.TakeWhile

/-!
# Machinery/Text — texts as lists of characters

The string functions of Rust's standard library, on lists of characters: what they do to a text that
is put together of words, blanks and lines.

* `trim_line` — a line without blanks at its ends is trimmed of its line break only;
* `splitWhitespace_word` — words between blanks are the parts of the text;
* `readLine_line` — a line is read up to its line break.
-/

namespace Machinery

open List

variable {s : List Char}

/-! ## Blanks -/

/-- `char::is_whitespace`: the property `White_Space` of Unicode. -/
def isWhitespace (c : Char) : Bool :=
  let n := c.toNat
  (9 ≤ n && n ≤ 13) || n = 0x20 || n = 0x85 || n = 0xA0 || n = 0x1680 || (0x2000 ≤ n && n ≤ 0x200A)
    || n = 0x2028 || n = 0x2029 || n = 0x202F || n = 0x205F || n = 0x3000

/-- `str::trim`. -/
def trim (s : List Char) : List Char :=
  ((s.dropWhile isWhitespace).reverse.dropWhile isWhitespace).reverse

/-- The words of a text behind the start of one. -/
def splitWords (word : List Char) : List Char → List (List Char)
  | [] => if word = [] then [] else [word]
  | c :: s =>
    if isWhitespace c then if word = [] then splitWords [] s else word :: splitWords [] s
    else splitWords (word ++ [c]) s

/-- `str::split_whitespace`. -/
def splitWhitespace (s : List Char) : List (List Char) := splitWords [] s

theorem trim_line {c d : Char} (hc : isWhitespace c = false) (hd : isWhitespace d = false)
    (hs : (c :: s).getLast? = some d) : trim (c :: s ++ ['\n']) = c :: s := by
  obtain ⟨l, hl⟩ : ∃ l, c :: s = l ++ [d] := by
    obtain ⟨l, hl⟩ := List.getLast?_eq_some_iff.mp hs
    exact ⟨l, hl⟩
  have hn : isWhitespace '\n' = true := by decide
  simp only [trim, cons_append, dropWhile_cons, hc]
  rw [← cons_append, hl]
  simp [hn, hd]

section

variable (hs : ∀ c ∈ s, isWhitespace c = false)

include hs

/-- A text without blanks is trimmed of nothing. -/
theorem trim_of_all : trim s = s := by
  have hdrop {l : List Char} (hl : ∀ c ∈ l, isWhitespace c = false) :
      l.dropWhile isWhitespace = l := by
    cases l with
    | nil => rfl
    | cons c l => simp [hl c mem_cons_self]
  rw [trim, hdrop hs, hdrop fun c hc => hs c (mem_reverse.mp hc), reverse_reverse]

theorem splitWords_append (word rest : List Char) :
    splitWords word (s ++ rest) = splitWords (word ++ s) rest := by
  induction s generalizing word with
  | nil => simp
  | cons c s ih =>
    rw [cons_append, splitWords, if_neg (by simp [hs c mem_cons_self]),
      ih fun d hd => hs d (mem_cons_of_mem _ hd), append_assoc, singleton_append]

/-- A word in front of a blank is a part of the text. -/
theorem splitWhitespace_word (hne : s ≠ []) {b : Char} (hb : isWhitespace b = true)
    (rest : List Char) : splitWhitespace (s ++ b :: rest) = s :: splitWhitespace rest := by
  rw [splitWhitespace, splitWords_append hs, nil_append, splitWords, if_pos hb, if_neg hne]
  rfl

/-- A text without blanks is one word, or empty. -/
theorem splitWhitespace_of_all : splitWhitespace s = if s = [] then [] else [s] := by
  have h := splitWords_append hs [] []
  rw [append_nil, nil_append] at h
  rw [splitWhitespace, h, splitWords]

end

/-- What is left after trimming the end of a text is a cut of it. -/
theorem trim_prefix {c : Char} (hc : isWhitespace c = false) :
    trim (c :: s) <+: c :: s ∧ trim (c :: s) ≠ [] := by
  have hdrop : (c :: s).dropWhile isWhitespace = c :: s := by simp [hc]
  rw [trim, hdrop]
  constructor
  · rw [← reverse_suffix, reverse_reverse]
    exact dropWhile_suffix _
  · intro hnil
    have hmem := dropWhile_eq_nil_iff.mp (reverse_eq_nil_iff.mp hnil) c (by simp)
    rw [hc] at hmem
    cases hmem

/-! ## Cuts -/

/-- A cut of two texts is a cut of the first, or the first and a cut of the second. -/
theorem prefix_append_cases {α : Type*} {v a b : List α} (h : v <+: a ++ b) :
    v <+: a ∨ ∃ w, w ≠ [] ∧ v = a ++ w ∧ w <+: b := by
  obtain hva | ⟨w, rfl⟩ := prefix_or_prefix_of_prefix h (prefix_append a b)
  · exact .inl hva
  · by_cases hw : w = []
    · subst hw
      exact .inl (by simp)
    · exact .inr ⟨w, hw, rfl, (prefix_append_right_inj a).mp h⟩

/-- A cut of two texts with a separator between them ends in the first, or behind the separator. -/
theorem prefix_sep_cases {α : Type*} {c : α} {v a b : List α} (h : v <+: a ++ c :: b) :
    v <+: a ∨ ∃ w, v = a ++ c :: w ∧ w <+: b := by
  obtain hv | ⟨w, hne, rfl, hw⟩ := prefix_append_cases h
  · exact .inl hv
  · obtain rfl | ⟨u, rfl, hu⟩ := prefix_cons_iff.mp hw
    · exact absurd rfl hne
    · exact .inr ⟨u, rfl, hu⟩

/-! ## Lines -/

/-- `BufRead::read_line`: the next line with its line break, and the rest. -/
def readLine : List Char → List Char × List Char
  | [] => ([], [])
  | c :: s =>
    if c = '\n' then (['\n'], s)
    else
      let (line, rest) := readLine s
      (c :: line, rest)

theorem readLine_line (hs : '\n' ∉ s) (rest : List Char) :
    readLine (s ++ '\n' :: rest) = (s ++ ['\n'], rest) := by
  induction s with
  | nil => rfl
  | cons c s ih =>
    have hc : c ≠ '\n' := fun h => hs (h ▸ mem_cons_self)
    rw [cons_append, readLine, if_neg hc, ih fun h => hs (mem_cons_of_mem _ h)]
    rfl

/-- The last line is read up to the end of the text. -/
theorem readLine_last (hs : '\n' ∉ s) : readLine s = (s, []) := by
  induction s with
  | nil => rfl
  | cons c s ih =>
    have hc : c ≠ '\n' := fun h => hs (h ▸ mem_cons_self)
    rw [readLine, if_neg hc, ih fun h => hs (mem_cons_of_mem _ h)]

end Machinery

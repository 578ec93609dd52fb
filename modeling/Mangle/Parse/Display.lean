import Mangle.Parse.Scan
import Mangle.Value

/-!
# Parse/Display — the text of a value, and what the scanner makes of it

`Display for Value` prints numbers and strings in the syntax of the scanner, or so it seems.  A
number is read back (`reads_number`).  A string is printed with Rust's escapes: the scanner ends a
literal at the next quote, and its own escapes are others, so what is read back are the strings that
need no escapes, and those of ASCII characters whose escapes both sides know (`reads_string`).
-/

namespace Mangle.Parse

open Machinery List

variable {c : Char} {s : List Char}

/-! ## Numbers -/

/-- `Display for u64`. -/
def displayNat (n : Nat) : List Char := Nat.toDigits 10 n

/-- `Display for i64`. -/
def displayInt (z : Int) : List Char :=
  if z < 0 then '-' :: displayNat z.natAbs else displayNat z.natAbs

/-- A number filled up with zeros to a width. -/
def padNat (width n : Nat) : List Char :=
  List.replicate (width - (displayNat n).length) '0' ++ displayNat n

/-- An integer filled up with zeros to a width. -/
def padInt (width : Nat) (z : Int) : List Char :=
  if z < 0 then '-' :: padNat (width - 1) z.natAbs else padNat width z.natAbs

/-- `trim_end_matches('0')`. -/
def trimZeros (s : List Char) : List Char := (s.reverse.dropWhile (· = '0')).reverse

/-! ## Times and durations -/

/-- The civil date of a day since the epoch, by Hinnant's algorithm: year, month and day. -/
def civilFromDays (days : Int) : Int × Nat × Nat :=
  let z := days + 719468
  let era := (if 0 ≤ z then z else z - 146096).tdiv 146097
  let doe := (z - era * 146097).toNat
  let yoe := (doe - doe / 1460 + doe / 36524 - doe / 146096) / 365
  let y : Int := yoe + era * 400
  let doy := doe - (365 * yoe + yoe / 4 - yoe / 100)
  let mp := (5 * doy + 2) / 153
  let d := doy - (153 * mp + 2) / 5 + 1
  let m := if mp < 10 then mp + 3 else mp - 9
  (if m ≤ 2 then y + 1 else y, m, d)

/-- `format_time_nanos`. -/
def formatTimeNanos (nanos : Int64) : List Char :=
  let secs := nanos.toInt / 1000000000
  let ns := (nanos.toInt % 1000000000).toNat
  let timeOfDay := (secs % 86400).toNat
  let (y, m, d) := civilFromDays (secs / 86400)
  let date := padInt 4 y ++ '-' :: padNat 2 m ++ '-' :: padNat 2 d
  let time := padNat 2 (timeOfDay / 3600) ++ ':' :: padNat 2 (timeOfDay % 3600 / 60)
    ++ ':' :: padNat 2 (timeOfDay % 60)
  let frac := if ns = 0 then [] else '.' :: trimZeros (padNat 9 ns)
  date ++ 'T' :: time ++ frac ++ ['Z']

/-- A number of units and the fraction of a unit, of which there are `10 ^ width`. -/
def formatFraction (whole sub width : Nat) : List Char :=
  displayNat whole ++ if sub = 0 then [] else '.' :: trimZeros (padNat width sub)

/-- The magnitude of a duration. -/
def formatDurationAbs (n : Nat) : List Char :=
  if 1000000000 ≤ n then
    let hours := n / 3600000000000
    let minutes := n % 3600000000000 / 60000000000
    let seconds := n % 60000000000 / 1000000000
    (if 0 < hours then displayNat hours ++ ['h'] else [])
      ++ (if 0 < minutes ∨ 0 < hours then displayNat minutes ++ ['m'] else [])
      ++ formatFraction seconds (n % 1000000000) 9 ++ ['s']
  else if 1000000 ≤ n then formatFraction (n / 1000000) (n % 1000000) 6 ++ ['m', 's']
  else if 1000 ≤ n then formatFraction (n / 1000) (n % 1000) 3 ++ ['µ', 's']
  else displayNat n ++ ['n', 's']

/-- `format_duration_nanos`. -/
def formatDurationNanos (nanos : Int64) : List Char :=
  if nanos = 0 then ['0', 's']
  else if nanos < 0 then '-' :: formatDurationAbs nanos.toInt.natAbs
  else formatDurationAbs nanos.toInt.natAbs

/-! ## Values -/

section Display

variable (lib : TextLib)

/-- A character as `Debug for str` prints it. -/
def debugChar (c : Char) : List Char :=
  match c with
  | '\x00' => ['\\', '0']
  | '\t' => ['\\', 't']
  | '\r' => ['\\', 'r']
  | '\n' => ['\\', 'n']
  | '\\' => ['\\', '\\']
  | '"' => ['\\', '"']
  | c => if lib.isPrintable c then [c]
    else ['\\', 'u', '{'] ++ Nat.toDigits 16 c.toNat ++ ['}']

/-- `Debug for str`. -/
def debugStr (s : String) : List Char := '"' :: (s.toList.flatMap (debugChar lib) ++ ['"'])

/-- Texts with commas between them. -/
def commaSeparated (texts : List (List Char)) : List Char := [',', ' '].intercalate texts

mutual

/-- `Display for Value`. -/
def displayValue : Value → List Char
  | .number n => displayInt n.toInt
  | .float bits => lib.displayF64 bits
  | .string s => debugStr lib s
  | .name s => s.toList
  | .time nanos => formatTimeNanos nanos
  | .duration nanos => formatDurationNanos nanos
  | .compound .list elems | .compound .pair elems =>
    '[' :: (commaSeparated (displayValues elems) ++ [']'])
  | .compound .map elems => '[' :: (commaSeparated (displayEntries elems) ++ [']'])
  | .compound .struct elems => '{' :: (commaSeparated (displayEntries elems) ++ ['}'])
  | .null => ['n', 'u', 'l', 'l']

/-- The texts of a list of values. -/
def displayValues : List Value → List (List Char)
  | [] => []
  | v :: vs => displayValue v :: displayValues vs

/-- The texts of the keys and values of a map; the last one of an odd number is left out. -/
def displayEntries : List Value → List (List Char)
  | k :: v :: vs => (displayValue k ++ ':' :: ' ' :: displayValue v) :: displayEntries vs
  | [_] | [] => []

end

end Display

/-! ## Numbers are read back -/

theorem toDigit_of_isDigit (h : isDigit c = true) : toDigit 10 c = some (c.toNat - '0'.toNat) := by
  have h' : '0' ≤ c ∧ c ≤ '9' := by simpa [isDigit] using h
  have hlt : c.toNat - 48 < 10 := by
    have : c.toNat ≤ 57 := h'.2
    omega
  simp [toDigit, h', hlt]

/-- The number of a list of digits. -/
theorem decimal_digits (hne : s ≠ []) (hs : ∀ c ∈ s, isDigit c = true) :
    decimal s = some (Nat.ofDigitChars 10 s 0) := by
  have h (n : Nat) : s.foldlM (fun n c => (toDigit 10 c).map (10 * n + ·)) n =
      some (Nat.ofDigitChars 10 s n) := by
    clear hne
    induction s generalizing n with
    | nil => rfl
    | cons c s ih =>
      rw [foldlM_cons, toDigit_of_isDigit (hs c mem_cons_self)]
      exact ih (fun d hd => hs d (mem_cons_of_mem _ hd)) _
  rw [decimal, if_neg hne, h]

theorem isDigit_of_mem_displayNat {n : Nat} (h : c ∈ displayNat n) :
    isDigit c = true := Nat.isDigit_of_mem_toDigits (by decide) (by decide) h

theorem displayNat_ne_nil (n : Nat) : displayNat n ≠ [] := Nat.toDigits_ne_nil

theorem decimal_displayNat (n : Nat) : decimal (displayNat n) = some n := by
  rw [decimal_digits (displayNat_ne_nil n) fun _ => isDigit_of_mem_displayNat, displayNat,
    Nat.ofDigitChars_toDigits (by decide) (by decide)]

theorem checkedI64_toInt (n : Int64) : checkedI64 n.toInt = some n := by
  rw [checkedI64, if_pos ⟨Int64.le_toInt n, Int64.toInt_lt n⟩, Int64.ofInt_toInt]

/-- A digit starts a number without sign. -/
theorem splitSign_digits (hs : ∀ c ∈ s, isDigit c = true) : splitSign s = (false, s) := by
  unfold splitSign
  split
  · cases hs _ mem_cons_self
  · cases hs _ mem_cons_self
  · rfl

theorem parseI64_pos {k : Nat} (hs : splitSign s = (false, s)) (h : decimal s = some k) :
    parseI64 s = checkedI64 k := by
  rw [parseI64, hs, h, Option.bind_eq_bind, Option.bind_some, if_neg (by simp)]

theorem parseI64_neg {k : Nat} (h : decimal s = some k) :
    parseI64 ('-' :: s) = checkedI64 (-k) := by
  have hs : splitSign ('-' :: s) = (true, s) := rfl
  rw [parseI64, hs, h, Option.bind_eq_bind, Option.bind_some, if_pos rfl]

/-- **The text of a number parses to it.** -/
theorem parseI64_displayInt (n : Int64) : parseI64 (displayInt n.toInt) = some n := by
  unfold displayInt
  split
  next hneg =>
    have hz : (-(n.toInt.natAbs : Int)) = n.toInt := by omega
    rw [parseI64_neg (decimal_displayNat _), hz, checkedI64_toInt]
  next hpos =>
    have hz : (n.toInt.natAbs : Int) = n.toInt := by omega
    rw [parseI64_pos (splitSign_digits fun _ => isDigit_of_mem_displayNat) (decimal_displayNat _),
      hz, checkedI64_toInt]

/-- The digits of a number end where the digits end. -/
theorem numericLoop_digits (hs : ∀ c ∈ s, isDigit c = true) {d : Char} (hd : isDigit d = false)
    (hdot : d ≠ '.') (rest : List Char) : numericLoop (s ++ d :: rest) = (s, false, d :: rest) := by
  induction s with
  | nil => simp [numericLoop, hd, hdot]
  | cons c s ih =>
    rw [cons_append, numericLoop, if_pos (hs c mem_cons_self),
      ih fun c hc => hs c (mem_cons_of_mem _ hc)]

/-- The text scans as one token in front of a comma or a closing parenthesis. -/
def Reads (lib : TextLib) (text : List Char) (tok : Token) : Prop :=
  ∀ d rest, d = ',' ∨ d = ')' → scanToken lib (text ++ d :: rest) = .ok (tok, d :: rest)

variable {lib : TextLib}

/-- A number in front of a comma or parenthesis is a number token. -/
theorem numeric_of_parseI64 {first d : Char} {more rest : List Char} {n : Int64}
    (hs : ∀ c ∈ more, isDigit c = true) (hd : d = ',' ∨ d = ')')
    (hn : parseI64 (first :: more) = some n) :
    numeric lib first (more ++ d :: rest) = .ok (.int n, d :: rest) := by
  have hloop : numericLoop (more ++ d :: rest) = (more, false, d :: rest) := by
    refine numericLoop_digits hs ?_ ?_ rest <;> rcases hd with rfl | rfl <;> decide
  rcases hd with rfl | rfl <;> simp [numeric, hloop, numeric.number, hn]

theorem scanToken_of_ne_blank (h : c ≠ ' ' ∧ c ≠ '\t' ∧ c ≠ '\n' ∧ c ≠ '#') :
    scanToken lib (c :: s) = tokenAt lib c s := by
  simp [scanToken, skipBlank, h]

/-- The characters of predicate names. -/
def isSymChar (c : Char) : Bool := isIdent c || c = ':' || c = '.'

theorem scanToken_of_isSym (h : isSymChar c = true) :
    scanToken lib (c :: s) = tokenAt lib c s := by
  refine scanToken_of_ne_blank ?_
  refine ⟨?_, ?_, ?_, ?_⟩ <;> (rintro rfl; cases h)

/-- A letter, a digit or an underscore starts a number or a word. -/
theorem tokenAt_isIdent (h : isIdent c = true) :
    tokenAt lib c s = if isDigit c then numeric lib c s else wordAt c s := by
  have hsingle : singleToken c = none := by
    unfold singleToken
    split <;> first | rfl | cases h
  have hdouble : doubleToken c = none := by
    unfold doubleToken
    split <;> first | rfl | cases h
  have hne (d : Char) (hd : isIdent d = false) : c ≠ d := by
    rintro rfl
    rw [h] at hd
    cases hd
  have hstart (hd : ¬ isDigit c = true) : isIdentStart c = true := by
    simp only [isIdent, Bool.or_eq_true] at h
    simp only [isIdentStart, Bool.or_eq_true]
    tauto
  simp only [tokenAt, hsingle, hdouble, if_neg (hne ':' rfl), if_neg (hne '.' rfl),
    if_neg (hne '/' rfl), if_neg (not_or.mpr ⟨hne '\'' rfl, hne '"' rfl⟩), if_neg (hne '\x60' rfl),
    if_neg (hne '-' rfl)]
  split
  · rfl
  next hd => rw [if_pos (hstart hd)]

theorem tokenAt_minus (lib : TextLib) (s : List Char) : tokenAt lib '-' s =
    if s.head?.any fun d => isDigit d || d = '.' then numeric lib '-' s
    else .error (.unexpected '-') := rfl

/-- **A number is read back.** -/
theorem reads_number (lib : TextLib) (n : Int64) :
    Reads lib (displayValue lib (.number n)) (.int n) := by
  intro d rest hd
  have hparse := parseI64_displayInt n
  rw [displayValue]
  unfold displayInt at hparse ⊢
  split
  next hneg =>
    rw [if_pos hneg] at hparse
    obtain ⟨c, s, hcs⟩ := exists_cons_of_ne_nil (displayNat_ne_nil n.toInt.natAbs)
    have hdig (c' : Char) (hc' : c' ∈ displayNat n.toInt.natAbs) := isDigit_of_mem_displayNat hc'
    rw [cons_append, scanToken_of_ne_blank (by decide)]
    have hhead : ((displayNat n.toInt.natAbs ++ d :: rest).head?.any
        fun d => isDigit d || d = '.') = true := by
      simp [hcs, hdig c (by simp [hcs])]
    rw [tokenAt_minus, if_pos hhead]
    exact numeric_of_parseI64 hdig hd hparse
  next hpos =>
    rw [if_neg hpos] at hparse
    obtain ⟨c, s, hcs⟩ := exists_cons_of_ne_nil (displayNat_ne_nil n.toInt.natAbs)
    have hdig (c' : Char) (hc' : c' ∈ displayNat n.toInt.natAbs) := isDigit_of_mem_displayNat hc'
    rw [hcs] at hparse hdig ⊢
    have hc := hdig c mem_cons_self
    have hident : isIdent c = true := by simp [isIdent, hc]
    rw [cons_append, scanToken_of_isSym (by simp [isSymChar, hident]), tokenAt_isIdent hident,
      if_pos hc]
    exact numeric_of_parseI64 (fun c' hc' => hdig c' (mem_cons_of_mem _ hc')) hd hparse

/-! ## Strings are read back, if they are plain -/

/-- The characters of ASCII that both sides print and read, the double quote apart. -/
def IsPlainAscii (c : Char) : Prop :=
  c ≠ '"' ∧ (32 ≤ c.toNat ∧ c.toNat < 127 ∨ c = '\n' ∨ c = '\t' ∨ c = '\r')

instance (c : Char) : Decidable (IsPlainAscii c) := inferInstanceAs (Decidable (_ ∧ _))

/-- The string needs no escapes; or it is of ASCII characters, and its escapes are backslashes,
line breaks, carriage returns and tabs. -/
def PlainString (lib : TextLib) (s : String) : Prop :=
  (∀ c ∈ s.toList, debugChar lib c = [c]) ∨ ∀ c ∈ s.toList, IsPlainAscii c

theorem IsPlainAscii.toNat_lt (h : IsPlainAscii c) : c.toNat < 128 := by
  obtain ⟨-, ⟨-, h⟩ | rfl | rfl | rfl⟩ := h
  · omega
  all_goals decide

/-- A plain character is printed as it is, or as an escape that `unquote` knows. -/
theorem debugChar_plainAscii (lib : TextLib) (h : IsPlainAscii c) :
    (debugChar lib c = [c] ∧ isSpecial false c = false) ∨
      ∃ e, debugChar lib c = ['\\', e] ∧ unesc e = some (asByte c) ∧ e ≠ '"' := by
  obtain ⟨hq, ⟨hlo, hhi⟩ | rfl | rfl | rfl⟩ := h
  · by_cases hb : c = '\\'
    · subst hb
      exact .inr ⟨'\\', rfl, rfl, by decide⟩
    · refine .inl ⟨?_, ?_⟩
      · have hprint : lib.isPrintable c = true := by
          rw [lib.isPrintable_ascii c (by omega)]
          exact decide_eq_true ⟨hlo, hhi⟩
        unfold debugChar
        split <;> first | rw [if_pos hprint] | (exfalso; revert hlo hb hq; decide)
      · have hr : c ≠ '\r' := by
          rintro rfl
          exact absurd hlo (by decide)
        simp [isSpecial, hr, hb]
  · exact .inr ⟨'n', rfl, rfl, by decide⟩
  · exact .inr ⟨'t', rfl, rfl, by decide⟩
  · exact .inr ⟨'r', rfl, rfl, by decide⟩

/-- A text without escapes is printed as it is. -/
theorem flatMap_debugChar (h : ∀ c ∈ s, debugChar lib c = [c]) :
    s.flatMap (debugChar lib) = s := by
  rw [flatMap_congr h, flatMap_singleton']

theorem isSpecial_of_debugChar (h : debugChar lib c = [c]) :
    isSpecial false c = false ∧ c ≠ '"' := by
  refine ⟨?_, by rintro rfl; cases h⟩
  have h1 : c ≠ '\\' := by rintro rfl; cases h
  have h2 : c ≠ '\r' := by rintro rfl; cases h
  simp [isSpecial, h1, h2]

/-- The body of a plain string's literal holds no quote, and is decoded to the string. -/
theorem decodeBody_debug
    (h : (∀ c ∈ s, debugChar lib c = [c]) ∨ ∀ c ∈ s, IsPlainAscii c) :
    '"' ∉ s.flatMap (debugChar lib) ∧
      decodeBody false false (s.flatMap (debugChar lib)) = .ok (.string s) := by
  obtain hesc | hplain := h
  · have hspec : s.any (isSpecial false) = false :=
      any_eq_false.mpr fun c hc => by simp [(isSpecial_of_debugChar (hesc c hc)).1]
    rw [flatMap_debugChar hesc]
    refine ⟨fun hq => (isSpecial_of_debugChar (hesc _ hq)).2 rfl, ?_⟩
    rw [decodeBody, if_neg (by simp [hspec])]
    rfl
  · refine ⟨fun hq => ?_, decodeBody_escapes fun c hc => ⟨(hplain c hc).toNat_lt, ?_⟩⟩
    · obtain ⟨c, hc, hq⟩ := mem_flatMap.mp hq
      obtain ⟨hd, -⟩ | ⟨e, hd, -, he⟩ := debugChar_plainAscii lib (hplain c hc)
      · rw [hd, mem_singleton] at hq
        exact (hplain c hc).1 hq.symm
      · rw [hd] at hq
        simp [Ne.symm he] at hq
    · refine (debugChar_plainAscii lib (hplain c hc)).imp id ?_
      rintro ⟨e, hd, he, -⟩
      exact ⟨e, hd, he⟩

/-- **A plain string is read back.** -/
theorem reads_string {s : String} (h : PlainString lib s) :
    Reads lib (displayValue lib (.string s)) (.string s) := by
  intro d rest _
  obtain ⟨hq, hdec⟩ := decodeBody_debug h
  rw [displayValue, debugStr, cons_append, scanToken_of_ne_blank (by decide),
    append_assoc, singleton_append]
  change scanString '"' false _ = _
  rw [scanString, scanUntil_of_not_mem hq]
  simp only [Bool.false_eq_true, if_false, unquote_body fun h => hq (mem_of_head? h), hdec,
    String.ofList_toList]

end Mangle.Parse

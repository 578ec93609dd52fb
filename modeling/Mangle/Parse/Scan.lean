import Mangle.Parse.Quote

/-!
# Parse/Scan — the scanner

The scanner over the characters of a text: what a call reads is a prefix of the list it is given,
and it returns the token with the rest.  The two slots of lookahead are the first two characters of
that list.

`f64` parsing and printing and the table of printable characters belong to Rust's standard library;
`TextLib` stands for them.
-/

namespace Mangle.Parse

open Machinery List

/-- What the standard library does with the texts of floats and with printable characters. -/
structure TextLib where
  /-- `str::parse::<f64>`, to the bits of the result. -/
  parseF64 : List Char → Option UInt64
  /-- `Display for f64`. -/
  displayF64 : UInt64 → List Char
  /-- Whether `Debug for str` prints the character as it is, escapes of its own apart. -/
  isPrintable : Char → Bool
  /-- In ASCII these are the characters from the blank to the tilde. -/
  isPrintable_ascii : ∀ c : Char, c.toNat < 128 →
    isPrintable c = decide (32 ≤ c.toNat ∧ c.toNat < 127)

/-- A library that knows no floats and prints ASCII. -/
def TextLib.bare : TextLib where
  parseF64 _ := none
  displayF64 _ := []
  isPrintable c := 32 ≤ c.toNat ∧ c.toNat < 127
  isPrintable_ascii _ _ := rfl

/-- The tokens of the source text. -/
inductive Token where
  | illegal
  | eof
  | name (name : String)
  | dotIdent (name : String)
  | ident (name : String)
  | int (decoded : Int64)
  | float (decoded : UInt64)
  | string (decoded : String)
  | bytes (decoded : List UInt8)
  | timestamp (nanos : Int64)
  | duration (nanos : Int64)
  | semi
  | package
  | decl
  | use
  | bound
  | descr
  | inclusion
  | letKw
  | doKw
  | lparen
  | rparen
  | lbracket
  | rbracket
  | lbrace
  | rbrace
  | colon
  | colonDash
  | eq
  | bang
  | bangEq
  | comma
  | lt
  | le
  | gt
  | ge
  | pipe
  | pipeGt
  | dot
  | at
  | longLeftDoubleArrow
  deriving DecidableEq, Repr, Inhabited

/-- Why a text is not scanned. -/
inductive ScanError where
  | unexpected (c : Char)
  | nameExpectsChar
  | unterminatedBacktick
  | quote (e : QuoteError)
  | invalidFloat
  | invalidInt
  | expectedDigit
  | expectedChar (c : Char)
  | expectedFraction
  | durationOverflow
  deriving DecidableEq, Repr

/-! ## Character classes -/

/-- `'0'..='9'`. -/
def isDigit (c : Char) : Bool := '0' ≤ c && c ≤ '9'

/-- `'A'..='Z'`. -/
def isUpper (c : Char) : Bool := 'A' ≤ c && c ≤ 'Z'

/-- `'a'..='z'`. -/
def isLower (c : Char) : Bool := 'a' ≤ c && c ≤ 'z'

/-- `is_ident_start`. -/
def isIdentStart (c : Char) : Bool := isLower c || isUpper c || c = '_'

/-- `is_ident`. -/
def isIdent (c : Char) : Bool := isLower c || isUpper c || isDigit c || c = '_'

/-- `is_name_char`. -/
def isNameChar (c : Char) : Bool :=
  isLower c || isUpper c || isDigit c || c = '_' || c = '~' || c = '.' || c = '%'

/-! ## Integers -/

/-- The number a list of decimal digits stands for. -/
def decimal (s : List Char) : Option Nat :=
  if s = [] then none else s.foldlM (fun n c => (toDigit 10 c).map (10 * n + ·)) 0

/-- Whether a text starts with a minus sign, and the text without its sign. -/
def splitSign : List Char → Bool × List Char
  | '-' :: s => (true, s)
  | '+' :: s => (false, s)
  | s => (false, s)

/-- An integer as an `i64`, if it is one. -/
def checkedI64 (z : Int) : Option Int64 :=
  if -2 ^ 63 ≤ z ∧ z < 2 ^ 63 then some (Int64.ofInt z) else none

/-- `str::parse::<i64>`. -/
def parseI64 (s : List Char) : Option Int64 := do
  let n ← decimal (splitSign s).2
  checkedI64 (if (splitSign s).1 then -n else n)

/-- `i64::checked_mul` by a positive constant. -/
def checkedMul (a : Int64) (b : Int) : Option Int64 := checkedI64 (a.toInt * b)

/-! ## Blanks and comments -/

/-- `next_char_skip` and `skip_line`: the text from the first character outside blanks and
comments. -/
def skipBlank (inComment : Bool) : List Char → List Char
  | [] => []
  | c :: s =>
    if inComment then skipBlank (c ≠ '\n') s
    else if c = ' ' ∨ c = '\t' ∨ c = '\n' then skipBlank false s
    else if c = '#' then skipBlank true s
    else c :: s

/-! ## Words -/

/-- `name`, after the first slash. -/
def scanName (seenChar : Bool) : List Char → Except ScanError (List Char × List Char)
  | [] => if seenChar then .ok ([], []) else .error .nameExpectsChar
  | c :: s =>
    if isNameChar c then do
      let (text, rest) ← scanName true s
      pure (c :: text, rest)
    else if c = '/' then
      if seenChar then do
        let (text, rest) ← scanName false s
        pure ('/' :: text, rest)
      else .error .nameExpectsChar
    else if seenChar then .ok ([], c :: s)
    else .error .nameExpectsChar

/-- `builtin_predicate`, after the first colon. -/
def builtinPredicate (s : List Char) : Token × List Char :=
  let more := fun c => isIdent c || c = ':'
  (.ident (String.ofList (':' :: s.takeWhile more)), s.dropWhile more)

/-- The loop of `ident_or_dot_ident`: a colon belongs to the word after `fn`. -/
def identLoop (text : List Char) : List Char → List Char × List Char
  | [] => (text, [])
  | c :: s =>
    if isIdent c then identLoop (text ++ [c]) s
    else if c = ':' ∧ (['f', 'n', ':'].isPrefixOf text ∨ text = ['f', 'n'])
        ∧ text.getLast? ≠ some ':' then
      identLoop (text ++ [':']) s
    else (text, c :: s)

/-- The token of a word. -/
def wordToken (dotIdent : Bool) (text : String) : Token :=
  if text = "Package" then .package
  else if text = "Use" then .use
  else if text = "Decl" then .decl
  else if text = "bound" then .bound
  else if text = "inclusion" then .inclusion
  else if text = "do" then .doKw
  else if text = "descr" then .descr
  else if text = "let" then .letKw
  else if dotIdent then .dotIdent ("fn:" ++ text)
  else .ident text

/-- `ident_or_dot_ident`. -/
def identOrDotIdent (first : Char) (dotIdent : Bool) (s : List Char) : Token × List Char :=
  let (text, rest) := identLoop [first] s
  (wordToken dotIdent (String.ofList text), rest)

/-! ## String literals -/

/-- The text up to the next `delim` and what follows it; the end of the input closes it too. -/
def scanUntil (delim : Char) : List Char → List Char × List Char
  | [] => ([], [])
  | c :: s =>
    if c = delim then ([], s)
    else
      let (text, rest) := scanUntil delim s
      (c :: text, rest)

/-- `string`: the literal ends at the next `delim`, escaped or not. -/
def scanString (delim : Char) (isByte : Bool) (s : List Char) :
    Except ScanError (Token × List Char) :=
  let (body, rest) := scanUntil delim s
  let text := delim :: (body ++ [delim])
  match unquote (if isByte then 'b' :: text else text) with
  | .error e => .error (.quote e)
  | .ok (.string decoded) => .ok (.string (String.ofList decoded), rest)
  | .ok (.bytes decoded) => .ok (.bytes decoded, rest)

/-- `long_string`. -/
def longString (s : List Char) : Except ScanError (Token × List Char) :=
  if '\x60' ∈ s then
    let (text, rest) := scanUntil '\x60' s
    .ok (.string (String.ofList text), rest)
  else .error .unterminatedBacktick

/-! ## Numbers, times and durations -/

/-- `scan_n_digits`. -/
def scanNDigits : Nat → List Char → Except ScanError (List Char × List Char)
  | 0, s => .ok ([], s)
  | n + 1, c :: s =>
    if isDigit c then do
      let (text, rest) ← scanNDigits n s
      pure (c :: text, rest)
    else .error .expectedDigit
  | _ + 1, [] => .error .expectedDigit

/-- `expect_char`. -/
def expectChar (expected : Char) : List Char → Except ScanError (List Char)
  | c :: s => if c = expected then .ok s else .error (.expectedChar expected)
  | [] => .error (.expectedChar expected)

/-- The parts of a timestamp literal. -/
structure Timestamp where
  year : List Char
  month : List Char
  day : List Char
  time : Option (List Char × List Char × List Char)
  frac : List Char

/-- The days from the epoch to a date, by Hinnant's algorithm. -/
def daysFromCivil (year : Int64) (month day : UInt32) : Int64 :=
  let y := if month ≤ 2 then year - 1 else year
  let era := (if 0 ≤ y then y else y - 399) / 400
  let yoe := (y - era * 400).toBitVec.setWidth 32
  let yoe : UInt32 := ⟨yoe⟩
  let mAdj := if month > 2 then month - 3 else month + 9
  let doy := (153 * mAdj + 2) / 5 + day - 1
  let doe := yoe * 365 + yoe / 4 - yoe / 100 + doy
  era * 146097 + Int64.ofNat doe.toNat - 719468

/-- `str::parse::<u32>` on at most nine digits. -/
def parseU32 (s : List Char) : Option UInt32 := (decimal s).map UInt32.ofNat

/-- `parse_timestamp_to_nanos`.  Like every `i64` operation of a release build these wrap. -/
def parseTimestampToNanos (t : Timestamp) : Except ScanError Int64 := do
  let num := fun s => match parseU32 s with
    | some n => .ok n
    | none => .error ScanError.invalidInt
  let year ← num t.year
  let month ← num t.month
  let day ← num t.day
  let (hour, minute, second, frac) ← match t.time with
    | none => pure (0, 0, 0, 0)
    | some (h, m, sec) => do
      let frac ← if t.frac = [] then pure 0
        else num ((t.frac ++ List.replicate (9 - t.frac.length) '0').take 9)
      pure (← num h, ← num m, ← num sec, frac)
  let days := daysFromCivil (Int64.ofNat year.toNat) month day
  let wide := fun n : UInt32 => Int64.ofNat n.toNat
  let totalSeconds := days * 86400 + wide hour * 3600 + wide minute * 60 + wide second
  pure (totalSeconds * 1000000000 + wide frac)

/-- The fraction of a second. -/
def scanFraction : List Char → Except ScanError (List Char × List Char)
  | '.' :: s =>
    if s.takeWhile isDigit = [] then .error .expectedFraction
    else .ok (s.takeWhile isDigit, s.dropWhile isDigit)
  | s => .ok ([], s)

/-- The optional `Z`. -/
def skipZ : List Char → List Char
  | 'Z' :: s => s
  | s => s

/-- The time of day and the fraction of a timestamp, after the `T`. -/
def scanTime (s : List Char) :
    Except ScanError (((List Char × List Char × List Char) × List Char) × List Char) := do
  let (hour, s) ← scanNDigits 2 s
  let s ← expectChar ':' s
  let (minute, s) ← scanNDigits 2 s
  let s ← expectChar ':' s
  let (second, s) ← scanNDigits 2 s
  let (frac, s) ← scanFraction s
  pure (((hour, minute, second), frac), skipZ s)

/-- `timestamp`, after the four digits of the year. -/
def scanTimestamp (year : List Char) (s : List Char) : Except ScanError (Token × List Char) := do
  let s ← expectChar '-' s
  let (month, s) ← scanNDigits 2 s
  let s ← expectChar '-' s
  let (day, s) ← scanNDigits 2 s
  match s with
  | 'T' :: s => do
    let ((time, frac), s) ← scanTime s
    pure (.timestamp (← parseTimestampToNanos ⟨year, month, day, some time, frac⟩), s)
  | s => do pure (.timestamp (← parseTimestampToNanos ⟨year, month, day, none, []⟩), s)

/-- `duration_literal`: the nanoseconds of the unit that starts with `suffix`, and the rest. -/
def durationUnit (suffix : Char) (s : List Char) : Int × List Char :=
  if suffix = 'm' then
    match s with
    | 's' :: s => (1000000, s)
    | s => (60 * 1000000000, s)
  else if suffix = 'd' then (24 * 60 * 60 * 1000000000, s)
  else if suffix = 'h' then (60 * 60 * 1000000000, s)
  else (1000000000, s)

/-- `duration_literal`. -/
def durationLiteral (text : List Char) (suffix : Char) (s : List Char) :
    Except ScanError (Token × List Char) :=
  let (unit, rest) := durationUnit suffix s
  match parseI64 text with
  | none => .error .invalidInt
  | some amount =>
    match checkedMul amount unit with
    | none => .error .durationOverflow
    | some nanos => .ok (.duration nanos, rest)

/-- The digits of a number and whether a fraction was among them: a dot belongs to the number only
in front of a digit. -/
def numericLoop : List Char → List Char × Bool × List Char
  | [] => ([], false, [])
  | c :: s =>
    if isDigit c then
      let (text, isFloat, rest) := numericLoop s
      (c :: text, isFloat, rest)
    else if c = '.' ∧ s.head?.any isDigit then
      let (text, _, rest) := numericLoop s
      ('.' :: text, true, rest)
    else ([], false, c :: s)

/-- `numeric`. -/
def numeric (lib : TextLib) (first : Char) (s : List Char) : Except ScanError (Token × List Char) :=
  let (more, isFloat, rest) := numericLoop s
  let text := first :: more
  if !isFloat && text.length = 4 && first ≠ '-' && rest.head? = some '-' then
    scanTimestamp text rest
  else match rest with
    | c :: s =>
      if !isFloat && first ≠ '-' && (c = 'd' || c = 'h' || c = 'm' || c = 's') then
        durationLiteral text c s
      else number isFloat text rest
    | [] => number isFloat text rest
where
  /-- The token of a plain number. -/
  number (isFloat : Bool) (text rest : List Char) : Except ScanError (Token × List Char) :=
    if isFloat then
      match lib.parseF64 text with
      | none => .error .invalidFloat
      | some bits => .ok (.float bits, rest)
    else match parseI64 text with
      | none => .error .invalidInt
      | some n => .ok (.int n, rest)

/-! ## Tokens -/

/-- The tokens of one character. -/
def singleToken : Char → Option Token
  | '=' => some .eq
  | ';' => some .semi
  | ',' => some .comma
  | '(' => some .lparen
  | ')' => some .rparen
  | '{' => some .lbrace
  | '}' => some .rbrace
  | '[' => some .lbracket
  | ']' => some .rbracket
  | '≤' => some .le
  | '≥' => some .ge
  | '@' => some .at
  | '⟸' => some .longLeftDoubleArrow
  | _ => none

/-- The characters that make another token with the one behind them: that one, the token of both
and the token of the first alone. -/
def doubleToken : Char → Option (Char × Token × Token)
  | '!' => some ('=', .bangEq, .bang)
  | '<' => some ('=', .le, .lt)
  | '>' => some ('=', .ge, .gt)
  | '|' => some ('>', .pipeGt, .pipe)
  | _ => none

/-- The token at a colon. -/
def colonToken (s : List Char) : Token × List Char :=
  if s.head? = some '-' then (.colonDash, s.tail)
  else if s.head?.any isIdentStart then builtinPredicate s
  else (.colon, s)

/-- The token at a dot. -/
def dotToken : List Char → Token × List Char
  | [] => (.dot, [])
  | d :: s => if isUpper d then identOrDotIdent d true s else (.dot, d :: s)

/-- The token at a letter or underscore: `b` in front of a quote starts a byte string. -/
def wordAt (c : Char) : List Char → Except ScanError (Token × List Char)
  | [] => .ok (identOrDotIdent c false [])
  | d :: s =>
    if c = 'b' ∧ (d = '\'' ∨ d = '"') then scanString d true s
    else .ok (identOrDotIdent c false (d :: s))

/-- The token at a character that is neither blank nor the start of a comment. -/
def tokenAt (lib : TextLib) (c : Char) (s : List Char) : Except ScanError (Token × List Char) :=
  match singleToken c, doubleToken c with
  | some t, _ => .ok (t, s)
  | none, some (d, both, alone) =>
    if s.head? = some d then .ok (both, s.tail) else .ok (alone, s)
  | none, none =>
    if c = ':' then .ok (colonToken s)
    else if c = '.' then .ok (dotToken s)
    else if c = '/' then do
      let (text, rest) ← scanName false s
      pure (.name (String.ofList ('/' :: text)), rest)
    else if c = '\'' ∨ c = '"' then scanString c false s
    else if c = '\x60' then longString s
    else if isDigit c then numeric lib c s
    else if c = '-' then
      if s.head?.any fun d => isDigit d || d = '.' then numeric lib '-' s
      else .error (.unexpected '-')
    else if isIdentStart c then wordAt c s
    else .error (.unexpected c)

/-- `next_token`. -/
def scanToken (lib : TextLib) (s : List Char) : Except ScanError (Token × List Char) :=
  match skipBlank false s with
  | [] => .ok (.eof, [])
  | c :: s => tokenAt lib c s

/-! ## What a call leaves is the end of the text -/

/-- What the call leaves is the end of `s`. -/
def Leaves {ε α : Type} (s : List Char) (x : Except ε (α × List Char)) : Prop :=
  ∀ a rest, x = .ok (a, rest) → rest <:+ s

namespace Leaves

variable {ε α β : Type} {s : List Char}

theorem ok {p : α × List Char} (h : p.2 <:+ s) : Leaves (ε := ε) s (.ok p) := by
  intro _ _ heq
  cases heq
  exact h

theorem error {e : ε} : Leaves (α := α) s (.error e) := fun _ _ h => by cases h

variable {x : Except ε (α × List Char)}

theorem bind {f : α × List Char → Except ε (β × List Char)}
    (hx : Leaves s x) (hf : ∀ a rest, rest <:+ s → Leaves s (f (a, rest))) :
    Leaves s (x >>= f) := by
  intro b rest h
  obtain ⟨⟨a, mid⟩, h1, h2⟩ := bind_eq_ok.mp h
  exact hf a mid (hx a mid h1) b rest h2

/-- A step that reads nothing. -/
theorem of_rest {x : Except ε α} {f : α → β} {rest : List Char} (h : rest <:+ s) :
    Leaves s (do pure (f (← x), rest)) := by
  intro b rest' heq
  obtain ⟨a, -, h2⟩ := bind_eq_ok.mp heq
  cases h2
  exact h

theorem mono {s' : List Char} (h : Leaves s x) (hs : s <:+ s') :
    Leaves s' x := fun a rest heq => (h a rest heq).trans hs

theorem cons {c : Char} (h : Leaves s x) : Leaves (c :: s) x :=
  h.mono (suffix_cons c s)

end Leaves

variable {lib : TextLib} {s text : List Char} {c : Char} {b : Bool}

theorem skipBlank_suffix : skipBlank b s <:+ s := by
  fun_induction skipBlank b s with
  | case1 => exact suffix_rfl
  | case2 c s ih => exact ih.trans (suffix_cons c s)
  | case3 b c s _ _ ih => exact ih.trans (suffix_cons c s)
  | case4 b s _ _ ih => exact ih.trans (suffix_cons _ s)
  | case5 => exact suffix_rfl

theorem scanName_leaves : Leaves s (scanName b s) := by
  induction s generalizing b with
  | nil =>
    rw [scanName]
    split
    · exact .ok suffix_rfl
    · exact .error
  | cons c s ih =>
    have hrest (b : Bool) (d : Char) : Leaves (c :: s) (do
        let (text, rest) ← scanName b s
        pure (d :: text, rest)) :=
      ih.cons.bind fun _ _ h => .ok h
    rw [scanName]
    split
    · exact hrest true c
    · split
      · split
        · exact hrest false '/'
        · exact .error
      · split
        · exact .ok suffix_rfl
        · exact .error

theorem identLoop_suffix : (identLoop text s).2 <:+ s := by
  fun_induction identLoop text s with
  | case1 => exact suffix_rfl
  | case2 text c s _ ih => exact ih.trans (suffix_cons c s)
  | case3 text c s _ _ ih => exact ih.trans (suffix_cons _ s)
  | case4 => exact suffix_rfl

theorem scanUntil_suffix : (scanUntil c s).2 <:+ s := by
  induction s with
  | nil => exact suffix_rfl
  | cons d s ih =>
    rw [scanUntil]
    split
    · exact suffix_cons d s
    · exact ih.trans (suffix_cons d s)

theorem numericLoop_suffix : (numericLoop s).2.2 <:+ s := by
  induction s with
  | nil => exact suffix_rfl
  | cons c s ih =>
    rw [numericLoop]
    split
    · exact ih.trans (suffix_cons c s)
    · split
      · exact ih.trans (suffix_cons c s)
      · exact suffix_rfl

theorem scanUntil_of_not_mem (h : c ∉ s) (rest : List Char) :
    scanUntil c (s ++ c :: rest) = (s, rest) := by
  induction s with
  | nil => simp [scanUntil]
  | cons d s ih =>
    obtain ⟨hc, hs⟩ := not_or.mp (mem_cons.not.mp h)
    rw [cons_append, scanUntil, if_neg (Ne.symm hc), ih hs]

theorem scanString_leaves : Leaves s (scanString c b s) := by
  have hs := @scanUntil_suffix s c
  rw [scanString]
  split
  next body rest heq =>
    rw [heq] at hs
    dsimp only
    split
    · exact .error
    · exact .ok hs
    · exact .ok hs

theorem longString_leaves : Leaves s (longString s) := by
  rw [longString]
  split
  · exact .ok scanUntil_suffix
  · exact .error

theorem scanNDigits_leaves {n : Nat} : Leaves s (scanNDigits n s) := by
  fun_induction scanNDigits n s with
  | case1 s => exact .ok suffix_rfl
  | case2 n c s _ ih => exact ih.cons.bind fun _ _ h => .ok h
  | case3 => exact .error
  | case4 => exact .error

theorem expectChar_suffix {rest : List Char} (h : expectChar c s = .ok rest) :
    rest <:+ s := by
  unfold expectChar at h
  split at h
  · split at h
    · cases h
      exact suffix_cons _ _
    · cases h
  · cases h

/-- A step that only moves on keeps what the rest leaves. -/
theorem Leaves.expectChar {α : Type} {f : List Char → Except ScanError (α × List Char)}
    (hf : ∀ rest, rest <:+ s → Leaves s (f rest)) : Leaves s (Parse.expectChar c s >>= f) := by
  intro a rest h
  obtain ⟨mid, h1, h2⟩ := bind_eq_ok.mp h
  exact hf mid (expectChar_suffix h1) a rest h2

theorem Leaves.scanNDigits {α : Type} {n : Nat}
    {f : List Char × List Char → Except ScanError (α × List Char)}
    (hf : ∀ text rest, rest <:+ s → Leaves s (f (text, rest))) :
    Leaves s (Parse.scanNDigits n s >>= f) := scanNDigits_leaves.bind hf

theorem scanFraction_leaves : Leaves s (scanFraction s) := by
  unfold scanFraction
  split
  · split
    · exact .error
    · exact .ok ((dropWhile_suffix _).trans (suffix_cons _ _))
  · exact .ok suffix_rfl

theorem skipZ_suffix : skipZ s <:+ s := by
  unfold skipZ
  split
  · exact suffix_cons _ _
  · exact suffix_rfl

theorem durationUnit_suffix : (durationUnit c s).2 <:+ s := by
  unfold durationUnit
  split
  · split
    · exact suffix_cons _ _
    · exact suffix_rfl
  · split
    · exact suffix_rfl
    · split <;> exact suffix_rfl

theorem scanTime_leaves : Leaves s (scanTime s) := by
  unfold scanTime
  refine .scanNDigits fun _ s1 h1 => .mono (.expectChar fun s2 h2 => ?_) h1
  refine .mono (.scanNDigits fun _ s3 h3 => .mono (.expectChar fun s4 h4 => ?_) h3) h2
  refine .mono (.scanNDigits fun _ s5 h5 => ?_) h4
  exact .mono (scanFraction_leaves.bind fun _ _ h6 => .ok (skipZ_suffix.trans h6)) h5

theorem scanTimestamp_leaves : Leaves s (scanTimestamp text s) := by
  unfold scanTimestamp
  refine .expectChar fun s1 h1 => .mono (.scanNDigits fun _ s2 h2 => ?_) h1
  refine .mono (.expectChar fun s3 h3 => .mono (.scanNDigits fun _ s4 h4 => ?_) h3) h2
  refine .mono (s := s4) ?_ h4
  dsimp only
  split
  · refine .cons (scanTime_leaves.bind fun _ _ h => ?_)
    exact .of_rest h
  · exact .of_rest suffix_rfl

theorem durationLiteral_leaves : Leaves s (durationLiteral text c s) := by
  have hs := @durationUnit_suffix s c
  rw [durationLiteral]
  split
  next unit rest heq =>
    rw [heq] at hs
    split
    · exact .error
    · split
      · exact .error
      · exact .ok hs

theorem number_leaves : Leaves s (numeric.number lib b text s) := by
  unfold numeric.number
  split
  · split
    · exact .error
    · exact .ok suffix_rfl
  · split
    · exact .error
    · exact .ok suffix_rfl

theorem numeric_leaves : Leaves s (numeric lib c s) := by
  have hs := @numericLoop_suffix s
  rw [numeric]
  split
  next more isFloat rest heq =>
    rw [heq] at hs
    refine .mono ?_ hs
    dsimp only
    split
    · exact scanTimestamp_leaves
    · split
      · split
        · exact durationLiteral_leaves.cons
        · exact number_leaves
      · exact number_leaves

theorem identOrDotIdent_suffix : (identOrDotIdent c b s).2 <:+ s := identLoop_suffix

theorem builtinPredicate_suffix : (builtinPredicate s).2 <:+ s :=
  dropWhile_suffix _

theorem colonToken_suffix : (colonToken s).2 <:+ s := by
  unfold colonToken
  split
  · exact tail_suffix s
  · split
    · exact builtinPredicate_suffix
    · exact suffix_rfl

theorem dotToken_suffix : (dotToken s).2 <:+ s := by
  unfold dotToken
  split
  · exact suffix_rfl
  · split
    · exact identOrDotIdent_suffix.trans (suffix_cons _ _)
    · exact suffix_rfl

theorem wordAt_leaves : Leaves s (wordAt c s) := by
  unfold wordAt
  split
  · exact .ok identOrDotIdent_suffix
  · split
    · exact scanString_leaves.cons
    · exact .ok identOrDotIdent_suffix

/-- **A token leaves the end of the text behind it.** -/
theorem tokenAt_leaves : Leaves s (tokenAt lib c s) := by
  unfold tokenAt
  split
  · exact .ok suffix_rfl
  · split
    · exact .ok (tail_suffix s)
    · exact .ok suffix_rfl
  · split_ifs
    · exact .ok colonToken_suffix
    · exact .ok dotToken_suffix
    · exact scanName_leaves.bind fun _ _ h => .ok h
    · exact scanString_leaves
    · exact longString_leaves
    · exact numeric_leaves
    · exact numeric_leaves
    · exact .error
    · exact wordAt_leaves
    · exact .error

theorem scanToken_leaves : Leaves s (scanToken lib s) := by
  have hs := @skipBlank_suffix s false
  rw [scanToken]
  split
  · exact .ok nil_suffix
  next c s' heq =>
    rw [heq] at hs
    exact tokenAt_leaves.cons.mono hs

end Mangle.Parse

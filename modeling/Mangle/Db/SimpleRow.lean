import Mangle.Machinery.HashMap
import Mangle.Machinery.Text
import Mangle.Parse.Fact

/-!
# Db/SimpleRow — the file format of facts

`simplerow.rs`: a header line with the number of predicates, a line with name, arity and number of
facts for each of them, then the facts of all predicates, one a line, in the syntax of the language.

A file is a text (`TextFile`); one that was cut may end inside a character, and reading the line it
is in fails.  What the reader gives back for a term is a number, a string or a name; the name is the
decimal index that the interner gave it (`AstDebug`).

* `readSimpleRow_write` — **what is written is read**, value by value: if every value's text is one
  token, the reader returns the relations with what the tokens stand for;
* `simplerow_survives_iff` — relations of plain strings and other values are read back as they were
  written exactly when the other values are numbers.
-/

namespace Mangle

open Machinery Parse List

variable {c : Char} {n : Nat} {name : String} {tables : List (String × List Tuple)}
  {g : Value → Value}

/-! ## Reading -/

/-- The text of a file, and whether the file ends inside a character. -/
structure TextFile where
  text : List Char
  torn : Bool := false
  deriving DecidableEq

/-- The errors of `read_simple_row`. -/
inductive RowError where
  /-- `stream did not contain valid UTF-8` -/
  | invalidData
  /-- `parsing num_preds` -/
  | numPreds
  /-- `Invalid predicate header: {line}` -/
  | invalidHeader (line : List Char)
  /-- `parsing arity` -/
  | arity
  /-- `parsing num_facts` -/
  | numFacts
  /-- `Unexpected EOF reading facts for {name}` -/
  | unexpectedEof (name : String)
  /-- The error of the parser. -/
  | parse (e : ParseError)
  deriving DecidableEq

/-- What the texts of terms depend on outside the program: the interner's index of a name, and
`Debug` of a term. -/
structure AstDebug where
  nameIndex : String → UInt32
  debugTerm : Term → String

/-- `struct PredInfo`. -/
structure PredInfo where
  name : String
  arity : Nat
  numFacts : Nat

/-- `SimpleRowData::tables`. -/
abbrev RowTables := HashMap String (List Tuple)

/-- The digits behind an optional plus sign. -/
def stripPlus : List Char → List Char
  | '+' :: s => s
  | s => s

/-- `str::parse::<usize>`. -/
def parseUsize (s : List Char) : Option Nat := (decimal (stripPlus s)).filter (· < 2 ^ 64)

/-- `BufRead::read_line` into an empty buffer. -/
def TextFile.readLine (f : TextFile) : Except RowError (List Char × TextFile) :=
  let (line, rest) := Machinery.readLine f.text
  if f.torn ∧ line.getLast? ≠ some '\n' then .error .invalidData
  else .ok (line, { f with text := rest })

/-- One predicate header. -/
def readHeader (f : TextFile) : Except RowError (PredInfo × TextFile) := do
  let (line, f) ← f.readLine
  match splitWhitespace line with
  | [name, arity, numFacts] => do
    let arity ← (parseUsize arity).elim (.error .arity) .ok
    let numFacts ← (parseUsize numFacts).elim (.error .numFacts) .ok
    pure (⟨String.ofList name, arity, numFacts⟩, f)
  | _ => .error (.invalidHeader line)

/-- The loop over the predicate headers. -/
def readHeaders : Nat → TextFile → Except RowError (List PredInfo × TextFile)
  | 0, f => .ok ([], f)
  | n + 1, f => do
    let (info, f) ← readHeader f
    let (infos, f) ← readHeaders n f
    pure (info :: infos, f)

/-- The loop over facts without arguments: their lines are skipped. -/
def readFlags : Nat → TextFile → Except RowError (List Tuple × TextFile)
  | 0, f => .ok ([], f)
  | n + 1, f => do
    let (_, f) ← f.readLine
    let (facts, f) ← readFlags n f
    pure ([] :: facts, f)

section Reader

variable (lib : TextLib) (dbg : AstDebug)

/-- `term_to_value`. -/
def termToValue : Term → Value
  | .number n => .number n
  | .string s => .string s
  | .name n => .name (String.ofList (displayNat (dbg.nameIndex n).toNat))
  | t => .string (dbg.debugTerm t)

/-- The tuple of a line. -/
def readFact (text : List Char) : Except RowError Tuple :=
  match runParser lib parseClause text with
  | .ok clause => .ok (clause.head.args.map (termToValue dbg))
  | .error e => .error (.parse e)

/-- The loop over the facts of a predicate; an empty line counts, and gives no fact. -/
def readFacts (name : String) : Nat → TextFile → Except RowError (List Tuple × TextFile)
  | 0, f => .ok ([], f)
  | n + 1, f => do
    let (line, f) ← f.readLine
    if line = [] then .error (.unexpectedEof name)
    else if trim line = [] then readFacts name n f
    else do
      let fact ← readFact lib dbg (trim line)
      let (facts, f) ← readFacts name n f
      pure (fact :: facts, f)

/-- The facts of a predicate. -/
def readTable (info : PredInfo) (f : TextFile) : Except RowError (List Tuple × TextFile) :=
  if info.arity = 0 then readFlags info.numFacts f
  else readFacts lib dbg info.name info.numFacts f

/-- The loop over the predicates. -/
def readTables : List PredInfo → RowTables → TextFile → Except RowError RowTables
  | [], tables, _ => .ok tables
  | info :: infos, tables, f => do
    let (facts, f) ← readTable lib dbg info f
    readTables infos (tables.insert info.name facts) f

/-- `read_simple_row`. -/
def readSimpleRow (f : TextFile) : Except RowError RowTables := do
  let (line, f) ← f.readLine
  let numPreds ← (parseUsize (trim line)).elim (.error .numPreds) .ok
  let (infos, f) ← readHeaders numPreds f
  readTables lib dbg infos ∅ f

end Reader

/-! ## Writing -/

variable {f : TextFile}

section Writer

variable (lib : TextLib)

/-- The arity of the first row. -/
def rowArity (facts : List Tuple) : Nat := facts.head?.elim 0 List.length

/-- Name, arity and number of facts of a predicate. -/
def headerText (name : String) (facts : List Tuple) : List Char :=
  name.toList ++ ' ' :: (displayNat (rowArity facts) ++ ' ' :: displayNat facts.length)

/-- The header line of a predicate. -/
def headerLine (name : String) (facts : List Tuple) : List Char := headerText name facts ++ ['\n']

/-- The line of a fact. -/
def factLine (name : String) (tuple : Tuple) : List Char :=
  factText name (tuple.map (displayValue lib)) ++ ['\n']

/-- `write_simple_row`. -/
def writeSimpleRow (tables : List (String × List Tuple)) : List Char :=
  displayNat tables.length ++ '\n' ::
    (tables.flatMap (fun t => headerLine t.1 t.2) ++
      tables.flatMap fun t => t.2.flatMap (factLine lib t.1))

end Writer

/-! ## Reading what was written -/

theorem TextFile.readLine_line {line : List Char} (h : '\n' ∉ line) (rest : List Char)
    (torn : Bool) :
    TextFile.readLine ⟨line ++ '\n' :: rest, torn⟩ = .ok (line ++ ['\n'], ⟨rest, torn⟩) := by
  simp [TextFile.readLine, Machinery.readLine_line h]

/-- The characters of names lie between the dot and the letter z. -/
theorem bounds_of_isSymChar (h : isSymChar c = true) : 46 ≤ c.toNat ∧ c.toNat ≤ 122 := by
  have hle (a b : Char) : a ≤ b ↔ a.toNat ≤ b.toNat := Iff.rfl
  simp only [isSymChar, isIdent, isLower, isUpper, isDigit, hle, Bool.or_eq_true, Bool.and_eq_true,
    decide_eq_true_eq, Char.reduceToNat] at h
  obtain (((⟨_, _⟩ | ⟨_, _⟩) | ⟨_, _⟩) | rfl | rfl) | rfl := h <;>
    first | omega | decide

theorem not_isWhitespace_of_isSymChar (h : isSymChar c = true) : isWhitespace c = false := by
  have hc := bounds_of_isSymChar h
  simp only [isWhitespace, Bool.or_eq_false_iff, Bool.and_eq_false_iff, decide_eq_false_iff_not]
  omega

theorem isSymChar_of_mem_displayNat (h : c ∈ displayNat n) : isSymChar c = true := by
  simp [isSymChar, isIdent, isDigit_of_mem_displayNat h]

theorem parseUsize_eq_ite (n : Nat) :
    parseUsize (displayNat n) = if n < 2 ^ 64 then some n else none := by
  have hplus : stripPlus (displayNat n) = displayNat n := by
    unfold stripPlus
    split
    next heq => cases isDigit_of_mem_displayNat (heq ▸ mem_cons_self)
    · rfl
  rw [parseUsize, hplus, decimal_displayNat, Option.filter_some]
  simp only [decide_eq_true_eq]

theorem parseUsize_displayNat (h : n < 2 ^ 64) : parseUsize (displayNat n) = some n := by
  rw [parseUsize_eq_ite, if_pos h]

/-- A line of name characters is trimmed of its line break. -/
theorem trim_symLine {s : List Char} (hne : s ≠ []) (hs : ∀ c ∈ s, isSymChar c = true) :
    trim (s ++ ['\n']) = s := by
  obtain ⟨c, s, rfl⟩ := exists_cons_of_ne_nil hne
  have hlast := List.getLast?_eq_some_getLast (l := c :: s) (by simp)
  exact trim_line (not_isWhitespace_of_isSymChar (hs c mem_cons_self))
    (not_isWhitespace_of_isSymChar (hs _ (getLast_mem _))) hlast

theorem newline_notMem_sym {s : List Char} (hs : ∀ c ∈ s, isSymChar c = true) : '\n' ∉ s :=
  fun h => by cases hs _ h

/-- Relations that can be written: distinct names that the parser accepts, rows of one arity. -/
structure Writable (lib : TextLib) (tables : List (String × List Tuple)) : Prop where
  nodup : (tables.map Prod.fst).Nodup
  names : ∀ t ∈ tables, IsPredicateName lib t.1
  arity : ∀ t ∈ tables, ∀ row ∈ t.2, row.length = rowArity t.2
  count : tables.length < 2 ^ 64
  fits : ∀ t ∈ tables, t.2.length < 2 ^ 64 ∧ rowArity t.2 < 2 ^ 64

/-- The header of a relation. -/
def headerOf (t : String × List Tuple) : PredInfo := ⟨t.1, rowArity t.2, t.2.length⟩

section RoundTrip

variable {lib : TextLib} {dbg : AstDebug}

theorem newline_notMem_headerText (hname : IsPredicateName lib name) (facts : List Tuple) :
    '\n' ∉ headerText name facts := by
  have h₁ := newline_notMem_sym hname.symChar
  have h₂ (n : Nat) := newline_notMem_sym fun c => isSymChar_of_mem_displayNat (n := n) (c := c)
  simp [headerText, h₁, h₂]

theorem not_isWhitespace_of_mem_displayNat (h : c ∈ displayNat n) :
    isWhitespace c = false := not_isWhitespace_of_isSymChar (isSymChar_of_mem_displayNat h)

theorem splitWhitespace_name (hname : IsPredicateName lib name) (s : List Char) :
    splitWhitespace (name.toList ++ ' ' :: s) = name.toList :: splitWhitespace s :=
  splitWhitespace_word (fun c hc => not_isWhitespace_of_isSymChar (hname.symChar c hc)) hname.ne_nil
    (by decide) s

theorem splitWhitespace_displayNat (n : Nat) {b : Char} (hb : isWhitespace b = true)
    (s : List Char) :
      splitWhitespace (displayNat n ++ b :: s) = displayNat n :: splitWhitespace s :=
  splitWhitespace_word (fun _ => not_isWhitespace_of_mem_displayNat) (displayNat_ne_nil n) hb s

theorem readHeader_write {t : String × List Tuple} (hname : IsPredicateName lib t.1)
    (hfits : t.2.length < 2 ^ 64 ∧ rowArity t.2 < 2 ^ 64) (rest : List Char) (torn : Bool) :
    readHeader ⟨headerLine t.1 t.2 ++ rest, torn⟩ = .ok (headerOf t, ⟨rest, torn⟩) := by
  have hsplit : splitWhitespace (headerText t.1 t.2 ++ ['\n']) =
      [t.1.toList, displayNat (rowArity t.2), displayNat t.2.length] := by
    simp only [headerText, append_assoc, cons_append]
    rw [splitWhitespace_name hname, splitWhitespace_displayNat _ (by decide),
      splitWhitespace_displayNat _ (by decide)]
    rfl
  rw [readHeader, headerLine, append_assoc, singleton_append,
    TextFile.readLine_line (newline_notMem_headerText hname t.2), ok_bind]
  dsimp only
  rw [hsplit]
  dsimp only
  rw [parseUsize_displayNat hfits.2, parseUsize_displayNat hfits.1]
  simp [headerOf]

theorem readHeaders_write (hnames : ∀ t ∈ tables, IsPredicateName lib t.1)
    (hfits : ∀ t ∈ tables, t.2.length < 2 ^ 64 ∧ rowArity t.2 < 2 ^ 64) (rest : List Char)
    (torn : Bool) :
    readHeaders tables.length ⟨tables.flatMap (fun t => headerLine t.1 t.2) ++ rest, torn⟩ =
      .ok (tables.map headerOf, ⟨rest, torn⟩) := by
  induction tables with
  | nil => rfl
  | cons t tables ih =>
    rw [forall_mem_cons] at hnames hfits
    rw [length_cons, readHeaders, flatMap_cons, append_assoc,
      readHeader_write hnames.1 hfits.1, ok_bind]
    dsimp only
    rw [ih hnames.2 hfits.2, ok_bind]
    rfl

/-- The value's text is one token, which stands for `v'`. -/
def ReadBackAs (lib : TextLib) (dbg : AstDebug) (v v' : Value) : Prop :=
  '\n' ∉ displayValue lib v ∧ ∃ tok term, Reads lib (displayValue lib v) tok ∧
    leafTerm tok = some term ∧ termToValue dbg term = v'

theorem ReadBackAs.row {row : Tuple} (h : ∀ v ∈ row, ReadBackAs lib dbg v (g v)) :
    ∃ toks terms, List.Forall₂ (Reads lib) (row.map (displayValue lib)) toks ∧
      List.Forall₂ (fun t a => leafTerm t = some a) toks terms ∧
      terms.map (termToValue dbg) = row.map g := by
  induction row with
  | nil => exact ⟨[], [], .nil, .nil, rfl⟩
  | cons v row ih =>
    rw [forall_mem_cons] at h
    obtain ⟨-, tok, term, htok, hterm, hv⟩ := h.1
    obtain ⟨toks, terms, htoks, hterms, hrow⟩ := ih h.2
    exact ⟨tok :: toks, term :: terms, .cons htok htoks, .cons hterm hterms, by simp [hv, hrow]⟩

theorem newline_notMem_commaSeparated {texts : List (List Char)} (h : ∀ t ∈ texts, '\n' ∉ t) :
    '\n' ∉ commaSeparated texts := by
  cases texts with
  | nil => simp [commaSeparated]
  | cons t texts =>
    rw [forall_mem_cons] at h
    rw [commaSeparated_cons]
    simp only [mem_append, mem_flatMap, mem_cons, not_or, not_exists, not_and]
    exact ⟨h.1, fun t ht => ⟨by decide, by decide, h.2 t ht⟩⟩

section

variable (hname : IsPredicateName lib name)

include hname

theorem newline_notMem_factText {texts : List (List Char)} (h : ∀ t ∈ texts, '\n' ∉ t) :
    '\n' ∉ factText name texts := by
  have h₁ := newline_notMem_sym hname.symChar
  have h₂ := newline_notMem_commaSeparated h
  simp [factText, h₁, h₂]

theorem trim_factText (texts : List (List Char)) :
    trim (factText name texts ++ ['\n']) = factText name texts := by
  obtain ⟨c, s, hcs⟩ := exists_cons_of_ne_nil hname.ne_nil
  have hc : isWhitespace c = false :=
    not_isWhitespace_of_isSymChar (hname.symChar c (by simp [hcs]))
  have hfact : factText name texts = c :: (s ++ '(' :: (commaSeparated texts ++ [')', '.'])) := by
    simp [factText, hcs]
  have hlast : (c :: (s ++ '(' :: (commaSeparated texts ++ [')', '.']))).getLast? = some '.' :=
    List.getLast?_eq_some_iff.mpr ⟨c :: (s ++ '(' :: (commaSeparated texts ++ [')'])), by simp⟩
  rw [hfact]
  exact trim_line hc (by decide) hlast

theorem readFact_write {row : Tuple} (h : ∀ v ∈ row, ReadBackAs lib dbg v (g v)) :
    readFact lib dbg (factText name (row.map (displayValue lib))) = .ok (row.map g) := by
  obtain ⟨toks, terms, htoks, hterms, hrow⟩ := ReadBackAs.row h
  rw [readFact, parse_fact hname htoks hterms]
  dsimp only
  rw [hrow]

theorem newline_notMem_row {row : Tuple} (h : ∀ v ∈ row, ReadBackAs lib dbg v (g v)) :
    '\n' ∉ factText name (row.map (displayValue lib)) := by
  refine newline_notMem_factText hname fun t ht => ?_
  obtain ⟨v, hv, rfl⟩ := mem_map.mp ht
  exact (h v hv).1

end

variable {facts : List Tuple}

theorem readFacts_write (hname : IsPredicateName lib name)
    (h : ∀ row ∈ facts, ∀ v ∈ row, ReadBackAs lib dbg v (g v)) (rest : List Char) (torn : Bool) :
    readFacts lib dbg name facts.length ⟨facts.flatMap (factLine lib name) ++ rest, torn⟩ =
      .ok (facts.map (·.map g), ⟨rest, torn⟩) := by
  induction facts with
  | nil => rfl
  | cons row facts ih =>
    rw [forall_mem_cons] at h
    have hne : factText name (row.map (displayValue lib)) ≠ [] := by simp [factText]
    rw [length_cons, readFacts, flatMap_cons, append_assoc, factLine,
      append_assoc, singleton_append, TextFile.readLine_line (newline_notMem_row hname h.1),
      ok_bind]
    dsimp only
    rw [if_neg (by simp), trim_factText hname, if_neg hne, readFact_write hname h.1, ok_bind,
      ih h.2, ok_bind]
    rfl

/-- The lines of facts without arguments are skipped. -/
theorem readFlags_write (hname : IsPredicateName lib name)
    (h : ∀ row ∈ facts, row = []) (rest : List Char) (torn : Bool) :
    readFlags facts.length ⟨facts.flatMap (factLine lib name) ++ rest, torn⟩ =
      .ok (facts, ⟨rest, torn⟩) := by
  induction facts with
  | nil => rfl
  | cons row facts ih =>
    rw [forall_mem_cons] at h
    obtain ⟨rfl, h⟩ := h
    rw [length_cons, readFlags, flatMap_cons, append_assoc, factLine,
      append_assoc, singleton_append,
      TextFile.readLine_line (newline_notMem_factText hname (by simp)), ok_bind]
    dsimp only
    rw [ih h, ok_bind]
    rfl

theorem readTable_write {t : String × List Tuple} (hname : IsPredicateName lib t.1)
    (harity : ∀ row ∈ t.2, row.length = rowArity t.2)
    (h : ∀ row ∈ t.2, ∀ v ∈ row, ReadBackAs lib dbg v (g v)) (rest : List Char) (torn : Bool) :
    readTable lib dbg (headerOf t) ⟨t.2.flatMap (factLine lib t.1) ++ rest, torn⟩ =
      .ok (t.2.map (·.map g), ⟨rest, torn⟩) := by
  rw [readTable]
  split
  next hzero =>
    have hnil : ∀ row ∈ t.2, row = [] := fun row hrow =>
      length_eq_zero_iff.mp ((harity row hrow).trans hzero)
    have hmap : t.2.map (·.map g) = t.2 := by
      rw [map_congr_left fun row hrow => by rw [hnil row hrow, map_nil, ← hnil row hrow],
        map_id']
    rw [hmap]
    exact readFlags_write hname hnil rest torn
  · exact readFacts_write hname h rest torn

/-- The relations with each value read by `g`. -/
def readAs (g : Value → Value) (tables : List (String × List Tuple)) : List (String × List Tuple) :=
  tables.map fun t => (t.1, t.2.map (·.map g))

theorem readTables_write (hnames : ∀ t ∈ tables, IsPredicateName lib t.1)
    (harity : ∀ t ∈ tables, ∀ row ∈ t.2, row.length = rowArity t.2)
    (h : ∀ t ∈ tables, ∀ row ∈ t.2, ∀ v ∈ row, ReadBackAs lib dbg v (g v)) (m : RowTables)
    (torn : Bool) :
    readTables lib dbg (tables.map headerOf) m
        ⟨tables.flatMap (fun t => t.2.flatMap (factLine lib t.1)), torn⟩ =
      .ok (m.insertAll (readAs g tables)) := by
  induction tables generalizing m with
  | nil => rfl
  | cons t tables ih =>
    rw [forall_mem_cons] at hnames harity h
    rw [map_cons, readTables, flatMap_cons, readTable_write hnames.1 harity.1 h.1, ok_bind]
    exact ih hnames.2 harity.2 h.2 _

/-- **What is written is read**, each value as its token stands for. -/
theorem readSimpleRow_write (hw : Writable lib tables)
    (h : ∀ t ∈ tables, ∀ row ∈ t.2, ∀ v ∈ row, ReadBackAs lib dbg v (g v)) :
    readSimpleRow lib dbg ⟨writeSimpleRow lib tables, false⟩ =
      .ok (HashMap.insertAll ∅ (readAs g tables)) := by
  rw [readSimpleRow, writeSimpleRow,
    TextFile.readLine_line (newline_notMem_sym fun _ => isSymChar_of_mem_displayNat), ok_bind]
  dsimp only
  rw [trim_symLine (displayNat_ne_nil _) fun _ => isSymChar_of_mem_displayNat,
    parseUsize_displayNat hw.count, Option.elim_some, ok_bind, readHeaders_write hw.names hw.fits,
    ok_bind]
  exact readTables_write hw.names hw.arity h ∅ false

/-! ## Which values survive -/

/-- The relations come back: reading what was written gives the same rows under the same names. -/
def Survives (lib : TextLib) (dbg : AstDebug) (tables : List (String × List Tuple)) : Prop :=
  ∃ data, readSimpleRow lib dbg ⟨writeSimpleRow lib tables, false⟩ = .ok data ∧
    ∀ name rows, data.lookup name = some rows ↔ (name, rows) ∈ tables

/-- The strings of the relations are plain. -/
def PlainStrings (lib : TextLib) (tables : List (String × List Tuple)) : Prop :=
  ∀ t ∈ tables, ∀ row ∈ t.2, ∀ s, .string s ∈ row → PlainString lib s

/-- A number or a string. -/
def IsNumberOrString : Value → Prop
  | .number _ | .string _ => True
  | _ => False

theorem newline_notMem_debugStr {s : String} (h : PlainString lib s) : '\n' ∉ debugStr lib s := by
  have hchar : ∀ c ∈ s.toList, '\n' ∉ debugChar lib c := by
    intro c hc hnew
    obtain hd | ⟨e, hd, he, -⟩ : debugChar lib c = [c] ∨
        ∃ e, debugChar lib c = ['\\', e] ∧ unesc e = some (asByte c) ∧ e ≠ '"' := by
      obtain h | h := h
      · exact .inl (h c hc)
      · exact (debugChar_plainAscii lib (h c hc)).imp And.left id
    · rw [hd, mem_singleton] at hnew
      subst hnew
      cases hd
    · rw [hd, mem_cons, mem_singleton] at hnew
      obtain hnew | rfl := hnew
      · cases hnew
      · cases he
  simpa [debugStr] using hchar

theorem readBackAs_number (n : Int64) : ReadBackAs lib dbg (.number n) (.number n) := by
  refine ⟨?_, .int n, .number n, reads_number lib n, rfl, rfl⟩
  have h := newline_notMem_sym fun c => isSymChar_of_mem_displayNat (n := n.toInt.natAbs) (c := c)
  rw [displayValue, displayInt]
  split
  · simpa using h
  · exact h

theorem readBackAs_string {s : String} (h : PlainString lib s) :
    ReadBackAs lib dbg (.string s) (.string s) :=
  ⟨newline_notMem_debugStr h, .string s, .string s, reads_string h, rfl, rfl⟩

/-- The name of an index. -/
def indexName (k : UInt32) : Value := .name (String.ofList (displayNat k.toNat))

/-- The name of an index is printed, and read, as the number. -/
theorem readBackAs_indexName (k : UInt32) :
    ReadBackAs lib dbg (indexName k) (.number (Int64.ofNat k.toNat)) := by
  have htext : displayValue lib (indexName k) =
      displayValue lib (.number (Int64.ofNat k.toNat)) := by
    have hk : (Int64.ofNat k.toNat).toInt = k.toNat :=
      Int64.toInt_ofNat_of_lt (Nat.lt_trans k.toNat_lt (by decide))
    simp [indexName, displayValue, displayInt, hk]
  unfold ReadBackAs
  rw [htext]
  exact readBackAs_number _

/-- A value that the reader can return. -/
def IsReadValue (v : Value) : Prop := IsNumberOrString v ∨ ∃ k, v = indexName k

theorem isReadValue_termToValue (t : Term) : IsReadValue (termToValue dbg t) := by
  unfold termToValue
  split
  · exact .inl trivial
  · exact .inl trivial
  · exact .inr ⟨_, rfl⟩
  · exact .inl trivial

/-- The rows hold values that the reader can return. -/
def AreReadRows (rows : List Tuple) : Prop := ∀ row ∈ rows, ∀ v ∈ row, IsReadValue v

theorem areReadRows_readFlags {f' : TextFile}
    (h : readFlags n f = .ok (facts, f')) : AreReadRows facts := by
  induction n generalizing f facts with
  | zero =>
    cases h
    nofun
  | succ n ih =>
    obtain ⟨⟨_, f₁⟩, -, h⟩ := bind_eq_ok.mp h
    obtain ⟨⟨facts', f₂⟩, h₂, h⟩ := bind_eq_ok.mp h
    cases h
    exact forall_mem_cons.mpr ⟨nofun, ih h₂⟩

theorem isReadValue_readFact {text : List Char} {row : Tuple}
    (h : readFact lib dbg text = .ok row) : ∀ v ∈ row, IsReadValue v := by
  unfold readFact at h
  split at h
  · cases h
    intro v hv
    obtain ⟨t, -, rfl⟩ := mem_map.mp hv
    exact isReadValue_termToValue t
  · cases h

theorem areReadRows_readFacts {f' : TextFile}
    (h : readFacts lib dbg name n f = .ok (facts, f')) : AreReadRows facts := by
  induction n generalizing f facts with
  | zero =>
    cases h
    nofun
  | succ n ih =>
    obtain ⟨⟨line, f₁⟩, -, h⟩ := bind_eq_ok.mp h
    dsimp only at h
    split at h
    · cases h
    split at h
    · exact ih h
    obtain ⟨row, hrow, h⟩ := bind_eq_ok.mp h
    obtain ⟨⟨facts', f₂⟩, h₂, h⟩ := bind_eq_ok.mp h
    cases h
    exact forall_mem_cons.mpr ⟨isReadValue_readFact hrow, ih h₂⟩

theorem areReadRows_readTables {infos : List PredInfo} {m data : RowTables}
    (hm : ∀ name rows, m.lookup name = some rows → AreReadRows rows)
    (h : readTables lib dbg infos m f = .ok data) :
    ∀ name rows, data.lookup name = some rows → AreReadRows rows := by
  induction infos generalizing m f with
  | nil =>
    cases h
    exact hm
  | cons info infos ih =>
    obtain ⟨⟨facts, f₁⟩, hfacts, h⟩ := bind_eq_ok.mp h
    refine ih (HashMap.forall_insert hm ?_) h
    unfold readTable at hfacts
    split at hfacts
    · exact areReadRows_readFlags hfacts
    · exact areReadRows_readFacts hfacts

/-- **The reader returns numbers, strings and names of indices.** -/
theorem areReadRows_readSimpleRow {data : RowTables} (h : readSimpleRow lib dbg f = .ok data)
    {rows : List Tuple} (hrows : data.lookup name = some rows) : AreReadRows rows := by
  obtain ⟨⟨line, f₁⟩, -, h⟩ := bind_eq_ok.mp h
  obtain ⟨n, -, h⟩ := bind_eq_ok.mp h
  obtain ⟨⟨infos, f₂⟩, -, h⟩ := bind_eq_ok.mp h
  exact areReadRows_readTables (by simp) h name rows hrows

/-- What becomes of a value: the name of an index comes back as the number. -/
def readValue : Value → Value
  | .name s => .number (Int64.ofNat ((decimal s.toList).getD 0))
  | v => v

theorem readBackAs_readValue {v : Value} (h : IsReadValue v)
    (hplain : ∀ s, v = .string s → PlainString lib s) : ReadBackAs lib dbg v (readValue v) := by
  obtain h | ⟨k, rfl⟩ := h
  · cases v with
    | number n => exact readBackAs_number n
    | string s => exact readBackAs_string (hplain s rfl)
    | _ => cases h
  · have hk : readValue (indexName k) = .number (Int64.ofNat k.toNat) := by
      simp [readValue, indexName, decimal_displayNat]
    rw [hk]
    exact readBackAs_indexName k

theorem readValue_eq_self {v : Value} (h : IsReadValue v) :
    readValue v = v ↔ IsNumberOrString v := by
  obtain h | ⟨k, rfl⟩ := h
  · cases v with
    | number n => exact iff_of_true rfl h
    | string s => exact iff_of_true rfl h
    | _ => cases h
  · exact iff_of_false nofun id

/-- Reading values that the reader can return. -/
theorem lookup_of_areReadRows (dbg : AstDebug) (hw : Writable lib tables)
    (hplain : PlainStrings lib tables) (hread : ∀ t ∈ tables, AreReadRows t.2) :
    ∃ data, readSimpleRow lib dbg ⟨writeSimpleRow lib tables, false⟩ = .ok data ∧
      ∀ name rows, data.lookup name = some rows ↔ (name, rows) ∈ readAs readValue tables := by
  refine ⟨_, readSimpleRow_write hw fun t ht row hrow v hv =>
    readBackAs_readValue (hread t ht row hrow v hv) fun s hs =>
      hplain t ht row hrow s (hs ▸ hv), ?_⟩
  have hnames : (readAs readValue tables).map Prod.fst = tables.map Prod.fst := by
    simp [readAs]
  exact HashMap.lookup_insertAll (hnames ▸ hw.nodup)

/-- **Relations of plain strings and other values survive exactly when the other values are
numbers.** -/
theorem simplerow_survives_iff {lib : TextLib} (dbg : AstDebug)
    {tables : List (String × List Tuple)} (hw : Writable lib tables)
    (hplain : PlainStrings lib tables) :
    Survives lib dbg tables ↔ ∀ t ∈ tables, ∀ row ∈ t.2, ∀ v ∈ row, IsNumberOrString v := by
  constructor
  · rintro ⟨data, hdata, hlookup⟩ t ht row hrow v hv
    have hread : ∀ t ∈ tables, AreReadRows t.2 := fun t ht =>
      areReadRows_readSimpleRow hdata ((hlookup t.1 t.2).mpr ht)
    obtain ⟨data', hdata', hlookup'⟩ := lookup_of_areReadRows dbg hw hplain hread
    obtain rfl : data = data' := Except.ok.inj (hdata.symm.trans hdata')
    have hrows := (hlookup' t.1 _).mpr (mem_map_of_mem ht)
    rw [(hlookup t.1 t.2).mpr ht, Option.some.injEq, eq_comm, map_eq_self_iff] at hrows
    exact (readValue_eq_self (hread t ht row hrow v hv)).mp
      (map_eq_self_iff.mp (hrows row hrow) v hv)
  · intro hkept
    have hsame : readAs readValue tables = tables := by
      refine map_eq_self_iff.mpr fun t ht => Prod.ext rfl (map_eq_self_iff.mpr fun row hrow =>
        map_eq_self_iff.mpr fun v hv => ?_)
      have hv := hkept t ht row hrow v hv
      exact (readValue_eq_self (.inl hv)).mpr hv
    obtain ⟨data, hdata, hlookup⟩ := lookup_of_areReadRows dbg hw hplain
      fun t ht row hrow v hv => .inl (hkept t ht row hrow v hv)
    rw [hsame] at hlookup
    exact ⟨data, hdata, hlookup⟩

end RoundTrip

/-- Every index is 0, and every term is printed as nothing. -/
def AstDebug.bare : AstDebug := ⟨fun _ => 0, fun _ => ""⟩

theorem writable_single {row : Tuple} (hname : IsPredicateName .bare name)
    (hrow : row.length < 2 ^ 64) :
    Writable .bare [(name, [row])] where
  nodup := by simp
  names := by simpa using hname
  arity := by simp [rowArity]
  count := by simp
  fits := by simpa [rowArity] using hrow

theorem simplerow_survives_row :
    Survives .bare .bare [("edge", [[.number (-1), .string "a\\b\nc"]])] := by
  have hplain : PlainStrings .bare [("edge", [[.number (-1), .string "a\\b\nc"]])] := by
    intro t ht row hrow s hs
    simp only [mem_singleton] at ht
    subst ht
    simp only [mem_singleton] at hrow
    subst hrow
    simp only [mem_cons, reduceCtorEq, Value.string.injEq, not_mem_nil, or_false,
      false_or] at hs
    subst hs
    exact .inr (by simp [IsPlainAscii])
  refine (simplerow_survives_iff .bare (writable_single (by decide +kernel) (by simp))
    hplain).mpr ?_
  simp [IsNumberOrString]

/-- A quote in a string is printed with a backslash, at which the scanner ends the literal. -/
example : readSimpleRow .bare .bare ⟨writeSimpleRow .bare [("edge", [[.string "\""]])], false⟩ =
    .error (.parse (.scan (.quote .truncatedEscape))) := by decide +kernel

/-- A name comes back as the interner's index of it. -/
theorem name_not_survives :
    Writable .bare [("edge", [[.name "/a"]])] ∧ PlainStrings .bare [("edge", [[.name "/a"]])] ∧
      ¬ Survives .bare .bare [("edge", [[.name "/a"]])] := by
  refine ⟨writable_single (by decide +kernel) (by simp), by simp [PlainStrings], ?_⟩
  rintro ⟨data, hdata, hlookup⟩
  have hrows := areReadRows_readSimpleRow hdata ((hlookup "edge" [[.name "/a"]]).mpr (by simp))
  obtain h | ⟨k, hk⟩ := hrows _ mem_cons_self (.name "/a") mem_cons_self
  · exact h
  · have hs : "/a" = String.ofList (displayNat k.toNat) := by simpa [indexName] using hk
    have hslash : '/' ∈ displayNat k.toNat := by
      rw [← String.toList_ofList (l := displayNat k.toNat), ← hs]
      decide
    cases isDigit_of_mem_displayNat hslash

end Mangle

import Mangle.Ir
import Mangle.Parse.Scan

/-!
# Parse/Parser — atoms and clauses

The recursive-descent parser over the scanner, from base terms to clauses.  The state is the current
token, the characters behind it and the counter of anonymous variables; the positions that the
error messages give are left out.

Every recursion is on fuel, and `unfinished` is the error of a call that has none left.  A call that
recurses has consumed a token, and there are no more tokens than characters, so a text is parsed
with its length as fuel.
-/

namespace Mangle.Parse

/-! ## Syntax trees

`ast::BaseTerm` is `Term`: the brackets and braces of the source text are the functions `fn:list`,
`fn:map` and `fn:struct`. -/

/-- `ast::TemporalBound`. -/
inductive TemporalBound where
  | timestamp (nanos : Int64)
  | variable (name : String)
  | negInf
  | posInf
  deriving DecidableEq, Repr

/-- `ast::Interval`. -/
structure Interval where
  start : TemporalBound
  stop : TemporalBound
  deriving DecidableEq, Repr

/-- `ast::Atom`. -/
structure Atom where
  sym : String
  args : List Term
  deriving DecidableEq

/-- `ast::Term`. -/
inductive Literal where
  | atom (a : Atom)
  | temporalAtom (a : Atom) (time : Interval)
  | negAtom (a : Atom)
  | eq (l r : Term)
  | ineq (l r : Term)

/-- `ast::Clause`. -/
structure Clause where
  head : Atom
  headTime : Option Interval
  premises : List Literal
  transform : List Transform

/-- Why a text is not parsed; `unfinished` is the model's own. -/
inductive ParseError where
  | scan (e : ScanError)
  | unexpected (expected got : Token)
  | notAPredicateName (name : String)
  | expectedIdent (got : Token)
  | expectedQualifiedIdent (got : Token)
  | variableAsPredicate (name : String)
  | expectedComparison (got : Token)
  | unexpectedInTerm (got : Token)
  | unexpectedInBaseTerm (got : Token)
  | expectedFieldName
  | expectedTransformSep (got : Token)
  | expectedTemporalBound (got : Token)
  | unfinished
  deriving DecidableEq, Repr

/-! ## The parser's state -/

/-- The fields of `Parser` that parsing changes. -/
structure ParserState where
  token : Token
  rest : List Char
  anonCounter : Nat
  deriving DecidableEq, Repr

/-- `Parser::new`. -/
def ParserState.new (text : List Char) : ParserState := ⟨.illegal, text, 0⟩

/-- A parser. -/
abbrev Parser (α : Type) := StateT ParserState (Except ParseError) α

section Parser

variable (lib : TextLib)

/-- The current token. -/
def token : Parser Token := fun st => .ok (st.token, st)

/-- `bail!`. -/
def bail {α : Type} (e : ParseError) : Parser α := fun _ => .error e

/-- `next_token`. -/
def nextToken : Parser Unit := fun st =>
  match scanToken lib st.rest with
  | .error e => .error (.scan e)
  | .ok (tok, rest) => .ok ((), { st with token := tok, rest := rest })

/-- `expect`. -/
def expect (expected : Token) : Parser Unit := do
  let got ← token
  if expected ≠ got then bail (.unexpected expected got) else nextToken lib

/-- A fresh name for `_`. -/
def freshAnon : Parser String := fun st =>
  .ok (s!"_Anon{st.anonCounter}", { st with anonCounter := st.anonCounter + 1 })

/-- `is_variable`. -/
def isVariable (name : String) : Bool := name.toList.head?.any isUpper

/-- `is_fn`. -/
def isFn (name : String) : Bool := ['f', 'n', ':'].isPrefixOf name.toList

/-- `base_term_start`. -/
def baseTermStart : Token → Bool
  | .name _ | .int _ | .float _ | .string _ | .bytes _ | .timestamp _ | .duration _
  | .lbracket | .lbrace | .dotIdent _ => true
  | .ident name => isVariable name || isFn name || name = "_"
  | _ => false

/-- The items after the first of a list separated by commas, where a comma goes on only in front of
a token that `more` accepts. -/
def parseMore {α : Type} (item : Parser α) (more : Token → Bool) : Nat → Parser (List α)
  | 0 => bail .unfinished
  | fuel + 1 => do
    if (← token) ≠ .comma then pure []
    else do
      nextToken lib
      if !more (← token) then pure []
      else do
        let x ← item
        let xs ← parseMore item more fuel
        pure (x :: xs)

/-! ## Base terms

`item` parses a base term and `fuel` bounds the loops. -/

section BaseTerms

variable (item : Parser Term) (fuel : Nat)

/-- `parse_base_terms`. -/
def parseBaseTerms : Parser (List Term) := do
  let first ← item
  let more ← parseMore lib item baseTermStart fuel
  pure (first :: more)

/-- The base terms in front of a closing token, if it does not come at once. -/
def parseUntil (stop : Token) : Parser (List Term) := do
  if (← token) ≠ stop then parseBaseTerms lib item fuel else pure []

/-- `parse_paren_base_terms`. -/
def parseParenBaseTerms : Parser (List Term) := do
  expect lib .lparen
  let args ← parseUntil lib item fuel .rparen
  expect lib .rparen
  pure args

/-- `is_opt_keyword`. -/
def isOptKeyword (t : Token) : Bool := t = .ident "opt"

/-- `parse_langle_member`. -/
def parseLangleMember : Parser (List Term) := do
  if isOptKeyword (← token) then do
    nextToken lib
    let name ← item
    expect lib .colon
    let ty ← item
    pure [.app (.fn "fn:opt") [name, ty]]
  else do
    let first ← item
    if (← token) = .colon then do
      nextToken lib
      let second ← item
      pure [first, second]
    else pure [first]

/-- `parse_langle_base_terms`. -/
def parseLangleBaseTerms : Parser (List Term) := do
  expect lib .lt
  if (← token) = .gt then do
    nextToken lib
    pure []
  else do
    let first ← parseLangleMember lib item
    let more ← parseMore lib (parseLangleMember lib item)
      (fun t => baseTermStart t || isOptKeyword t) fuel
    expect lib .gt
    pure (first ++ more.flatten)

/-- A key with its value. -/
def parseEntry (key : Parser Term) : Parser (List Term) := do
  let k ← key
  expect lib .colon
  let v ← item
  pure [k, v]

/-- The items of a list behind the first. -/
def parseListMore : Parser (List Term) := do
  if (← token) = .comma then do
    nextToken lib
    parseUntil lib item fuel .rbracket
  else pure []

/-- The list or map that starts with an item. -/
def parseListOrMapFrom (first : Term) : Parser Term := do
  if (← token) ≠ .colon then do
    let more ← parseListMore lib item fuel
    pure (.app (.fn "fn:list") (first :: more))
  else do
    expect lib .colon
    let firstVal ← item
    let more ← parseMore lib (parseEntry lib item item) (· ≠ .rbracket) fuel
    pure (.app (.fn "fn:map") (first :: firstVal :: more.flatten))

/-- `parse_list_or_map`. -/
def parseListOrMap : Parser Term := do
  expect lib .lbracket
  if (← token) = .rbracket then do
    nextToken lib
    pure (.app (.fn "fn:list") [])
  else do
    let first ← item
    let expr ← parseListOrMapFrom lib item fuel first
    expect lib .rbracket
    pure expr

/-- A field name of a struct. -/
def parseFieldName : Parser Term := do
  match ← item with
  | .name n => pure (.name n)
  | _ => bail .expectedFieldName

/-- `parse_struct`. -/
def parseStruct : Parser Term := do
  expect lib .lbrace
  if (← token) = .rbrace then do
    nextToken lib
    pure (.app (.fn "fn:struct") [])
  else do
    let first ← parseEntry lib item (parseFieldName item)
    let more ← parseMore lib (parseEntry lib item (parseFieldName item)) (· ≠ .rbrace) fuel
    expect lib .rbrace
    pure (.app (.fn "fn:struct") (first ++ more.flatten))

/-- A term that is one token. -/
def leaf (t : Term) : Parser Term := do
  nextToken lib
  pure t

end BaseTerms

/-- `parse_base_term`. -/
def parseBaseTerm : Nat → Parser Term
  | 0 => bail .unfinished
  | fuel + 1 => do
    match ← token with
    | .lbracket => parseListOrMap lib (parseBaseTerm fuel) fuel
    | .lbrace => parseStruct lib (parseBaseTerm fuel) fuel
    | .ident name =>
      if name = "_" then do
        let unique ← freshAnon
        leaf lib (.var unique)
      else if isVariable name then leaf lib (.var name)
      else if isFn name then do
        nextToken lib
        let args ← parseParenBaseTerms lib (parseBaseTerm fuel) fuel
        pure (.app (.fn name) args)
      else bail (.unexpectedInBaseTerm (.ident name))
    | .dotIdent name => do
      nextToken lib
      let args ← parseLangleBaseTerms lib (parseBaseTerm fuel) fuel
      pure (.app (.fn name) args)
    | .string s => leaf lib (.string s)
    | .bytes b => leaf lib (.bytes b)
    | .int n => leaf lib (.number n)
    | .float bits => leaf lib (.float bits)
    | .timestamp nanos => leaf lib (.time nanos)
    | .duration nanos => leaf lib (.duration nanos)
    | .name n => leaf lib (.name n)
    | t => bail (.unexpectedInBaseTerm t)

/-! ## Atoms and intervals -/

/-- The parts of a qualified name after the first, each with its dot. -/
def parseQualifiers : Nat → Parser String
  | 0 => bail .unfinished
  | fuel + 1 => do
    if (← token) ≠ .dot then pure ""
    else do
      nextToken lib
      match ← token with
      | .ident name => do
        nextToken lib
        let more ← parseQualifiers fuel
        pure ("." ++ name ++ more)
      | t => bail (.expectedQualifiedIdent t)

/-- The qualified name of an atom. -/
def parseSym (fuel : Nat) : Parser String := do
  match ← token with
  | .ident name =>
    if isVariable name then bail (.notAPredicateName name)
    else do
      nextToken lib
      let more ← parseQualifiers lib fuel
      pure (name ++ more)
  | t => bail (.expectedIdent t)

/-- `parse_atom`. -/
def parseAtom (fuel : Nat) : Parser Atom := do
  let sym ← parseSym lib fuel
  let args ← parseParenBaseTerms lib (parseBaseTerm lib fuel) fuel
  pure ⟨sym, args⟩

/-- `parse_temporal_bound`. -/
def parseTemporalBound (isStart : Bool) : Parser TemporalBound := do
  match ← token with
  | .timestamp nanos => do
    nextToken lib
    pure (.timestamp nanos)
  | .ident name =>
    if name = "_" then do
      nextToken lib
      pure (if isStart then .negInf else .posInf)
    else if isVariable name then do
      nextToken lib
      pure (.variable name)
    else bail (.expectedTemporalBound (.ident name))
  | t => bail (.expectedTemporalBound t)

/-- The end of an interval: of a point interval, its start. -/
def parseIntervalEnd (start : TemporalBound) : Parser TemporalBound := do
  if (← token) = .comma then do
    nextToken lib
    parseTemporalBound lib false
  else pure start

/-- `try_parse_interval`. -/
def tryParseInterval : Parser (Option Interval) := do
  if (← token) ≠ .at then pure none
  else do
    nextToken lib
    expect lib .lbracket
    let start ← parseTemporalBound lib true
    let stop ← parseIntervalEnd lib start
    expect lib .rbracket
    pure (some ⟨start, stop⟩)

/-! ## Clauses -/

/-- The literal of a comparison. -/
def comparison (l r : Term) : Token → Option Literal
  | .eq => some (.eq l r)
  | .bangEq => some (.ineq l r)
  | .lt => some (.atom ⟨":lt", [l, r]⟩)
  | .le => some (.atom ⟨":le", [l, r]⟩)
  | .gt => some (.atom ⟨":gt", [l, r]⟩)
  | .ge => some (.atom ⟨":ge", [l, r]⟩)
  | _ => none

/-- Why a base term is not followed by a comparison. -/
def comparisonError (first op : Token) : ParseError :=
  match first, op with
  | .ident name, .lparen => if isVariable name then .variableAsPredicate name
    else .expectedComparison op
  | _, _ => .expectedComparison op

/-- `parse_term`. -/
def parseTerm (fuel : Nat) : Parser Literal := do
  let first ← token
  if first = .bang then do
    nextToken lib
    let atom ← parseAtom lib fuel
    pure (.negAtom atom)
  else if baseTermStart first then do
    let left ← parseBaseTerm lib fuel
    let op ← token
    if (comparison left left op).isNone then bail (comparisonError first op)
    else do
      nextToken lib
      let right ← parseBaseTerm lib fuel
      match comparison left right op with
      | some l => pure l
      | none => bail (comparisonError first op)
  else match first with
    | .ident _ => do
      let atom ← parseAtom lib fuel
      match ← tryParseInterval lib with
      | some time => pure (.temporalAtom atom time)
      | none => pure (.atom atom)
    | t => bail (.unexpectedInTerm t)

/-- `parse_terms`. -/
def parseTerms (fuel : Nat) : Parser (List Literal) := do
  let first ← parseTerm lib fuel
  let more ← parseMore lib (parseTerm lib fuel) (fun _ => true) fuel
  pure (first :: more)

/-- `expect_transform_sep`. -/
def expectTransformSep : Parser Unit := do
  let t ← token
  if t = .comma ∨ t = .semi then nextToken lib else bail (.expectedTransformSep t)

/-- A `let` statement behind its keyword; without a variable there is none. -/
def parseLet (term : Parser Term) : Parser (List Transform) := do
  match ← token with
  | .ident name => do
    nextToken lib
    expect lib .eq
    let app ← term
    pure [⟨some name, app⟩]
  | _ => pure []

/-- The `let` statements of a transform. -/
def parseLets (term : Parser Term) : Nat → Parser (List Transform)
  | 0 => bail .unfinished
  | fuel + 1 => do
    if (← token) ≠ .letKw then pure []
    else do
      nextToken lib
      let stmt ← parseLet lib term
      if (← token) = .dot then pure stmt
      else do
        expectTransformSep lib
        let more ← parseLets term fuel
        pure (stmt ++ more)

/-- The `do` statement of a transform. -/
def parseDo (term : Parser Term) : Parser (List Transform) := do
  if (← token) = .doKw then do
    nextToken lib
    let app ← term
    expectTransformSep lib
    pure [⟨none, app⟩]
  else pure []

/-- `parse_transforms`. -/
def parseTransforms (fuel : Nat) : Parser (List Transform) := do
  let first ← parseDo lib (parseBaseTerm lib fuel)
  let more ← parseLets lib (parseBaseTerm lib fuel) fuel
  pure (first ++ more)

/-- The body of a clause. -/
def parseBody (fuel : Nat) : Parser (List Literal × List Transform) := do
  let t ← token
  if t = .colonDash ∨ t = .longLeftDoubleArrow then do
    nextToken lib
    let premises ← parseTerms lib fuel
    if (← token) = .pipeGt then do
      nextToken lib
      let transform ← parseTransforms lib fuel
      pure (premises, transform)
    else pure (premises, [])
  else pure ([], [])

/-- `parse_clause`. -/
def parseClause (fuel : Nat) : Parser Clause := do
  let head ← parseAtom lib fuel
  let headTime ← tryParseInterval lib
  let (premises, transform) ← parseBody lib fuel
  expect lib .dot
  pure ⟨head, headTime, premises, transform⟩

/-- Scan the first token of a text and run a parser from there. -/
def runParser {α : Type} (p : TextLib → Nat → Parser α) (text : List Char) : Except ParseError α :=
  ((do nextToken lib; p lib (text.length + 1) : Parser α).run (.new text)).map Prod.fst

end Parser

end Mangle.Parse

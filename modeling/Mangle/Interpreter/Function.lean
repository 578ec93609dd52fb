import Mangle.Store.MemStore

/-!
# Interpreter/Function — built-in functions

`eval_function`, by the name of the function.  Integer arithmetic is that of a release build: it
wraps, and a division that overflows panics.  Floating-point operations and the conversions between
values and text are those of the host, `Host`; the clock and the order of hash tables belong to the
run, `Runtime`.
-/

namespace Mangle

/-- Why the evaluation of a built-in fails. -/
inductive BuiltinError where
  /-- It rejects its arguments. -/
  | message (msg : String)
  /-- A division that overflows: a panic. -/
  | overflow
  deriving DecidableEq, Repr

/-- The outcome of evaluating a built-in. -/
abbrev Builtin := Except BuiltinError

/-- Operations on the bits of floats, and conversions between values and text. -/
structure Host where
  floatAdd : UInt64 → UInt64 → UInt64
  floatSub : UInt64 → UInt64 → UInt64
  floatMul : UInt64 → UInt64 → UInt64
  floatDiv : UInt64 → UInt64 → UInt64
  floatSqrt : UInt64 → UInt64
  floatMax : UInt64 → UInt64 → UInt64
  floatMin : UInt64 → UInt64 → UInt64
  display : Value → String
  formatTimeWithPrecision : Int64 → String → Except String String
  parseTimezoneOffset : String → Except String Int64
  parseRfc3339ToNanos : String → Except String Int64
  parseCivilDatetimeToNanos : String → Except String Int64
  parseDurationString : String → Except String Int64

/-- What a run of the interpreter sees of its surroundings. -/
structure Runtime where
  host : Host
  now : Int64
  order : HashOrder

/-- A host without floating point whose text conversions all fail. -/
def Host.bare : Host where
  floatAdd _ _ := 0
  floatSub _ _ := 0
  floatMul _ _ := 0
  floatDiv _ _ := 0
  floatSqrt _ := 0
  floatMax _ _ := 0
  floatMin _ _ := 0
  display _ := ""
  formatTimeWithPrecision _ _ := .error ""
  parseTimezoneOffset _ := .error ""
  parseRfc3339ToNanos _ := .error ""
  parseCivilDatetimeToNanos _ := .error ""
  parseDurationString _ := .error ""

/-- A run on the bare host at the epoch, its tables in the order of insertion. -/
def Runtime.bare : Runtime := ⟨.bare, 0, .insertion⟩

/-- The arguments are rejected. -/
def fail {α : Type} (msg : String) : Builtin α := .error (.message msg)

/-- What a text conversion rejects, the function rejects. -/
def ofText {α : Type} : Except String α → Builtin α
  | .ok a => .ok a
  | .error msg => fail msg

/-- The bits of `0.0` and of `1.0`. -/
def floatZero : UInt64 := 0
@[inherit_doc floatZero] def floatOne : UInt64 := 0x3FF0000000000000

/-- `f == 0.0`, for either zero. -/
def isFloatZero (bits : UInt64) : Bool := bits = 0 || bits = 0x8000000000000000

/-- `-f`. -/
def floatNeg (bits : UInt64) : UInt64 := bits ^^^ 0x8000000000000000

/-- The key-value pairs of an interleaved list; an odd element at the end is dropped. -/
def chunks2 : List Value → List (Value × Value)
  | k :: v :: rest => (k, v) :: chunks2 rest
  | _ => []

/-- The integers among the arguments, all of which must be integers. -/
def integers (h : Host) (fn : String) : List Value → Builtin (List Int64)
  | [] => .ok []
  | .number n :: vs => do pure (n :: (← integers h fn vs))
  | v :: _ => fail s!"{fn}: expected integer, got {h.display v}"

/-- `value_as_float`. -/
def valueAsFloat (h : Host) : Value → Builtin UInt64
  | .float bits => .ok bits
  | .number n => .ok (Value.i64AsF64 n)
  | v => fail s!"expected numeric value, got {h.display v}"

/-- `value_to_string`. -/
def valueToString (h : Host) : Value → String
  | .string s => s
  | .name s => s
  | .null => "null"
  | v => h.display v

/-- The loop of `fn:div` over the divisors: it stops at a quotient of zero. -/
def divLoop (h : Host) (result : Int64) : List Value → Builtin Value
  | [] => .ok (.number result)
  | .number n :: vs =>
      if n = 0 then fail "Division by zero in fn:div"
      else if n = -1 ∧ result = Int64.minValue then .error .overflow
      else if result / n = 0 then .ok (.number 0)
      else divLoop h (result / n) vs
  | v :: _ => fail s!"fn:div: expected integer, got {h.display v}"

/-- The loop of `fn:float:div`. -/
def floatDivLoop (h : Host) (result : UInt64) : List Value → Builtin Value
  | [] => .ok (.float result)
  | v :: vs => do
      let d ← valueAsFloat h v
      if isFloatZero d then fail "Division by zero in fn:float:div"
      else floatDivLoop h (h.floatDiv result d) vs

/-- `str::replacen`; no count means every occurrence.  The fuel covers one step a character. -/
def replaceChars (old new : List Char) : Nat → Option Nat → List Char → List Char
  | 0, _, cs => cs
  | _ + 1, some 0, cs => cs
  | fuel + 1, count, cs =>
      match old, cs with
      | [], [] => new
      | [], c :: cs => new ++ c :: replaceChars old new fuel (count.map (· - 1)) cs
      | _ :: _, [] => []
      | _ :: _, c :: cs =>
          if old.isPrefixOf (c :: cs) then
            new ++ replaceChars old new fuel (count.map (· - 1)) ((c :: cs).drop old.length)
          else c :: replaceChars old new fuel count cs

/-- `civil_from_epoch_secs`: the proleptic Gregorian date. -/
def civilFromEpochSecs (secs : Int) : Int × Int × Int :=
  let days := secs.fdiv 86400
  let z := days + 719468
  let era := (if z ≥ 0 then z else z - 146096).tdiv 146097
  let doe := z - era * 146097
  let yoe := (doe - doe / 1460 + doe / 36524 - doe / 146096) / 365
  let y := yoe + era * 400
  let doy := doe - (365 * yoe + yoe / 4 - yoe / 100)
  let mp := (5 * doy + 2) / 153
  let d := doy - (153 * mp + 2) / 5 + 1
  let m := if mp < 10 then mp + 3 else mp - 9
  (if m ≤ 2 then y + 1 else y, m, d)

/-- `time_component`. -/
def timeComponent (h : Host) (extract : Int → Int) : List Value → Builtin Value
  | [.time nanos] => .ok (.number (.ofInt (extract (nanos.toInt.fdiv 1000000000))))
  | [v] => fail s!"time component function: expected time, got {h.display v}"
  | _ => fail "time component function: requires 1 argument"

/-- `duration_component_float` and `duration_component_int`. -/
def durationComponent (h : Host) (extract : Int64 → Value) : List Value → Builtin Value
  | [.duration nanos] => .ok (extract nanos)
  | [v] => fail s!"duration component function: expected duration, got {h.display v}"
  | _ => fail "duration component function: requires 1 argument"

/-- `duration_from`. -/
def durationFrom (h : Host) (name : String) (multiplier : Int64) : List Value → Builtin Value
  | [.number n] => .ok (.duration (n * multiplier))
  | [v] => fail s!"fn:duration:from_{name}: expected number, got {h.display v}"
  | _ => fail s!"fn:duration:from_{name}: requires 1 argument"

/-- The nanoseconds of a unit of `fn:time:trunc`. -/
def truncUnit : String → Option Int
  | "/nanosecond" => some 1
  | "/microsecond" => some 1000
  | "/millisecond" => some 1000000
  | "/second" => some 1000000000
  | "/minute" => some 60000000000
  | "/hour" => some 3600000000000
  | "/day" => some 86400000000000
  | _ => none

/-- The arithmetic functions, or `none` for another function. -/
def evalArith (h : Host) (fn : String) (vals : List Value) : Option (Builtin Value) :=
  match fn with
  | "fn:plus" => some do pure (.number ((← integers h fn vals).foldl (· + ·) 0))
  | "fn:minus" => some <| match vals with
      | [] => fail "fn:minus: requires at least 1 argument"
      | [.number n] => .ok (.number (-n))
      | .number n :: vs => do pure (.number ((← integers h fn vs).foldl (· - ·) n))
      | v :: _ => fail s!"fn:minus: expected integer, got {h.display v}"
  | "fn:mult" => some do pure (.number ((← integers h fn vals).foldl (· * ·) 1))
  | "fn:div" => some <| match vals with
      | [] => fail "fn:div: requires at least 1 argument"
      | [.number n] =>
          if n = 0 then fail "Division by zero in fn:div" else .ok (.number (1 / n))
      | .number n :: vs => divLoop h n vs
      | v :: _ => fail s!"fn:div: expected integer, got {h.display v}"
  | "fn:float:plus" => some do
      pure (.float ((← vals.mapM (valueAsFloat h)).foldl h.floatAdd floatZero))
  | "fn:float:minus" => some <| match vals with
      | [] => fail "fn:float:minus: requires at least 1 argument"
      | [v] => do pure (.float (floatNeg (← valueAsFloat h v)))
      | v :: vs => do
          let first ← valueAsFloat h v
          pure (.float ((← vs.mapM (valueAsFloat h)).foldl h.floatSub first))
  | "fn:float:mult" => some do
      pure (.float ((← vals.mapM (valueAsFloat h)).foldl h.floatMul floatOne))
  | "fn:float:div" => some <| match vals with
      | [] => fail "fn:float:div: requires at least 1 argument"
      | [v] => do
          let first ← valueAsFloat h v
          if isFloatZero first then fail "Division by zero in fn:float:div"
          else pure (.float (h.floatDiv floatOne first))
      | v :: vs => do floatDivLoop h (← valueAsFloat h v) vs
  | "fn:sqrt" => some <| match vals with
      | [v] => do pure (.float (h.floatSqrt (← valueAsFloat h v)))
      | _ => fail "fn:sqrt: requires exactly 1 argument"
  | _ => none

/-- The string functions and conversions to strings. -/
def evalString (h : Host) (fn : String) (vals : List Value) : Option (Builtin Value) :=
  match fn with
  | "fn:string:concat" => some (.ok (.string (String.join (vals.map (valueToString h)))))
  | "fn:string:replace" => some <| match vals with
      | [.string s, .string old, .string new, .number count] =>
          let n := if count < 0 then none else some count.toInt.toNat
          .ok (.string (String.ofList
            (replaceChars old.toList new.toList (s.length + 1) n s.toList)))
      | [.string _, .string _, .string _, v] =>
          fail s!"fn:string:replace: fourth arg must be number, got {h.display v}"
      | [.string _, .string _, v, _] =>
          fail s!"fn:string:replace: third arg must be string, got {h.display v}"
      | [.string _, v, _, _] =>
          fail s!"fn:string:replace: second arg must be string, got {h.display v}"
      | [v, _, _, _] => fail s!"fn:string:replace: first arg must be string, got {h.display v}"
      | _ => fail "fn:string:replace: requires 4 arguments (string, old, new, count)"
  | "fn:number:to_string" => some <| match vals with
      | [.number n] => .ok (.string (toString n))
      | [v] => fail s!"fn:number:to_string: expected number, got {h.display v}"
      | _ => fail "fn:number:to_string: requires 1 argument"
  | "fn:float64:to_string" => some <| match vals with
      | [.float bits] => .ok (.string (h.display (.float bits)))
      | [v] => fail s!"fn:float64:to_string: expected float, got {h.display v}"
      | _ => fail "fn:float64:to_string: requires 1 argument"
  | "fn:name:to_string" => some <| match vals with
      | [.name s] => .ok (.string s)
      | [v] => fail s!"fn:name:to_string: expected name, got {h.display v}"
      | _ => fail "fn:name:to_string: requires 1 argument"
  | _ => none

/-- The functions on times, the clock apart. -/
def evalTime (h : Host) (fn : String) (vals : List Value) : Option (Builtin Value) :=
  match fn with
  | "fn:time:add" => some <| match vals with
      | [.time t, .duration d] => .ok (.time (t + d))
      | [a, b] =>
          fail s!"fn:time:add: expected (time, duration), got ({h.display a}, {h.display b})"
      | _ => fail "fn:time:add: requires 2 arguments (time, duration)"
  | "fn:time:sub" => some <| match vals with
      | [.time a, .time b] => .ok (.duration (a - b))
      | [.time t, .duration d] => .ok (.time (t - d))
      | [_, _] => fail "fn:time:sub: expected (time, time) or (time, duration)"
      | _ => fail "fn:time:sub: requires 2 arguments"
  | "fn:time:year" => some (timeComponent h (fun secs => (civilFromEpochSecs secs).1) vals)
  | "fn:time:month" => some (timeComponent h (fun secs => (civilFromEpochSecs secs).2.1) vals)
  | "fn:time:day" => some (timeComponent h (fun secs => (civilFromEpochSecs secs).2.2) vals)
  | "fn:time:hour" => some (timeComponent h (fun secs => secs % 86400 / 3600) vals)
  | "fn:time:minute" => some (timeComponent h (fun secs => secs % 86400 % 3600 / 60) vals)
  | "fn:time:second" => some (timeComponent h (fun secs => secs % 86400 % 60) vals)
  | "fn:time:from_unix_nanos" => some <| match vals with
      | [.number n] => .ok (.time n)
      | [v] => fail s!"fn:time:from_unix_nanos: expected number, got {h.display v}"
      | _ => fail "fn:time:from_unix_nanos: requires 1 argument"
  | "fn:time:to_unix_nanos" => some <| match vals with
      | [.time t] => .ok (.number t)
      | [v] => fail s!"fn:time:to_unix_nanos: expected time, got {h.display v}"
      | _ => fail "fn:time:to_unix_nanos: requires 1 argument"
  | "fn:time:trunc" => some <| match vals with
      | [.time t, .name unit] =>
          match truncUnit unit with
          | some d => .ok (.time (t - .ofInt (t.toInt % d)))
          | none => fail s!"fn:time:trunc: unknown unit {unit.quote}"
      | [.time _, v] => fail s!"fn:time:trunc: second arg must be name, got {h.display v}"
      | [v, _] => fail s!"fn:time:trunc: first arg must be time, got {h.display v}"
      | _ => fail "fn:time:trunc: requires 2 arguments (time, unit_name)"
  | "fn:time:format" => some <| match vals with
      | [.time t, .string precision] => do
          pure (.string (← ofText (h.formatTimeWithPrecision t precision)))
      | [.time _, v] => fail s!"fn:time:format: second arg must be name, got {h.display v}"
      | [v, _] => fail s!"fn:time:format: first arg must be time, got {h.display v}"
      | _ => fail "fn:time:format: requires 2 arguments (time, precision)"
  | "fn:time:format_civil" => some <| match vals with
      | [.time t, .string tz, .string precision] => do
          let offset ← ofText (h.parseTimezoneOffset tz)
          pure (.string (← ofText
            (h.formatTimeWithPrecision (t + offset * 1000000000) precision)))
      | [.time _, .string _, v] =>
          fail s!"fn:time:format_civil: third arg must be name, got {h.display v}"
      | [.time _, v, _] =>
          fail s!"fn:time:format_civil: second arg must be string, got {h.display v}"
      | [v, _, _] => fail s!"fn:time:format_civil: first arg must be time, got {h.display v}"
      | _ => fail "fn:time:format_civil: requires 3 arguments (time, timezone, precision)"
  | "fn:time:parse_rfc3339" => some <| match vals with
      | [.string s] => do pure (.time (← ofText (h.parseRfc3339ToNanos s)))
      | [v] => fail s!"fn:time:parse_rfc3339: expected string, got {h.display v}"
      | _ => fail "fn:time:parse_rfc3339: requires 1 argument"
  | "fn:time:parse_civil" => some <| match vals with
      | [.string s, .string tz] => do
          let offset ← ofText (h.parseTimezoneOffset tz)
          let nanos ← ofText (h.parseCivilDatetimeToNanos s)
          pure (.time (nanos - offset * 1000000000))
      | [.string _, v] =>
          fail s!"fn:time:parse_civil: second arg must be string, got {h.display v}"
      | [v, _] => fail s!"fn:time:parse_civil: first arg must be string, got {h.display v}"
      | _ => fail "fn:time:parse_civil: requires 2 arguments (string, timezone)"
  | _ => none

/-- The functions on durations. -/
def evalDuration (h : Host) (fn : String) (vals : List Value) : Option (Builtin Value) :=
  match fn with
  | "fn:duration:add" => some <| match vals with
      | [.duration a, .duration b] => .ok (.duration (a + b))
      | [_, _] => fail "fn:duration:add: expected (duration, duration)"
      | _ => fail "fn:duration:add: requires 2 arguments"
  | "fn:duration:mult" => some <| match vals with
      | [.duration d, .number n] => .ok (.duration (d * n))
      | [.number n, .duration d] => .ok (.duration (n * d))
      | [_, _] => fail "fn:duration:mult: expected (duration, number) or (number, duration)"
      | _ => fail "fn:duration:mult: requires 2 arguments"
  | "fn:duration:hours" => some (durationComponent h
      (fun n => .float (h.floatDiv (Value.i64AsF64 n) (Value.i64AsF64 3600000000000))) vals)
  | "fn:duration:minutes" => some (durationComponent h
      (fun n => .float (h.floatDiv (Value.i64AsF64 n) (Value.i64AsF64 60000000000))) vals)
  | "fn:duration:seconds" => some (durationComponent h
      (fun n => .float (h.floatDiv (Value.i64AsF64 n) (Value.i64AsF64 1000000000))) vals)
  | "fn:duration:nanos" => some (durationComponent h .number vals)
  | "fn:duration:from_nanos" => some <| match vals with
      | [.number n] => .ok (.duration n)
      | [v] => fail s!"fn:duration:from_nanos: expected number, got {h.display v}"
      | _ => fail "fn:duration:from_nanos: requires 1 argument"
  | "fn:duration:from_hours" => some (durationFrom h "hours" 3600000000000 vals)
  | "fn:duration:from_minutes" => some (durationFrom h "minutes" 60000000000 vals)
  | "fn:duration:from_seconds" => some (durationFrom h "seconds" 1000000000 vals)
  | "fn:duration:parse" => some <| match vals with
      | [.string s] => do pure (.duration (← ofText (h.parseDurationString s)))
      | [v] => fail s!"fn:duration:parse: expected string, got {h.display v}"
      | _ => fail "fn:duration:parse: requires 1 argument"
  | _ => none

/-- The first value under a key of an interleaved list. -/
def lookupKey (key : Value) (elems : List Value) : Option Value :=
  ((chunks2 elems).find? (·.1 = key)).map Prod.snd

/-- The constructors and accessors of compounds. -/
def evalCompound (fn : String) (vals : List Value) : Option (Builtin Value) :=
  match fn with
  | "fn:list" => some (.ok (.compound .list vals))
  | "fn:pair" => some <|
      if vals.length = 2 then .ok (.compound .pair vals)
      else fail "fn:pair: requires exactly 2 arguments"
  | "fn:struct" => some <|
      if vals.length % 2 = 0 then .ok (.compound .struct vals)
      else fail "fn:struct: requires even number of arguments (field, value pairs)"
  | "fn:map" => some <|
      if vals.length % 2 = 0 then .ok (.compound .map vals)
      else fail "fn:map: requires even number of arguments (key, value pairs)"
  | "fn:list:get" => some <| match vals with
      | [.compound _ elems, .number idx] =>
          -- a negative index becomes a huge one
          let i := idx.toUInt64.toNat
          match elems[i]? with
          | some v => .ok v
          | none => fail s!"fn:list:get: index {i} out of bounds (len {elems.length})"
      | [_, _] => fail "fn:list:get: expected (compound, number)"
      | _ => fail "fn:list:get: requires 2 arguments (list, index)"
  | "fn:list:append" => some <| match vals with
      | [.compound .list elems, v] => .ok (.compound .list (elems ++ [v]))
      | [_, _] => fail "fn:list:append: expected list as first argument"
      | _ => fail "fn:list:append: requires 2 arguments (list, elem)"
  | "fn:list:len" | "fn:len" => some <| match vals with
      | [.compound _ elems] => .ok (.number (.ofNat elems.length))
      | [_] => fail "fn:len: expected compound value"
      | _ => fail "fn:len: requires 1 argument"
  | "fn:pair:first" => some <| match vals with
      | [.compound _ (v :: _)] => .ok v
      | [_] => fail "fn:pair:first: expected compound with at least 1 element"
      | _ => fail "fn:pair:first: requires 1 argument"
  | "fn:pair:second" => some <| match vals with
      | [.compound _ (_ :: v :: _)] => .ok v
      | [_] => fail "fn:pair:second: expected compound with at least 2 elements"
      | _ => fail "fn:pair:second: requires 1 argument"
  | "fn:struct:get" | "fn:map:get" => some <| match vals with
      | [.compound _ elems, key] =>
          match lookupKey key elems with
          | some v => .ok v
          | none => fail s!"{fn}: key not found"
      | [_, _] => fail s!"{fn}: expected compound value"
      | _ => fail s!"{fn}: requires 2 arguments (compound, key)"
  | "fn:map:len" | "fn:struct:len" => some <| match vals with
      | [.compound _ elems] => .ok (.number (.ofNat (elems.length / 2)))
      | [_] => fail s!"{fn}: expected compound value"
      | _ => fail s!"{fn}: requires 1 argument"
  | "fn:map:keys" => some <| match vals with
      | [.compound _ elems] => .ok (.compound .list ((chunks2 elems).map Prod.fst))
      | [_] => fail "fn:map:keys: expected compound value"
      | _ => fail "fn:map:keys: requires 1 argument"
  | "fn:map:values" | "fn:struct:values" => some <| match vals with
      | [.compound _ elems] => .ok (.compound .list ((chunks2 elems).map Prod.snd))
      | [_] => fail s!"{fn}: expected compound value"
      | _ => fail s!"{fn}: requires 1 argument"
  | _ => none

/-- The functions that do not read the clock. -/
def evalPure (h : Host) (fn : String) (vals : List Value) : Builtin Value :=
  ((evalArith h fn vals <|> evalString h fn vals <|> evalTime h fn vals <|> evalDuration h fn vals
    <|> evalCompound fn vals)).getD (fail s!"Unknown function: {fn}")

/-- `eval_function`. -/
def evalFunction (rt : Runtime) (fn : String) (vals : List Value) : Builtin Value :=
  if fn = "fn:time:now" then
    if vals.isEmpty then .ok (.time rt.now) else fail "fn:time:now: takes no arguments"
  else evalPure rt.host fn vals

end Mangle

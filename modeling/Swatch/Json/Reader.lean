import Swatch.Json.Value

/-!
Reading values. A text that is no value is refused with the reason and the place of the first fault.
-/

namespace Swatch.Json

inductive Fault where
  | expectingValue
  | expectingName
  | expectingColon
  | expectingComma
  | extraData
  | unterminatedString
  | controlCharacter
  | invalidEscape
  | invalidCodeUnit
  | byteOrderMark
  deriving DecidableEq, Repr

def Fault.message : Fault → String
  | .expectingValue => "Expecting value"
  | .expectingName => "Expecting property name enclosed in double quotes"
  | .expectingColon => "Expecting ':' delimiter"
  | .expectingComma => "Expecting ',' delimiter"
  | .extraData => "Extra data"
  | .unterminatedString => "Unterminated string starting at"
  | .controlCharacter => "Invalid control character at"
  | .invalidEscape => "Invalid \\escape"
  | .invalidCodeUnit => "Invalid \\uXXXX escape"
  | .byteOrderMark => "Unexpected UTF-8 BOM (decode using utf-8-sig)"

inductive Container where
  | array
  | object
  deriving DecidableEq, Repr

def Container.name : Container → String
  | .array => "array"
  | .object => "object"

/-- Why a text is not read: a fault, with the number of characters from its place to the end of the
text; a whole number of too many digits; or containers nested too deeply. -/
inductive Refusal where
  | fault (fault : Fault) (remaining : Nat)
  | tooManyDigits (count : Nat)
  | tooDeep (container : Container)
  deriving DecidableEq, Repr

def maxDigits : Nat := 4300

def maxDepth : Nat := 980

def isSpace (c : Char) : Bool :=
  c == ' ' || c == '\t' || c == '\n' || c == '\r'

def skip (cs : List Char) : List Char :=
  cs.dropWhile isSpace

def hexDigit? (c : Char) : Option Nat :=
  if c.isDigit then some (c.toNat - '0'.toNat)
  else if 'a' ≤ c && c ≤ 'f' then some (c.toNat - 'a'.toNat + 10)
  else if 'A' ≤ c && c ≤ 'F' then some (c.toNat - 'A'.toNat + 10)
  else none

def codeUnit? : List Char → Option (Nat × List Char)
  | a :: b :: c :: d :: next :: rest => do
    let unit := ((← hexDigit? a) * 16 + (← hexDigit? b)) * 256 + (← hexDigit? c) * 16 + (← hexDigit? d)
    return (unit, next :: rest)
  | _ => none

def lowUnit? : List Char → Option (Nat × List Char)
  | '\\' :: 'u' :: rest =>
    match codeUnit? rest with
    | some (unit, after) => if 0xDC00 ≤ unit && unit < 0xE000 then some (unit, after) else none
    | none => none
  | _ => none

def escaped? : Char → Option Char
  | '\x22' => some '\x22'
  | '\\' => some '\\'
  | '/' => some '/'
  | 'b' => some '\x08'
  | 'f' => some '\x0c'
  | 'n' => some '\n'
  | 'r' => some '\r'
  | 't' => some '\t'
  | _ => none

/-- Reads the characters of a string up to its closing quote; `start` is what an unterminated string
is reported with. Half of a pair of code units by itself becomes the replacement character. -/
def characters (start : Nat) : (fuel : Nat) → List Char → Except Refusal (List Char × List Char)
  | 0, _ => .error (.fault .unterminatedString start)
  | _ + 1, [] => .error (.fault .unterminatedString start)
  | _ + 1, '\x22' :: rest => .ok ([], rest)
  | _ + 1, ['\\'] => .error (.fault .unterminatedString start)
  | fuel + 1, '\\' :: 'u' :: rest =>
    match codeUnit? rest with
    | none => .error (.fault .invalidCodeUnit (rest.length + 1))
    | some (unit, after) =>
      let (code, after) :=
        if 0xD800 ≤ unit && unit < 0xDC00 then
          match lowUnit? after with
          | some (low, afterLow) => (0x10000 + (unit - 0xD800) * 0x400 + (low - 0xDC00), afterLow)
          | none => (0xFFFD, after)
        else if 0xDC00 ≤ unit && unit < 0xE000 then (0xFFFD, after)
        else (unit, after)
      do
        let (more, rest) ← characters start fuel after
        return (Char.ofNat code :: more, rest)
  | fuel + 1, '\\' :: letter :: rest =>
    match escaped? letter with
    | none => .error (.fault .invalidEscape (rest.length + 2))
    | some c => do
      let (more, rest) ← characters start fuel rest
      return (c :: more, rest)
  | fuel + 1, c :: rest =>
    if c.toNat < 0x20 then .error (.fault .controlCharacter (rest.length + 1))
    else do
      let (more, rest) ← characters start fuel rest
      return (c :: more, rest)

def string (cs : List Char) : Except Refusal (String × List Char) := do
  let (chars, rest) ← characters (cs.length + 1) (cs.length + 1) cs
  return (String.ofList chars, rest)

def wholePart? : List Char → Option (List Char × List Char)
  | '0' :: rest => some (['0'], rest)
  | c :: rest => if c.isDigit then some ((c :: rest).span Char.isDigit) else none
  | [] => none

def fractionPart : List Char → List Char × List Char
  | '.' :: rest =>
    let (digits, after) := rest.span Char.isDigit
    if digits.isEmpty then ([], '.' :: rest) else (digits, after)
  | cs => ([], cs)

def number (cs : List Char) : Except Refusal (Json × List Char) :=
  let (negative, unsigned) :=
    match cs with
    | '-' :: rest => (true, rest)
    | _ => (false, cs)
  match wholePart? unsigned with
  | none => .error (.fault .expectingValue cs.length)
  | some (whole, afterWhole) =>
    let (fraction, afterFraction) := fractionPart afterWhole
    let (exponent, rest) := Decimal.exponentPart (·.span Char.isDigit) afterFraction
    if rest.length == afterWhole.length then
      if maxDigits < whole.length then .error (.tooManyDigits whole.length)
      else
        let n : Int := Text.digitsValue whole
        .ok (.int (if negative then -n else n), rest)
    else
      let d : Decimal :=
        ⟨negative, Text.digitsValue (whole ++ fraction), exponent - fraction.length⟩
      .ok (.float (Binary64.nearest d), rest)

def keywords : List (String × Json) :=
  [("null", .null), ("true", .bool true), ("false", .bool false), ("NaN", .float (0.0 / 0.0)),
   ("Infinity", .float (1.0 / 0.0)), ("-Infinity", .float (-1.0 / 0.0))]

def scalar (cs : List Char) : Except Refusal (Json × List Char) :=
  let keyword? := keywords.findSome? fun (word, value) =>
    (word.toList.isPrefixOf? cs).map fun rest => (value, rest)
  match keyword? with
  | some found => .ok found
  | none => number cs

mutual

def value : (fuel depth : Nat) → List Char → Except Refusal (Json × List Char)
  | 0, _, cs => .error (.fault .expectingValue cs.length)
  | _ + 1, _, '\x22' :: rest => do
    let (s, rest) ← string rest
    return (.str s, rest)
  | fuel + 1, depth, '[' :: rest =>
    match depth with
    | 0 => .error (.tooDeep .array)
    | depth + 1 =>
      match skip rest with
      | ']' :: after => .ok (.arr [], after)
      | inside => do
        let (items, rest) ← elements fuel depth inside
        return (.arr items, rest)
  | fuel + 1, depth, '\x7b' :: rest =>
    match depth with
    | 0 => .error (.tooDeep .object)
    | depth + 1 =>
      match skip rest with
      | '\x7d' :: after => .ok (.obj [], after)
      | inside => do
        let (pairs, rest) ← members fuel depth inside
        return (.obj (pairs.foldl (fun found pair => setMember pair.1 pair.2 found) []), rest)
  | _ + 1, _, cs => scalar cs

def elements : (fuel depth : Nat) → List Char → Except Refusal (List Json × List Char)
  | 0, _, cs => .error (.fault .expectingValue cs.length)
  | fuel + 1, depth, cs => do
    let (item, rest) ← value fuel depth cs
    match skip rest with
    | ']' :: after => return ([item], after)
    | ',' :: after =>
      let (items, rest) ← elements fuel depth (skip after)
      return (item :: items, rest)
    | other => .error (.fault .expectingComma other.length)

def members : (fuel depth : Nat) → List Char → Except Refusal (List (String × Json) × List Char)
  | 0, _, cs => .error (.fault .expectingName cs.length)
  | fuel + 1, depth, cs =>
    match cs with
    | '\x22' :: inside => do
      let (name, rest) ← string inside
      match skip rest with
      | ':' :: afterColon =>
        let (item, rest) ← value fuel depth (skip afterColon)
        match skip rest with
        | '\x7d' :: after => return ([(name, item)], after)
        | ',' :: after =>
          let (more, rest) ← members fuel depth (skip after)
          return ((name, item) :: more, rest)
        | other => .error (.fault .expectingComma other.length)
      | other => .error (.fault .expectingColon other.length)
    | _ => .error (.fault .expectingName cs.length)

end

def ofChars (cs : List Char) : Except Refusal Json :=
  match cs with
  | '\uFEFF' :: _ => .error (.fault .byteOrderMark cs.length)
  | _ => do
    let start := skip cs
    let (found, rest) ← value (2 * start.length + 1) maxDepth start
    match skip rest with
    | [] => return found
    | extra => .error (.fault .extraData extra.length)

def lineAndColumn (cs : List Char) (offset : Nat) : Nat × Nat :=
  let before := cs.take offset
  (before.count '\n' + 1, (before.reverse.takeWhile (· ≠ '\n')).length + 1)

def faultMessage (cs : List Char) (fault : Fault) (remaining : Nat) : String :=
  let offset := cs.length - remaining
  let (line, column) := lineAndColumn cs offset
  fault.message ++ ": line " ++ toString line ++ " column " ++ toString column ++
    " (char " ++ toString offset ++ ")"

def tooManyDigitsMessage (count : Nat) : String :=
  "Exceeds the limit (" ++ toString maxDigits ++
    " digits) for integer string conversion: value has " ++ toString count ++
    " digits; use sys.set_int_max_str_digits() to increase the limit"

def tooDeepMessage (container : Container) : String :=
  "maximum recursion depth exceeded while decoding a JSON " ++ container.name ++
    " from a unicode string"

end Swatch.Json

import Swatch.Json.Shown
import Swatch.Number.Scalar

/-!
Messages with gaps that values fill in. A gap begins with a percent sign and ends with a letter that
says as what its value is written; between them stand flags, the width of the gap and how exact the
value is to be. A name in parentheses takes the value of that name.
-/

namespace Swatch.Log.Template

/-- How a gap is filled: flush left, with a plus or a blank for the sign, with a mark of the base,
with zeros, and at least so wide and so exact. -/
structure Gap where
  left : Bool := false
  plus : Bool := false
  blank : Bool := false
  marked : Bool := false
  zeros : Bool := false
  width : Nat := 0
  precision : Option Nat := none
  deriving DecidableEq, Repr

inductive Fault where
  | tooFew
  | tooMany
  | unfinished
  | unfinishedName
  | noNames
  | unknownName (name : String)
  | unknownLetter (letter : Char) (index : Nat)
  | notNumber (letter : Char) (kind : String)
  | notWhole (letter : Char) (kind : String)
  | notReal (kind : String)
  | notCharacter
  | noSuchCharacter
  | sizeNotWhole
  | tooLarge
  | arithmetic (e : ArithmeticError)
  deriving DecidableEq, Repr

def Fault.message : Fault → String
  | .tooFew => "not enough arguments for format string"
  | .tooMany => "not all arguments converted during string formatting"
  | .unfinished => "incomplete format"
  | .unfinishedName => "incomplete format key"
  | .noNames => "format requires a mapping"
  | .unknownName name => Text.quoted name
  | .unknownLetter letter index =>
    let n := letter.toNat
    "unsupported format character '" ++ (if 31 ≤ n && n < 127 then letter.toString else "?") ++
      "' (0x" ++ String.ofList (Nat.toDigits 16 n) ++ ") at index " ++ toString index
  | .notNumber letter kind =>
    "%" ++ letter.toString ++ " format: a real number is required, not " ++ kind
  | .notWhole letter kind =>
    "%" ++ letter.toString ++ " format: an integer is required, not " ++ kind
  | .notReal kind => "must be real number, not " ++ kind
  | .notCharacter => "%c requires int or char"
  | .noSuchCharacter => "%c arg not in range(0x110000)"
  | .sizeNotWhole => "* wants int"
  | .tooLarge => "int too large to convert to float"
  | .arithmetic e => e.message

def kind : Json → String
  | .null => "NoneType"
  | .bool _ => "bool"
  | .int _ => "int"
  | .float _ => "float"
  | .str _ => "str"
  | .arr _ => "list"
  | .obj _ => "dict"

/-- The values that are still to be filled in, and those that are known by name. -/
structure Supply where
  values : List Json
  named : Option (List (String × Json))

def Supply.draw (s : Supply) : Except Fault (Json × Supply) :=
  match s.values with
  | value :: rest => .ok (value, { s with values := rest })
  | [] => .error .tooFew

def name? : (depth : Nat) → List Char → Option (List Char × List Char)
  | _, [] => none
  | 0, ')' :: rest => some ([], rest)
  | depth + 1, ')' :: rest => (name? depth rest).map fun (name, rest) => (')' :: name, rest)
  | depth, '(' :: rest => (name? (depth + 1) rest).map fun (name, rest) => ('(' :: name, rest)
  | depth, c :: rest => (name? depth rest).map fun (name, rest) => (c :: name, rest)

def readName (cs : List Char) (s : Supply) : Except Fault (List Char × Supply) :=
  match cs with
  | '(' :: rest =>
    match s.named, name? 0 rest with
    | none, _ => .error .noNames
    | some _, none => .error .unfinishedName
    | some members, some (name, rest) =>
      match members.lookup (String.ofList name) with
      | none => .error (.unknownName (String.ofList name))
      | some value => .ok (rest, { s with values := [value] })
  | _ => .ok (cs, s)

def readFlags (g : Gap) : List Char → Gap × List Char
  | '-' :: rest => readFlags { g with left := true } rest
  | '+' :: rest => readFlags { g with plus := true } rest
  | ' ' :: rest => readFlags { g with blank := true } rest
  | '#' :: rest => readFlags { g with marked := true } rest
  | '0' :: rest => readFlags { g with zeros := true } rest
  | cs => (g, cs)

def readSize (cs : List Char) (s : Supply) : Except Fault (Int × List Char × Supply) :=
  match cs with
  | '*' :: rest => do
    match ← s.draw with
    | (.int n, s) => return (n, rest, s)
    | (.bool b, s) => return (b.toNat, rest, s)
    | _ => throw .sizeNotWhole
  | _ =>
    let (digits, rest) := cs.span Char.isDigit
    .ok (Text.digitsValue digits, rest, s)

def readGap (cs : List Char) (s : Supply) : Except Fault (Gap × List Char × Supply) := do
  let (cs, s) ← readName cs s
  let (g, cs) := readFlags {} cs
  let (width, cs, s) ← readSize cs s
  let g := { g with left := g.left || width < 0, width := width.natAbs }
  let (precision, cs, s) ←
    match cs with
    | '.' :: rest => do
      let (n, rest, s) ← readSize rest s
      pure (some n.toNat, rest, s)
    | _ => pure (none, cs, s)
  let cs :=
    match cs with
    | 'h' :: rest | 'l' :: rest | 'L' :: rest => rest
    | _ => cs
  return ({ g with precision := precision }, cs, s)

/-- A value's text: the sign and the mark of the base, if it is a number, and the rest. -/
inductive Parts where
  | text (body : List Char)
  | number (negative : Bool) (mark body : List Char)
  deriving DecidableEq, Repr

def Parts.fill (g : Gap) (p : Parts) : List Char :=
  let (front, body, filler) :=
    match p with
    | .text body => ([], body, ' ')
    | .number negative mark body =>
      let sign :=
        if negative then ['-'] else if g.plus then ['+'] else if g.blank then [' '] else []
      (sign ++ mark, body, if g.zeros then '0' else ' ')
  let missing := g.width - (front.length + body.length)
  if g.left then front ++ body ++ List.replicate missing ' '
  else if filler = '0' then front ++ List.replicate missing '0' ++ body
  else List.replicate missing ' ' ++ front ++ body

def wholeParts (g : Gap) (base : Nat) (mark : String) (upper : Bool) (n : Int) : Parts :=
  let digits := Nat.toDigits base n.natAbs
  let digits := if upper then digits.map Char.toUpper else digits
  .number (n < 0) (if g.marked then mark.toList else [])
    (List.replicate (g.precision.getD 0 - digits.length) '0' ++ digits)

def fixedParts (g : Gap) (upper : Bool) (x : Float) : Parts :=
  let body := ((Binary64.exact x.abs).fixed (g.precision.getD 6)).toList
  let body := if g.marked && g.precision = some 0 && x.isFinite then body ++ ['.'] else body
  let negative :=
    match Binary64.exact x with
    | .finite negative _ | .infinite negative => negative
    | .notANumber => false
  .number negative [] (if upper then body.map Char.toUpper else body)

def whole? : Json → Option Int
  | .int n => some n
  | .bool b => some b.toNat
  | _ => none

def parts? (g : Gap) (letter : Char) (value : Json) : Option (Except Fault Parts) :=
  let text (s : String) : Parts :=
    .text (match g.precision with
      | some n => s.toList.take n
      | none => s.toList)
  let decimal : Except Fault Parts :=
    match value, whole? value with
    | _, some n => .ok (wholeParts g 10 "" false n)
    | .float x, _ => ((Scalar.truncate x).map (wholeParts g 10 "" false)).mapError .arithmetic
    | _, _ => .error (.notNumber letter (kind value))
  let based (base : Nat) (mark : String) (upper : Bool) : Except Fault Parts :=
    match whole? value with
    | some n => .ok (wholeParts g base mark upper n)
    | none => .error (.notWhole letter (kind value))
  let fixed (upper : Bool) : Except Fault Parts :=
    match value, whole? value with
    | .float x, _ => .ok (fixedParts g upper x)
    | _, some n =>
      if (Decimal.ofInt n).isFinite then
        .ok (fixedParts g upper (Binary64.nearest (Decimal.ofInt n)))
      else .error .tooLarge
    | _, _ => .error (.notReal (kind value))
  let character : Except Fault Parts :=
    match value, whole? value with
    | .str s, _ => if s.length = 1 then .ok (.text s.toList) else .error .notCharacter
    | _, some n =>
      if 0 ≤ n && n < 0x110000 then .ok (.text [Char.ofNat n.toNat]) else .error .noSuchCharacter
    | _, _ => .error .notCharacter
  match letter with
  | 's' => some (.ok (text value.shownText))
  | 'r' => some (.ok (text value.shown))
  | 'd' | 'i' | 'u' => some decimal
  | 'o' => some (based 8 "0o" false)
  | 'x' => some (based 16 "0x" false)
  | 'X' => some (based 16 "0X" true)
  | 'f' => some (fixed false)
  | 'F' => some (fixed true)
  | 'c' => some character
  | _ => none

def fillFrom (length : Nat) : (fuel : Nat) → List Char → Supply → Except Fault (List Char)
  | 0, _, _ => .ok []
  | _ + 1, [], s => if s.named.isNone && !s.values.isEmpty then .error .tooMany else .ok []
  | fuel + 1, '%' :: rest, s => do
    let (g, rest, s) ← readGap rest s
    match rest with
    | [] => throw .unfinished
    | '%' :: rest => ('%' :: ·) <$> fillFrom length fuel rest s
    | letter :: rest =>
      let (value, s) ← s.draw
      match parts? g letter value with
      | none => throw (.unknownLetter letter (length - rest.length - 1))
      | some parts =>
        let parts ← parts
        (parts.fill g ++ ·) <$> fillFrom length fuel rest s
  | fuel + 1, c :: rest, s => (c :: ·) <$> fillFrom length fuel rest s

def fill (template : String) (values : List Json) : Except Fault String :=
  let cs := template.toList
  let filled (named : Option (List (String × Json))) :=
    String.ofList <$> fillFrom cs.length (cs.length + 1) cs ⟨values, named⟩
  match values with
  | [] => .ok template
  | [.obj (member :: members)] => filled (some (member :: members))
  | _ => filled none

end Swatch.Log.Template

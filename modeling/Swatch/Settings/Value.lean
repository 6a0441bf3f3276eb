import Swatch.Json.Value
import Swatch.Keyed
import Swatch.Settings.Basic
import Swatch.Text.Case

/-!
The values of settings as they are written down. Numbers may be given as texts, and lists as one
text with commas.
-/

namespace Swatch.Settings

inductive Fault where
  | notAllowed
  | notText
  | notWhole
  | notWholeText
  | tooLarge
  | fraction
  | notFinite
  | notNumber
  | notNumberText
  | tooSmall
  deriving DecidableEq, Repr

def Fault.name : Fault → String
  | .notAllowed => "value_error"
  | .notText => "string_type"
  | .notWhole => "int_type"
  | .notWholeText => "int_parsing"
  | .tooLarge => "int_parsing_size"
  | .fraction => "int_from_float"
  | .notFinite => "finite_number"
  | .notNumber => "float_type"
  | .notNumberText => "float_parsing"
  | .tooSmall => "greater_than_equal"

/-- White space around a number: the blanks apart from the four separators of information. -/
def isSpace (c : Char) : Bool :=
  Text.isBlank c && !(0x1C ≤ c.toNat && c.toNat ≤ 0x1F)

def trim (cs : List Char) : List Char :=
  ((cs.dropWhile isSpace).reverse.dropWhile isSpace).reverse

def dropUnderscores (cs : List Char) : List Char :=
  let single := (cs.zip (cs.drop 1)).all fun (a, b) => !(a == '_' && b == '_')
  if cs.head? == some '_' || cs.getLast? == some '_' || !single then cs
  else cs.filter (· ≠ '_')

/-- Drops the zeros and underscores after a first zero, but leaves a zero before a point or at the
end. -/
def dropZerosAfter : (last : Char) → List Char → Option (List Char)
  | last, [] => some [last]
  | last, c :: rest =>
    if c == '0' || c == '_' then dropZerosAfter c rest
    else if c.isDigit then some (c :: rest)
    else if c == '.' then some (last :: c :: rest)
    else none

def dropZeros : List Char → Option (List Char)
  | [] => none
  | c :: rest =>
    if c == '0' then dropZerosAfter c rest
    else if c.isDigit || c == '-' then some (c :: rest)
    else none

def dropFraction (cs : List Char) : List Char :=
  if (cs.dropWhile (· ≠ '.')).drop 1 |>.all (· == '0') then cs.takeWhile (· ≠ '.') else cs

def maxLength : Nat := 4300

/-- Reads a whole number that is written as usual: no zero in front, and a minus if negative. -/
def plainWhole (cs : List Char) : Except Fault Int :=
  let digits := if cs.head? == some '-' then cs.drop 1 else cs
  if digits.isEmpty || !digits.all Char.isDigit then .error .notWholeText
  else if digits.head? == some '0' && digits.length ≠ 1 then .error .notWholeText
  else if maxLength < cs.length then .error .tooLarge
  else
    let n : Int := Text.digitsValue digits
    .ok (if cs.head? == some '-' then -n else n)

def wholeOfText (s : String) : Except Fault Int :=
  let unsigned :=
    match trim s.toList with
    | '+' :: '-' :: _ => []
    | '+' :: rest => rest
    | cs => cs
  match dropZeros unsigned with
  | none => .error .notWholeText
  | some cs => plainWhole (dropUnderscores (dropFraction cs))

/-- The least magnitude at which a number with a point or an exponent is too large to be whole. -/
def maxMagnitude : Nat := Nat.pow 2 63

def whole : Json → Except Fault Int
  | .int n => .ok n
  | .bool b => .ok (if b then 1 else 0)
  | .str s => wholeOfText s
  | .float x =>
    match Binary64.exact x with
    | .finite negative magnitude =>
      if magnitude.den ≠ 1 then .error .fraction
      else if (maxMagnitude : Int) ≤ magnitude.num then .error .tooLarge
      else .ok (if negative then -magnitude.num else magnitude.num)
    | _ => .error .notFinite
  | _ => .error .notWhole

def positive (v : Json) : Except Fault { n : Nat // 0 < n } := do
  let n ← whole v
  if h : 0 < n.toNat then return ⟨n.toNat, h⟩ else throw .tooSmall

def words : List (String × Float) :=
  [("inf", 1.0 / 0.0), ("infinity", 1.0 / 0.0), ("nan", 0.0 / 0.0)]

def plainNumber? (cs : List Char) : Option Float :=
  let (negative, unsigned) := Decimal.sign cs
  match words.lookup (String.ofList (unsigned.map Char.toLower)) with
  | some x => some (if negative then -x else x)
  | none =>
    match Decimal.unsigned? (·.span Char.isDigit) negative unsigned with
    | some (d, []) => some (Binary64.nearest d)
    | _ => none

def numberOfText (s : String) : Except Fault Float :=
  let cs := s.toList
  match plainNumber? (trim cs) with
  | some x => .ok x
  | none =>
    match plainNumber? (dropUnderscores cs) with
    | some x => .ok x
    | none => .error .notNumberText

def number : Json → Except Fault Float
  | .int n => if (Decimal.ofInt n).isFinite then .ok (Binary64.nearest (Decimal.ofInt n))
    else .error .notNumber
  | .float x => .ok x
  | .bool b => .ok (if b then 1.0 else 0.0)
  | .str s => numberOfText s
  | _ => .error .notNumber

def seconds (v : Json) : Except Fault Float := do
  let x ← number v
  if 0.0 ≤ x then return x else throw .tooSmall

/-- Reads a list of texts: an array of them, or one text in which commas separate them. -/
def texts : Json → Except Fault (List String)
  | .str s =>
    .ok (((s.toList.splitOn ',').map Text.trim).filter (!·.isEmpty) |>.map String.ofList)
  | .arr items =>
    items.mapM fun item =>
      match item with
      | .str s => .ok s
      | _ => .error .notAllowed
  | _ => .error .notAllowed

def level : Json → Except Fault Log.Level
  | .str s =>
    match Log.Level.all.find? fun x => x.name = Text.upper s with
    | some x => .ok x
    | none => .error .notAllowed
  | _ => .error .notText

def logFormatOf : Json → Except Fault Log.Format
  | .str "text" => .ok .text
  | .str "json" => .ok .json
  | .str _ => .error .notAllowed
  | _ => .error .notText

abbrev Values := Keyed Setting Json

def read {α : Type} (vs : Values) (s : Setting) (reader : Json → Except Fault α) (otherwise : α) :
    Except Fault α :=
  match vs.get? s with
  | some v => reader v
  | none => .ok otherwise

def fault? {α : Type} (s : Setting) : Except Fault α → Option (Setting × Fault)
  | .ok _ => none
  | .error fault => some (s, fault)

def ofValues (vs : Values) : Except (List (Setting × Fault)) Settings :=
  let languages := read vs .languages texts default.languages
  let stylesheetPatterns := read vs .stylesheetPatterns texts default.stylesheetPatterns
  let excludePatterns := read vs .excludePatterns texts default.excludePatterns
  let maxStylesheets :=
    read vs .maxStylesheets positive ⟨default.maxStylesheets, default.maxStylesheets_pos⟩
  let debounce := read vs .debounce seconds default.debounce
  let chunkSize := read vs .chunkSize positive ⟨default.chunkSize, default.chunkSize_pos⟩
  let pause := read vs .pause seconds default.pause
  let logLevel := read vs .logLevel level default.logLevel
  let logFormat := read vs .logFormat logFormatOf default.logFormat
  match languages, stylesheetPatterns, excludePatterns, maxStylesheets, debounce, chunkSize, pause,
    logLevel, logFormat with
  | .ok languages, .ok stylesheetPatterns, .ok excludePatterns, .ok ⟨maxStylesheets, h⟩,
    .ok debounce, .ok ⟨chunkSize, h'⟩, .ok pause, .ok logLevel, .ok logFormat =>
    .ok
      { languages := languages
        stylesheetPatterns := stylesheetPatterns
        excludePatterns := excludePatterns
        maxStylesheets := maxStylesheets
        debounce := debounce
        chunkSize := chunkSize
        pause := pause
        logLevel := logLevel
        logFormat := logFormat
        maxStylesheets_pos := h
        chunkSize_pos := h' }
  | _, _, _, _, _, _, _, _, _ =>
    .error
      ([fault? .languages languages, fault? .stylesheetPatterns stylesheetPatterns,
        fault? .excludePatterns excludePatterns, fault? .maxStylesheets maxStylesheets,
        fault? .debounce debounce, fault? .chunkSize chunkSize, fault? .pause pause,
        fault? .logLevel logLevel, fault? .logFormat logFormat].filterMap id)

def toJson (s : Settings) : Json :=
  let texts (ts : List String) : Json := .arr (ts.map .str)
  let value : Setting → Json
    | .languages => texts s.languages
    | .stylesheetPatterns => texts s.stylesheetPatterns
    | .excludePatterns => texts s.excludePatterns
    | .maxStylesheets => .int s.maxStylesheets
    | .debounce => .float s.debounce
    | .chunkSize => .int s.chunkSize
    | .pause => .float s.pause
    | .logLevel => .str s.logLevel.name
    | .logFormat => .str s.logFormat.name
  .obj (Setting.all.map fun setting => (setting.name, value setting))

end Swatch.Settings

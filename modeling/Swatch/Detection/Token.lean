import Swatch.Color.Reader
import Swatch.Stylesheet.Reference

/-!
The tokens that may stand for a colour in a document: literals, references, utility classes and
class attributes.
-/

namespace Swatch.Token

open Text

def between (cs after : List Char) : List Char :=
  cs.take (cs.length - after.length)

/-- A hexadecimal literal: a sign and three, four, six or eight digits that no word character
follows. -/
def hex? : Recogniser (List Char) := fun _ cs =>
  match cs with
  | '#' :: rest =>
    let (digits, after) := rest.span isWord
    if digits.all isHex && [3, 4, 6, 8].contains digits.length then some ('#' :: digits, after)
    else none
  | _ => none

def functionHead? (cs : List Char) : Option (List Char × List Char) := do
  let rest ← (afterFolded? ['r', 'g', 'b'] cs).orElse fun _ => afterFolded? ['h', 's', 'l'] cs
  let unmarked :=
    match rest with
    | c :: after => if isSpellingOf 'a' c then after else rest
    | [] => rest
  match unmarked with
  | '(' :: body => some (between cs unmarked, body)
  | _ => none

/-- A call of a colour function that stays on its line and holds no brace, up to the first closing
parenthesis. -/
def function? : Recogniser (List Char) := fun before cs =>
  if startsAfter isWord before then do
    let (_, body) ← functionHead? cs
    match body.dropWhile fun c => c != ')' && c != '\x7b' && c != '\r' && c != '\n' with
    | ')' :: after => some (between cs after, after)
    | _ => none
  else none

def compact? : Recogniser (List Char) := fun before cs =>
  if startsAfter (fun c => isWord c || c == '#' || c == '(') before then
    (CompactTriple.read? cs).map fun (_, after) => (between cs after, after)
  else none

def reference? : Recogniser (List Char × List Char) := fun before cs =>
  (Reference.read? before cs).map fun (name, after) => ((name, between cs after), after)

/-- A reference that is the only argument of a colour function. -/
structure Wrapped where
  function : List Char
  name : List Char
  spelling : List Char

def wrapped? : Recogniser Wrapped := fun before cs =>
  if startsAfter isWord before then do
    let (function, body) ← functionHead? cs
    match ← afterFolded? ['v', 'a', 'r'] (trimStart body) with
    | '(' :: inner =>
      let (name, rest) ← Reference.body? inner
      match trimStart rest with
      | ')' :: after => some (⟨function, name, between cs after⟩, after)
      | _ => none
    | _ => none
  else none

def utilityPrefixes : List String :=
  ["bg", "text", "border", "ring", "shadow", "from", "via", "to", "outline", "decoration", "divide",
   "accent", "caret"]

def utilityName? (cs : List Char) : Option (List Char × List Char) := do
  let (first, rest) ← run? isWord cs
  match rest with
  | '-' :: more =>
    match run? isWord more with
    | some (second, after) => some (first ++ '-' :: second, after)
    | none => some (first, rest)
  | _ => some (first, rest)

def utility? : Recogniser (List Char × List Char) := fun before cs =>
  if startsAfter isWord before then
    utilityPrefixes.findSome? fun beginning =>
      match after? beginning cs with
      | some ('-' :: rest) =>
        (utilityName? rest).map fun (name, after) => ((name, between cs after), after)
      | _ => none
  else none

def isQuote (c : Char) : Bool :=
  c == '\x22' || c == '\''

def classAttribute? : Recogniser (Nat × List Char) := fun _ cs =>
  match after? "class" cs with
  | some rest =>
    match trimStart rest with
    | '=' :: rest =>
      match trimStart rest with
      | quote :: rest =>
        let (value, after) := rest.span (!isQuote ·)
        match after with
        | _ :: afterQuote =>
          if isQuote quote && !value.isEmpty then
            some ((cs.length - rest.length, value), afterQuote)
          else none
        | [] => none
      | [] => none
    | _ => none
  | none => none

def word? : Recogniser (List Char) := fun _ cs =>
  run? (!isBlank ·) cs

end Swatch.Token

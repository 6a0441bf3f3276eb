import Swatch.Text.Scan

/-!
Custom properties in the text of a stylesheet, found without a grammar of the language.

A declaration runs to its semicolon and may go over several lines. Without a semicolon it ends
before a closing brace or at the end of its line, as dialects that go by indentation have it. A
value never goes on over a blank line or onto a line that declares something else.
-/

namespace Swatch

open Text

/-- A custom property in a text; `start` and `stop` delimit its name. -/
structure CustomProperty where
  name : String
  value : String
  start : Nat
  stop : Nat
  deriving DecidableEq, Repr

namespace CustomProperty

def name? : List Char → Option (List Char × List Char)
  | '-' :: '-' :: rest =>
    (run? isName rest).map fun (taken, after) => ('-' :: '-' :: taken, after)
  | _ => none

def meetsColon (cs : List Char) : Bool :=
  (cs.dropWhile isSpace).head? == some ':'

def lineDeclares : (before : Option Char) → List Char → Bool
  | _, [] => false
  | before, c :: rest =>
    let here :=
      startsAfter isName before &&
        (match name? (c :: rest) with
         | some (_, after) => meetsColon after
         | none => false)
    here || (c != '\n' && lineDeclares (some c) rest)

/-- Whether a value ends before a line: the line is blank, starts with a property of some kind, or
declares a custom property. -/
def endsValue (line : List Char) : Bool :=
  let unindented := line.dropWhile isSpace
  unindented.head? == some '\n' ||
    (match run? isName unindented with
     | some (_, after) => meetsColon after
     | none => false) ||
    lineDeclares (some '\n') line

def isValueStart : List Char → Bool
  | [] => false
  | c :: rest =>
    c != ';' && c != '\x7b' && c != '\x7d' && !(c == '\n' && endsValue rest)

def terminated? : List Char → Option (List Char × List Char)
  | [] => none
  | c :: rest =>
    if isValueStart (c :: rest) then
      match trimStart rest with
      | ';' :: after => some ([c], after)
      | _ => (terminated? rest).map fun (value, after) => (c :: value, after)
    else none

/-- Whether a declaration without a semicolon may end here: before a closing brace, at the end of
a line or at the end of the text. -/
def endsLine : List Char → Bool
  | [] => true
  | c :: _ => c == '\n' || c == '\x7d'

def unterminated? : List Char → Option (List Char × List Char)
  | [] => none
  | c :: rest =>
    if c == ';' || c == '\x7b' || c == '\x7d' || c == '\n' then none
    else
      let after := rest.dropWhile isSpace
      if endsLine after then some ([c], after)
      else (unterminated? rest).map fun (value, after) => (c :: value, after)

def valueAt? (cs : List Char) : Option (List Char × List Char) :=
  (terminated? cs).orElse fun _ => unterminated? cs

/-- Reads a value after up to `blanks` characters of white space, as many of them as possible. -/
def valueAfter? : (blanks : Nat) → List Char → Option (List Char × List Char)
  | 0, cs => valueAt? cs
  | blanks + 1, cs => (valueAt? (cs.drop (blanks + 1))).orElse fun _ => valueAfter? blanks cs

def read? : Recogniser (List Char × List Char) := fun before cs =>
  if startsAfter isName before then
    match name? cs with
    | some (name, afterName) =>
      match trimStart afterName with
      | ':' :: rest =>
        (valueAfter? (rest.takeWhile isBlank).length rest).map fun (value, after) =>
          ((name, value), after)
      | _ => none
    | none => none
  else none

def ofHit? (hit : Hit (List Char × List Char)) : Option CustomProperty :=
  let (name, value) := hit.value
  let trimmed := trim value
  if trimmed.isEmpty then none
  else some ⟨String.ofList name, String.ofList trimmed, hit.start, hit.start + name.length⟩

def all (cs : List Char) : List CustomProperty :=
  (hits read? cs).filterMap ofHit?

end CustomProperty

end Swatch

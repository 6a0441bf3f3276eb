import Swatch.Stylesheet.Declaration
import Swatch.Text.Scan
import Swatch.Text.Case

/-!
Selectors: finding the one whose block encloses a place, and what it says about the declarations in
the block.
-/

namespace Swatch.Selector

open Text

def default : String := ":root"

def isDelimiter (c : Char) : Bool :=
  c == '\x7b' || c == '\x7d' || c == ';'

/-- Looks for the innermost open brace, given the text before a place in reverse, and answers the
text before the brace, in reverse too; `depth` counts the closing braces passed. -/
def beforeOpenBrace? : (depth : Nat) → List Char → Option (List Char)
  | _, [] => none
  | depth, c :: rest =>
    if c == '\x7d' then beforeOpenBrace? (depth + 1) rest
    else if c == '\x7b' then
      match depth with
      | 0 => some rest
      | depth + 1 => beforeOpenBrace? depth rest
    else beforeOpenBrace? depth rest

/-- The selector on a line, if it holds one: what follows the last brace or semicolon, unless it is
blank or part of a comment. -/
def onLine? (line : List Char) : Option (List Char) :=
  let candidate := trim (line.reverse.takeWhile (!isDelimiter ·)).reverse
  if candidate.isEmpty || ['/', '*'].isPrefixOf candidate || ['*', '/'].isSuffixOf candidate then
    none
  else some (collapseBlanks candidate)

/-- The selector of the block that encloses an index of a text: the last one on the lines before
its open brace. -/
def enclosing (cs : List Char) (index : Int) : String :=
  match beforeOpenBrace? 0 (cs.take index.toNat).reverse with
  | none => default
  | some reversed =>
    match ((reversed.reverse.splitOn '\n').reverse).findSome? onLine? with
    | some selector => String.ofList selector
    | none => default

/-- Reads the beginning of a class or id selector: its mark, an optional hyphen, and a name that
begins with an ASCII letter or an underscore. -/
def simple? (mark : Char) : Recogniser Unit := fun _ cs =>
  match cs with
  | c :: rest =>
    if c == mark then
      let unhyphenated :=
        match rest with
        | '-' :: after => after
        | _ => rest
      match unhyphenated with
      | d :: after => if d.isAlpha || d == '_' then some ((), after.dropWhile isName) else none
      | [] => none
    else none
  | [] => none

/-- Reads the condition of a media rule. Of white space alone, the last character counts. -/
def media? : Recogniser (List Char) := fun _ cs =>
  match after? "@media" cs with
  | some rest =>
    let blanks := rest.takeWhile isBlank
    let (condition, after) := (rest.dropWhile isBlank).span (· != '\x7b')
    if blanks.isEmpty then none
    else if condition.isEmpty then
      if blanks.length < 2 then none else some ([], after)
    else some (condition, after)
  | none => none

def occurs (needle : String) : List Char → Bool
  | [] => needle.isEmpty
  | c :: rest => needle.toList.isPrefixOf (c :: rest) || occurs needle rest

def darkMarks : List String :=
  [".dark", "[data-theme=\"dark\"]", "[data-mode=\"dark\"]"]

def lightMarks : List String :=
  [".light", "[data-theme=\"light\"]"]

/-- The specificity of a selector that is the root or not and has so many classes and an id or not:
one for the root, ten for each class, a hundred for an id where there is no class. -/
def specificity (isRoot : Bool) (classes : Nat) (hasId : Bool) : Int :=
  if isRoot then 1
  else if classes ≠ 0 then 10 * classes
  else if hasId then 100
  else 0

def context (selector : String) : SelectorContext :=
  let normal := trim (lower selector).toList
  let isRoot := normal == ":root".toList || normal == "html".toList
  let classes := (hits (simple? '.') normal).length
  { kind :=
      if isRoot then .root
      else if classes ≠ 0 || normal.contains '[' then .classes
      else if occurs "@media" normal then .media
      else .other
    specificity := specificity isRoot classes !(hits (simple? '#') normal).isEmpty
    theme :=
      if darkMarks.any (occurs · normal) then some .dark
      else if lightMarks.any (occurs · normal) then some .light
      else none
    media := (hits media? selector.toList).head?.map fun hit => String.ofList (trim hit.value) }

end Swatch.Selector

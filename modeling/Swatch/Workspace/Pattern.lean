import Swatch.Text.Blank
import Swatch.Text.Quoted

/-!
Patterns of paths. A pattern names a file or a folder, and what it says of a folder it says of all
below it. A pattern with a slash before its end starts at the top, another one anywhere. Two
asterisks stand for any folders, one for any characters of a name. Of several patterns the last one
that matches decides; one with an exclamation mark takes back what earlier ones said.
-/

namespace Swatch

namespace Pattern

/-- What matches within a path. A set of characters may match a slash, if it is negated or has one
within a range; nothing else but `slash` and `folders` does. -/
inductive Piece where
  | char (c : Char)
  | anyChar
  | anyChars
  | oneOf (negated : Bool) (ranges : List (Char × Char))
  | slash
  | folders
  deriving DecidableEq, Repr

/-- What a pattern matches. A path `rule` that is `floating` may start at any folder; one that is
`inside` matches only what is below a folder. -/
inductive Rule where
  | nothing
  | everything
  | belowFolder
  | path (floating : Bool) (pieces : List Piece) (inside : Bool)
  deriving DecidableEq, Repr

end Pattern

/-- A pattern: whether it takes in what it matches, or takes it back, and what it matches. -/
structure Pattern where
  includes : Bool
  rule : Pattern.Rule
  deriving DecidableEq, Repr

namespace Pattern

def afterChars (accept : List Char → Bool) : List Char → Bool
  | [] => accept []
  | c :: rest => accept (c :: rest) || (c ≠ '/' && afterChars accept rest)

def someEnd (accept : List Char → Bool) : List Char → Bool
  | [] => accept []
  | c :: rest => accept (c :: rest) || someEnd accept rest

def afterSlash (accept : List Char → Bool) : List Char → Bool
  | [] => false
  | c :: rest => (c == '/' && accept rest) || afterSlash accept rest

def accepts : List Piece → (List Char → Bool) → List Char → Bool
  | [], accept, cs => accept cs
  | .char c :: pieces, accept, d :: rest => c == d && accepts pieces accept rest
  | .anyChar :: pieces, accept, d :: rest => d ≠ '/' && accepts pieces accept rest
  | .anyChars :: pieces, accept, cs => afterChars (accepts pieces accept) cs
  | .oneOf negated ranges :: pieces, accept, d :: rest =>
    (ranges.any fun (a, b) => a ≤ d && d ≤ b) != negated && accepts pieces accept rest
  | .slash :: pieces, accept, d :: rest => d == '/' && accepts pieces accept rest
  | .folders :: pieces, accept, cs =>
    accepts pieces accept cs ||
      match cs with
      | '/' :: _ :: rest => someEnd (accepts pieces accept) rest
      | _ => false
  | _, _, [] => false

/-- Whether a folder, or unless `inside` something itself, ends where a text is left. -/
def isEnd (inside : Bool) (cs : List Char) : Bool :=
  cs.head? == some '/' || (!inside && cs.isEmpty)

def Rule.matches (rule : Rule) (path : List Char) : Bool :=
  match rule with
  | .nothing => false
  | .everything => !path.isEmpty
  | .belowFolder => path.contains '/'
  | .path floating pieces inside =>
    let here := accepts pieces (isEnd inside)
    here path || (floating && afterSlash here (path.drop 1))

def takeIn (patterns : List Pattern) (path : List Char) : Bool :=
  patterns.foldl (fun taken p => if p.rule.matches path then p.includes else taken) false

/-- What is wrong with a pattern, or with a part of it. -/
inductive Fault where
  | nothingLeft
  | danglingEscape
  | openSet
  deriving DecidableEq, Repr

def ranges : List Char → List (Char × Char)
  | a :: '-' :: b :: rest => (a, b) :: ranges rest
  | c :: rest => (c, c) :: ranges rest
  | [] => []

/-- Reads a set of characters from after its opening bracket on; a closing bracket in the first
place counts as a member. -/
def set? (cs : List Char) : Option (Piece × List Char) :=
  let (negated, cs) :=
    match cs with
    | '!' :: rest => (true, rest)
    | '^' :: rest => (true, rest)
    | _ => (false, cs)
  let (first, cs) :=
    match cs with
    | ']' :: rest => ([']'], rest)
    | _ => ([], cs)
  match cs.dropWhile (· ≠ ']') with
  | [] => none
  | _ :: rest => some (.oneOf negated (ranges (first ++ cs.takeWhile (· ≠ ']'))), rest)

def namePieces : (fuel : Nat) → List Char → Except Fault (List Piece)
  | 0, _ => .ok []
  | _ + 1, [] => .ok []
  | _ + 1, ['\\'] => .error .danglingEscape
  | fuel + 1, '\\' :: c :: rest => (.char c :: ·) <$> namePieces fuel rest
  | fuel + 1, '*' :: rest => (.anyChars :: ·) <$> namePieces fuel rest
  | fuel + 1, '?' :: rest => (.anyChar :: ·) <$> namePieces fuel rest
  | fuel + 1, '[' :: rest =>
    match set? rest with
    | none => .error .openSet
    | some (piece, rest) => (piece :: ·) <$> namePieces fuel rest
  | fuel + 1, c :: rest => (.char c :: ·) <$> namePieces fuel rest

def anyFolders : List Char := ['*', '*']

/-- Reads one name of a pattern. An asterisk by itself stands for at least one character. -/
def ofName (name : List Char) : Except Fault (List Piece) :=
  if name = ['*'] then .ok [.anyChar, .anyChars] else namePieces (name.length + 1) name

def followingPieces : List (List Char) → Except Fault (List Piece)
  | [] => .ok []
  | name :: names => do
    let pieces ← if name = anyFolders then pure [.folders] else (.slash :: ·) <$> ofName name
    return pieces ++ (← followingPieces names)

def ofNames (names : List (List Char)) : Except Fault Rule := do
  let inside := decide (names.getLast? = some anyFolders)
  let names := if inside then names.dropLast else names
  match names with
  | [] => return .path false [] inside
  | first :: rest =>
    if first = anyFolders then
      match rest with
      | [] => return .path true [] inside
      | second :: rest =>
        return .path true ((← ofName second) ++ (← followingPieces rest)) inside
    else return .path false ((← ofName first) ++ (← followingPieces rest)) inside

def collapse : List (List Char) → List (List Char)
  | [] => []
  | name :: names =>
    let rest := collapse names
    if name = anyFolders && rest.head? = some anyFolders then rest else name :: rest

/-- The names of a pattern from the top on: a pattern of a single name may stand anywhere, and one
that ends in a slash means what is below. -/
def fromTop (names : List (List Char)) : Except Fault (List (List Char)) :=
  let names :=
    match names with
    | [] :: rest => rest
    | [name] => if name = anyFolders then [name] else [anyFolders, name]
    | [name, []] => if name = anyFolders then [name, []] else [anyFolders, name, []]
    | _ => names
  if names.isEmpty then .error .nothingLeft
  else
    .ok (collapse (if names.getLast? = some [] then names.dropLast ++ [anyFolders] else names))

def Rule.ofChars (cs : List Char) : Except Fault Rule := do
  let names := cs.splitOn '/'
  let onlyFolders := decide (names.getLast? = some [])
  let names ← fromTop names
  if names = [anyFolders] then return if onlyFolders then .belowFolder else .everything
  else if names = [anyFolders, ['*']] then return .everything
  else if names = [anyFolders, ['*'], anyFolders] then return .belowFolder
  else ofNames names

def trimEnd (cs : List Char) : List Char :=
  if cs.reverse.take 2 = [' ', '\\'] then cs
  else (cs.reverse.dropWhile Text.isBlank).reverse

/-- Reads a pattern. Blank lines and comments match nothing, and neither does a pattern with a set
of characters that is not closed. -/
def ofText (s : String) : Except Fault Pattern :=
  let cs := trimEnd s.toList
  if cs.isEmpty || cs.head? = some '#' || cs = ['/'] then .ok ⟨true, .nothing⟩
  else
    let (includes, cs) :=
      match cs with
      | '!' :: rest => (false, rest)
      | _ => (true, cs)
    match Rule.ofChars cs with
    | .ok rule => .ok ⟨includes, rule⟩
    | .error .openSet => .ok ⟨includes, .nothing⟩
    | .error fault => .error fault

structure Refusal where
  text : String
  deriving DecidableEq, Repr

def Refusal.message (r : Refusal) : String :=
  "Invalid git pattern: " ++ Text.quoted r.text

def ofTexts (texts : List String) : Except Refusal (List Pattern) :=
  texts.mapM fun text =>
    match ofText text with
    | .ok p => .ok p
    | .error _ => .error ⟨text⟩

end Pattern

end Swatch

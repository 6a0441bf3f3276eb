import Swatch.Text.Quoted

/-!
Paths: names from the top or from the current folder on, without empty names and single points.
-/

namespace Swatch

/-- A path. What an absolute one begins with is its `anchor`; a relative one has none. -/
structure Path where
  anchor : String
  names : List String
  deriving DecidableEq, Repr, Inhabited

namespace Path

def ofString (s : String) : Path where
  anchor :=
    match s.toList with
    | '/' :: '/' :: '/' :: _ => "/"
    | '/' :: '/' :: _ => "//"
    | '/' :: _ => "/"
    | _ => ""
  names :=
    ((s.toList.splitOn '/').filter fun name => !name.isEmpty && name ≠ ['.']).map String.ofList

def text (p : Path) : String :=
  if p.anchor.isEmpty && p.names.isEmpty then "." else p.anchor ++ "/".intercalate p.names

def isAbsolute (p : Path) : Bool :=
  !p.anchor.isEmpty

def join (p q : Path) : Path :=
  if q.isAbsolute then q else { p with names := p.names ++ q.names }

def child (p : Path) (name : String) : Path :=
  { p with names := p.names ++ [name] }

def namesLE : List String → List String → Bool
  | [], _ => true
  | _ :: _, [] => false
  | a :: as, b :: bs => if a = b then namesLE as bs else decide (a ≤ b)

def normal (p : Path) : Path :=
  { p with
    names := p.names.foldl (fun names name => if name = ".." then names.dropLast else
      names ++ [name]) [] }

def isPlain (b : UInt8) : Bool :=
  let c := Char.ofNat b.toNat
  b < 0x80 && (c.isAlphanum || c == '_' || c == '.' || c == '-' || c == '~' || c == '/')

def addressOctet (b : UInt8) : List Char :=
  if isPlain b then [Char.ofNat b.toNat]
  else '%' :: (Text.hexPadded 2 b.toNat).map Char.toUpper

def address (p : Path) : String :=
  "file://" ++ String.ofList (p.normal.text.toUTF8.data.toList.flatMap addressOctet)

end Path

end Swatch

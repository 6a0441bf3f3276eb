import Swatch.Number.Binary64

/-!
Values of the interchange format that settings, reports and structured logs are written in.
-/

namespace Swatch

/-- A value. Whole numbers are kept apart from others, and objects keep the order of their keys. -/
inductive Json where
  | null
  | bool (b : Bool)
  | int (n : Int)
  | float (x : Float)
  | str (s : String)
  | arr (items : List Json)
  | obj (members : List (String × Json))
  deriving Inhabited

namespace Json

def get? (key : String) : Json → Option Json
  | .obj members => members.lookup key
  | _ => none

def present (members : List (String × Option Json)) : List (String × Json) :=
  members.filterMap fun (key, value?) => value?.map (key, ·)

def ofText? : Option String → Json
  | some s => .str s
  | none => .null

def setMember (key : String) (value : Json) : List (String × Json) → List (String × Json)
  | [] => [(key, value)]
  | member :: rest =>
    if member.1 == key then (key, value) :: rest else member :: setMember key value rest

end Json

end Swatch

import Swatch.Json.Value
import Swatch.Text.Quoted

/-!
Values as they are shown to a reader in messages.
-/

namespace Swatch.Json

mutual

def shown : Json → String
  | .null => "None"
  | .bool b => if b then "True" else "False"
  | .int n => toString n
  | .float x =>
    match Binary64.exact x with
    | .finite _ _ => Binary64.shortest x
    | .infinite negative => if negative then "-inf" else "inf"
    | .notANumber => "nan"
  | .str s => Text.quoted s
  | .arr items => "[" ++ ", ".intercalate (shownItems items) ++ "]"
  | .obj members => "\x7b" ++ ", ".intercalate (shownMembers members) ++ "\x7d"

def shownItems : List Json → List String
  | [] => []
  | item :: rest => shown item :: shownItems rest

def shownMembers : List (String × Json) → List String
  | [] => []
  | (key, value) :: rest => (Text.quoted key ++ ": " ++ shown value) :: shownMembers rest

end

def shownText : Json → String
  | .str s => s
  | value => shown value

end Swatch.Json

import Swatch.Json.Value
import Swatch.Text.Quoted

/-!
Writing values in ASCII, on one line or with a line for every item.
-/

namespace Swatch.Json

def unitEscape (unit : Nat) : List Char :=
  '\\' :: 'u' :: Text.hexPadded 4 unit

def character (c : Char) : List Char :=
  match c with
  | '\x22' => ['\\', '\x22']
  | '\\' => ['\\', '\\']
  | '\n' => ['\\', 'n']
  | '\r' => ['\\', 'r']
  | '\t' => ['\\', 't']
  | '\x08' => ['\\', 'b']
  | '\x0c' => ['\\', 'f']
  | _ =>
    let n := c.toNat
    if 0x20 ≤ n && n < 0x7F then [c]
    else if n < 0x10000 then unitEscape n
    else unitEscape (0xD800 + (n - 0x10000) / 0x400) ++ unitEscape (0xDC00 + (n - 0x10000) % 0x400)

def stringText (s : String) : String :=
  String.ofList ('\x22' :: s.toList.flatMap character ++ ['\x22'])

def floatText (x : Float) : String :=
  match Binary64.exact x with
  | .finite _ _ => Binary64.shortest x
  | .infinite negative => if negative then "-Infinity" else "Infinity"
  | .notANumber => "NaN"

/-- How items are laid out: all on one line, or each on its own, indented by so many spaces a
level. -/
inductive Layout where
  | oneLine
  | indented (width : Nat)

/-- What separates items, and what opens and closes a list of them, at a level of nesting. -/
def Layout.enclose (layout : Layout) (level : Nat) (opening closing : String)
    (items : List String) : String :=
  match layout, items with
  | _, [] => opening ++ closing
  | .oneLine, _ => opening ++ ", ".intercalate items ++ closing
  | .indented width, _ =>
    let indent (level : Nat) := "\n" ++ String.ofList (List.replicate (width * level) ' ')
    opening ++ indent (level + 1) ++ ("," ++ indent (level + 1)).intercalate items ++
      indent level ++ closing

mutual

def render (layout : Layout) (level : Nat) : Json → String
  | .null => "null"
  | .bool b => if b then "true" else "false"
  | .int n => toString n
  | .float x => floatText x
  | .str s => stringText s
  | .arr items => layout.enclose level "[" "]" (renderItems layout (level + 1) items)
  | .obj members => layout.enclose level "\x7b" "\x7d" (renderMembers layout (level + 1) members)

def renderItems (layout : Layout) (level : Nat) : List Json → List String
  | [] => []
  | item :: rest => render layout level item :: renderItems layout level rest

def renderMembers (layout : Layout) (level : Nat) : List (String × Json) → List String
  | [] => []
  | (key, value) :: rest =>
    (stringText key ++ ": " ++ render layout level value) :: renderMembers layout level rest

end

def line (v : Json) : String :=
  render .oneLine 0 v

def pretty (v : Json) : String :=
  render (.indented 2) 0 v

end Swatch.Json

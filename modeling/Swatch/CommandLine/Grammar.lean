import Swatch.Text.Quoted
import Swatch.Text.Similar

/-!
The words of a command line: options, with or without values, and operands. Two hyphens by
themselves end the options.
-/

namespace Swatch.CommandLine

/-- An option: its long name, which two hyphens precede, a letter that stands for it, what its value
is if it takes one, and what it is for. -/
structure Flag where
  long : String
  short : Option Char
  value : Option String
  purpose : String
  deriving DecidableEq, Repr

namespace Flag

def name (f : Flag) : String :=
  "--" ++ f.long

def takesValue (f : Flag) : Bool :=
  f.value.isSome

def usage (f : Flag) : String :=
  let short :=
    match f.short with
    | some c => "-" ++ c.toString ++ ", "
    | none => ""
  let value :=
    match f.value with
    | some value => " " ++ value
    | none => ""
  short ++ f.name ++ value

end Flag

/-- What is wrong with the words of a command line. -/
inductive WordFault where
  | unknown (name : String) (similar : List String)
  | noValue (name : String)
  | needsValue (name : String)
  deriving DecidableEq, Repr

namespace WordFault

def suggestion : List String → String
  | [] => ""
  | [name] => " Did you mean " ++ Text.quoted name ++ "?"
  | names => " (Did you mean one of: " ++ ", ".intercalate (names.map Text.quoted) ++ "?)"

def message : WordFault → String
  | .unknown name similar => "No such option " ++ Text.quoted name ++ "." ++ suggestion similar
  | .noValue name => "Option " ++ Text.quoted name ++ " does not take a value."
  | .needsValue name => "Option " ++ Text.quoted name ++ " requires an argument."

end WordFault

/-- The options of a command, and whether they may follow operands. -/
structure Grammar where
  flags : List Flag
  mixed : Bool

/-- The options that are given, with their values, and the operands, each in order. -/
structure Words where
  given : List (Flag × String)
  operands : List String
  deriving DecidableEq, Repr

/-- What one word says: options, and perhaps one more, as it was named, whose value is the next
word. -/
structure Reading where
  given : List (Flag × String)
  open? : Option (Flag × String)

namespace Grammar

/-- Reads the letters of a word as options; what follows one that takes a value is its value. -/
def readLetters (g : Grammar) : List Char → Except WordFault Reading
  | [] => .ok ⟨[], none⟩
  | c :: rest =>
    let name := String.ofList ['-', c]
    match g.flags.find? fun f => f.short = some c with
    | none => .error (.unknown name [])
    | some f =>
      if f.takesValue then
        if rest.isEmpty then .ok ⟨[], some (f, name)⟩
        else .ok ⟨[(f, String.ofList rest)], none⟩
      else do
        let r ← readLetters g rest
        return { r with given := (f, "") :: r.given }

def readWord (g : Grammar) (word : List Char) : Except WordFault Reading :=
  let name := String.ofList (word.takeWhile (· ≠ '='))
  let value? : Option String :=
    match word.dropWhile (· ≠ '=') with
    | _ :: rest => some (String.ofList rest)
    | [] => none
  match g.flags.find? fun f => f.name = name, value? with
  | some f, some value =>
    if f.takesValue then .ok ⟨[(f, value)], none⟩ else .error (.noValue name)
  | some f, none => if f.takesValue then .ok ⟨[], some (f, name)⟩ else .ok ⟨[(f, "")], none⟩
  | none, _ =>
    if word.take 2 = ['-', '-'] then
      .error (.unknown name (Text.similar name (g.flags.map Flag.name)))
    else g.readLetters (word.drop 1)

def isOptions (word : String) : Bool :=
  match word.toList with
  | '-' :: _ :: _ => true
  | _ => false

def read (g : Grammar) : List String → Except WordFault Words
  | [] => .ok ⟨[], []⟩
  | word :: rest =>
    if word = "--" then .ok ⟨[], rest⟩
    else if isOptions word then do
      let r ← g.readWord word.toList
      match r.open? with
      | none =>
        let ws ← read g rest
        return { ws with given := r.given ++ ws.given }
      | some (f, name) =>
        match rest with
        | [] => throw (.needsValue name)
        | value :: rest =>
          let ws ← read g rest
          return { ws with given := r.given ++ (f, value) :: ws.given }
    else if g.mixed then do
      let ws ← read g rest
      return { ws with operands := word :: ws.operands }
    else .ok ⟨[], word :: rest⟩

end Grammar

namespace Words

def has (ws : Words) (f : Flag) : Bool :=
  ws.given.any (·.1 = f)

def value? (ws : Words) (f : Flag) : Option String :=
  ws.given.reverse.lookup f

def flags (ws : Words) : List Flag :=
  (ws.given.map (·.1)).foldl (fun seen f => if seen.contains f then seen else seen ++ [f]) []

end Words

end Swatch.CommandLine

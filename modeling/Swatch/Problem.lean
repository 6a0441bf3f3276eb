import Swatch.Json.Shown

/-!
Problems that whoever runs the program has to hear about, with advice and with the status that the
program then ends with.
-/

namespace Swatch

namespace Problem

inductive Category where
  | configuration
  | fileSystem
  | indexing
  deriving DecidableEq, Repr

def Category.name : Category → String
  | .configuration => "configuration"
  | .fileSystem => "file_system"
  | .indexing => "indexing"

def Category.all : List Category :=
  [.configuration, .fileSystem, .indexing]

end Problem

/-- A problem: what is wrong, what may help, the particulars, and the status to end with. -/
structure Problem where
  category : Problem.Category
  message : String
  suggestion : Option String
  details : List (String × Json)
  exitStatus : Int

namespace Problem

/-- The whole problem, a line for the message, for the suggestion if it says something, and for
every detail. -/
def report (p : Problem) : String :=
  let advice :=
    match p.suggestion with
    | some s => if s.isEmpty then [] else ["Suggestion: " ++ s]
    | none => []
  "\n".intercalate (("Error: " ++ p.message) :: advice ++
    p.details.map fun (key, value) => "  " ++ key ++ ": " ++ value.shownText)

def ofConfiguration (message : String) (path? : Option String) : Problem where
  category := .configuration
  message := message
  suggestion := some "Check the configuration file for invalid keys or values"
  details :=
    match path? with
    | some path => if path.isEmpty then [] else [("path", .str path)]
    | none => []
  exitStatus := 2

def ofUnreadable (path reason : String) : Problem where
  category := .fileSystem
  message := "Cannot read stylesheet: " ++ path
  suggestion := some "Check that the file exists, is readable and is UTF-8 text"
  details := [("path", .str path), ("reason", .str reason)]
  exitStatus := 1

end Problem

end Swatch

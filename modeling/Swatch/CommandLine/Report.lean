import Swatch.Color.Report
import Swatch.CommandLine.Command
import Swatch.Detection.Report
import Swatch.Workspace.Index

/-!
What the commands print: lines for a reader, or values of the interchange format.
-/

namespace Swatch.CommandLine

def padEnd (width : Nat) (s : String) : String :=
  s ++ String.ofList (List.replicate (width - s.length) ' ')

def padStart (width : Nat) (s : String) : String :=
  String.ofList (List.replicate (width - s.length) ' ') ++ s

def marks (m : Mark) : List String :=
  let reference :=
    if m.isDeclaration then ["declaration"]
    else if m.utilityClass.isSome then ["tailwind " ++ m.property.getD "None"]
    else if m.property.isSome then ["variable"]
    else []
  reference ++ (if m.isWrapped then ["wrapped"] else []) ++
    (if m.className.isSome then ["class"] else [])

def recordLine (r : Record) : String :=
  let start := r.range.start
  let suffix :=
    match marks r.mark with
    | [] => ""
    | marks => "  [" ++ ", ".intercalate marks ++ "]"
  toString (start.line + 1) ++ ":" ++ toString (start.character + 1) ++ "  " ++ r.text ++ " -> " ++
    r.css ++ suffix

def conversionLine (c : Conversion) : String :=
  padEnd 9 c.format.name ++ " " ++ c.text

def sampleLine (s : Contrast.Sample) : String :=
  let passes := if s.level.passes.isEmpty then "none" else ", ".intercalate s.level.passes
  "vs " ++ padEnd 5 s.label ++ " " ++ padStart 5 ((Binary64.exact s.ratio).fixed 2) ++ ":1  " ++
    s.level.name ++ "  (passes: " ++ passes ++ ")"

def hundredths (x : Float) : Float :=
  match Binary64.exact x with
  | .finite negative magnitude =>
    Binary64.nearest ⟨negative, Extended.scaled magnitude 2, -2⟩
  | _ => x

def samplesJson (samples : List Contrast.Sample) : Json :=
  .obj (samples.map fun s =>
    (s.label, .obj (("contrast_ratio", .float (hundredths s.ratio)) :: s.level.members)))

def indexedLine (r : Workspace.Report) : String :=
  "📁 Indexed " ++ toString r.indexed ++ " stylesheets (" ++ toString r.properties ++
    " variables, " ++ toString r.classes ++ " classes)"

def reportLines (r : Workspace.Report) (elapsed : Float) : List String :=
  ["✅ Indexed " ++ toString r.indexed ++ "/" ++ toString r.found ++ " stylesheets in " ++
      (Binary64.exact elapsed).fixed 0 ++ "ms",
   "   Variables: " ++ toString r.properties,
   "   Classes: " ++ toString r.classes]

def truncatedLine (limit : Nat) : String :=
  "⚠️ Stopped at " ++ toString limit ++ " files"

def failureLine (path : Path) (reason : String) : String :=
  "❌ " ++ path.text ++ ": " ++ reason

def notAColor (text : String) : String :=
  "Error: not a color: " ++ text

def noRoom (format : Format) (text : String) : String :=
  "Error: " ++ format.name ++ " cannot represent " ++ text

def usageLine (v : Option Verb) : String :=
  match v with
  | some v => "Usage: " ++ programName ++ " " ++ v.name ++ " [OPTIONS] " ++ v.operand
  | none => "Usage: " ++ programName ++ " [OPTIONS] COMMAND [ARGS]..."

def usageFaultLines (v : Option Verb) (fault : UsageFault) : List String :=
  let path :=
    match v with
    | some v => programName ++ " " ++ v.name
    | none => programName
  [usageLine v, "Try '" ++ path ++ " --help' for help.", "", "Error: " ++ fault.message]

def maxColumn : Nat := 30

/-- Rows in two columns. The second part of a row whose first part is too wide goes to the next
line. -/
def columns (rows : List (String × String)) : List String :=
  let widest := rows.foldl (fun n row => max n row.1.length) 0
  let width := min widest maxColumn
  rows.flatMap fun (first, second) =>
    if first.length ≤ width then ["  " ++ padEnd (width + 2) first ++ second]
    else ["  " ++ first, "  " ++ padEnd (width + 2) "" ++ second]

def helpLines (v : Option Verb) : List String :=
  let flagLines (flags : List Flag) :=
    ["", "Options:"] ++ columns (flags.map fun f => (f.usage, f.purpose))
  match v with
  | some v => [usageLine v, "", "  " ++ v.purpose] ++ flagLines v.flags
  | none =>
    [usageLine none, "", "  Color Indexer - find and convert colors in source files."] ++
      flagLines grammar.flags ++ ["", "Commands:"] ++
      columns (Verb.all.map fun verb => (verb.name, verb.purpose))

def versionLine : String :=
  programName ++ ", version " ++ version

end Swatch.CommandLine

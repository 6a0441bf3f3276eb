import Swatch.Color.Format
import Swatch.CommandLine.Grammar
import Swatch.Files.Disk

/-!
The commands, what each is given, and how a command line is read as one of them.
-/

namespace Swatch.CommandLine

def programName : String := "cli"

def version : String := "1.0.0"

inductive Verb where
  | scan
  | convert
  | index
  | contrast
  deriving DecidableEq, Repr

namespace Verb

def all : List Verb :=
  [.contrast, .convert, .index, .scan]

def name : Verb → String
  | .scan => "scan"
  | .convert => "convert"
  | .index => "index"
  | .contrast => "contrast"

def operand : Verb → String
  | .scan => "FILE"
  | .convert | .contrast => "COLOR"
  | .index => "[ROOT]"

def purpose : Verb → String
  | .scan => "Detect colors in FILE."
  | .convert => "Print COLOR in every format it can be written in."
  | .index => "Index the stylesheets under ROOT and report what was found."
  | .contrast => "Show the WCAG contrast of COLOR against white and black."

end Verb

namespace Flag

def root : Flag :=
  ⟨"root", none, some "DIRECTORY", "Index stylesheets under this directory first"⟩

def format : Flag :=
  ⟨"format", none, some ("[" ++ "|".intercalate (Format.all.map Format.name) ++ "]"),
    "Only print this format"⟩

def json : Flag :=
  ⟨"json", none, none, "Output JSON"⟩

def config : Flag :=
  ⟨"config", none, some "PATH", "Configuration file path"⟩

def quiet : Flag :=
  ⟨"quiet", some 'q', none, "Suppress non-error output"⟩

def verbose : Flag :=
  ⟨"verbose", some 'v', none, "Enable verbose output"⟩

def version : Flag :=
  ⟨"version", none, none, "Show the version and exit."⟩

def help : Flag :=
  ⟨"help", none, none, "Show this message and exit."⟩

end Flag

def Verb.flags (v : Verb) : List Flag :=
  let own : List Flag :=
    match v with
    | .scan => [.root]
    | .convert => [.format]
    | .index | .contrast => []
  own ++ [.json, .config, .quiet, .verbose, .help]

def Verb.grammar (v : Verb) : Grammar := ⟨v.flags, true⟩

def grammar : Grammar := ⟨[.version, .help], false⟩

inductive PathKind where
  | file
  | directory
  | any
  deriving DecidableEq, Repr

def PathKind.name : PathKind → String
  | .file => "File"
  | .directory => "Directory"
  | .any => "Path"

inductive ValueFault where
  | notAFormat (value : String)
  | missing (kind : PathKind) (path : String)
  | isFile (kind : PathKind) (path : String)
  | isDirectory (kind : PathKind) (path : String)
  | unreadable (kind : PathKind) (path : String)
  deriving DecidableEq, Repr

def ValueFault.message : ValueFault → String
  | .notAFormat value =>
    Text.quoted value ++ " is not one of " ++
      ", ".intercalate (Format.all.map fun f => Text.quoted f.name) ++ "."
  | .missing kind path => kind.name ++ " " ++ Text.quoted path ++ " does not exist."
  | .isFile kind path => kind.name ++ " " ++ Text.quoted path ++ " is a file."
  | .isDirectory kind path => kind.name ++ " " ++ Text.quoted path ++ " is a directory."
  | .unreadable kind path => kind.name ++ " " ++ Text.quoted path ++ " is not readable."

inductive UsageFault where
  | word (fault : WordFault)
  | value (name : String) (fault : ValueFault)
  | missing (name : String)
  | tooMany (operands : List String)
  | unknownVerb (name : String)
  deriving DecidableEq, Repr

def UsageFault.message : UsageFault → String
  | .word fault => fault.message
  | .value name fault => "Invalid value for " ++ Text.quoted name ++ ": " ++ fault.message
  | .missing name => "Missing argument " ++ Text.quoted name ++ "."
  | .tooMany operands =>
    (if operands.length = 1 then "Got unexpected extra argument ("
      else "Got unexpected extra arguments (") ++ " ".intercalate operands ++ ")"
  | .unknownVerb name => "No such command " ++ Text.quoted name ++ "."

inductive Task where
  | scan (file : String) (root : Option String)
  | convert (color : String) (format : Option Format)
  | index (root : String)
  | contrast (color : String)
  deriving DecidableEq, Repr

/-- A task, and how it is to be done: with which configuration, how loudly, and whether the results
are written as values of the interchange format. -/
structure Command where
  task : Task
  config : Option String
  json : Bool
  quiet : Bool
  verbose : Bool
  deriving DecidableEq, Repr

/-- What a command line asks for: a command, the version, or help with a verb or in general; or
nothing. -/
inductive Demand where
  | command (c : Command)
  | version
  | help (verb : Option Verb)
  | nothing
  deriving DecidableEq, Repr

def checkPath (d : Disk) (name : String) (kind : PathKind) (path : String) :
    Except UsageFault Unit :=
  match d.entry? path with
  | none => .error (.value name (.missing kind path))
  | some node =>
    match kind, node with
    | .file, .folder _ => .error (.value name (.isDirectory kind path))
    | .directory, .file _ | .directory, .locked => .error (.value name (.isFile kind path))
    | _, .locked => .error (.value name (.unreadable kind path))
    | _, _ => .ok ()

def checkFlag (d : Disk) (ws : Words) (f : Flag) : Except UsageFault Unit :=
  match ws.value? f with
  | none => .ok ()
  | some value =>
    if f = .root then checkPath d f.name .directory value
    else if f = .config then checkPath d f.name .any value
    else if f = .format && (Format.ofName? value).isNone then
      .error (.value f.name (.notAFormat value))
    else .ok ()

def operandOf (v : Verb) (operands : List String) : Except UsageFault (String × List String) :=
  match v, operands with
  | _, operand :: rest => .ok (operand, rest)
  | .index, [] => .ok (".", [])
  | _, [] => .error (.missing v.operand)

def taskOf (v : Verb) (ws : Words) (operand : String) : Task :=
  match v with
  | .scan => .scan operand (ws.value? .root)
  | .convert => .convert operand ((ws.value? .format).bind Format.ofName?)
  | .index => .index operand
  | .contrast => .contrast operand

/-- Reads the words after a verb. The values of options are checked in the order in which the
options are given, the operand after them. -/
def readVerb (d : Disk) (v : Verb) (words : List String) : Except UsageFault Demand := do
  let ws ← (v.grammar.read words).mapError .word
  if ws.has .help then return .help v
  ws.flags.forM (checkFlag d ws)
  let (operand, rest) ← operandOf v ws.operands
  match v with
  | .scan => checkPath d v.operand .file operand
  | .index => checkPath d v.operand .directory operand
  | .convert | .contrast => pure ()
  unless rest.isEmpty do throw (.tooMany rest)
  return .command
    { task := taskOf v ws operand
      config := ws.value? .config
      json := ws.has .json
      quiet := ws.has .quiet
      verbose := ws.has .verbose }

def read (d : Disk) (words : List String) : Except (Option Verb × UsageFault) Demand := do
  let ws ← (grammar.read words).mapError fun fault => (none, .word fault)
  match ws.given, ws.operands with
  | (f, _) :: _, _ => return if f = .version then .version else .help none
  | [], [] => return .nothing
  | [], name :: rest =>
    match Verb.all.find? (·.name = name) with
    | none =>
      let _ ← (grammar.read (name :: rest)).mapError fun fault => (none, .word fault)
      throw (none, .unknownVerb name)
    | some v => (readVerb d v rest).mapError fun fault => (some v, fault)

end Swatch.CommandLine

import Swatch.CommandLine.Report
import Swatch.Log.Setup
import Swatch.Service.Basic
import Swatch.Settings.Load

/-!
Running a command line: what it prints, what it complains of, and the status that it ends with.
-/

namespace Swatch.CommandLine

/-- A line that is printed, or that is a complaint. -/
inductive Line where
  | out (text : String)
  | err (text : String)
  deriving DecidableEq, Repr

/-- What a run has said so far: its lines, and what was worth telling before there was a log. -/
structure Said where
  lines : List Line
  early : List Log.Notice

inductive Crash where
  | settings (r : Settings.Refusal)
  | pattern (r : Pattern.Refusal)
  | arithmetic (e : ArithmeticError)

def Crash.message : Crash → String
  | .settings r => r.message
  | .pattern r => r.message
  | .arithmetic e => e.message

inductive Stop where
  | status (n : Int)
  | crash (c : Crash)

abbrev Run := ExceptT Stop (StateM Said)

namespace Run

def line (l : Line) : Run Unit :=
  modify fun s => { s with lines := s.lines ++ [l] }

def print (text : String) : Run Unit :=
  line (.out text)

def complain (text : String) : Run Unit :=
  line (.err text)

def stop {α : Type} (status : Int) : Run α :=
  throw (.status status)

def report {α : Type} (p : Problem) : Run α := do
  complain p.report
  stop p.exitStatus

def orCrash {ε α : Type} (crash : ε → Crash) (x : Except ε α) : Run α :=
  match x with
  | .ok a => return a
  | .error e => throw (.crash (crash e))

end Run

/-- What commands work with: the disk, the settings, and what writes the log. -/
structure Desk where
  disk : Disk
  settings : Settings
  log : Log.Handler

namespace Desk

def told {α : Type} (desk : Desk) (t : Log.Telling α) : Run α := do
  (desk.log.lines (t.notices.map Log.Notice.entry)).forM Run.complain
  return t.value

def indexWorkspace (desk : Desk) (root : String) : Run (Workspace.Report × Service) := do
  desk.told (← Run.orCrash .pattern
    ((Service.ofSettings desk.settings).indexWorkspace desk.disk (.ofString root)))

def document (desk : Desk) (file : Path) : Run Document :=
  match desk.disk.read file with
  | .ok text =>
    return Document.create (desk.disk.absolute file).address (String.ofList text) 1 none
  | .error e => Run.report (.ofUnreadable file.text (e.message file.text))

def scan (desk : Desk) (c : Command) (file : Path) (root : Option String) : Run Unit := do
  let service ←
    match root with
    | none => pure (Service.ofSettings desk.settings)
    | some root => do
      let (report, service) ← desk.indexWorkspace root
      unless c.quiet || c.json do Run.print (indexedLine report)
      pure service
  let document ← desk.document file
  let (records, _) ← desk.told (service.detect document)
  if c.json then Run.print (Json.arr (records.map Record.toJson)).pretty
  else if records.isEmpty then
    unless c.quiet do Run.print "No colors found"
  else records.forM fun r => Run.print (recordLine r)

def color (text : String) : Run (Color Float) :=
  match Service.color? text with
  | some c => return c
  | none => do
    Run.complain (notAColor text)
    Run.stop 1

def convert (c : Command) (text : String) (format : Option Format) : Run Unit := do
  let color ← color text
  match format with
  | some format =>
    match ← Run.orCrash .arithmetic (color.write? format) with
    | some written =>
      Run.print (if c.json then (Conversion.toJson [⟨format, written⟩]).line else written)
    | none => do
      Run.complain (noRoom format text)
      Run.stop 1
  | none => do
    let conversions ← Run.orCrash .arithmetic (color.conversions (some color.written))
    if c.json then Run.print (Conversion.toJson conversions).pretty
    else conversions.forM fun x => Run.print (conversionLine x)

/-- Indexes the stylesheets below a folder, which takes some milliseconds, and prints how many. -/
def index (desk : Desk) (c : Command) (root : String) (elapsed : Float) : Run Unit := do
  let (report, _) ← desk.indexWorkspace root
  if c.json then Run.print (report.toJson elapsed).pretty
  else unless c.quiet do
    (reportLines report elapsed).forM Run.print
    if report.truncated then Run.complain (truncatedLine desk.settings.maxStylesheets)
  report.failures.forM fun (path, reason) => Run.complain (failureLine path reason)
  unless report.isSuccess do Run.stop 1

def contrast (c : Command) (text : String) : Run Unit := do
  let color ← color text
  let samples ← Run.orCrash .arithmetic (Contrast.samples color)
  if c.json then Run.print (samplesJson samples).pretty
  else samples.forM fun s => Run.print (sampleLine s)

end Desk

/-- What a run takes from its surroundings: the files, the variables of the environment, and how
many milliseconds an indexing takes. -/
structure Surroundings where
  disk : Disk
  environment : List (String × String)
  elapsed : Float

namespace Surroundings

def place (s : Surroundings) (config : Option String) : Settings.Place :=
  match config with
  | some path => .ofPath s.disk (.ofString path)
  | none => .folder ⟨"/", s.disk.current⟩

def desk (s : Surroundings) (c : Command) : Run Desk := do
  if c.quiet && c.verbose then
    Run.complain "Error: --quiet and --verbose are mutually exclusive"
    Run.stop 1
  let (loaded, notices) := Settings.load s.disk (s.place c.config) s.environment []
  modify fun said => { said with early := said.early ++ notices }
  match loaded with
  | .ok settings =>
    return ⟨s.disk, settings,
      Log.console c.quiet c.verbose settings.logLevel.rank settings.logFormat⟩
  | .error refusal =>
    match refusal.problem? with
    | some problem => Run.report problem
    | none => throw (.crash (.settings refusal))

def perform (s : Surroundings) (c : Command) : Run Unit := do
  let desk ← s.desk c
  match c.task with
  | .scan file root => desk.scan c (.ofString file) root
  | .convert text format => Desk.convert c text format
  | .index root => desk.index c root s.elapsed
  | .contrast text => Desk.contrast c text

def obey (s : Surroundings) (words : List String) : Run Unit :=
  match read s.disk words with
  | .ok (.command c) => s.perform c
  | .ok .version => Run.print versionLine
  | .ok (.help v) => (helpLines v).forM Run.print
  | .ok .nothing => do
    (helpLines none).forM Run.complain
    Run.stop 2
  | .error (v, fault) => do
    (usageFaultLines v fault).forM Run.complain
    Run.stop 2

end Surroundings

/-- What becomes of a run: its status, what it prints, what it complains of, what was worth telling
before there was a log, and what went wrong that nothing was foreseen for. -/
structure Outcome where
  status : Int
  out : String
  err : String
  early : List Log.Notice
  crash : Option Crash

def unlines (lines : List String) : String :=
  String.join (lines.map (· ++ "\n"))

def run (s : Surroundings) (words : List String) : Outcome :=
  let (ending, said) := ((s.obey words).run).run ⟨[], []⟩
  let printed := said.lines.filterMap fun
    | .out text => some text
    | .err _ => none
  let complaints := said.lines.filterMap fun
    | .err text => some text
    | .out _ => none
  let (status, crash) :=
    match ending with
    | .ok _ => (0, none)
    | .error (.status n) => (n, none)
    | .error (.crash c) => (1, some c)
  ⟨status, unlines printed, unlines complaints, said.early, crash⟩

end Swatch.CommandLine

import Swatch.Files.Disk
import Swatch.Log.Board
import Swatch.Text.Case

/-!
Setting up the log: what of it comes to the console, and whether a file keeps all of it.
-/

namespace Swatch.Log

def demanded (quiet verbose : Bool) : Option Level :=
  if quiet then some .error else if verbose then some .debug else none

def console (quiet verbose : Bool) (usual : Int) (format : Format) : Handler :=
  ⟨.console, format, ((demanded quiet verbose).map Level.rank).getD usual⟩

def rankNames : List (String × Int) :=
  Level.all.map (fun level => (level.name, level.rank)) ++
    [("FATAL", Level.critical.rank), ("WARN", Level.warning.rank), ("NOTSET", unranked)]

def rankOfName? (name : String) : Option Int :=
  rankNames.lookup name

structure Request where
  level : String
  quiet : Bool
  verbose : Bool
  format : Format
  file : Option Path
  maxOctets : Int
  backups : Int

inductive Refusal where
  | console
  | file
  deriving DecidableEq, Repr

def Refusal.message : Refusal → String
  | .console => "Unable to configure handler 'console'"
  | .file => "Unable to configure handler 'file'"

/-- Sets up the log. The name of a level does not count where a flag asks for another one. -/
def setup (d : Disk) (r : Request) : Except Refusal Board := do
  let usual ←
    match demanded r.quiet r.verbose, rankOfName? (Text.upper r.level) with
    | some _, _ => pure unranked
    | none, some rank => pure rank
    | none, none => throw .console
  let toFile ←
    match r.file with
    | none => pure []
    | some path =>
      if d.isFolder path then throw .file
      else pure [⟨.file path r.maxOctets r.backups, r.format, Level.debug.rank⟩]
  let handlers := console r.quiet r.verbose usual r.format :: toFile
  return ⟨handlers, .ofList [(rootName, ⟨Level.debug.rank, List.range handlers.length, false⟩)]⟩

end Swatch.Log

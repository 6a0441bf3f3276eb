import Swatch.Problem
import Swatch.Stylesheet.Index
import Swatch.Workspace.Find

/-!
Indexing the stylesheets of a workspace. A stylesheet that cannot be read is reported and does not
stop the others.
-/

namespace Swatch

namespace Registry

def indexFile (r : Registry) (d : Disk) (path : Path) :
    Except Disk.ReadError (Log.Telling (Sheet × Registry)) := do
  let text ← d.read path
  return r.indexTold (d.absolute path).address (String.ofList text)

def removeFile (r : Registry) (d : Disk) (path : Path) : Registry :=
  r.removeSource (d.absolute path).address

end Registry

namespace Workspace

/-- What became of indexing: how many stylesheets were found and indexed, how many names are
declared then, which stylesheets could not be read, and whether there were more than count. -/
structure Report where
  found : Nat
  indexed : Nat
  properties : Nat
  classes : Nat
  failures : List (Path × String)
  truncated : Bool
  deriving DecidableEq, Repr

def Report.isSuccess (r : Report) : Bool :=
  r.failures.isEmpty

def Report.counts (r : Report) : List (String × Json) :=
  [("files_found", .int r.found), ("files_indexed", .int r.indexed),
   ("variables", .int r.properties), ("classes", .int r.classes)]

def Report.toJson (r : Report) (elapsed : Float) : Json :=
  .obj (r.counts ++
    [("failures", .obj (r.failures.map fun (path, reason) => (path.text, .str reason))),
     ("truncated", .bool r.truncated), ("duration_ms", .float elapsed)])

/-- An indexing under way: the stylesheets that are still to be indexed, and what became of the
others. -/
structure Rebuild where
  pending : List Path
  report : Report
  deriving DecidableEq, Repr

def begin (w : Workspace) (d : Disk) (r : Registry) : Log.Telling (Rebuild × Registry) := do
  let (paths, truncated) := w.find d
  if truncated then Log.tell (.tooManyStylesheets w.limit)
  return (⟨paths, ⟨paths.length, 0, 0, 0, [], truncated⟩⟩, r.clear)

def Rebuild.next (b : Rebuild) (d : Disk) (r : Registry) : Log.Telling (Rebuild × Registry) :=
  match b.pending with
  | [] => return (b, r)
  | path :: rest =>
    match r.indexFile d path with
    | .ok telling => do
      let (_, r) ← telling
      return (⟨rest, { b.report with indexed := b.report.indexed + 1 }⟩, r)
    | .error e => do
      let reason := e.message path.text
      Log.tell (.stylesheetUnreadable path.text reason)
      return (⟨rest, { b.report with failures := b.report.failures ++ [(path, reason)] }⟩, r)

def Rebuild.finish (b : Rebuild) (r : Registry) : Log.Telling Report := do
  let report := { b.report with properties := r.variableCount, classes := r.classCount }
  Log.tell (.workspaceIndexed report.indexed report.found report.properties report.classes)
  return report

/-- Goes on with an indexing, with each stylesheet on the disk as it is then. -/
def Rebuild.drain : List Disk → Rebuild → Registry → Log.Telling (Rebuild × Registry)
  | [], b, r => return (b, r)
  | d :: ds, b, r => do
    let (b, r) ← b.next d r
    drain ds b r

/-- Indexes the stylesheets that are on a disk, while the disk may change from one to the next. What
the registry had before is cleared. -/
def indexOver (w : Workspace) (d : Disk) (ds : List Disk) (r : Registry) :
    Log.Telling (Report × Registry) := do
  let (b, r) ← w.begin d r
  let (b, r) ← b.drain ds r
  return (← b.finish r, r)

def index (w : Workspace) (d : Disk) (r : Registry := ∅) : Log.Telling (Report × Registry) :=
  w.indexOver d ((w.find d).1.map fun _ => d) r

end Workspace

end Swatch

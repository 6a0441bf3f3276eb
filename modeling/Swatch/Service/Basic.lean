import Swatch.Refresh.Statistics
import Swatch.Service.Library
import Swatch.Workspace.Index

/-!
The service that hosts talk to. It keeps stylesheets indexed, each version once, and answers for the
colours of a document from the cache whenever it can. A change of what is declared makes every
cached answer void.
-/

namespace Swatch

/-- A service: its settings, what it knows, and the answers that it has at hand. -/
structure Service where
  settings : Settings
  library : Library
  cache : Cache Record

namespace Service

def ofSettings (s : Settings) : Service := ⟨s, ∅, ∅⟩

def withLibrary (s : Service) (l : Library) : Service :=
  { s with library := l, cache := s.cache.invalidate }

def index (s : Service) (d : Document) : Log.Telling Service := do
  return s.withLibrary (← s.library.index d)

/-- Indexes a document that declares something, unless it is indexed as it is. Whether it was
indexed now. -/
def ensureIndexed (s : Service) (d : Document) : Log.Telling (Bool × Service) := do
  if s.library.lacks d then return (true, ← s.index d) else return (false, s)

def remove (s : Service) (uri : String) : Service :=
  s.withLibrary (s.library.remove uri)

def detect (s : Service) (d : Document) : Log.Telling (List Record × Service) := do
  if !s.settings.covers d.language then return ([], s)
  let (_, s) ← s.ensureIndexed d
  let (held?, cache) := s.cache.get d.uri d.version
  match held? with
  | some records => return (records, { s with cache := cache })
  | none =>
    let records ← s.library.detect d
    return (records, { s with cache := cache.set d.uri d.version records })

def indexWorkspace (s : Service) (d : Disk) (root : Path) :
    Except Pattern.Refusal (Log.Telling (Workspace.Report × Service)) := do
  let w ← Workspace.ofSettings d root s.settings
  return do
    let (report, registry) ← w.index d s.library.registry
    return (report, s.withLibrary ⟨registry, ∅⟩)

def statistics (s : Service) : Json :=
  let r := s.library.registry
  .obj
    [("variables", .int r.variableCount), ("classes", .int r.classCount),
     ("sources", .int r.sources.length), ("cache", s.cache.statistics)]

def recordAt? (records : List Record) (p : Position) : Option Record :=
  records.find? (·.range.contains p)

def color? (text : String) : Option (Color Float) :=
  Color.ofText? (Text.trimmed text)

end Service

end Swatch

import Swatch.Service.Basic

/-!
Rebuilds of a registry that go on beside each other and beside detections. Each of them clears the
registry when it begins, and lets the others go on after every stylesheet.
-/

namespace Swatch.Service

/-- How far a rebuild is. -/
inductive Rebuilding where
  | going (b : Workspace.Rebuild)
  | finished (report : Workspace.Report)
  deriving DecidableEq, Repr

def Rebuilding.isOver : Rebuilding → Bool
  | .going _ => false
  | .finished _ => true

/-- Goes on with a rebuild until it lets others go on, which is after the next stylesheet, or until
it is over. -/
def goOn (s : Service) (d : Disk) : Rebuilding → Log.Telling (Rebuilding × Service)
  | .finished report => return (.finished report, s)
  | .going b =>
    match b.pending with
    | [] => do
      let report ← b.finish s.library.registry
      return (.finished report, s.withLibrary ⟨s.library.registry, ∅⟩)
    | _ :: _ => do
      let (b, r) ← b.next d s.library.registry
      return (.going b, { s with library := { s.library with registry := r } })

/-- Begins a rebuild and goes on with it at once; the stylesheets are found on one disk, and the
first of them is read on the disk as it is by then. -/
def beginRebuild (s : Service) (w : Workspace) (d first : Disk) :
    Log.Telling (Rebuilding × Service) := do
  let (b, r) ← w.begin d s.library.registry
  goOn { s with library := { s.library with registry := r } } first (.going b)

/-- A service, and the rebuilds of a workspace that were begun. -/
structure Rebuilds where
  service : Service
  rebuilds : List Rebuilding

/-- What happens between two moments at which others may go on. -/
inductive Turn where
  | begin (d first : Disk)
  | goOn (place : Nat) (d : Disk)
  | detect (document : Document)

namespace Rebuilds

def turn (w : Workspace) (x : Rebuilds) : Turn → Log.Telling Rebuilds
  | .begin d first => do
    let (b, s) ← x.service.beginRebuild w d first
    return ⟨s, x.rebuilds ++ [b]⟩
  | .goOn place d =>
    match x.rebuilds[place]? with
    | none => return x
    | some b => do
      let (b, s) ← x.service.goOn d b
      return ⟨s, x.rebuilds.set place b⟩
  | .detect document => do
    let (_, s) ← x.service.detect document
    return { x with service := s }

def turns (w : Workspace) (x : Rebuilds) (ts : List Turn) : Log.Telling Rebuilds :=
  ts.foldlM (turn w) x

end Rebuilds

end Swatch.Service

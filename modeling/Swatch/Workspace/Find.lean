import Swatch.Files.Disk
import Swatch.Settings.Basic
import Swatch.Workspace.Pattern

/-!
Finding the stylesheets of a workspace: the files below its folder that are asked for and not
excluded, in the order of the names on their paths. What is below an excluded folder is not even
looked at.
-/

namespace Swatch

/-- Which files of a workspace are stylesheets, and how many of them count at most. -/
structure Workspace where
  root : Path
  wanted : List Pattern
  excluded : List Pattern
  limit : Nat

namespace Workspace

def ofSettings (d : Disk) (root : Path) (s : Settings) : Except Pattern.Refusal Workspace := do
  let wanted ← Pattern.ofTexts s.stylesheetPatterns
  let excluded ← Pattern.ofTexts s.excludePatterns
  return ⟨(d.absolute root).normal, wanted, excluded, s.maxStylesheets⟩

def relative (names : List String) : List Char :=
  ("/".intercalate names).toList

def isStylesheet (w : Workspace) (names : List String) : Bool :=
  Pattern.takeIn w.wanted (relative names) && !Pattern.takeIn w.excluded (relative names)

def isPruned (w : Workspace) (names : List String) : Bool :=
  Pattern.takeIn w.excluded (relative names ++ ['/'])

def stylesheetsIn (w : Workspace) (above : List String) :
    List (String × Node) → List (List String)
  | [] => []
  | (name, .file _) :: rest | (name, .locked) :: rest =>
    let names := above ++ [name]
    (if w.isStylesheet names then [names] else []) ++ stylesheetsIn w above rest
  | (name, .folder entries) :: rest =>
    let names := above ++ [name]
    (if w.isPruned names then [] else stylesheetsIn w names entries) ++ stylesheetsIn w above rest

def all (w : Workspace) (d : Disk) : List (List String) :=
  match d.find w.root with
  | .ok (.folder entries) => (w.stylesheetsIn [] entries).mergeSort Path.namesLE
  | _ => []

def find (w : Workspace) (d : Disk) : List Path × Bool :=
  let found := w.all d
  ((found.take w.limit).map fun names => { w.root with names := w.root.names ++ names },
    w.limit < found.length)

end Workspace

end Swatch

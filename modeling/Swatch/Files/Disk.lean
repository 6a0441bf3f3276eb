import Swatch.Files.Path
import Swatch.Text.Utf8

/-!
Files and folders, and reading text from them.
-/

namespace Swatch

/-- A file with its octets, a file that may not be read, or a folder with its entries. -/
inductive Node where
  | file (octets : List UInt8)
  | locked
  | folder (entries : List (String × Node))
  deriving Inhabited

namespace Node

def entry? (node : Node) (name : String) : Option Node :=
  match node with
  | .file _ | .locked => none
  | .folder entries => entries.lookup name

def isFolder : Node → Bool
  | .file _ | .locked => false
  | .folder _ => true

def setEntry (name : String) (node : Node) : List (String × Node) → List (String × Node)
  | [] => [(name, node)]
  | e :: rest => if e.1 = name then (name, node) :: rest else e :: setEntry name node rest

/-- Puts a node at the end of a way through folders, which are made where they are missing. -/
def put (node : Node) : List String → Node → Node
  | [], _ => node
  | name :: names, parent =>
    let entries :=
      match parent with
      | .folder entries => entries
      | .file _ | .locked => []
    .folder (setEntry name (put node names ((entries.lookup name).getD (.folder []))) entries)

def remove : List String → Node → Node
  | [], parent => parent
  | [name], .folder entries => .folder (entries.filter (·.1 ≠ name))
  | name :: names, .folder entries =>
    .folder (entries.map fun e => if e.1 = name then (name, remove names e.2) else e)
  | _, .file octets => .file octets
  | _, .locked => .locked

end Node

inductive FileError where
  | missing
  | throughFile
  | forbidden
  | isFolder
  deriving DecidableEq, Repr

def FileError.message (path : String) (e : FileError) : String :=
  let cause :=
    match e with
    | .missing => "[Errno 2] No such file or directory: "
    | .forbidden => "[Errno 13] Permission denied: "
    | .throughFile => "[Errno 20] Not a directory: "
    | .isFolder => "[Errno 21] Is a directory: "
  cause ++ Text.quoted path

/-- The files below the top folder, and the folder that relative paths start from. -/
structure Disk where
  top : Node
  current : List String

namespace Disk

def ofFolder (current : List String) (node : Node) : Disk :=
  ⟨Node.put node current (.folder []), current⟩

def absolute (d : Disk) (p : Path) : Path :=
  if p.isAbsolute then p else ⟨"/", d.current ++ p.names⟩

def follow : (above : List Node) → Node → List String → Except FileError Node
  | _, node, [] => .ok node
  | above, node, name :: names =>
    match node with
    | .file _ | .locked => .error .throughFile
    | .folder entries =>
      if name = ".." then
        match above with
        | parent :: rest => follow rest parent names
        | [] => follow [] node names
      else
        match entries.lookup name with
        | some next => follow (node :: above) next names
        | none => .error .missing

def find (d : Disk) (p : Path) : Except FileError Node :=
  follow [] d.top (d.absolute p).names

def exists? (d : Disk) (p : Path) : Bool :=
  (d.find p).toOption.isSome

def isFolder (d : Disk) (p : Path) : Bool :=
  (d.find p).toOption.any (·.isFolder)

/-- What stands at the path that a text spells. A slash at the end asks for a folder. -/
def entry? (d : Disk) (text : String) : Option Node :=
  match d.find (.ofString text) with
  | .error _ => none
  | .ok node =>
    let asksFolder := text.endsWith "/" || text.endsWith "/."
    if text.isEmpty || (asksFolder && !node.isFolder) then none else some node

def octets (d : Disk) (p : Path) : Except FileError (List UInt8) := do
  match ← d.find p with
  | .file octets => return octets
  | .locked => throw .forbidden
  | .folder _ => throw .isFolder

inductive ReadError where
  | file (error : FileError)
  | malformed (fault : Text.Utf8.Malformed)
  deriving DecidableEq, Repr

def read (d : Disk) (p : Path) : Except ReadError (List Char) :=
  match d.octets p with
  | .error e => .error (.file e)
  | .ok octets =>
    match Text.Utf8.decode octets with
    | .error fault => .error (.malformed fault)
    | .ok cs => .ok (Text.unifyNewlines cs)

def ReadError.message (path : String) : ReadError → String
  | .file e => e.message path
  | .malformed fault => fault.message

end Disk

end Swatch

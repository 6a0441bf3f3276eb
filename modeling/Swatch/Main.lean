import Swatch.CommandLine.Run

/-!
The program: it takes in the files that a command line may mean, runs the command line, and says what
comes of it.
-/

namespace Swatch.Main

/-- The file or folder at a path, folders at most so many levels deep. What cannot be looked at is
left out. -/
def load : (depth : Nat) → String → IO (Option Node)
  | 0, _ => return none
  | depth + 1, path => do
    try
      let real ← IO.FS.realPath path
      if ← real.isDir then
        let entries ← (← real.readDir).toList.filterMapM fun entry => do
          return (← load depth entry.path.toString).map (entry.fileName, ·)
        return some (.folder entries)
      else
        let octets? ←
          try pure (some (← IO.FS.readBinFile real).toList)
          catch _ => pure none
        return some (octets?.elim .locked .file)
    catch _ => return none

def depth : Nat := 64

/-- The paths that the words of a command line may mean and that lead out of the current folder. -/
def outside (words : List String) : List Path :=
  let values := words.flatMap fun word =>
    [word, String.ofList ((word.toList.dropWhile (· ≠ '=')).drop 1)]
  (values.map Path.ofString).filter fun p => p.isAbsolute || p.names.contains ".."

def disk (words : List String) : IO Disk := do
  let current := (Path.ofString (← IO.currentDir).toString).names
  let bare : Disk := ⟨.folder [], current⟩
  let paths := (outside words ++ [Path.ofString "."]).map fun p => (bare.absolute p).normal
  let top ← paths.foldlM (fun top p => do
    match ← load depth p.text with
    | some node => return Node.put node p.names top
    | none => return top) (Node.folder [])
  return ⟨top, current⟩

def environment : IO (List (String × String)) :=
  Settings.environmentNames.filterMapM fun (_, name) => do
    return (← IO.getEnv name).map (name, ·)

end Swatch.Main

open Swatch in
def main (words : List String) : IO UInt32 := do
  let before ← IO.monoNanosNow
  let disk ← Main.disk words
  let after ← IO.monoNanosNow
  let elapsed := (after - before).toFloat / 1000000.0
  let done := CommandLine.run ⟨disk, ← Main.environment, elapsed⟩ words
  done.early.forM fun notice => IO.eprintln notice.message
  IO.print done.out
  IO.eprint done.err
  if let some crash := done.crash then IO.eprintln crash.message
  return done.status.toNat.toUInt32

import Swatch.Files.Path
import Swatch.Keyed
import Swatch.Log.Entry

/-!
Loggers and the handlers that write what they are told. Both keep silent about what is below a rank
of theirs. A logger may be made to tell everything for a while; then it and its handlers get the
ranks back that they had.
-/

namespace Swatch.Log

/-- Where a handler writes: to the console, or to a file of which so many older pieces are kept, each
at most so large. -/
inductive Outlet where
  | console
  | file (path : Path) (maxOctets backups : Int)
  deriving DecidableEq, Repr

/-- What writes entries of a rank or above in some format. -/
structure Handler where
  outlet : Outlet
  format : Format
  rank : Int
  deriving DecidableEq, Repr

def Handler.lines (h : Handler) (entries : List Entry) : List String :=
  (entries.filter fun e => h.rank ≤ e.rank).map (Entry.line h.format)

/-- What takes entries of a rank or above and gives them to its handlers, which are known by their
numbers; it may give them to the logger above it, too. -/
structure Logger where
  rank : Int
  handlers : List Nat
  propagates : Bool
  deriving DecidableEq, Repr

def Logger.unset : Logger := ⟨unranked, [], true⟩

structure Board where
  handlers : List Handler
  loggers : Keyed String Logger

namespace Board

def logger (b : Board) (name : String) : Logger :=
  (b.loggers.get? name).getD .unset

def modifyLogger (b : Board) (name : String) (f : Logger → Logger) : Board :=
  { b with loggers := b.loggers.set name (f (b.logger name)) }

def setRank (b : Board) (name : String) (rank : Int) : Board :=
  b.modifyLogger name fun l => { l with rank := rank }

def setHandlerRank (b : Board) (number : Nat) (rank : Int) : Board :=
  { b with handlers := b.handlers.modify number fun h => { h with rank := rank } }

def attach (b : Board) (name : String) (number : Nat) : Board :=
  b.modifyLogger name fun l =>
    if l.handlers.contains number then l else { l with handlers := l.handlers ++ [number] }

def detach (b : Board) (name : String) (number : Nat) : Board :=
  b.modifyLogger name fun l => { l with handlers := l.handlers.erase number }

def handlerRank (b : Board) (number : Nat) : Int :=
  ((b.handlers[number]?).map Handler.rank).getD unranked

def handlersOf (b : Board) (name : String) : List Handler :=
  (b.logger name).handlers.filterMap (b.handlers[·]?)

/-- The ranks of a logger and of its handlers, in order. -/
structure Ranks where
  logger : Int
  handlers : List Int
  deriving DecidableEq, Repr

def ranks (b : Board) (name : String) : Ranks :=
  ⟨(b.logger name).rank, (b.logger name).handlers.map b.handlerRank⟩

/-- Gives handlers ranks, the first the first one and so on, as long as there are both. -/
def setHandlerRanks (b : Board) (numbers : List Nat) (ranks : List Int) : Board :=
  (numbers.zip ranks).foldl (fun b (number, rank) => b.setHandlerRank number rank) b

def restore (b : Board) (name : String) (r : Ranks) : Board :=
  (b.setRank name r.logger).setHandlerRanks (b.logger name).handlers r.handlers

def tellAll (b : Board) (name : String) : Board :=
  let lowest : Int := Level.debug.rank
  let numbers := (b.logger name).handlers
  (b.setRank name lowest).setHandlerRanks numbers (numbers.map fun _ => lowest)

/-- Does something while a logger tells everything, and restores the ranks then, whatever the result
is. -/
def debugging {α : Type} (name : String) (body : StateM Board α) : StateM Board α := fun b =>
  let before := b.ranks name
  let (result, after) := body (b.tellAll name)
  (result, after.restore name before)

end Board

end Swatch.Log

import Swatch.Refresh.Turn

/-!
The order in which a world runs: turns are taken as they come, until none is left; then the clock
may move on to the next instant at which a task is to be woken.
-/

namespace Swatch.World

variable {η ρ : Type} (h : Host η ρ)

def nextTurn? (w : World η ρ) : Option (Turn × World η ρ) :=
  match w.turns with
  | [] => none
  | turn :: rest => some (turn, { w with turns := rest })

def runFor : (fuel : Nat) → World η ρ → World η ρ
  | 0, w => w
  | fuel + 1, w =>
    match w.nextTurn? with
    | none => w
    | some (turn, w) => runFor fuel (w.perform h turn)

def patience : Nat := 10000000

def rest (w : World η ρ) : World η ρ :=
  w.runFor h patience

def nextDue? (w : World η ρ) : Option Float :=
  w.timers.foldl (fun earliest? timer =>
    match earliest? with
    | some earliest => if timer.due < earliest then some timer.due else some earliest
    | none => some timer.due) none

/-- Moves the clock to an instant and wakes the tasks that are due then, in the order in which they
went to sleep. -/
def moveTo (w : World η ρ) (instant : Float) : World η ρ :=
  let due := w.timers.filter fun timer => timer.due ≤ instant
  { w with
    clock := instant
    timers := w.timers.filter fun timer => !(timer.due ≤ instant)
    turns := w.turns ++ due.map fun timer => .ring timer.task }

/-- Moves the clock to an instant, stopping wherever a task is due, at most `fuel` times. -/
def advanceTo (instant : Float) : (fuel : Nat) → World η ρ → World η ρ
  | 0, w => w
  | fuel + 1, w =>
    match w.nextDue? with
    | some due =>
      if due ≤ instant then advanceTo instant fuel ((w.moveTo due).rest h)
      else { w with clock := instant }
    | none => { w with clock := instant }

def advance (w : World η ρ) (seconds : Float) : World η ρ :=
  (w.rest h).advanceTo h (w.clock + seconds) patience

def isOver (w : World η ρ) (t : Nat) : Bool :=
  (w.tasks[t]?).all (·.stage.isOver)

/-- Moves the clock as far as tasks need to come to their end, stopping at most `fuel` times. -/
def awaitFor (ts : List Nat) : (fuel : Nat) → World η ρ → World η ρ
  | 0, w => w
  | fuel + 1, w =>
    if ts.all w.isOver then w
    else
      match w.nextDue? with
      | some due => awaitFor ts fuel ((w.moveTo due).rest h)
      | none => w

def await (w : World η ρ) (ts : List Nat) : World η ρ :=
  awaitFor h ts patience (w.rest h)

end Swatch.World

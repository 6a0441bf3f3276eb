import Swatch.Document.Basic
import Swatch.Refresh.Cache
import Swatch.Refresh.Lock
import Swatch.Refresh.Scheduler

/-!
The world that refreshes run in: documents, the cache, the scheduler's books, the tasks and
computations under way, and what is to be done next. A task runs until it has to wait for something;
what it then waits for is its stage.

A host supplies what is particular: which documents are refreshed, how records are computed, and
what becomes of them.
-/

namespace Swatch

/-- What a host may have done while it computes or takes records. -/
inductive Command where
  | edit (uri text : String)
  | cancel (uri : String)
  | forget (uri : String)
  | invalidate
  deriving DecidableEq, Repr

/-- What a task is for: a refresh, or the records of a document for somebody who asked. -/
inductive Errand where
  | refresh
  | detection
  deriving DecidableEq, Repr

/-- How far a computation comes at once: it ends, or it waits to be released, with records at
hand. -/
inductive Progress (ρ : Type) where
  | ended (ending : Ending (List ρ))
  | held (records : List ρ)
  deriving DecidableEq, Repr

/-- A visit to the one who takes the records: the chunk that is offered, how often the call has
stepped aside already, and whether the refresh has been asked to end meanwhile. -/
structure Visit (ρ : Type) where
  uri : String
  chunk : List ρ
  index : Nat
  count : Nat
  cancelled : Bool
  deriving DecidableEq, Repr

/-- What the host does, over a state `η` of its own. -/
structure Host (η ρ : Type) where
  debounce : Float
  chunkSize : Nat
  pause : Float
  chunkSize_pos : 0 < chunkSize
  eligible : Document → Bool
  /-- Makes ready for a detection, or turns it away. -/
  prepare : Document → η → Option (η × List Command)
  compute : Errand → Document → η → η × List Command × Progress ρ
  /-- Takes a chunk of records. Without an ending the call steps aside and is resumed later. -/
  apply : Visit ρ → η → η × List Command × Option (Ending Unit)

inductive Computation.State (ρ : Type) where
  | queued
  | held (records : List ρ)
  | released (ending : Ending (List ρ))
  | ended (ending : Ending (List ρ))
  deriving DecidableEq, Repr

/-- A computation of the records of a document as it was, the task that it was begun for, and the
tasks that wait for it. -/
structure Computation (ρ : Type) where
  errand : Errand
  document : Document
  starter : Nat
  callers : List Nat
  state : Computation.State ρ
  deriving DecidableEq, Repr

/-- The version that a refresh is for, and the number that it drew. -/
structure Ticket where
  version : Int
  generation : Nat
  deriving DecidableEq, Repr

/-- How far a refresh has come with handing on its records: which chunk is next, and how many
records were handed on. -/
structure Delivery (ρ : Type) where
  records : List ρ
  index : Nat
  applied : Nat
  deriving DecidableEq, Repr

/-- Where a task stands. While a chunk is being taken, it is counted how often the call has stepped
aside. -/
inductive Stage (ρ : Type) where
  | starting
  | debouncing (ticket : Ticket)
  | queueing (ticket : Ticket) (lock : Nat)
  | computing (ticket : Ticket) (lock : Nat)
  | applying (ticket : Ticket) (lock : Nat) (delivery : Delivery ρ) (count : Nat)
  | pausing (ticket : Ticket) (lock : Nat) (delivery : Delivery ρ)
  | detecting
  | ended (ending : Ending (Outcome ρ))
  | answered (ending : Ending (List ρ))
  deriving DecidableEq, Repr

def Stage.isOver {ρ : Type} : Stage ρ → Bool
  | .ended _ | .answered _ => true
  | _ => false

def Stage.isAsleep {ρ : Type} : Stage ρ → Bool
  | .debouncing _ | .pausing _ _ _ => true
  | _ => false

/-- A task for a document. It waits as long as it has no signal; the signal is what it is resumed
with. -/
structure Task (ρ : Type) where
  errand : Errand
  document : Nat
  stage : Stage ρ
  signal : Option (Ending (List ρ))
  cancelRequested : Bool
  deriving DecidableEq, Repr

inductive Turn where
  | resume (task : Nat)
  | begin (computation : Nat)
  | finish (computation : Nat)
  | settle (computation : Nat)
  | tell (computation task : Nat)
  | ring (task : Nat)
  deriving DecidableEq, Repr

structure Timer where
  due : Float
  task : Nat

/-- A chunk of records that is offered to the consumer by a refresh, with what held at that moment:
the document as it was, and the number that was the last one drawn for its address. -/
structure Handover (ρ : Type) where
  task : Nat
  uri : String
  ticket : Ticket
  delivery : Delivery ρ
  chunk : List ρ
  document? : Option Document
  generation? : Option Nat
  deriving DecidableEq, Repr

def Handover.index {ρ : Type} (x : Handover ρ) : Nat :=
  x.delivery.index

/-- What happens in a world, as far as it decides what refreshes may do or tells what they did. -/
inductive Event (ρ : Type) where
  | edited (document : Nat)
  | cancelled (uri : String)
  | forgotten (uri : String)
  /-- A refresh of a document began and drew its ticket. -/
  | drawn (task document : Nat) (uri : String) (ticket : Ticket)
  /-- A detection in a document began. -/
  | asked (task document : Nat) (uri : String)
  /-- A chunk was offered to the consumer. -/
  | handed (handover : Handover ρ)
  /-- The consumer is done with the chunk that a task offered last. -/
  | taken (task : Nat) (ending : Ending Unit)
  /-- A refresh came to its end, with the document as it was then. -/
  | returned (task : Nat) (ending : Ending (Outcome ρ)) (document? : Option Document)
  deriving DecidableEq, Repr

def Event.handover? {ρ : Type} : Event ρ → Option (Handover ρ)
  | .handed x => some x
  | _ => none

/-- The world. Documents, locks, computations and tasks are named by their place, and none is ever
removed. -/
structure World (η ρ : Type) where
  host : η
  documents : List Document
  cache : Cache ρ
  scheduler : Scheduler
  locks : List Lock
  computations : List (Computation ρ)
  tasks : List (Task ρ)
  turns : List Turn
  timers : List Timer
  clock : Float
  history : List (Event ρ)

namespace World

variable {η ρ : Type}

def initial (host : η) : World η ρ where
  host := host
  documents := []
  cache := ∅
  scheduler := ∅
  locks := []
  computations := []
  tasks := []
  turns := []
  timers := []
  clock := 0.0
  history := []

def opened? (w : World η ρ) (uri : String) : Option Nat :=
  (List.range w.documents.length).reverse.find? fun d =>
    (w.documents[d]?).any fun document => document.uri = uri

def document? (w : World η ρ) (uri : String) : Option Document :=
  (w.opened? uri).bind (w.documents[·]?)

def openDocument (w : World η ρ) (d : Document) : World η ρ :=
  { w with documents := w.documents ++ [d] }

def remember (w : World η ρ) (e : Event ρ) : World η ρ :=
  { w with history := w.history ++ [e] }

def handovers (w : World η ρ) : List (Handover ρ) :=
  w.history.filterMap Event.handover?

def editAt (w : World η ρ) (document : Nat) (text : String) : World η ρ :=
  { w with documents := w.documents.modify document (·.edit text) }.remember (.edited document)

def edit (w : World η ρ) (uri text : String) : World η ρ :=
  match w.opened? uri with
  | some d => w.editAt d text
  | none => w

def cancel (w : World η ρ) (uri : String) : World η ρ :=
  { w with scheduler := w.scheduler.cancel uri }.remember (.cancelled uri)

/-- Forgets a document that was closed: its number, its records, and its lock unless it is held. -/
def forget (w : World η ρ) (uri : String) : World η ρ :=
  let scheduler := w.scheduler.forget uri
  let isHeld := (scheduler.locks.get? uri).any fun l => (w.locks[l]?).any (·.held)
  { w with
    scheduler := if isHeld then scheduler else scheduler.dropLock uri
    cache := w.cache.delete uri }.remember (.forgotten uri)

def obey (w : World η ρ) : Command → World η ρ
  | .edit uri text => w.edit uri text
  | .cancel uri => w.cancel uri
  | .forget uri => w.forget uri
  | .invalidate => { w with cache := w.cache.invalidate }

def obeyAll (w : World η ρ) (commands : List Command) : World η ρ :=
  commands.foldl obey w

def enqueue (w : World η ρ) (turn : Turn) : World η ρ :=
  { w with turns := w.turns ++ [turn] }

def state? (w : World η ρ) (c : Nat) : Option (Computation.State ρ) :=
  (w.computations[c]?).map (·.state)

def modifyTask (w : World η ρ) (t : Nat) (f : Task ρ → Task ρ) : World η ρ :=
  { w with tasks := w.tasks.modify t f }

def documentOf? (w : World η ρ) (t : Nat) : Option Document :=
  (w.tasks[t]?).bind fun task => w.documents[task.document]?

/-- Lets a task be at a stage. What it was signalled before is done with. -/
def wait (w : World η ρ) (t : Nat) (stage : Stage ρ) : World η ρ :=
  w.modifyTask t fun task =>
    { task with stage := stage, signal := none, cancelRequested := false }

def signal (w : World η ρ) (t : Nat) (ending : Ending (List ρ)) : World η ρ :=
  (w.modifyTask t fun task => { task with signal := some ending }).enqueue (.resume t)

def stepAside (w : World η ρ) (t : Nat) : World η ρ :=
  w.signal t (.finished [])

def sleep (w : World η ρ) (t : Nat) (seconds : Float) : World η ρ :=
  { w with timers := w.timers ++ [⟨w.clock + seconds, t⟩] }

def start (w : World η ρ) (errand : Errand) (document : Nat) : World η ρ :=
  { w with
    tasks := w.tasks ++ [⟨errand, document, .starting, some (.finished []), false⟩]
    turns := w.turns ++ [.resume w.tasks.length] }

/-- Asks a task to end. A task that waits is resumed at once to do so, another one ends when it is
resumed. Whether the task could still be asked. -/
def cancelTask (w : World η ρ) (t : Nat) : Bool × World η ρ :=
  match w.tasks[t]? with
  | none => (false, w)
  | some task =>
    if task.stage.isOver then (false, w)
    else if task.signal.isSome then
      (true, w.modifyTask t fun task => { task with cancelRequested := true })
    else
      let w :=
        match task.stage with
        | .queueing _ l => { w with locks := w.locks.modify l (·.cancel t) }
        | _ => w
      (true, w.signal t .cancelled)

end World

end Swatch

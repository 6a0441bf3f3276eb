import Swatch.Refresh.World

/-!
What happens in each turn. A refresh waits for its document to come to rest, takes the document's
lock, gets the records of the version that it was asked for, and hands them on chunk by chunk.
Whenever it has waited, it stops if the document has another version by then or if a later number
was drawn for it.
-/

namespace Swatch.World

variable {η ρ : Type}

def verdict? (w : World η ρ) (d : Document) (ticket : Ticket) : Option Status :=
  if d.version ≠ ticket.version then some .stale
  else if !w.scheduler.isCurrent d.uri ticket.generation then some .superseded
  else none

def releaseLock (w : World η ρ) (l : Nat) : World η ρ :=
  match w.locks[l]? with
  | none => w
  | some lock =>
    let (released, woken?) := lock.release
    let w := { w with locks := w.locks.set l released }
    match woken? with
    | some t => w.signal t (.finished [])
    | none => w

def close (w : World η ρ) (t : Nat) (ending : Ending (Outcome ρ)) : World η ρ :=
  (w.wait t (.ended ending)).remember (.returned t ending (w.documentOf? t))

def conclude (w : World η ρ) (t : Nat) (outcome : Outcome ρ) : World η ρ :=
  { w with scheduler := w.scheduler.note outcome.status }.close t (.finished outcome)

/-- What is known of a version's records at once, and otherwise which computation gives them. -/
inductive Lookup (ρ : Type) where
  | known (ending : Ending (List ρ))
  | awaited

/-- Looks up the records of a document as it is. If they are neither held nor being computed, their
computation is begun; unless they are known at once, the task becomes one of those who wait. -/
def lookUp (w : World η ρ) (t : Nat) (errand : Errand) (d : Document) : Lookup ρ × World η ρ :=
  let (records?, cache) := w.cache.get d.uri d.version
  let w := { w with cache := cache }
  match records? with
  | some records => (.known (.finished records), w)
  | none =>
    match w.cache.pending.get? (d.uri, d.version) with
    | some c =>
      let w := { w with cache := w.cache.join }
      match w.state? c with
      | some (.ended ending) => (.known ending, w)
      | _ =>
        (.awaited,
          { w with
            computations :=
              w.computations.modify c fun x => { x with callers := x.callers ++ [t] } })
    | none =>
      let c := w.computations.length
      (.awaited,
        { w with
          cache := w.cache.begin d.uri d.version c
          computations := w.computations ++ [⟨errand, d, t, [t], .queued⟩]
          turns := w.turns ++ [.begin c] })

variable (h : Host η ρ)

def nextChunk (delivery : Delivery ρ) : List ρ :=
  (delivery.records.drop (delivery.index * h.chunkSize)).take h.chunkSize

def afterChunk (delivery : Delivery ρ) : Delivery ρ :=
  ⟨delivery.records, delivery.index + 1, delivery.applied + (nextChunk h delivery).length⟩

/-- Goes on after a chunk was taken: with the next one after a pause, or to the end. -/
def goOn (w : World η ρ) (t : Nat) (ticket : Ticket) (l : Nat) (delivery : Delivery ρ) :
    World η ρ :=
  if delivery.index * h.chunkSize < delivery.records.length then
    if 0.0 < h.pause then w.sleep t h.pause else w.stepAside t
  else
    (w.conclude t ⟨.applied, ticket.version, delivery.records, delivery.applied⟩).releaseLock l

/-- Lets the host go on with taking a chunk, which ends, fails, or steps aside once more. -/
def visit (w : World η ρ) (t : Nat) (uri : String) (ticket : Ticket) (l : Nat)
    (delivery : Delivery ρ) (count : Nat) (cancelled : Bool) : World η ρ :=
  let (host, commands, ending?) :=
    h.apply ⟨uri, nextChunk h delivery, delivery.index, count, cancelled⟩ w.host
  let w := { w with host := host }.obeyAll commands
  match ending? with
  | none => (w.wait t (.applying ticket l delivery (count + 1))).stepAside t
  | some ending =>
    let w :=
      (w.wait t (.pausing ticket l (afterChunk h delivery))).remember (.taken t ending)
    match ending with
    | .finished () => w.goOn h t ticket l (afterChunk h delivery)
    | .failed message => (w.close t (.failed message)).releaseLock l
    | .cancelled => (w.close t .cancelled).releaseLock l

def handOn (w : World η ρ) (t : Nat) (uri : String) (ticket : Ticket) (l : Nat)
    (delivery : Delivery ρ) : World η ρ :=
  let x : Handover ρ :=
    ⟨t, uri, ticket, delivery, nextChunk h delivery, w.documentOf? t,
      w.scheduler.generations.get? uri⟩
  ((w.wait t (.applying ticket l delivery 0)).remember (.handed x)).visit h t uri ticket l
    delivery 0 false

def withRecords (w : World η ρ) (t : Nat) (d : Document) (ticket : Ticket) (l : Nat)
    (ending : Ending (List ρ)) : World η ρ :=
  match ending with
  | .failed message => (w.close t (.failed message)).releaseLock l
  | .cancelled => (w.close t .cancelled).releaseLock l
  | .finished records =>
    match w.verdict? d ticket with
    | some status => (w.conclude t ⟨status, ticket.version, records, 0⟩).releaseLock l
    | none => w.handOn h t d.uri ticket l ⟨records, 0, 0⟩

def withLock (w : World η ρ) (t : Nat) (d : Document) (ticket : Ticket) (l : Nat) : World η ρ :=
  match w.verdict? d ticket with
  | some status => (w.conclude t ⟨status, ticket.version, [], 0⟩).releaseLock l
  | none =>
    match w.lookUp t .refresh d with
    | (.known ending, w) => w.withRecords h t d ticket l ending
    | (.awaited, w) => w

def lockOf (w : World η ρ) (uri : String) : Nat × World η ρ :=
  match w.scheduler.locks.get? uri with
  | some l => (l, w)
  | none =>
    let l := w.locks.length
    (l, { w with locks := w.locks ++ [.free], scheduler := w.scheduler.setLock uri l })

def afterDebounce (w : World η ρ) (t : Nat) (d : Document) (ticket : Ticket) : World η ρ :=
  if w.scheduler.isCurrent d.uri ticket.generation then
    let (l, w) := w.lockOf d.uri
    if (w.locks[l]?).any (·.isOpen) then
      ({ w with locks := w.locks.modify l (·.take) }.wait t (.computing ticket l)).withLock h t d
        ticket l
    else { w with locks := w.locks.modify l (·.await t) }.wait t (.queueing ticket l)
  else w.conclude t ⟨.superseded, ticket.version, [], 0⟩

def beginRefresh (w : World η ρ) (t k : Nat) (d : Document) : World η ρ :=
  if h.eligible d then
    let ticket : Ticket := ⟨d.version, w.scheduler.next⟩
    let w :=
      ({ w with scheduler := w.scheduler.draw d.uri }.wait t (.debouncing ticket)).remember
        (.drawn t k d.uri ticket)
    if 0.0 < h.debounce then w.sleep t h.debounce else w.afterDebounce h t d ticket
  else w.conclude t ⟨.skipped, d.version, [], 0⟩

/-- Begins a detection. What is looked for is the document as it is once all is ready. -/
def beginDetection (w : World η ρ) (t k : Nat) (d : Document) : World η ρ :=
  match h.prepare d w.host with
  | none => w.wait t (.answered (.finished []))
  | some (host, commands) =>
    let w := { w with host := host }.obeyAll commands
    let d := (w.documents[k]?).getD d
    match ((w.wait t .detecting).remember (.asked t k d.uri)).lookUp t .detection d with
    | (.known ending, w) => w.wait t (.answered ending)
    | (.awaited, w) => w

def proceed (w : World η ρ) (t k : Nat) (d : Document) (errand : Errand) (stage : Stage ρ)
    (ending : Ending (List ρ)) : World η ρ :=
  match stage with
  | .starting =>
    match errand with
    | .refresh => w.beginRefresh h t k d
    | .detection => w.beginDetection h t k d
  | .debouncing ticket => w.afterDebounce h t d ticket
  | .queueing ticket l =>
    ({ w with locks := w.locks.modify l fun lock => (lock.leave t).take }.wait t
      (.computing ticket l)).withLock h t d ticket l
  | .computing ticket l => w.withRecords h t d ticket l ending
  | .applying ticket l delivery count => w.visit h t d.uri ticket l delivery count false
  | .pausing ticket l delivery =>
    match w.verdict? d ticket with
    | some status =>
      (w.conclude t ⟨status, ticket.version, delivery.records, delivery.applied⟩).releaseLock l
    | none => w.handOn h t d.uri ticket l delivery
  | .detecting => w.wait t (.answered ending)
  | .ended _ | .answered _ => w

/-- Leaves the queue for a lock. If the lock is free, the next who waits for it is woken. -/
def leaveQueue (w : World η ρ) (t l : Nat) : World η ρ :=
  match w.locks[l]? with
  | none => w
  | some lock =>
    let left := lock.leave t
    if left.held then { w with locks := w.locks.set l left }
    else { w with locks := w.locks.set l left }.releaseLock l

/-- Ends a task at a stage that it was cancelled at. One who is taking a chunk may put it off. -/
def stop (w : World η ρ) (t : Nat) (d : Document) (errand : Errand) (stage : Stage ρ) :
    World η ρ :=
  match stage with
  | .starting =>
    match errand with
    | .refresh => w.close t .cancelled
    | .detection => w.wait t (.answered .cancelled)
  | .debouncing _ => w.close t .cancelled
  | .queueing _ l => (w.leaveQueue t l).close t .cancelled
  | .computing _ l | .pausing _ l _ => (w.close t .cancelled).releaseLock l
  | .applying ticket l delivery count => w.visit h t d.uri ticket l delivery count true
  | .detecting => w.wait t (.answered .cancelled)
  | .ended _ | .answered _ => w

def resume (w : World η ρ) (t : Nat) : World η ρ :=
  match w.tasks[t]? with
  | none => w
  | some task =>
    match task.signal, w.documents[task.document]? with
    | some ending, some d =>
      let w := { w with timers := w.timers.filter (·.task ≠ t) }
      if task.cancelRequested || ending.isCancelled then
        w.stop h t d task.errand task.stage
      else w.proceed h t task.document d task.errand task.stage ending
    | _, _ => w

/-- Ends a computation: it is to be settled, and those who wait for it are to be told. -/
def endComputation (w : World η ρ) (c : Nat) (callers : List Nat) (ending : Ending (List ρ)) :
    World η ρ :=
  { w with
    computations := w.computations.modify c fun x => { x with state := .ended ending }
    turns := w.turns ++ .settle c :: callers.map (.tell c) }

def beginComputation (w : World η ρ) (c : Nat) : World η ρ :=
  match w.computations[c]? with
  | some x =>
    match x.state with
    | .queued =>
      let (host, commands, progress) := h.compute x.errand x.document w.host
      let w := { w with host := host }.obeyAll commands
      match progress with
      | .ended ending => w.endComputation c x.callers ending
      | .held records =>
        { w with
          computations := w.computations.modify c fun x => { x with state := .held records } }
    | _ => w
  | none => w

def finishComputation (w : World η ρ) (c : Nat) : World η ρ :=
  match w.computations[c]? with
  | some x =>
    match x.state with
    | .released ending => w.endComputation c x.callers ending
    | _ => w
  | none => w

def settleComputation (w : World η ρ) (c : Nat) : World η ρ :=
  match w.computations[c]? with
  | some x =>
    match x.state with
    | .ended ending =>
      { w with cache := w.cache.settle x.document.uri x.document.version c ending }
    | _ => w
  | none => w

def tellTask (w : World η ρ) (c t : Nat) : World η ρ :=
  match w.state? c, w.tasks[t]? with
  | some (.ended ending), some task =>
    if task.signal.isNone && !task.stage.isOver then w.signal t ending else w
  | _, _ => w

def ring (w : World η ρ) (t : Nat) : World η ρ :=
  match w.tasks[t]? with
  | some task =>
    if task.signal.isNone && task.stage.isAsleep then w.signal t (.finished []) else w
  | none => w

def perform (w : World η ρ) : Turn → World η ρ
  | .resume t => w.resume h t
  | .begin c => w.beginComputation h c
  | .finish c => w.finishComputation c
  | .settle c => w.settleComputation c
  | .tell c t => w.tellTask c t
  | .ring t => w.ring t

/-- The last computation under way for a document that passes a test, and its records, if it is
held. -/
def held? (w : World η ρ) (p : Document → Bool) : Option (Nat × List ρ) :=
  let underWay := (List.range w.computations.length).filter fun c =>
    (w.computations[c]?).any fun x => p x.document && !(x.state matches .queued)
  underWay.getLast?.bind fun c =>
    match w.state? c with
    | some (.held records) => some (c, records)
    | _ => none

def release (w : World η ρ) (c : Nat) (ending : Ending (List ρ)) : Bool × World η ρ :=
  match w.state? c with
  | some (.held _) =>
    (true,
      { w with
        computations := w.computations.modify c fun x => { x with state := .released ending }
        turns := w.turns ++ [.finish c] })
  | _ => (false, w)

end Swatch.World

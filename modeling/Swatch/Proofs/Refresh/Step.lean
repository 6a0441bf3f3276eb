import Mathlib.Logic.Relation
import Swatch.Proofs.Refresh.Act

/-!
Turns in small steps. A turn does several things one after the other; a step is one of them, small
enough that what holds of a world at rest holds again after it. To begin a computation and to take
in its end are turns that do one thing only, and no steps. Every other act is a sequence of steps,
so that what each step and these two turns keep is kept in whatever order a world runs.
-/

namespace Swatch

open Relation

variable {η ρ : Type}

def Stage.ticket? : Stage ρ → Option Ticket
  | .debouncing ticket | .queueing ticket _ | .computing ticket _ | .applying ticket _ _ _
  | .pausing ticket _ _ => some ticket
  | _ => none

def Stage.held? : Stage ρ → Option Nat
  | .computing _ l | .applying _ l _ _ | .pausing _ l _ => some l
  | _ => none

def Stage.queued? : Stage ρ → Option Nat
  | .queueing _ l => some l
  | _ => none

/-- The lock of a task that has it and has no chunk on its way. -/
def Stage.idle? : Stage ρ → Option Nat
  | .computing _ l | .pausing _ l _ => some l
  | _ => none

def Stage.isApplying : Stage ρ → Bool
  | .applying _ _ _ _ => true
  | _ => false

/-- What a refresh that is stopped at a stage says: what it found, and how much of it was handed on. -/
def Stage.Reports : Stage ρ → List ρ → Nat → Prop
  | .pausing _ _ delivery, records, applied => records = delivery.records ∧ applied = delivery.applied
  | .applying _ _ _ _, _, _ => False
  | _, _, applied => applied = 0

/-- What a host does when it is called, and the commands that it gives. -/
inductive Host.Yields (h : Host η ρ) (host : η) : η → List Command → Prop where
  | prepare {d host' commands} (hp : h.prepare d host = some (host', commands)) :
      Yields h host host' commands
  | apply {visit host' commands ending?}
      (ha : h.apply visit host = (host', commands, ending?)) : Yields h host host' commands

namespace World

/-- Records that a task can have at once for a document as it is: it was signalled with them, they
are held in the cache, or a computation that is not settled yet has ended with them. -/
def Known (w : World η ρ) (task : Task ρ) (d : Document) (records : List ρ) : Prop :=
  task.signal = some (.finished records) ∨ w.cache.held? d.uri d.version = some records ∨
    ∃ c, w.cache.pending.get? (d.uri, d.version) = some c ∧
      w.state? c = some (.ended (.finished records))

def offer (h : Host η ρ) (w : World η ρ) (t : Nat) (uri : String) (ticket : Ticket)
    (delivery : Delivery ρ) : Handover ρ :=
  ⟨t, uri, ticket, delivery, nextChunk h delivery, w.documentOf? t,
    w.scheduler.generations.get? uri⟩

/-- How a refresh may end at a stage that it has come to: something stops it, the last chunk has been
taken, or it has failed or is cancelled. -/
inductive Concludes (h : Host η ρ) (w : World η ρ) (k : Nat) :
    Stage ρ → Ending (Outcome ρ) → Prop where
  | failed (s message) : Concludes h w k s (.failed message)
  | cancelled (s) : Concludes h w k s .cancelled
  | skipped {d : Document} (hd : w.documents[k]? = some d) (hskip : h.eligible d = false) :
      Concludes h w k .starting (.finished ⟨.skipped, d.version, [], 0⟩)
  | superseded {d : Document} {ticket : Ticket} (hd : w.documents[k]? = some d)
      (hc : w.scheduler.isCurrent d.uri ticket.generation = false) :
      Concludes h w k (.debouncing ticket) (.finished ⟨.superseded, ticket.version, [], 0⟩)
  | stopped {d : Document} {s : Stage ρ} {ticket : Ticket} {status : Status}
      {records : List ρ} {applied : Nat}
      (hd : w.documents[k]? = some d) (hs : s.ticket? = some ticket)
      (hv : w.verdict? d ticket = some status) (hreports : s.Reports records applied) :
      Concludes h w k s (.finished ⟨status, ticket.version, records, applied⟩)
  | applied {delivery : Delivery ρ}
      (hdone : delivery.records.length ≤ (delivery.index + 1) * h.chunkSize) (ticket l count) :
      Concludes h w k (.applying ticket l delivery count)
        (.finished ⟨.applied, ticket.version, delivery.records, (afterChunk h delivery).applied⟩)

/-- One small step. Some steps are free: those who use a world may take them at any moment, but no turn
does. -/
inductive Step (h : Host η ρ) (free : Bool) (w : World η ρ) : World η ρ → Prop where
  | pass (turns timers clock ended)
      (hturns : ∀ c t, Turn.tell c t ∈ turns → Turn.tell c t ∈ w.turns) :
      Step h free w
        { w with
          turns := turns, timers := timers, clock := clock
          scheduler := { w.scheduler with ended := ended } }
  | openDocument (d : Document) (hfree : free = true) : Step h free w (w.openDocument d)
  | editAt (k text) (hfree : free = true) : Step h free w (w.editAt k text)
  | obey (command) (hfree : free = true) : Step h free w (w.obey command)
  | hosted {host : η} {commands : List Command} (hhost : h.Yields w.host host commands) :
      Step h free w ({ w with host := host }.obeyAll commands)
  | start (errand k) (hfree : free = true) : Step h free w (w.start errand k)
  | cancelTask (t) (hfree : free = true) : Step h free w (w.cancelTask t).2
  | release (c ending) (hfree : free = true) : Step h free w (w.release c ending).2
  | finish (c) : Step h free w (w.finishComputation c)
  | tell {c t : Nat} (hturn : .tell c t ∈ w.turns) : Step h free w (w.tellTask c t)
  | nudge {t : Nat} {task : Task ρ} (ht : w.tasks[t]? = some task)
      (hs : task.stage.isAsleep = true ∨ task.stage.isApplying = true) :
      Step h free w (w.signal t (.finished []))
  | close {t : Nat} {task : Task ρ} (ht : w.tasks[t]? = some task)
      (hs : task.stage = .starting ∨ ∃ ticket, task.stage = .debouncing ticket) (ending)
      (hends : w.Concludes h task.document task.stage ending) :
      Step h free w (w.close t ending)
  | answer {t : Nat} {task : Task ρ} (ht : w.tasks[t]? = some task)
      (hs : task.stage = .starting ∨ task.stage = .detecting) (ending) :
      Step h free w (w.wait t (.answered ending))
  | ask {t : Nat} {task : Task ρ} {d : Document} (ht : w.tasks[t]? = some task)
      (hd : w.documents[task.document]? = some d) (hs : task.stage = .starting) :
      Step h free w
        (((w.wait t .detecting).remember (.asked t task.document d.uri)).lookUp t .detection d).2
  | draw {t : Nat} {task : Task ρ} {d : Document} (ht : w.tasks[t]? = some task)
      (hd : w.documents[task.document]? = some d) (hs : task.stage = .starting) :
      Step h free w
        (({ w with scheduler := w.scheduler.draw d.uri }.wait t
          (.debouncing ⟨d.version, w.scheduler.next⟩)).remember
            (.drawn t task.document d.uri ⟨d.version, w.scheduler.next⟩))
  | makeLock (uri) (hl : w.scheduler.locks.get? uri = none) :
      Step h free w
        { w with
          locks := w.locks ++ [.free], scheduler := w.scheduler.setLock uri w.locks.length }
  | acquire {t : Nat} {task : Task ρ} {d : Document} {ticket : Ticket} {l : Nat} {lock : Lock}
      (ht : w.tasks[t]? = some task) (hd : w.documents[task.document]? = some d)
      (hs : task.stage = .debouncing ticket)
      (hc : w.scheduler.isCurrent d.uri ticket.generation = true)
      (hl : w.scheduler.locks.get? d.uri = some l) (hlock : w.locks[l]? = some lock)
      (hopen : lock.isOpen = true) :
      Step h free w ({ w with locks := w.locks.modify l (·.take) }.wait t (.computing ticket l))
  | queue {t : Nat} {task : Task ρ} {d : Document} {ticket : Ticket} {l : Nat}
      (ht : w.tasks[t]? = some task) (hd : w.documents[task.document]? = some d)
      (hs : task.stage = .debouncing ticket)
      (hc : w.scheduler.isCurrent d.uri ticket.generation = true)
      (hl : w.scheduler.locks.get? d.uri = some l)
      (hclosed : ∀ lock, w.locks[l]? = some lock → lock.isOpen = false) :
      Step h free w ({ w with locks := w.locks.modify l (·.await t) }.wait t (.queueing ticket l))
  | wake {t : Nat} {task : Task ρ} {ticket : Ticket} {l : Nat} {ending : Ending (List ρ)}
      (ht : w.tasks[t]? = some task) (hs : task.stage = .queueing ticket l)
      (hsignal : task.signal = some ending) (hending : ending ≠ .cancelled)
      (hasked : task.cancelRequested = false) :
      Step h free w
        ({ w with locks := w.locks.modify l fun lock => (lock.leave t).take }.wait t
          (.computing ticket l))
  | quit {t : Nat} {task : Task ρ} {l : Nat} (ht : w.tasks[t]? = some task)
      (hs : task.stage.idle? = some l) (ending)
      (hends : w.Concludes h task.document task.stage ending) :
      Step h free w ((w.close t ending).releaseLock l)
  | leave {t : Nat} {task : Task ρ} {ticket : Ticket} {l : Nat} (ht : w.tasks[t]? = some task)
      (hs : task.stage = .queueing ticket l)
      (hasked : task.cancelRequested = true ∨ task.signal = some .cancelled) :
      Step h free w ((w.leaveQueue t l).close t .cancelled)
  | lookUp {t : Nat} {task : Task ρ} {d : Document} {ticket : Ticket} {l : Nat}
      (ht : w.tasks[t]? = some task) (hd : w.documents[task.document]? = some d)
      (hs : task.stage = .computing ticket l) (hv : w.verdict? d ticket = none) :
      Step h free w (w.lookUp t .refresh d).2
  | hand {t : Nat} {task : Task ρ} {d : Document} {ticket : Ticket} {l : Nat}
      {delivery : Delivery ρ} (ht : w.tasks[t]? = some task)
      (hd : w.documents[task.document]? = some d) (hv : w.verdict? d ticket = none)
      (hs : task.stage = .pausing ticket l delivery ∨
        task.stage = .computing ticket l ∧
          ∃ records, delivery = ⟨records, 0, 0⟩ ∧ w.Known task d records) :
      Step h free w
        ((w.wait t (.applying ticket l delivery 0)).remember
          (.handed (w.offer h t d.uri ticket delivery)))
  | revisit {t : Nat} {task : Task ρ} {ticket : Ticket} {l : Nat} {delivery : Delivery ρ}
      {count : Nat} (ht : w.tasks[t]? = some task)
      (hs : task.stage = .applying ticket l delivery count) :
      Step h free w (w.wait t (.applying ticket l delivery (count + 1)))
  | taken {t : Nat} {task : Task ρ} {ticket : Ticket} {l : Nat} {delivery : Delivery ρ}
      {count : Nat} (ht : w.tasks[t]? = some task)
      (hs : task.stage = .applying ticket l delivery count)
      (hmore : (delivery.index + 1) * h.chunkSize < delivery.records.length) :
      Step h free w
        ((w.wait t (.pausing ticket l (afterChunk h delivery))).remember
          (.taken t (.finished ())))
  | last {t : Nat} {task : Task ρ} {ticket : Ticket} {l : Nat} {delivery : Delivery ρ}
      {count : Nat} (ht : w.tasks[t]? = some task)
      (hs : task.stage = .applying ticket l delivery count) (ending ending')
      (hends : w.Concludes h task.document task.stage ending')
      (hgood : ∀ outcome, ending' = .finished outcome → ending = .finished ()) :
      Step h free w
        ((((w.wait t (.pausing ticket l (afterChunk h delivery))).remember
          (.taken t ending)).close t ending').releaseLock l)

abbrev Steps (h : Host η ρ) : World η ρ → World η ρ → Prop :=
  ReflTransGen (Step h false)

/-! ### What commands leave as it is -/

section Commands

variable (w : World η ρ) (c : Command) (cs : List Command)

theorem obeyAll_cons : w.obeyAll (c :: cs) = (w.obey c).obeyAll cs :=
  rfl

@[simp] theorem tasks_obey : (w.obey c).tasks = w.tasks := by
  cases c <;> simp only [obey, edit, cancel, forget] <;> try rfl
  split <;> rfl

@[simp] theorem tasks_obeyAll : (w.obeyAll cs).tasks = w.tasks := by
  induction cs generalizing w with
  | nil => rfl
  | cons c cs ih => rw [obeyAll_cons, ih, tasks_obey]

@[simp] theorem length_documents_obey : (w.obey c).documents.length = w.documents.length := by
  cases c <;> simp only [obey, edit, cancel, forget, remember, editAt]
  split <;> simp

@[simp] theorem length_documents_obeyAll :
    (w.obeyAll cs).documents.length = w.documents.length := by
  induction cs generalizing w with
  | nil => rfl
  | cons c cs ih => rw [obeyAll_cons, ih, length_documents_obey]

end Commands

section Fields

variable (w : World η ρ) (t : Nat)

@[simp] theorem tasks_modifyTask (f : Task ρ → Task ρ) :
    (w.modifyTask t f).tasks = w.tasks.modify t f :=
  rfl

@[simp] theorem locks_modifyTask (f : Task ρ → Task ρ) : (w.modifyTask t f).locks = w.locks :=
  rfl

@[simp] theorem history_modifyTask (f : Task ρ → Task ρ) : (w.modifyTask t f).history = w.history :=
  rfl

@[simp] theorem tasks_wait (stage : Stage ρ) :
    (w.wait t stage).tasks = w.tasks.modify t fun task =>
      { task with stage := stage, signal := none, cancelRequested := false } :=
  rfl

@[simp] theorem scheduler_wait (stage : Stage ρ) : (w.wait t stage).scheduler = w.scheduler :=
  rfl

@[simp] theorem locks_wait (stage : Stage ρ) : (w.wait t stage).locks = w.locks :=
  rfl

@[simp] theorem turns_wait (stage : Stage ρ) : (w.wait t stage).turns = w.turns :=
  rfl

@[simp] theorem history_wait (stage : Stage ρ) : (w.wait t stage).history = w.history :=
  rfl

@[simp] theorem tasks_signal (ending : Ending (List ρ)) :
    (w.signal t ending).tasks = w.tasks.modify t fun task => { task with signal := some ending } :=
  rfl

@[simp] theorem turns_signal (ending : Ending (List ρ)) :
    (w.signal t ending).turns = w.turns ++ [.resume t] :=
  rfl

@[simp] theorem locks_signal (ending : Ending (List ρ)) : (w.signal t ending).locks = w.locks :=
  rfl

@[simp] theorem history_signal (ending : Ending (List ρ)) :
    (w.signal t ending).history = w.history :=
  rfl

end Fields

theorem getElem?_wait {w : World η ρ} {t : Nat} {task : Task ρ} (ht : w.tasks[t]? = some task)
    (stage : Stage ρ) :
    (w.wait t stage).tasks[t]? =
      some { task with stage := stage, signal := none, cancelRequested := false } := by
  simp [ht]

/-! ### Every act is a sequence of steps -/

variable {h : Host η ρ} {w : World η ρ} {t l : Nat} {task : Task ρ} {d : Document}
  {ticket : Ticket} {delivery : Delivery ρ}

/-- To count how refreshes ended changes nothing about how one may end. -/
theorem Concludes.pass {k : Nat} {s : Stage ρ} {ending : Ending (Outcome ρ)}
    (hends : w.Concludes h k s ending) (turns timers clock ended) :
    { w with
      turns := turns, timers := timers, clock := clock
      scheduler := { w.scheduler with ended := ended } }.Concludes h k s ending := by
  cases hends with
  | failed => exact .failed ..
  | cancelled => exact .cancelled _
  | skipped hd hskip => exact .skipped hd hskip
  | superseded hd hc => exact .superseded hd hc
  | stopped hd hs hv hreports => exact .stopped (by exact hd) hs (by exact hv) hreports
  | applied hdone => exact .applied hdone ..

theorem steps_conclude (ht : w.tasks[t]? = some task)
    (hs : task.stage = .starting ∨ ∃ ticket, task.stage = .debouncing ticket) {outcome : Outcome ρ}
    (hends : w.Concludes h task.document task.stage (.finished outcome)) :
    Steps h w (w.conclude t outcome) := by
  refine .trans (.single (.pass w.turns w.timers w.clock (w.scheduler.ended ++ [outcome.status])
    fun _ _ => id)) (.single (Step.close ?_ hs (.finished outcome) (hends.pass ..)))
  exact ht

theorem steps_conclude_releaseLock (ht : w.tasks[t]? = some task)
    (hs : task.stage.idle? = some l) {outcome : Outcome ρ}
    (hends : w.Concludes h task.document task.stage (.finished outcome)) :
    Steps h w ((w.conclude t outcome).releaseLock l) := by
  refine .trans (.single (.pass w.turns w.timers w.clock (w.scheduler.ended ++ [outcome.status])
    fun _ _ => id)) (.single (Step.quit ?_ hs (.finished outcome) (hends.pass ..)))
  exact ht

/-- To count how a refresh ended makes no difference to what was noted before. -/
theorem conclude_remember_wait (w : World η ρ) (t : Nat) (stage : Stage ρ) (event : Event ρ)
    (outcome : Outcome ρ) :
    ((w.wait t stage).remember event).conclude t outcome =
      (({ w with scheduler := w.scheduler.note outcome.status }.wait t stage).remember event).close t
        (.finished outcome) :=
  rfl

theorem steps_visit {count : Nat} (ht : w.tasks[t]? = some task)
    (hs : task.stage = .applying ticket l delivery count) (uri : String) (cancelled : Bool) :
    Steps h w (w.visit h t uri ticket l delivery count cancelled) := by
  rw [visit]
  generalize hv :
    h.apply ⟨uri, nextChunk h delivery, delivery.index, count, cancelled⟩ w.host = r
  obtain ⟨host, commands, ending?⟩ := r
  have hobey : Steps h w ({ w with host := host }.obeyAll commands) :=
    .single (.hosted (.apply hv))
  have ht' : ({ w with host := host }.obeyAll commands).tasks[t]? = some task := by
    simpa using ht
  refine hobey.trans ?_
  dsimp only
  generalize { w with host := host }.obeyAll commands = v at ht' ⊢
  cases ending? with
  | none =>
      exact .tail (.single (.revisit ht' hs)) (.nudge (getElem?_wait ht' _) (.inr rfl))
  | some ending =>
      cases ending with
      | finished =>
          simp only [goOn]
          split
          · rename_i hmore
            refine .trans (.single (.taken ht' hs hmore)) ?_
            split
            · exact .single (.pass _ _ _ _ fun _ _ => id)
            · exact .single (.nudge (getElem?_wait ht' _) (.inl rfl))
          · rename_i hdone
            have hended : Step h false v { v with scheduler := v.scheduler.note .applied } :=
              .pass v.turns v.timers v.clock (v.scheduler.ended ++ [.applied]) fun _ _ => id
            have ht'' : { v with scheduler := v.scheduler.note .applied }.tasks[t]? = some task := ht'
            rw [conclude_remember_wait]
            refine .tail (.single hended) (.last ht'' hs _ _ ?_ fun _ _ => rfl)
            exact hs ▸ .applied (Nat.le_of_not_lt hdone) ..
      | failed message => exact .single (.last ht' hs _ _ (.failed ..) (by simp))
      | cancelled => exact .single (.last ht' hs _ _ (.cancelled _) (by simp))

theorem steps_handOn (ht : w.tasks[t]? = some task) (hd : w.documents[task.document]? = some d)
    (hv : w.verdict? d ticket = none)
    (hs : task.stage = .pausing ticket l delivery ∨ task.stage = .computing ticket l ∧
      ∃ records, delivery = ⟨records, 0, 0⟩ ∧ w.Known task d records) :
    Steps h w (w.handOn h t d.uri ticket l delivery) :=
  .trans (.single (.hand ht hd hv hs)) (steps_visit (by exact getElem?_wait ht _) rfl _ _)

theorem steps_withRecords (ht : w.tasks[t]? = some task)
    (hd : w.documents[task.document]? = some d) (hs : task.stage = .computing ticket l)
    (ending : Ending (List ρ))
    (hk : ∀ records, ending = .finished records → w.Known task d records) :
    Steps h w (w.withRecords h t d ticket l ending) := by
  have hidle : task.stage.idle? = some l := by rw [hs]; rfl
  cases ending with
  | failed message => exact .single (.quit ht hidle _ (.failed ..))
  | cancelled => exact .single (.quit ht hidle _ (.cancelled _))
  | finished records =>
      rw [withRecords]
      cases hv : w.verdict? d ticket with
      | some status =>
          exact steps_conclude_releaseLock ht hidle
            (.stopped hd (by rw [hs]; rfl) hv (by rw [hs]; rfl))
      | none => exact steps_handOn ht hd hv (.inr ⟨hs, records, rfl, hk records rfl⟩)

theorem lookUp_frame (w : World η ρ) (t : Nat) (errand : Errand) (d : Document) :
    (w.lookUp t errand d).2.tasks = w.tasks ∧ (w.lookUp t errand d).2.documents = w.documents ∧
      (w.lookUp t errand d).2.scheduler = w.scheduler := by
  simp only [lookUp]
  repeat' split
  all_goals exact ⟨rfl, rfl, rfl⟩

theorem known_of_lookUp {errand : Errand} {records : List ρ}
    (hk : (w.lookUp t errand d).1 = .known (.finished records)) (task : Task ρ) :
    (w.lookUp t errand d).2.Known task d records := by
  revert hk
  simp only [lookUp]
  split
  · rename_i records' hget
    simp only [Lookup.known.injEq, Ending.finished.injEq]
    rintro rfl
    refine .inr (.inl ?_)
    revert hget
    simp only [Cache.get, Cache.held?]
    grind
  · split
    · rename_i c hc
      split
      · rename_i ending hending
        simp only [Lookup.known.injEq]
        rintro rfl
        exact .inr (.inr ⟨c, hc, hending⟩)
      · simp
    · simp

theorem steps_withLock (ht : w.tasks[t]? = some task) (hd : w.documents[task.document]? = some d)
    (hs : task.stage = .computing ticket l) : Steps h w (w.withLock h t d ticket l) := by
  rw [withLock]
  cases hv : w.verdict? d ticket with
  | some status =>
      exact steps_conclude_releaseLock ht (by rw [hs]; rfl)
        (.stopped hd (by rw [hs]; rfl) hv (by rw [hs]; rfl))
  | none =>
      have hlook : Steps h w (w.lookUp t .refresh d).2 := .single (.lookUp ht hd hs hv)
      obtain ⟨htasks, hdocuments, -⟩ := lookUp_frame w t .refresh d
      dsimp only
      split
      · rename_i ending v hfound
        rw [hfound] at hlook htasks hdocuments
        refine hlook.trans (steps_withRecords (by rw [htasks, ht]) (by rw [hdocuments, hd]) hs
          ending fun records hending => ?_)
        have hknown := known_of_lookUp (w := w) (t := t) (d := d) (by rw [hfound, hending]) task
        rwa [hfound] at hknown
      · rename_i v hfound
        rwa [hfound] at hlook

/-- The lock of a document is the one that is kept for it, or a new one. -/
theorem lockOf_cases (w : World η ρ) (uri : String) :
    ∃ l locks scheduler, w.lockOf uri = (l, { w with locks := locks, scheduler := scheduler }) ∧
      scheduler.generations = w.scheduler.generations ∧ scheduler.locks.get? uri = some l := by
  rw [lockOf]
  split
  · rename_i l hl
    exact ⟨l, w.locks, w.scheduler, rfl, rfl, hl⟩
  · exact ⟨_, _, _, rfl, rfl, by simp [Scheduler.setLock]⟩

theorem steps_lockOf (w : World η ρ) (uri : String) : Steps h w (w.lockOf uri).2 := by
  rw [lockOf]
  split
  · exact .refl
  · rename_i hnone
    exact .single (.makeLock uri hnone)

/-- A refresh that is still the latest one takes the lock of its document, or waits for it. -/
theorem afterDebounce_cases (w : World η ρ) (t : Nat) (d : Document) (ticket : Ticket) :
    (w.scheduler.isCurrent d.uri ticket.generation = true ∧ ∃ l locks scheduler,
      w.lockOf d.uri = (l, { w with locks := locks, scheduler := scheduler }) ∧
      scheduler.generations = w.scheduler.generations ∧ scheduler.locks.get? d.uri = some l ∧
        ((∃ lock, locks[l]? = some lock ∧ lock.isOpen = true ∧
          w.afterDebounce h t d ticket =
            ({ w with locks := locks.modify l (·.take), scheduler := scheduler }.wait t
              (.computing ticket l)).withLock h t d ticket l) ∨
        (∀ lock, locks[l]? = some lock → lock.isOpen = false) ∧
          w.afterDebounce h t d ticket =
            { w with locks := locks.modify l (·.await t), scheduler := scheduler }.wait t
              (.queueing ticket l))) ∨
    w.scheduler.isCurrent d.uri ticket.generation = false ∧
      w.afterDebounce h t d ticket = w.conclude t ⟨.superseded, ticket.version, [], 0⟩ := by
  obtain ⟨l, locks, scheduler, hlockOf, hgenerations, hkept⟩ := w.lockOf_cases d.uri
  rw [afterDebounce, hlockOf]
  split
  · rename_i hcurrent
    refine .inl ⟨hcurrent, l, locks, scheduler, rfl, hgenerations, hkept, ?_⟩
    dsimp only
    split
    · rename_i hopen
      obtain ⟨lock, hlock, hopen⟩ := (Option.any_eq_true ..).mp hopen
      exact .inl ⟨lock, hlock, hopen, rfl⟩
    · rename_i hclosed
      exact .inr ⟨fun lock hlock => by simpa [hlock] using hclosed, rfl⟩
  · rename_i hlate
    exact .inr ⟨by simpa using hlate, rfl⟩

theorem steps_afterDebounce (ht : w.tasks[t]? = some task)
    (hd : w.documents[task.document]? = some d) (hs : task.stage = .debouncing ticket) :
    Steps h w (w.afterDebounce h t d ticket) := by
  obtain ⟨hcurrent, l, locks, scheduler, hlockOf, hgenerations, hkept, hcases⟩ | ⟨hlate, heq⟩ :=
    w.afterDebounce_cases (h := h) t d ticket
  · have hsteps := w.steps_lockOf (h := h) d.uri
    rw [hlockOf] at hsteps
    have hcurrent' : scheduler.isCurrent d.uri ticket.generation = true := by
      simpa [Scheduler.isCurrent, hgenerations] using hcurrent
    refine hsteps.trans ?_
    obtain ⟨lock, hlock, hopen, heq⟩ | ⟨hclosed, heq⟩ := hcases <;> rw [heq]
    · refine .trans (.single (.acquire (by exact ht) (by exact hd) hs hcurrent' hkept hlock hopen)) ?_
      exact steps_withLock (getElem?_wait (by exact ht) _) (by exact hd) rfl
    · exact .single (.queue (by exact ht) (by exact hd) hs hcurrent' hkept hclosed)
  · rw [heq]
    exact steps_conclude ht (.inr ⟨ticket, hs⟩) (hs ▸ .superseded hd hlate)

theorem steps_beginRefresh (ht : w.tasks[t]? = some task)
    (hd : w.documents[task.document]? = some d) (hs : task.stage = .starting) :
    Steps h w (w.beginRefresh h t task.document d) := by
  rw [beginRefresh]
  split
  · refine .trans (.single (.draw ht hd hs)) ?_
    dsimp only
    split
    · exact .single (.pass _ _ _ _ fun _ _ => id)
    · have hdrawn := getElem?_wait (w := { w with scheduler := w.scheduler.draw d.uri }) ht
        (.debouncing ⟨d.version, w.scheduler.next⟩)
      exact steps_afterDebounce hdrawn hd rfl
  · rename_i hskip
    exact steps_conclude ht (.inl hs) (hs ▸ .skipped hd (by simpa using hskip))

theorem steps_beginDetection (ht : w.tasks[t]? = some task)
    (hd : w.documents[task.document]? = some d) (hs : task.stage = .starting) :
    Steps h w (w.beginDetection h t task.document d) := by
  rw [beginDetection]
  cases hp : h.prepare d w.host with
  | none => exact .single (.answer ht (.inl hs) _)
  | some r =>
      obtain ⟨host, commands⟩ := r
      have hhosted : Steps h w ({ w with host := host }.obeyAll commands) :=
        .single (.hosted (.prepare hp))
      refine hhosted.trans ?_
      dsimp only
      have htv : ({ w with host := host }.obeyAll commands).tasks[t]? = some task := by
        simpa using ht
      have hdv : ({ w with host := host }.obeyAll commands).documents[task.document]? =
          some ((({ w with host := host }.obeyAll commands).documents[task.document]?).getD d) := by
        have hlt := (List.getElem?_eq_some_iff.mp hd).1
        rw [List.getElem?_eq_getElem (by simpa using hlt), Option.getD_some]
      generalize { w with host := host }.obeyAll commands = v at htv hdv ⊢
      generalize (v.documents[task.document]?).getD d = d' at hdv ⊢
      have hask : Step h false v _ := .ask htv hdv hs
      split
      · rename_i ending v' hfound
        rw [hfound] at hask
        obtain ⟨htasks, -, -⟩ := lookUp_frame
          ((v.wait t .detecting).remember (.asked t task.document d'.uri)) t .detection d'
        rw [hfound] at htasks
        have htv' : v'.tasks[t]? = _ :=
          (congrArg (·[t]?) htasks).trans (getElem?_wait htv .detecting)
        exact .tail (.single hask) (.answer htv' (.inr rfl) ending)
      · rename_i v' hfound
        rw [hfound] at hask
        exact .single hask

theorem steps_proceed (ht : w.tasks[t]? = some task) (hd : w.documents[task.document]? = some d)
    (errand : Errand) {ending : Ending (List ρ)} (hsignal : task.signal = some ending)
    (hending : ending ≠ .cancelled) (hasked : task.cancelRequested = false) :
    Steps h w (w.proceed h t task.document d errand task.stage ending) := by
  cases hs : task.stage with
  | starting =>
      cases errand with
      | refresh => exact steps_beginRefresh ht hd hs
      | detection => exact steps_beginDetection ht hd hs
  | debouncing ticket => exact steps_afterDebounce ht hd hs
  | queueing ticket l =>
      have htaken := getElem?_wait
        (w := { w with locks := w.locks.modify l fun lock => (lock.leave t).take }) ht
        (.computing ticket l)
      exact .trans (.single (.wake ht hs hsignal hending hasked)) (steps_withLock htaken hd rfl)
  | computing ticket l =>
      exact steps_withRecords ht hd hs ending fun records hrecords => .inl (hrecords ▸ hsignal)
  | applying ticket l delivery count => exact steps_visit ht hs _ _
  | pausing ticket l delivery =>
      rw [proceed]
      cases hv : w.verdict? d ticket with
      | some status =>
          exact steps_conclude_releaseLock ht (by rw [hs]; rfl)
            (.stopped hd (by rw [hs]; rfl) hv (by rw [hs]; exact ⟨rfl, rfl⟩))
      | none => exact steps_handOn ht hd hv (.inl hs)
  | detecting => exact .single (.answer ht (.inr hs) _)
  | ended _ => exact .refl
  | answered _ => exact .refl

theorem steps_stop (ht : w.tasks[t]? = some task) (errand : Errand)
    (hasked : task.cancelRequested = true ∨ task.signal = some .cancelled) :
    Steps h w (w.stop h t d errand task.stage) := by
  cases hs : task.stage with
  | starting =>
      cases errand with
      | refresh => exact .single (.close ht (.inl hs) _ (.cancelled _))
      | detection => exact .single (.answer ht (.inl hs) _)
  | debouncing ticket => exact .single (.close ht (.inr ⟨ticket, hs⟩) _ (.cancelled _))
  | queueing ticket l => exact .single (.leave ht hs hasked)
  | computing ticket l => exact .single (.quit ht (by rw [hs]; rfl) _ (.cancelled _))
  | applying ticket l delivery count => exact steps_visit ht hs _ _
  | pausing ticket l delivery => exact .single (.quit ht (by rw [hs]; rfl) _ (.cancelled _))
  | detecting => exact .single (.answer ht (.inr hs) _)
  | ended _ => exact .refl
  | answered _ => exact .refl

/-- A task that has not been told anything, or whose document is not there, makes nothing of its
turn. -/
theorem resume_of_none (w : World η ρ) (t : Nat)
    (hnone : ∀ task, w.tasks[t]? = some task →
      task.signal = none ∨ w.documents[task.document]? = none) : w.resume h t = w := by
  rw [resume]
  split
  · rfl
  · rename_i task ht
    rcases hnone task ht with hsignal | hd
    · simp only [hsignal]
    · simp only [hd]
      cases task.signal <;> rfl

/-- A task that was told something ends itself, if it was asked to, and goes on else. -/
theorem resume_of_told {told : Ending (List ρ)} (ht : w.tasks[t]? = some task)
    (hsignal : task.signal = some told) (hd : w.documents[task.document]? = some d) :
    w.resume h t =
      let v := { w with timers := w.timers.filter (·.task ≠ t) }
      if task.cancelRequested || told.isCancelled then v.stop h t d task.errand task.stage
      else v.proceed h t task.document d task.errand task.stage told := by
  rw [resume, ht]
  simp only [hsignal, hd]

/-- What a task makes of its turn. -/
theorem stops_or_proceeds (w : World η ρ) (t : Nat) :
    (∃ task told d, w.tasks[t]? = some task ∧ task.signal = some told ∧
      w.documents[task.document]? = some d ∧
        ((task.cancelRequested = true ∨ told = .cancelled) ∧
          w.resume h t =
            { w with timers := w.timers.filter (·.task ≠ t) }.stop h t d task.errand task.stage ∨
        (task.cancelRequested = false ∧ told ≠ .cancelled) ∧
          w.resume h t =
            { w with timers := w.timers.filter (·.task ≠ t) }.proceed h t task.document d task.errand
              task.stage told)) ∨
    w.resume h t = w := by
  by_cases hnone : ∀ task, w.tasks[t]? = some task →
      task.signal = none ∨ w.documents[task.document]? = none
  · exact .inr (w.resume_of_none t hnone)
  simp only [Classical.not_forall, not_or] at hnone
  obtain ⟨task, ht, hsignal, hd⟩ := hnone
  obtain ⟨told, hsignal⟩ := Option.ne_none_iff_exists'.mp hsignal
  obtain ⟨d, hd⟩ := Option.ne_none_iff_exists'.mp hd
  refine .inl ⟨task, told, d, ht, hsignal, hd, ?_⟩
  rw [resume_of_told ht hsignal hd]
  dsimp only
  split
  · rename_i hasked
    exact .inl ⟨by simpa using hasked, rfl⟩
  · rename_i hgoes
    exact .inr ⟨by simpa using hgoes, rfl⟩

theorem steps_resume (w : World η ρ) (t : Nat) : Steps h w (w.resume h t) := by
  have hpass : Steps h w { w with timers := w.timers.filter (·.task ≠ t) } :=
    .single (.pass w.turns _ w.clock w.scheduler.ended fun _ _ => id)
  obtain ⟨task, told, d, ht, hsignal, hd, ⟨hasked, heq⟩ | ⟨⟨hasked, htold⟩, heq⟩⟩ | heq :=
    w.stops_or_proceeds (h := h) t
  · rw [heq]
    refine hpass.trans (steps_stop (by exact ht) _ (hasked.imp_right ?_))
    exact fun hcancelled => hsignal.trans (congrArg some hcancelled)
  · rw [heq]
    exact hpass.trans (steps_proceed (by exact ht) (by exact hd) _ hsignal htold hasked)
  · rw [heq]

/-- A turn that neither begins nor settles a computation is a sequence of steps. -/
theorem steps_turn (w : World η ρ) {turns : List Turn} (hturns : ∀ turn ∈ turns, turn ∈ w.turns)
    {turn : Turn} (hturn : turn ∈ w.turns) (hbegin : ∀ c, turn ≠ .begin c)
    (hsettle : ∀ c, turn ≠ .settle c) :
    Steps h w ({ w with turns := turns }.perform h turn) := by
  have hpass : Step h false w { w with turns := turns } :=
    .pass turns w.timers w.clock w.scheduler.ended fun _ _ => hturns _
  cases turn with
  | resume t => exact .head hpass (steps_resume _ t)
  | begin c => exact absurd rfl (hbegin c)
  | finish c => exact .head hpass (.single (.finish c))
  | settle c => exact absurd rfl (hsettle c)
  | tell c t =>
      -- The task is told first and the turn leaves the queue after it: a task may only be told
      -- what waits to be told.
      refine .head (.tell hturn) ?_
      simp only [perform, tellTask, state?]
      split
      · split
        · refine .single (.pass (turns ++ [.resume t]) w.timers w.clock w.scheduler.ended ?_)
          intro c' t' hmem
          simp only [turns_signal, List.mem_append, List.mem_singleton, reduceCtorEq, or_false] at hmem ⊢
          exact hturns _ hmem
        · exact .single hpass
      · exact .single hpass
  | ring t =>
      refine .head hpass ?_
      simp only [perform, ring]
      split
      · rename_i task ht
        split
        · rename_i hs
          simp only [Bool.and_eq_true] at hs
          exact .single (.nudge ht (.inl hs.2))
        · exact .refl
      · exact .refl

theorem steps_induction {P : World η ρ → Prop} (hstep : ∀ v v', Step h false v v' → P v → P v')
    {w w' : World η ρ} (hsteps : Steps h w w') (hw : P w) : P w' := by
  induction hsteps with
  | refl => exact hw
  | tail _ hlast ih => exact hstep _ _ hlast ih

theorem act_cases (w : World η ρ) (a : Act ρ) :
    Step h true w (w.act h a) ∨ Steps h w (w.act h a) ∨
      (∃ n c, a = .turn n ∧ w.turns[n]? = some (.begin c) ∧
        w.act h a = { w with turns := w.turns.eraseIdx n }.beginComputation h c) ∨
      ∃ n c, a = .turn n ∧ w.turns[n]? = some (.settle c) ∧
        w.act h a = { w with turns := w.turns.eraseIdx n }.settleComputation c := by
  cases a with
  | openDocument d => exact .inl (.openDocument d rfl)
  | edit k text => exact .inl (.editAt k text rfl)
  | start errand k => exact .inl (.start errand k rfl)
  | obey command => exact .inl (.obey command rfl)
  | cancelTask t => exact .inl (.cancelTask t rfl)
  | release c ending => exact .inl (.release c ending rfl)
  | moveTo instant =>
      refine .inl (.pass _ _ _ _ ?_)
      intro c t hmem
      simpa using hmem
  | setClock instant => exact .inl (.pass _ _ _ _ fun _ _ => id)
  | turn n =>
      refine .inr ?_
      rw [act]
      split
      · rename_i turn hturn
        cases turn with
        | begin c => exact .inr (.inl ⟨n, c, rfl, hturn, rfl⟩)
        | settle c => exact .inr (.inr ⟨n, c, rfl, hturn, rfl⟩)
        | _ =>
            exact .inl (steps_turn w (fun _ => List.mem_of_mem_eraseIdx)
              (List.mem_of_getElem? hturn) (by simp) (by simp))
      · exact .inl .refl

/-- What every step keeps, and every beginning and settling of a computation, every act keeps. -/
theorem act_induction {P : World η ρ → Prop}
    (hstep : ∀ free v v', Step h free v v' → P v → P v')
    (hbegin : ∀ v c, P v → P (v.beginComputation h c))
    (hsettle : ∀ v c, P v → P (v.settleComputation c)) (hw : P w) (a : Act ρ) :
    P (w.act h a) := by
  have hpass : ∀ n, P { w with turns := w.turns.eraseIdx n } := fun n =>
    hstep false _ _ (.pass _ w.timers w.clock w.scheduler.ended
      fun _ _ => List.mem_of_mem_eraseIdx) hw
  obtain hs | hsteps | ⟨n, c, -, -, heq⟩ | ⟨n, c, -, -, heq⟩ := w.act_cases a
  · exact hstep true _ _ hs hw
  · exact steps_induction (hstep false) hsteps hw
  · exact heq ▸ hbegin _ c (hpass n)
  · exact heq ▸ hsettle _ c (hpass n)

theorem acts_induction {P : World η ρ → Prop} (hact : ∀ v a, P v → P (v.act h a)) (hw : P w)
    (as : List (Act ρ)) : P (w.acts h as) := by
  induction as generalizing w with
  | nil => exact hw
  | cons a as ih => exact ih (hact w a hw)

end World

end Swatch

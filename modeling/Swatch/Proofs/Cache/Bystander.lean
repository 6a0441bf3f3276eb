import Swatch.Proofs.Refresh.Exclusion

/-!
What becomes of a task while another one goes on. Unless a lock is to wake it, nothing: it stays
as it is, no turn is lost, and no one is to be told of a computation who was not to be told before.
-/

namespace Swatch

theorem Lock.asleep_of_mem_release {l : Lock} {t : Nat}
    (hasleep : (t, .asleep) ∈ l.release.1.waiters) : (t, .asleep) ∈ l.waiters := by
  simp only [release, wakeFirst] at hasleep
  split at hasleep
  · rename_i task rest hw
    rw [show l.waiters = _ from hw]
    exact List.mem_cons_of_mem _ (by simpa using hasleep)
  · exact hasleep

theorem Lock.asleep_of_release {l : Lock} {t : Nat} (ht : l.release.2 = some t) :
    (t, .asleep) ∈ l.waiters := by
  simp only [release, wakeFirst] at ht
  split at ht
  · rename_i task rest hw
    rw [show l.waiters = _ from hw, Option.some.inj ht]
    exact List.mem_cons_self ..
  · simp at ht

namespace World

variable {η ρ : Type} {h : Host η ρ}

/-- No lock has a task to be woken among those who wait for it. -/
def Unwaited (w : World η ρ) (t : Nat) : Prop :=
  ∀ lock ∈ w.locks, (t, Lock.Waiter.asleep) ∉ lock.waiters

/-- A task that no lock is to wake is left alone. -/
structure LeavesBe (t : Nat) (w w' : World η ρ) : Prop where
  unwaited : w'.Unwaited t
  task : w'.tasks[t]? = w.tasks[t]?
  turns : ∀ turn ∈ w.turns, turn ∈ w'.turns
  tells : ∀ c i, .tell c i ∈ w'.turns → .tell c i ∈ w.turns

variable {w w' v : World η ρ} {t i l : Nat}

theorem Locked.unwaited (hl : w.Locked) {task : Task ρ} (ht : w.tasks[t]? = some task)
    (hs : task.stage.queued? = none) : w.Unwaited t := by
  intro lock hlock hasleep
  obtain ⟨l, hlock⟩ := List.getElem?_of_mem hlock
  obtain ⟨k, ticket, hqueued⟩ := hl.waiting l lock hlock _ hasleep
  obtain ⟨-, hstage⟩ := Prod.mk.inj
    (Option.some.inj ((standing?_of_getElem? ht).symm.trans hqueued))
  simp [hstage, Stage.queued?] at hs

theorem Unwaited.leavesBe (hu : w.Unwaited t) (hlocks : w'.locks = w.locks)
    (htask : w'.tasks[t]? = w.tasks[t]?) (hturns : w'.turns = w.turns) : LeavesBe t w w' := by
  refine ⟨?_, htask, ?_, ?_⟩
  · rwa [Unwaited, hlocks]
  · simp [hturns]
  · simp [hturns]

theorem Unwaited.refl (hu : w.Unwaited t) : LeavesBe t w w :=
  hu.leavesBe rfl rfl rfl

theorem LeavesBe.trans (hl : LeavesBe t w w') (hl' : LeavesBe t w' v) : LeavesBe t w v :=
  ⟨hl'.unwaited, hl'.task.trans hl.task, fun turn hturn => hl'.turns turn (hl.turns turn hturn),
    fun c i hturn => hl.tells c i (hl'.tells c i hturn)⟩

theorem LeavesBe.remember (hl : LeavesBe t w w') (e : Event ρ) : LeavesBe t w (w'.remember e) :=
  ⟨hl.unwaited, hl.task, hl.turns, hl.tells⟩

/-! ### Locks and signals -/

theorem Unwaited.wait (hu : w.Unwaited t) (hit : i ≠ t) (stage : Stage ρ) :
    LeavesBe t w (w.wait i stage) :=
  hu.leavesBe rfl (by simp [hit]) rfl

theorem Unwaited.signal (hu : w.Unwaited t) (hit : i ≠ t) (ending : Ending (List ρ)) :
    LeavesBe t w (w.signal i ending) := by
  refine ⟨hu, by simp [hit], fun turn hturn => ?_, ?_⟩
  · exact List.mem_append_left _ hturn
  · simp

theorem Unwaited.modify (hu : w.Unwaited t) {f : Lock → Lock}
    (hf : ∀ lock, (t, .asleep) ∈ (f lock).waiters → (t, .asleep) ∈ lock.waiters) :
    { w with locks := w.locks.modify l f }.Unwaited t := by
  intro lock hlock hasleep
  rcases mem_modify hlock with hold | ⟨old, hold, rfl⟩
  · exact hu lock hold hasleep
  · exact hu old hold (hf old hasleep)

theorem Unwaited.modifyLock (hu : w.Unwaited t) {f : Lock → Lock}
    (hf : ∀ lock, (t, .asleep) ∈ (f lock).waiters → (t, .asleep) ∈ lock.waiters) :
    LeavesBe t w { w with locks := w.locks.modify l f } :=
  ⟨hu.modify hf, rfl, fun _ => id, fun _ _ => id⟩

/-- A lock that is given back wakes one who waits for it. -/
theorem Unwaited.releaseLock (hu : w.Unwaited t) (l : Nat) : LeavesBe t w (w.releaseLock l) := by
  have hreleased : LeavesBe t w { w with locks := w.locks.modify l (·.release.1) } :=
    hu.modifyLock fun lock => Lock.asleep_of_mem_release
  rw [releaseLock_eq]
  split
  · rename_i i hi
    obtain ⟨lock, hlock, hwoken⟩ := Option.bind_eq_some_iff.mp hi
    have hit : i ≠ t := by
      rintro rfl
      exact hu lock (List.mem_of_getElem? hlock) (Lock.asleep_of_release hwoken)
    exact hreleased.trans (hreleased.unwaited.signal hit _)
  · exact hreleased

theorem Unwaited.leaveQueue (hu : w.Unwaited t) (i l : Nat) : LeavesBe t w (w.leaveQueue i l) := by
  have hleft : LeavesBe t w { w with locks := w.locks.modify l (·.leave i) } :=
    hu.modifyLock fun lock hasleep => (List.mem_filter.mp hasleep).1
  obtain ⟨lock, -, ⟨-, heq⟩ | ⟨-, heq⟩⟩ | ⟨-, heq⟩ := w.leaveQueue_cases i l <;> rw [heq]
  · exact hleft
  · exact hleft.trans (hleft.unwaited.releaseLock l)
  · exact hu.refl

theorem Unwaited.obeyAll (hu : w.Unwaited t) (host : η) (commands : List Command) :
    LeavesBe t w ({ w with host := host }.obeyAll commands) := by
  obtain ⟨hlocks, hturns, -⟩ := obeyAll_frame { w with host := host } commands
  exact hu.leavesBe hlocks (congrArg (·[t]?) (tasks_obeyAll ..)) hturns

theorem Unwaited.tellTask (hu : w.Unwaited t) (hit : i ≠ t) (c : Nat) :
    LeavesBe t w (w.tellTask c i) := by
  obtain ⟨ending, -, -, -, -, -, heq⟩ | ⟨heq, -⟩ := w.tellTask_cases c i <;> rw [heq]
  · exact hu.signal hit ending
  · exact hu.refl

theorem Unwaited.ring (hu : w.Unwaited t) (hit : i ≠ t) : LeavesBe t w (w.ring i) := by
  obtain ⟨-, -, -, -, heq⟩ | ⟨heq, -⟩ := w.ring_cases i <;> rw [heq]
  · exact hu.signal hit _
  · exact hu.refl

theorem Unwaited.cancelTask (hu : w.Unwaited t) (hit : i ≠ t) :
    LeavesBe t w (w.cancelTask i).2 := by
  obtain ⟨heq, -⟩ | ⟨-, -, -, ⟨-, heq⟩ | ⟨-, ⟨ticket, l, -, heq⟩ | ⟨-, heq⟩⟩⟩ := w.cancelTask_cases i <;>
    rw [heq]
  · exact hu.refl
  · exact hu.leavesBe rfl (by simp [hit]) rfl
  · have hcancelled := hu.modifyLock (l := l) (f := (·.cancel i)) fun lock hasleep => by
      obtain ⟨x, hx, hcancel⟩ := List.mem_map.mp hasleep
      split at hcancel
      · simp at hcancel
      · exact hcancel ▸ hx
    exact hcancelled.trans (hcancelled.unwaited.signal hit _)
  · exact hu.signal hit _

/-! ### What a task does that goes on -/

theorem Unwaited.close (hu : w.Unwaited t) (hit : i ≠ t) (ending : Ending (Outcome ρ)) :
    LeavesBe t w (w.close i ending) :=
  (hu.wait hit (.ended ending)).remember _

theorem Unwaited.conclude (hu : w.Unwaited t) (hit : i ≠ t) (outcome : Outcome ρ) :
    LeavesBe t w (w.conclude i outcome) := by
  have hnoted : LeavesBe t w { w with scheduler := w.scheduler.note outcome.status } :=
    hu.leavesBe rfl rfl rfl
  exact hnoted.trans (hnoted.unwaited.close hit _)

theorem Unwaited.close_releaseLock (hu : w.Unwaited t) (hit : i ≠ t) (ending : Ending (Outcome ρ))
    (l : Nat) : LeavesBe t w ((w.close i ending).releaseLock l) :=
  (hu.close hit ending).trans ((hu.close hit ending).unwaited.releaseLock l)

theorem Unwaited.conclude_releaseLock (hu : w.Unwaited t) (hit : i ≠ t) (outcome : Outcome ρ)
    (l : Nat) : LeavesBe t w ((w.conclude i outcome).releaseLock l) :=
  (hu.conclude hit outcome).trans ((hu.conclude hit outcome).unwaited.releaseLock l)

theorem Unwaited.goOn (hu : w.Unwaited t) (hit : i ≠ t) (ticket : Ticket) (l : Nat)
    (delivery : Delivery ρ) : LeavesBe t w (w.goOn h i ticket l delivery) := by
  rw [World.goOn]
  repeat' split
  · exact hu.leavesBe rfl rfl rfl
  · exact hu.signal hit _
  · exact hu.conclude_releaseLock hit _ l

theorem Unwaited.visit (hu : w.Unwaited t) (hit : i ≠ t) (uri : String) (ticket : Ticket) (l : Nat)
    (delivery : Delivery ρ) (count : Nat) (cancelled : Bool) :
    LeavesBe t w (w.visit h i uri ticket l delivery count cancelled) := by
  rw [World.visit]
  rcases h.apply ⟨uri, nextChunk h delivery, delivery.index, count, cancelled⟩ w.host with
    ⟨host, commands, ending?⟩
  have hobeyed := hu.obeyAll host commands
  dsimp only
  generalize { w with host := host }.obeyAll commands = v at hobeyed ⊢
  refine hobeyed.trans ?_
  have hu' := hobeyed.unwaited
  cases ending? with
  | none => exact (hu'.wait hit _).trans ((hu'.wait hit _).unwaited.signal hit _)
  | some ending =>
      have htaken : LeavesBe t v ((v.wait i (.pausing ticket l (afterChunk h delivery))).remember
          (.taken i ending)) :=
        (hu'.wait hit _).remember _
      cases ending with
      | finished => exact htaken.trans (htaken.unwaited.goOn hit ..)
      | failed => exact htaken.trans (htaken.unwaited.close_releaseLock hit ..)
      | cancelled => exact htaken.trans (htaken.unwaited.close_releaseLock hit ..)

theorem Unwaited.handOn (hu : w.Unwaited t) (hit : i ≠ t) (uri : String) (ticket : Ticket) (l : Nat)
    (delivery : Delivery ρ) : LeavesBe t w (w.handOn h i uri ticket l delivery) := by
  have hwaits := hu.wait hit (.applying ticket l delivery 0)
  have hoffers := fun x : Handover ρ => hwaits.remember (.handed x)
  exact (hoffers _).trans ((hoffers _).unwaited.visit hit ..)

theorem Unwaited.withRecords (hu : w.Unwaited t) (hit : i ≠ t) (d : Document) (ticket : Ticket)
    (l : Nat) (ending : Ending (List ρ)) :
    LeavesBe t w (w.withRecords h i d ticket l ending) := by
  cases ending with
  | failed => exact hu.close_releaseLock hit ..
  | cancelled => exact hu.close_releaseLock hit ..
  | finished records =>
      rw [World.withRecords]
      cases w.verdict? d ticket with
      | some status => exact hu.conclude_releaseLock hit ..
      | none => exact hu.handOn hit ..

theorem Unwaited.lookUp (hu : w.Unwaited t) (i : Nat) (errand : Errand) (d : Document) :
    LeavesBe t w (w.lookUp i errand d).2 := by
  have hsame := w.sameTasks_lookUp i errand d
  refine ⟨by rw [Unwaited, hsame.locks]; exact hu, by rw [hsame.tasks], ?_, ?_⟩
  all_goals
    obtain ⟨cache, -, ⟨-, heq⟩ | ⟨-, c, -, heq⟩ | ⟨-, heq⟩⟩ := w.lookUp_cases i errand d <;>
      simp +contextual [heq]

theorem Unwaited.withLock (hu : w.Unwaited t) (hit : i ≠ t) (d : Document) (ticket : Ticket)
    (l : Nat) : LeavesBe t w (w.withLock h i d ticket l) := by
  rw [World.withLock]
  cases w.verdict? d ticket with
  | some status => exact hu.conclude_releaseLock hit ..
  | none =>
      have hlooks := hu.lookUp i .refresh d
      dsimp only
      split
      · rename_i ending v hfound
        rw [hfound] at hlooks
        exact hlooks.trans (hlooks.unwaited.withRecords hit ..)
      · rename_i v hfound
        rwa [hfound] at hlooks

theorem Unwaited.afterDebounce (hu : w.Unwaited t) (hit : i ≠ t) (d : Document) (ticket : Ticket) :
    LeavesBe t w (w.afterDebounce h i d ticket) := by
  obtain ⟨-, l, locks, scheduler, hlockOf, -, -, hcases⟩ | ⟨-, heq⟩ :=
    w.afterDebounce_cases (h := h) i d ticket
  · have hlock : LeavesBe t w (w.lockOf d.uri).2 := by
      rw [lockOf]
      split
      · exact hu.refl
      · refine ⟨fun lock hlock => ?_, rfl, fun _ => id, fun _ _ => id⟩
        rcases List.mem_append.mp hlock with hlock | hlock
        · exact hu lock hlock
        · simp [List.mem_singleton.mp hlock, Lock.free]
    rw [hlockOf] at hlock
    have hu' := hlock.unwaited
    refine hlock.trans ?_
    obtain ⟨lock, -, -, heq⟩ | ⟨-, heq⟩ := hcases <;> rw [heq]
    · have htaken := hu'.modifyLock (l := l) (f := (·.take)) fun _ => id
      have hwaits := htaken.unwaited.wait hit (.computing ticket l)
      exact (htaken.trans hwaits).trans (hwaits.unwaited.withLock hit ..)
    · have hqueued := hu'.modifyLock (l := l) (f := (·.await i)) fun lock hasleep => by
        rcases List.mem_append.mp hasleep with hold | hnew
        · exact hold
        · exact absurd (by simpa using (List.mem_singleton.mp hnew).symm) hit
      exact hqueued.trans (hqueued.unwaited.wait hit _)
  · exact heq ▸ hu.conclude hit _

theorem Unwaited.beginRefresh (hu : w.Unwaited t) (hit : i ≠ t) (k : Nat) (d : Document) :
    LeavesBe t w (w.beginRefresh h i k d) := by
  rw [World.beginRefresh]
  split
  · have hscheduler : LeavesBe t w { w with scheduler := w.scheduler.draw d.uri } :=
      hu.leavesBe rfl rfl rfl
    have hdrawn := (hscheduler.trans (hscheduler.unwaited.wait hit
      (.debouncing ⟨d.version, w.scheduler.next⟩))).remember
        (.drawn i k d.uri ⟨d.version, w.scheduler.next⟩)
    dsimp only
    split
    · exact hdrawn.trans (hdrawn.unwaited.leavesBe rfl rfl rfl)
    · exact hdrawn.trans (hdrawn.unwaited.afterDebounce hit ..)
  · exact hu.conclude hit _

theorem Unwaited.beginDetection (hu : w.Unwaited t) (hit : i ≠ t) (k : Nat) (d : Document) :
    LeavesBe t w (w.beginDetection h i k d) := by
  rw [World.beginDetection]
  split
  · exact hu.wait hit _
  · rename_i host commands hprepared
    have hobeyed := hu.obeyAll host commands
    dsimp only
    generalize { w with host := host }.obeyAll commands = v at hobeyed ⊢
    generalize (v.documents[k]?).getD d = d'
    have hwaits := (hobeyed.trans (hobeyed.unwaited.wait hit .detecting)).remember
      (.asked i k d'.uri)
    have hlooks := hwaits.trans (hwaits.unwaited.lookUp i .detection d')
    split
    · rename_i ending v' hfound
      rw [hfound] at hlooks
      exact hlooks.trans (hlooks.unwaited.wait hit _)
    · rename_i v' hfound
      rwa [hfound] at hlooks

theorem Unwaited.stop (hu : w.Unwaited t) (hit : i ≠ t) (d : Document) (errand : Errand)
    (stage : Stage ρ) : LeavesBe t w (w.stop h i d errand stage) := by
  cases stage with
  | starting =>
      cases errand with
      | refresh => exact hu.close hit _
      | detection => exact hu.wait hit _
  | debouncing => exact hu.close hit _
  | queueing ticket l =>
      have hleft := hu.leaveQueue i l
      exact hleft.trans (hleft.unwaited.close hit _)
  | computing | pausing => exact hu.close_releaseLock hit ..
  | applying => exact hu.visit hit ..
  | detecting => exact hu.wait hit _
  | ended | answered => exact hu.refl

theorem Unwaited.proceed (hu : w.Unwaited t) (hit : i ≠ t) (k : Nat) (d : Document)
    (errand : Errand) (stage : Stage ρ) (ending : Ending (List ρ)) :
    LeavesBe t w (w.proceed h i k d errand stage ending) := by
  cases stage with
  | starting =>
      cases errand with
      | refresh => exact hu.beginRefresh hit ..
      | detection => exact hu.beginDetection hit ..
  | debouncing => exact hu.afterDebounce hit ..
  | queueing ticket l =>
      have htaken := hu.modifyLock (l := l) (f := fun lock => (lock.leave i).take)
        fun lock hasleep => (List.mem_filter.mp hasleep).1
      have hwaits := htaken.unwaited.wait hit (.computing ticket l)
      exact (htaken.trans hwaits).trans (hwaits.unwaited.withLock hit ..)
  | computing => exact hu.withRecords hit ..
  | applying => exact hu.visit hit ..
  | pausing ticket l delivery =>
      rw [World.proceed]
      cases w.verdict? d ticket with
      | some status => exact hu.conclude_releaseLock hit ..
      | none => exact hu.handOn hit ..
  | detecting => exact hu.wait hit _
  | ended | answered => exact hu.refl

/-- A task that is resumed leaves any other one alone that no lock is to wake. -/
theorem Unwaited.resume (hu : w.Unwaited t) (hit : i ≠ t) : LeavesBe t w (w.resume h i) := by
  have htimers : LeavesBe t w { w with timers := w.timers.filter (·.task ≠ i) } :=
    hu.leavesBe rfl rfl rfl
  obtain ⟨task, told, d, -, -, -, ⟨-, heq⟩ | ⟨-, heq⟩⟩ | heq :=
    w.stops_or_proceeds (h := h) i <;> rw [heq]
  · exact htimers.trans (htimers.unwaited.stop hit ..)
  · exact htimers.trans (htimers.unwaited.proceed hit ..)
  · exact hu.refl

end World

end Swatch

import Swatch.Proofs.Refresh.Step

/-!
What the operations on a world leave as it is.
-/

namespace Swatch.World

variable {η ρ : Type} (w : World η ρ)

def standing? (t : Nat) : Option (Nat × Stage ρ) :=
  (w.tasks[t]?).map fun task => (task.document, task.stage)

variable {w} in
theorem standing?_eq_some {t k : Nat} {stage : Stage ρ} :
    w.standing? t = some (k, stage) ↔
      ∃ task, w.tasks[t]? = some task ∧ task.document = k ∧ task.stage = stage := by
  simp [standing?]

variable {w} in
theorem standing?_of_getElem? {t : Nat} {task : Task ρ} (ht : w.tasks[t]? = some task) :
    w.standing? t = some (task.document, task.stage) := by
  simp [standing?, ht]

@[simp] theorem standing?_wait (t i : Nat) (stage : Stage ρ) :
    (w.wait t stage).standing? i =
      if i = t then (w.standing? t).map fun x => (x.1, stage) else w.standing? i := by
  simp only [standing?, wait, modifyTask, List.getElem?_modify]
  grind

@[simp] theorem standing?_remember (e : Event ρ) (i : Nat) :
    (w.remember e).standing? i = w.standing? i :=
  rfl

@[simp] theorem standing?_signal (t i : Nat) (ending : Ending (List ρ)) :
    (w.signal t ending).standing? i = w.standing? i := by
  simp only [standing?, signal, enqueue, modifyTask, List.getElem?_modify]
  grind

@[simp] theorem standing?_start (errand : Errand) (k i : Nat) :
    (w.start errand k).standing? i =
      if i = w.tasks.length then some (k, .starting) else w.standing? i := by
  simp only [standing?, start]
  grind

@[simp] theorem standing?_close (t i : Nat) (ending : Ending (Outcome ρ)) :
    (w.close t ending).standing? i =
      if i = t then (w.standing? t).map fun x => (x.1, .ended ending) else w.standing? i := by
  simp [close]

/-! ### What an operation does -/

/-- A task that has been signalled nothing yet is told what a computation has ended with. -/
theorem tellTask_cases (c t : Nat) :
    (∃ ending task, w.state? c = some (.ended ending) ∧ w.tasks[t]? = some task ∧
      task.signal = none ∧ task.stage.isOver = false ∧ w.tellTask c t = w.signal t ending) ∨
    w.tellTask c t = w ∧ ∀ ending task, w.state? c = some (.ended ending) →
      w.tasks[t]? = some task → task.signal = none → task.stage.isOver = true := by
  rw [tellTask]
  split
  · rename_i ending task hended ht
    split
    · rename_i hsilent
      simp only [Bool.and_eq_true, Option.isNone_iff_eq_none, Bool.not_eq_true'] at hsilent
      exact .inl ⟨ending, task, hended, ht, hsilent.1, hsilent.2, rfl⟩
    · rename_i hsilent
      refine .inr ⟨rfl, fun _ task' _ ht' hsignal => ?_⟩
      obtain rfl := Option.some.inj (ht.symm.trans ht')
      simpa [hsignal] using hsilent
  · rename_i hnot
    exact .inr ⟨rfl, fun ending task hended ht => absurd ht (hnot ending task hended)⟩

/-- A task that sleeps is woken. -/
theorem ring_cases (t : Nat) :
    (∃ task, w.tasks[t]? = some task ∧ task.signal = none ∧ task.stage.isAsleep = true ∧
      w.ring t = w.signal t (.finished [])) ∨
    w.ring t = w ∧ ∀ task, w.tasks[t]? = some task → task.signal = none →
      task.stage.isAsleep = false := by
  rw [ring]
  split
  · rename_i task ht
    split
    · rename_i hasleep
      simp only [Bool.and_eq_true, Option.isNone_iff_eq_none] at hasleep
      exact .inl ⟨task, ht, hasleep.1, hasleep.2, rfl⟩
    · rename_i hawake
      refine .inr ⟨rfl, fun task' ht' hsignal => ?_⟩
      obtain rfl := Option.some.inj (ht.symm.trans ht')
      simpa [hsignal] using hawake
  · rename_i hnone
    exact .inr ⟨rfl, fun task ht => absurd (hnone.symm.trans ht) (by simp)⟩

/-- A task that is not over is asked to end: at once if it was signalled nothing yet, and else when
it goes on. One that waits for a lock gives its place there up. -/
theorem cancelTask_cases (t : Nat) :
    ((w.cancelTask t).2 = w ∧ ∀ task, w.tasks[t]? = some task → task.stage.isOver = true) ∨
    ∃ task, w.tasks[t]? = some task ∧ task.stage.isOver = false ∧
      (task.signal.isSome = true ∧
        (w.cancelTask t).2 = w.modifyTask t (fun task => { task with cancelRequested := true }) ∨
      task.signal = none ∧
        ((∃ ticket l, task.stage = .queueing ticket l ∧
          (w.cancelTask t).2 =
            { w with locks := w.locks.modify l (·.cancel t) }.signal t .cancelled) ∨
        task.stage.queued? = none ∧ (w.cancelTask t).2 = w.signal t .cancelled)) := by
  rw [cancelTask]
  split
  · rename_i hnone
    exact .inl ⟨rfl, fun task ht => absurd (hnone.symm.trans ht) (by simp)⟩
  · rename_i task ht
    split
    · rename_i hover
      exact .inl ⟨rfl, fun task' ht' => Option.some.inj (ht.symm.trans ht') ▸ hover⟩
    rename_i hover
    refine .inr ⟨task, ht, by simpa using hover, ?_⟩
    split
    · exact .inl ⟨‹_›, rfl⟩
    · rename_i hsilent
      refine .inr ⟨by simpa using hsilent, ?_⟩
      cases hstage : task.stage with
      | queueing ticket l => exact .inl ⟨ticket, l, rfl, rfl⟩
      | _ => exact .inr ⟨rfl, rfl⟩

/-- A task leaves the queue of a lock. Where nobody has the lock, it is handed on. -/
theorem leaveQueue_cases (t l : Nat) :
    (∃ lock, w.locks[l]? = some lock ∧
      ((lock.leave t).held = true ∧
        w.leaveQueue t l = { w with locks := w.locks.modify l (·.leave t) } ∨
      (lock.leave t).held = false ∧
        w.leaveQueue t l = { w with locks := w.locks.modify l (·.leave t) }.releaseLock l)) ∨
    w.locks[l]? = none ∧ w.leaveQueue t l = w := by
  rw [leaveQueue]
  split
  · rename_i hnone
    exact .inr ⟨hnone, rfl⟩
  · rename_i lock hlock
    have hset : w.locks.set l (lock.leave t) = w.locks.modify l (·.leave t) := by
      simp [List.modify_eq_set, hlock]
    refine .inl ⟨lock, hlock, ?_⟩
    rw [← hset]
    cases hheld : (lock.leave t).held with
    | true => exact .inl ⟨rfl, if_pos hheld⟩
    | false => exact .inr ⟨rfl, if_neg (by simp [hheld])⟩

/-- A computation whose records were held back is let go, with the end that it is given. -/
theorem release_cases (c : Nat) (ending : Ending (List ρ)) :
    (∃ records, w.state? c = some (.held records) ∧ (w.release c ending).2 =
      { w with
        computations := w.computations.modify c fun x => { x with state := .released ending }
        turns := w.turns ++ [.finish c] }) ∨
    (w.release c ending).2 = w := by
  rw [release]
  split
  · rename_i records hheld
    exact .inl ⟨records, hheld, rfl⟩
  · exact .inr rfl

/-- A computation that was let go ends. -/
theorem finishComputation_cases (c : Nat) :
    (∃ x ending, w.computations[c]? = some x ∧ x.state = .released ending ∧
      w.finishComputation c = w.endComputation c x.callers ending) ∨
    w.finishComputation c = w ∧ ∀ ending, w.state? c ≠ some (.released ending) := by
  rw [finishComputation]
  split
  · rename_i x hx
    split
    · rename_i ending hreleased
      exact .inl ⟨x, ending, hx, hreleased, rfl⟩
    · rename_i hnot
      refine .inr ⟨rfl, fun ending hreleased => hnot ending ?_⟩
      simpa [state?, hx] using hreleased
  · rename_i hnone
    exact .inr ⟨rfl, fun ending => by simp [state?, hnone]⟩

/-- What a computation has ended with is taken into the cache. -/
theorem settleComputation_cases (c : Nat) :
    (∃ x ending, w.computations[c]? = some x ∧ x.state = .ended ending ∧
      w.settleComputation c =
        { w with cache := w.cache.settle x.document.uri x.document.version c ending }) ∨
    w.settleComputation c = w ∧ ∀ ending, w.state? c ≠ some (.ended ending) := by
  rw [settleComputation]
  split
  · rename_i x hx
    split
    · rename_i ending hended
      exact .inl ⟨x, ending, hx, hended, rfl⟩
    · rename_i hnot
      refine .inr ⟨rfl, fun ending hended => hnot ending ?_⟩
      simpa [state?, hx] using hended
  · rename_i hnone
    exact .inr ⟨rfl, fun ending => by simp [state?, hnone]⟩

/-! ### The books -/

/-- Two worlds that differ in their locks, in the turns that wait and in what tasks were signalled
at most. -/
structure SameBooks (v : World η ρ) : Prop where
  standing? : ∀ i, v.standing? i = w.standing? i
  documents : v.documents = w.documents
  scheduler : v.scheduler = w.scheduler
  history : v.history = w.history
  cache : v.cache = w.cache
  computations : v.computations = w.computations
  host : v.host = w.host

theorem sameBooks_refl : w.SameBooks w :=
  ⟨fun _ => rfl, rfl, rfl, rfl, rfl, rfl, rfl⟩

theorem sameBooks_signal (t : Nat) (ending : Ending (List ρ)) : w.SameBooks (w.signal t ending) :=
  ⟨fun _ => standing?_signal .., rfl, rfl, rfl, rfl, rfl, rfl⟩

theorem sameBooks_releaseLock (l : Nat) : w.SameBooks (w.releaseLock l) := by
  simp only [releaseLock]
  repeat' split
  · exact ⟨fun _ => rfl, rfl, rfl, rfl, rfl, rfl, rfl⟩
  · exact ⟨fun _ => standing?_signal .., rfl, rfl, rfl, rfl, rfl, rfl⟩
  · exact ⟨fun _ => rfl, rfl, rfl, rfl, rfl, rfl, rfl⟩

theorem sameBooks_leaveQueue (t l : Nat) : w.SameBooks (w.leaveQueue t l) := by
  obtain ⟨lock, -, ⟨-, heq⟩ | ⟨-, heq⟩⟩ | ⟨-, heq⟩ := w.leaveQueue_cases t l <;> rw [heq]
  · exact ⟨fun _ => rfl, rfl, rfl, rfl, rfl, rfl, rfl⟩
  · obtain ⟨h1, h2, h3, h4, h5, h6, h7⟩ := sameBooks_releaseLock (w := _) l
    exact ⟨h1, h2, h3, h4, h5, h6, h7⟩
  · exact w.sameBooks_refl

theorem sameBooks_cancelTask (t : Nat) : w.SameBooks (w.cancelTask t).2 := by
  obtain ⟨heq, -⟩ | ⟨task, -, -, ⟨-, heq⟩ | ⟨-, ⟨ticket, l, -, heq⟩ | ⟨-, heq⟩⟩⟩ := w.cancelTask_cases t
  · rw [heq]
    exact w.sameBooks_refl
  · rw [heq]
    refine ⟨fun i => ?_, rfl, rfl, rfl, rfl, rfl, rfl⟩
    simp only [standing?, modifyTask, List.getElem?_modify]
    grind
  · rw [heq]
    exact ⟨fun _ => standing?_signal .., rfl, rfl, rfl, rfl, rfl, rfl⟩
  · rw [heq]
    exact w.sameBooks_signal t .cancelled

theorem sameBooks_tellTask (c t : Nat) : w.SameBooks (w.tellTask c t) := by
  obtain ⟨ending, -, -, -, -, -, heq⟩ | ⟨heq, -⟩ := w.tellTask_cases c t
  · rw [heq]
    exact w.sameBooks_signal t ending
  · rw [heq]
    exact w.sameBooks_refl

theorem sameBooks_ring (t : Nat) : w.SameBooks (w.ring t) := by
  obtain ⟨-, -, -, -, heq⟩ | ⟨heq, -⟩ := w.ring_cases t
  · rw [heq]
    exact w.sameBooks_signal t (.finished [])
  · rw [heq]
    exact w.sameBooks_refl

/-! ### The turns that an operation adds -/

theorem turns_cancelTask (t : Nat) :
    (w.cancelTask t).2.turns = w.turns ∨ (w.cancelTask t).2.turns = w.turns ++ [.resume t] := by
  obtain ⟨heq, -⟩ | ⟨task, -, -, ⟨-, heq⟩ | ⟨-, ⟨ticket, l, -, heq⟩ | ⟨-, heq⟩⟩⟩ := w.cancelTask_cases t
  · exact .inl (by rw [heq])
  · exact .inl (by rw [heq, modifyTask])
  · exact .inr (by rw [heq, turns_signal])
  · exact .inr (by rw [heq, turns_signal])

theorem turns_tellTask (c t : Nat) :
    (w.tellTask c t).turns = w.turns ∨ (w.tellTask c t).turns = w.turns ++ [.resume t] := by
  obtain ⟨ending, -, -, -, -, -, heq⟩ | ⟨heq, -⟩ := w.tellTask_cases c t
  · exact .inr (by rw [heq, turns_signal])
  · exact .inl (by rw [heq])

theorem turns_ring (t : Nat) :
    (w.ring t).turns = w.turns ∨ (w.ring t).turns = w.turns ++ [.resume t] := by
  obtain ⟨-, -, -, -, heq⟩ | ⟨heq, -⟩ := w.ring_cases t
  · exact .inr (by rw [heq, turns_signal])
  · exact .inl (by rw [heq])

theorem turns_release (c : Nat) (ending : Ending (List ρ)) :
    (w.release c ending).2.turns = w.turns ∨
      (w.release c ending).2.turns = w.turns ++ [.finish c] := by
  obtain ⟨records, -, heq⟩ | heq := w.release_cases c ending
  · exact .inr (by rw [heq])
  · exact .inl (by rw [heq])

/-! ### The tasks -/

/-- Two worlds that differ in the host, the cache, the computations and the turns that wait at
most. -/
structure SameTasks (v : World η ρ) : Prop where
  tasks : v.tasks = w.tasks
  documents : v.documents = w.documents
  scheduler : v.scheduler = w.scheduler
  locks : v.locks = w.locks
  history : v.history = w.history

theorem sameTasks_release (c : Nat) (ending : Ending (List ρ)) :
    w.SameTasks (w.release c ending).2 := by
  obtain ⟨records, -, heq⟩ | heq := w.release_cases c ending <;> rw [heq]
  all_goals exact ⟨rfl, rfl, rfl, rfl, rfl⟩

theorem sameTasks_finishComputation (c : Nat) : w.SameTasks (w.finishComputation c) := by
  obtain ⟨x, ending, -, -, heq⟩ | ⟨heq, -⟩ := w.finishComputation_cases c <;> rw [heq]
  all_goals exact ⟨rfl, rfl, rfl, rfl, rfl⟩

theorem sameTasks_settleComputation (c : Nat) : w.SameTasks (w.settleComputation c) := by
  obtain ⟨x, ending, -, -, heq⟩ | ⟨heq, -⟩ := w.settleComputation_cases c <;> rw [heq]
  all_goals exact ⟨rfl, rfl, rfl, rfl, rfl⟩

theorem release_frame (c : Nat) (ending : Ending (List ρ)) :
    (w.release c ending).2.cache = w.cache ∧ (w.release c ending).2.host = w.host := by
  obtain ⟨records, -, heq⟩ | heq := w.release_cases c ending <;> rw [heq]
  all_goals exact ⟨rfl, rfl⟩

theorem finishComputation_frame (c : Nat) :
    (w.finishComputation c).cache = w.cache ∧ (w.finishComputation c).host = w.host := by
  obtain ⟨x, ending, -, -, heq⟩ | ⟨heq, -⟩ := w.finishComputation_cases c <;> rw [heq]
  all_goals exact ⟨rfl, rfl⟩

theorem settleComputation_frame (c : Nat) :
    (w.settleComputation c).computations = w.computations ∧
      (w.settleComputation c).turns = w.turns ∧ (w.settleComputation c).host = w.host := by
  obtain ⟨x, ending, -, -, heq⟩ | ⟨heq, -⟩ := w.settleComputation_cases c <;> rw [heq]
  all_goals exact ⟨rfl, rfl, rfl⟩

theorem lookUp_cases (t : Nat) (errand : Errand) (d : Document) :
    ∃ cache : Cache ρ, (∀ uri v, cache.held? uri v = w.cache.held? uri v) ∧
      ((cache.pending = w.cache.pending ∧ (w.lookUp t errand d).2 = { w with cache := cache }) ∨
      (cache.pending = w.cache.pending ∧
        ∃ c, w.cache.pending.get? (d.uri, d.version) = some c ∧
          (w.lookUp t errand d).2 =
            { w with
              cache := cache
              computations :=
                w.computations.modify c fun x => { x with callers := x.callers ++ [t] } }) ∨
      (cache.pending = w.cache.pending.set (d.uri, d.version) w.computations.length ∧
        (w.lookUp t errand d).2 =
          { w with
            cache := cache
            computations := w.computations ++ [⟨errand, d, t, [t], .queued⟩]
            turns := w.turns ++ [.begin w.computations.length] })) := by
  have hheld := fun uri v => w.cache.held?_get d.uri uri d.version v
  have hpending := w.cache.pending_get d.uri d.version
  simp only [lookUp, hpending]
  split
  · exact ⟨_, hheld, .inl ⟨hpending, rfl⟩⟩
  · split
    · rename_i c hc
      split
      · exact ⟨(w.cache.get d.uri d.version).2.join, hheld, .inl ⟨hpending, rfl⟩⟩
      · exact ⟨(w.cache.get d.uri d.version).2.join, hheld, .inr (.inl ⟨hpending, c, hc, rfl⟩)⟩
    · refine ⟨(w.cache.get d.uri d.version).2.begin d.uri d.version w.computations.length, hheld,
        .inr (.inr ⟨?_, rfl⟩)⟩
      rw [Cache.begin, hpending]

theorem sameTasks_lookUp (t : Nat) (errand : Errand) (d : Document) :
    w.SameTasks (w.lookUp t errand d).2 := by
  obtain ⟨cache, -, ⟨-, heq⟩ | ⟨-, c, -, heq⟩ | ⟨-, heq⟩⟩ := w.lookUp_cases t errand d <;> rw [heq]
  all_goals exact ⟨rfl, rfl, rfl, rfl, rfl⟩

/-- A computation that is begun lets the host do what it does; then it ends or is held. -/
theorem beginComputation_cases (h : Host η ρ) (c : Nat) :
    w.beginComputation h c = w ∨
    ∃ x host commands, w.computations[c]? = some x ∧ x.state = .queued ∧
      ((∃ ending, h.compute x.errand x.document w.host = (host, commands, .ended ending) ∧
        w.beginComputation h c =
          ({ w with host := host }.obeyAll commands).endComputation c x.callers ending) ∨
      ∃ records, h.compute x.errand x.document w.host = (host, commands, .held records) ∧
        w.beginComputation h c =
          let v := { w with host := host }.obeyAll commands
          { v with
            computations := v.computations.modify c fun x =>
              { x with state := .held records } }) := by
  rw [beginComputation]
  split
  · rename_i x hx
    split
    · rename_i hstate
      rcases hr : h.compute x.errand x.document w.host with ⟨host, commands, progress⟩
      refine .inr ⟨x, host, commands, hx, hstate, ?_⟩
      cases progress with
      | ended ending => exact .inl ⟨ending, hr, rfl⟩
      | held records => exact .inr ⟨records, hr, rfl⟩
    · exact .inl rfl
  · exact .inl rfl

theorem sameTasks_beginComputation (h : Host η ρ) (c : Nat) :
    ∃ host commands, ({ w with host := host }.obeyAll commands).SameTasks
      (w.beginComputation h c) := by
  obtain heq | ⟨x, host, commands, -, -, ⟨ending, -, heq⟩ | ⟨records, -, heq⟩⟩ :=
    w.beginComputation_cases h c
  · exact ⟨w.host, [], by rw [heq]; exact ⟨rfl, rfl, rfl, rfl, rfl⟩⟩
  · exact ⟨host, commands, by rw [heq]; exact ⟨rfl, rfl, rfl, rfl, rfl⟩⟩
  · exact ⟨host, commands, by rw [heq]; exact ⟨rfl, rfl, rfl, rfl, rfl⟩⟩

@[simp] theorem host_obey (c : Command) : (w.obey c).host = w.host := by
  cases c with
  | edit uri text =>
      rw [obey, edit]
      split <;> rfl
  | cancel | forget | invalidate => rfl

@[simp] theorem host_obeyAll (cs : List Command) : (w.obeyAll cs).host = w.host := by
  induction cs generalizing w with
  | nil => rfl
  | cons c cs ih => rw [obeyAll_cons, ih, host_obey]

variable {w}

theorem held?_of_obey {c : Command} {uri : String} {v : Int} {records : List ρ}
    (hheld : (w.obey c).cache.held? uri v = some records) :
    w.cache.held? uri v = some records := by
  cases c with
  | edit u text =>
      rw [obey, edit] at hheld
      split at hheld <;> exact hheld
  | cancel u => exact hheld
  | forget u =>
      have hdelete : (w.cache.delete u).held? uri v = some records := hheld
      rw [Cache.held?_delete] at hdelete
      split at hdelete
      · simp at hdelete
      · exact hdelete
  | invalidate =>
      have hnone := w.cache.held?_invalidate uri v
      exact absurd (hheld.symm.trans hnone) (by simp)

theorem held?_of_obeyAll {cs : List Command} {uri : String} {v : Int} {records : List ρ}
    (hheld : (w.obeyAll cs).cache.held? uri v = some records) :
    w.cache.held? uri v = some records := by
  induction cs generalizing w with
  | nil => exact hheld
  | cons c cs ih => exact held?_of_obey (ih hheld)

theorem held?_obeyAll_of_invalidate {cs : List Command} (hcs : .invalidate ∈ cs) (uri : String)
    (v : Int) : (w.obeyAll cs).cache.held? uri v = none := by
  rw [Option.eq_none_iff_forall_ne_some]
  intro records hheld
  obtain ⟨before, after, rfl⟩ := List.append_of_mem hcs
  have happend : w.obeyAll (before ++ .invalidate :: after) =
      (((w.obeyAll before).obey .invalidate).obeyAll after) := List.foldl_append
  rw [happend] at hheld
  have hnone := (w.obeyAll before).cache.held?_invalidate uri v
  exact absurd ((held?_of_obeyAll hheld).symm.trans hnone) (by simp)

theorem documents_obeyAll {cs : List Command} (hcs : ∀ uri text, .edit uri text ∉ cs) :
    (w.obeyAll cs).documents = w.documents := by
  induction cs generalizing w with
  | nil => rfl
  | cons c cs ih =>
      rw [obeyAll_cons, ih fun uri text hmem => hcs uri text (List.mem_cons_of_mem c hmem)]
      cases c with
      | edit uri text => exact absurd (List.mem_cons_self ..) (hcs uri text)
      | cancel | forget | invalidate => rfl

/-! ### What a step works on -/

/-- Two worlds that have the same documents, computations and cache, and whose hosts are in the same
state. -/
structure SameWork (w v : World η ρ) : Prop where
  documents : v.documents = w.documents
  computations : v.computations = w.computations
  cache : v.cache = w.cache
  host : v.host = w.host

theorem SameBooks.sameWork {v : World η ρ} (hs : w.SameBooks v) : w.SameWork v :=
  ⟨hs.documents, hs.computations, hs.cache, hs.host⟩

/-- What becomes of documents, computations, the cache and the host in a step. -/
inductive Works (h : Host η ρ) (free : Bool) (w : World η ρ) : World η ρ → Prop where
  | nothing {v : World η ρ} (hsame : w.SameWork v) : Works h free w v
  | openDocument (d : Document) (hfree : free = true) : Works h free w (w.openDocument d)
  | editAt (k : Nat) (text : String) (hfree : free = true) : Works h free w (w.editAt k text)
  | obeyAll {host : η} {commands : List Command}
      (hhost : host = w.host ∧ free = true ∨ h.Yields w.host host commands) :
      Works h free w ({ w with host := host }.obeyAll commands)
  | release (c : Nat) (ending : Ending (List ρ)) (hfree : free = true) :
      Works h free w (w.release c ending).2
  | finish (c : Nat) : Works h free w (w.finishComputation c)
  | lookUp {v : World η ρ} {d : Document} (hsame : w.SameWork v) (hd : d ∈ w.documents)
      (t : Nat) (errand : Errand) : Works h free w (v.lookUp t errand d).2

theorem Step.works {h : Host η ρ} {free : Bool} {w' : World η ρ} (hs : Step h free w w') :
    w.Works h free w' := by
  cases hs with
  | openDocument d hfree => exact .openDocument d hfree
  | editAt k text hfree => exact .editAt k text hfree
  | obey c hfree =>
      show w.Works h free ({ w with host := w.host }.obeyAll [c])
      exact .obeyAll (.inl ⟨rfl, hfree⟩)
  | hosted hhost => exact .obeyAll (.inr hhost)
  | cancelTask t => exact .nothing (w.sameBooks_cancelTask t).sameWork
  | release c ending hfree => exact .release c ending hfree
  | finish c => exact .finish c
  | @tell c t hturn => exact .nothing (w.sameBooks_tellTask c t).sameWork
  | @ask t task d ht hd hs =>
      have hsame : w.SameWork ((w.wait t .detecting).remember (.asked t task.document d.uri)) :=
        ⟨rfl, rfl, rfl, rfl⟩
      exact .lookUp hsame (List.mem_of_getElem? hd) t .detection
  | @quit t task l ht hs ending =>
      have hbooks := sameBooks_releaseLock (w.close t ending) l
      exact .nothing ⟨hbooks.documents, hbooks.computations, hbooks.cache, hbooks.host⟩
  | @leave t task ticket l ht hs hasked =>
      have hbooks := w.sameBooks_leaveQueue t l
      exact .nothing ⟨hbooks.documents, hbooks.computations, hbooks.cache, hbooks.host⟩
  | lookUp ht hd hs hv => exact .lookUp ⟨rfl, rfl, rfl, rfl⟩ (List.mem_of_getElem? hd) _ _
  | @last t task ticket l delivery count ht hs ending ending' =>
      have hbooks := sameBooks_releaseLock (((w.wait t
        (.pausing ticket l (afterChunk h delivery))).remember (.taken t ending)).close t ending') l
      exact .nothing ⟨hbooks.documents, hbooks.computations, hbooks.cache, hbooks.host⟩
  | _ => exact .nothing ⟨rfl, rfl, rfl, rfl⟩

end Swatch.World

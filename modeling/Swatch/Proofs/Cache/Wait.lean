import Swatch.Proofs.Cache.Bystander
import Swatch.Proofs.Cache.Call

/-!
A task that waits for a computation. Once the computation has ended the task is about to be told so,
and once it has been told it is about to be resumed; no turn but its own takes that from it.
-/

namespace Swatch.World

variable {η ρ : Type} {h : Host η ρ}

/-- A task is one of those who wait for a computation, or who have waited for it. -/
def IsCaller (v : World η ρ) (c t : Nat) : Prop :=
  ∃ x, v.computations[c]? = some x ∧ t ∈ x.callers

/-- A task waits for a computation. While it has not been told anything, it is to be told once the
computation has ended; what it has been told is how the computation ended, unless the task has been
asked to end itself. -/
structure Waits (v : World η ρ) (isAsked : Prop) (c t : Nat) (task : Task ρ) : Prop where
  stands : v.tasks[t]? = some task
  awaits : task.stage.awaits = true
  document : ∃ d, v.documents[task.document]? = some d
  untold : task.signal = none → ∀ ending, v.state? c = some (.ended ending) → .tell c t ∈ v.turns
  told : ∀ ending, task.signal = some ending → .resume t ∈ v.turns ∧
    (v.state? c = some (.ended ending) ∨ ending = .cancelled ∧ isAsked)
  asked : task.cancelRequested = true → isAsked

variable {w w' v v' : World η ρ} {isAsked isAsked' : Prop} {c t n : Nat} {task : Task ρ}

theorem Waits.mono (hw : v.Waits isAsked c t task) (hasked : isAsked → isAsked') :
    v.Waits isAsked' c t task :=
  { hw with
    told := fun ending hending => (hw.told ending hending).imp_right (.imp_right (.imp_right hasked))
    asked := fun hrequested => hasked (hw.asked hrequested) }

theorem Grows.exists_document (hg : w.Grows w') {k : Nat} (hd : ∃ d, w.documents[k]? = some d) :
    ∃ d, w'.documents[k]? = some d := by
  obtain ⟨d, hd⟩ := hd
  obtain ⟨d', hd', -⟩ := hg.documents k d hd
  exact ⟨d', hd'⟩

/-- A task still waits if it is left as it is, no turn is lost that it is to be resumed or told in, and
it is to be told of a computation that has ended meanwhile. -/
theorem Waits.still (hw : v.Waits isAsked c t task) (hg : v.Grows v')
    (htask : v'.tasks[t]? = v.tasks[t]?) (hresume : .resume t ∈ v.turns → .resume t ∈ v'.turns)
    (htell : ∀ ending, v'.state? c = some (.ended ending) →
      (v.state? c = some (.ended ending) → .tell c t ∈ v.turns) → .tell c t ∈ v'.turns) :
    v'.Waits isAsked c t task where
  stands := htask.trans hw.stands
  awaits := hw.awaits
  document := hg.exists_document hw.document
  untold hsignal ending hended := htell ending hended (hw.untold hsignal ending)
  told ending hending := (hw.told ending hending).imp hresume (.imp_left hg.state?)
  asked := hw.asked

theorem Waits.of_computations (hw : v.Waits isAsked c t task) (hg : v.Grows v')
    (htask : v'.tasks[t]? = v.tasks[t]?) (hturns : ∀ turn ∈ v.turns, turn ∈ v'.turns)
    (hstate : ∀ ending, v'.state? c = some (.ended ending) → v.state? c = some (.ended ending)) :
    v'.Waits isAsked c t task :=
  hw.still hg htask (hturns _) fun ending hended htell => hturns _ (htell (hstate ending hended))

theorem Waits.leavesBe (hw : v.Waits isAsked c t task) (hl : LeavesBe t v v') (hg : v.Grows v')
    (hstate : ∀ ending, v'.state? c = some (.ended ending) → v.state? c = some (.ended ending)) :
    v'.Waits isAsked c t task :=
  hw.of_computations hg hl.task hl.turns hstate

/-- Who waits for a computation waits for no lock. -/
theorem Waits.unwaited (hw : v.Waits isAsked c t task) (hl : v.Locked) : v.Unwaited t := by
  refine hl.unwaited hw.stands ?_
  have hawaits := hw.awaits
  cases hs : task.stage <;> simp_all [Stage.awaits, Stage.queued?]

theorem mem_eraseIdx_of_ne {turns : List Turn} {turn done : Turn} (hdone : turns[n]? = some done)
    (hturn : turn ∈ turns) (hne : done ≠ turn) : turn ∈ turns.eraseIdx n := by
  obtain ⟨m, hm⟩ := List.getElem?_of_mem hturn
  refine List.mem_eraseIdx_iff_getElem?.mpr ⟨m, ?_, hm⟩
  rintro rfl
  exact hne (Option.some.inj (hdone.symm.trans hm))

theorem Waits.erase (hw : v.Waits isAsked c t task) {done : Turn} (hdone : v.turns[n]? = some done)
    (hresume : done ≠ .resume t) (htell : done ≠ .tell c t) :
    { v with turns := v.turns.eraseIdx n }.Waits isAsked c t task :=
  hw.still ⟨v.grows_refl.tasks, v.grows_refl.documents, v.grows_refl.computations⟩ rfl
    (fun hturn => mem_eraseIdx_of_ne hdone hturn hresume)
    fun _ hended hturn => mem_eraseIdx_of_ne hdone (hturn hended) htell

/-! ### Computations that end -/

theorem Waits.endComputation (hw : v.Waits isAsked c t task) {c' : Nat} {x : Computation ρ}
    (hx : v.computations[c']? = some x) (hcaller : v.IsCaller c t) {ending : Ending (List ρ)}
    (hg : v.Grows (v.endComputation c' x.callers ending)) :
    (v.endComputation c' x.callers ending).Waits isAsked c t task := by
  have hturns : ∀ turn ∈ v.turns, turn ∈ (v.endComputation c' x.callers ending).turns :=
    fun turn hturn => List.mem_append_left _ hturn
  refine hw.still hg rfl (hturns _) fun ending' hended htell => ?_
  by_cases hcc : c' = c
  · subst hcc
    obtain ⟨x', hx', ht⟩ := hcaller
    obtain rfl := Option.some.inj (hx.symm.trans hx')
    refine List.mem_append_right _ (List.mem_cons_of_mem _ (List.mem_map_of_mem ht))
  · rw [World.endComputation, state?_modify, if_neg hcc] at hended
    exact hturns _ (htell hended)

theorem Waits.finish (hw : v.Waits isAsked c t task) (hcaller : v.IsCaller c t) (c' : Nat) :
    (v.finishComputation c').Waits isAsked c t task := by
  have hg := v.grows_finishComputation c'
  obtain ⟨x, ending, hx, -, heq⟩ | ⟨heq, -⟩ := v.finishComputation_cases c' <;> rw [heq] at hg ⊢
  · exact hw.endComputation hx hcaller hg
  · exact hw

theorem Waits.begin (hw : v.Waits isAsked c t task) (hcaller : v.IsCaller c t) (c' : Nat) :
    (v.beginComputation h c').Waits isAsked c t task := by
  obtain heq | ⟨x, host, commands, hx, hqueued, hcases⟩ := v.beginComputation_cases h c'
  · rwa [heq]
  obtain ⟨-, hturns, hcomputations⟩ := obeyAll_frame { v with host := host } commands
  have hobeyed : ({ v with host := host }.obeyAll commands).Waits isAsked c t task :=
    hw.of_computations (v.grows_hosted host commands) (by rw [tasks_obeyAll])
      (by rw [hturns]; exact fun _ => id) (by rw [state?, hcomputations]; exact fun _ => id)
  have hx' : ({ v with host := host }.obeyAll commands).computations[c']? = some x := by
    rwa [hcomputations]
  have hcaller' : ({ v with host := host }.obeyAll commands).IsCaller c t := by
    rwa [IsCaller, hcomputations]
  obtain ⟨ending, -, heq⟩ | ⟨records, -, heq⟩ := hcases
  · rw [heq]
    refine hobeyed.endComputation hx' hcaller' (grows_modify _ c' _ _ fun y hy => ?_)
    obtain rfl := Option.some.inj (hx'.symm.trans hy)
    exact ⟨rfl, rfl, fun _ => id, by simp [hqueued]⟩
  · rw [heq]
    refine hobeyed.of_computations (grows_modify _ c' _ _ fun y hy => ?_) rfl (fun _ => id)
      fun ending hended => ?_
    · obtain rfl := Option.some.inj (hx'.symm.trans hy)
      exact ⟨rfl, rfl, fun _ => id, by simp [hqueued]⟩
    · dsimp only at hended
      rw [state?_modify] at hended
      split at hended
      · obtain ⟨-, -, hheld⟩ := Option.map_eq_some_iff.mp hended
        simp at hheld
      · exact hended

theorem Waits.release (hw : v.Waits isAsked c t task) (c' : Nat) (ending : Ending (List ρ)) :
    (v.release c' ending).2.Waits isAsked c t task := by
  have hg := v.grows_release c' ending
  obtain ⟨records, -, heq⟩ | heq := v.release_cases c' ending <;> rw [heq] at hg ⊢
  · refine hw.of_computations hg rfl (fun _ => List.mem_append_left _) fun ending' hended => ?_
    rw [state?_modify] at hended
    split at hended
    · obtain ⟨-, -, hreleased⟩ := Option.map_eq_some_iff.mp hended
      simp at hreleased
    · exact hended
  · exact hw

/-! ### Tasks that are told something -/

/-- A task that is told how the computation ended that it waits for, or is asked to end itself, is to
be resumed with that. -/
theorem waits_signal (hstands : v.tasks[t]? = some task) (hawaits : task.stage.awaits = true)
    (hdocument : ∃ d, v.documents[task.document]? = some d)
    (hasked : task.cancelRequested = true → isAsked) {ending : Ending (List ρ)}
    (hending : v.state? c = some (.ended ending) ∨ ending = .cancelled ∧ isAsked) :
    (v.signal t ending).Waits isAsked c t { task with signal := some ending } where
  stands := by simp [hstands]
  awaits := hawaits
  document := hdocument
  untold hsignal := by simp at hsignal
  told ending' hending' := by
    obtain rfl := Option.some.inj hending'
    exact ⟨by simp [World.signal, enqueue], hending⟩
  asked := hasked

theorem Stage.isOver_of_awaits {s : Stage ρ} (hs : s.awaits = true) : s.isOver = false := by
  cases s <;> simp_all [Stage.awaits, Stage.isOver]

theorem Stage.isAsleep_of_awaits {s : Stage ρ} (hs : s.awaits = true) : s.isAsleep = false := by
  cases s <;> simp_all [Stage.awaits, Stage.isAsleep]

/-- A task that waits for a computation may be asked to end itself. -/
theorem Waits.cancelTask (hw : v.Waits isAsked c t task) (hasked : isAsked) :
    ∃ task', (v.cancelTask t).2.Waits isAsked c t task' := by
  obtain ⟨heq, -⟩ | ⟨task', ht, -, ⟨hsignal, heq⟩ | ⟨-, ⟨ticket, l, hs, -⟩ | ⟨-, heq⟩⟩⟩ :=
    v.cancelTask_cases t
  · exact ⟨task, heq.symm ▸ hw⟩
  · obtain rfl := Option.some.inj (hw.stands.symm.trans ht)
    rw [heq]
    refine ⟨{ task with cancelRequested := true }, ?_, hw.awaits, hw.document, ?_, hw.told,
      fun _ => hasked⟩
    · simp [hw.stands]
    · intro hnone
      simp [show task.signal = none from hnone] at hsignal
  · have hawaits := hw.awaits
    obtain rfl := Option.some.inj (hw.stands.symm.trans ht)
    simp [hs, Stage.awaits] at hawaits
  · rw [heq]
    exact ⟨_, waits_signal hw.stands hw.awaits hw.document hw.asked (.inr ⟨rfl, hasked⟩)⟩

/-- The turn in which a task is told of the computation that it waits for. -/
theorem Waits.tell (hw : v.Waits isAsked c t task) (hdone : v.turns[n]? = some (.tell c t)) :
    ∃ task', ({ v with turns := v.turns.eraseIdx n }.tellTask c t).Waits isAsked c t task' := by
  have hover := Stage.isOver_of_awaits hw.awaits
  have hresume : .resume t ∈ v.turns → .resume t ∈ v.turns.eraseIdx n :=
    fun hturn => mem_eraseIdx_of_ne hdone hturn (by simp)
  have hstands : { v with turns := v.turns.eraseIdx n }.tasks[t]? = some task := hw.stands
  obtain ⟨ending, -, hended, -, -, -, heq⟩ | ⟨heq, hnone⟩ :=
    tellTask_cases { v with turns := v.turns.eraseIdx n } c t <;> rw [heq]
  · exact ⟨_, waits_signal hstands hw.awaits hw.document hw.asked (.inl hended)⟩
  · refine ⟨task, hstands, hw.awaits, hw.document, fun hsignal ending hended => ?_,
      fun ending hending => (hw.told ending hending).imp_left hresume, hw.asked⟩
    exact absurd (hnone ending task hended hstands hsignal) (by simp [hover])

/-! ### The turn in which a task goes on -/

/-- A use lets a task go on that has waited for records, with what it was told. -/
def Receives (h : Host η ρ) (w : World η ρ) (u : Use ρ) (t : Nat) (ending : Ending (List ρ)) : Prop :=
  ∃ n task d, u = .act (.turn n) ∧ w.turns[n]? = some (.resume t) ∧ w.tasks[t]? = some task ∧
    task.stage.awaits = true ∧ w.documents[task.document]? = some d ∧
    w.use h u = { w with
      turns := w.turns.eraseIdx n
      timers := w.timers.filter (·.task ≠ t) }.proceed h t task.document d task.errand task.stage
        ending

/-- To be cancelled while waiting for records comes to the same as to be told that there are none. -/
theorem stop_of_awaits (w : World η ρ) (t k : Nat) (d : Document) (errand : Errand)
    {stage : Stage ρ} (hs : stage.awaits = true) :
    w.stop h t d errand stage = w.proceed h t k d errand stage .cancelled := by
  cases stage <;> first | rfl | simp [Stage.awaits] at hs

/-- The turn of a task that has not been told anything yet changes nothing. -/
theorem Waits.resume_of_none (hw : v.Waits isAsked c t task)
    (hdone : v.turns[n]? = some (.resume t)) (hsignal : task.signal = none) :
    (v.use h (.act (.turn n))).Waits isAsked c t task := by
  have hstands : { v with turns := v.turns.eraseIdx n }.tasks[t]? = some task := hw.stands
  have hresume : { v with turns := v.turns.eraseIdx n }.resume h t =
      { v with turns := v.turns.eraseIdx n } := by
    refine World.resume_of_none _ t fun task' ht' => .inl ?_
    rwa [← Option.some.inj (hstands.symm.trans ht')]
  rw [use_turn v hdone, World.perform, hresume]
  refine ⟨hstands, hw.awaits, hw.document, fun _ ending hended => ?_, ?_, hw.asked⟩
  · exact mem_eraseIdx_of_ne hdone (hw.untold hsignal ending hended) (by simp)
  · simp [hsignal]

/-- A task that is resumed once it has been told something receives how the computation ended, unless
it has been asked to end itself. -/
theorem Waits.receives (hw : v.Waits isAsked c t task) (hdone : v.turns[n]? = some (.resume t))
    {told : Ending (List ρ)} (hsignal : task.signal = some told) :
    ∃ ending, v.Receives h (.act (.turn n)) t ending ∧
      (v.state? c = some (.ended ending) ∨ ending = .cancelled ∧ isAsked) := by
  obtain ⟨d, hd⟩ := hw.document
  have huse := v.use_turn (h := h) hdone
  have htold := (hw.told told hsignal).2
  rw [World.perform, resume_of_told (by exact hw.stands) hsignal (by exact hd)] at huse
  dsimp only at huse
  split at huse
  · rename_i hends
    refine ⟨.cancelled, ⟨n, task, d, rfl, hdone, hw.stands, hw.awaits, hd, ?_⟩, ?_⟩
    · rw [huse, stop_of_awaits _ t task.document d task.errand hw.awaits]
    · rcases Bool.or_eq_true_iff.mp hends with hrequested | hcancelled
      · exact .inr ⟨rfl, hw.asked hrequested⟩
      · rwa [Ending.isCancelled_iff.mp hcancelled] at htold
  · exact ⟨told, ⟨n, task, d, rfl, hdone, hw.stands, hw.awaits, hd, huse⟩, htold⟩

/-- Once the computation has ended that a task waits for, two turns are enough to let it receive how. -/
theorem Waits.exists_receives (hw : v.Waits isAsked c t task) {ended : Ending (List ρ)}
    (hended : v.state? c = some (.ended ended)) :
    ∃ before u ending, before.length ≤ 1 ∧ (v.uses h before).Receives h u t ending ∧
      ((v.uses h before).state? c = some (.ended ending) ∨ ending = .cancelled ∧ isAsked) := by
  cases hsignal : task.signal with
  | some told =>
      obtain ⟨n, hdone⟩ := List.getElem?_of_mem (hw.told told hsignal).1
      obtain ⟨ending, hreceives⟩ := hw.receives (h := h) hdone hsignal
      exact ⟨[], .act (.turn n), ending, Nat.zero_le 1, hreceives⟩
  | none =>
      obtain ⟨n, hdone⟩ := List.getElem?_of_mem (hw.untold hsignal ended hended)
      have hover := Stage.isOver_of_awaits hw.awaits
      have hstands : { v with turns := v.turns.eraseIdx n }.tasks[t]? = some task := hw.stands
      have hended' : { v with turns := v.turns.eraseIdx n }.state? c = some (.ended ended) := hended
      have huse : v.use h (.act (.turn n)) =
          { v with turns := v.turns.eraseIdx n }.signal t ended := by
        rw [use_turn v hdone, World.perform, tellTask, hended', hstands]
        simp [hsignal, hover]
      have htold : (v.use h (.act (.turn n))).Waits isAsked c t { task with signal := some ended } := by
        rw [huse]
        exact waits_signal hstands hw.awaits hw.document hw.asked (.inl hended')
      obtain ⟨m, hdone'⟩ := List.getElem?_of_mem (htold.told ended rfl).1
      obtain ⟨ending, hreceives⟩ := htold.receives (h := h) hdone' rfl
      exact ⟨[.act (.turn n)], .act (.turn m), ending, Nat.le_refl 1, hreceives⟩

/-! ### What becomes of a task that waits -/

theorem ended_of_lookUp {i : Nat} {errand : Errand} {d : Document} {ending : Ending (List ρ)}
    (hended : (v.lookUp i errand d).2.state? c = some (.ended ending)) :
    v.state? c = some (.ended ending) :=
  (state?_lookUp hended).resolve_right fun ⟨_, hqueued⟩ => by simp at hqueued

theorem ended_of_resume {i : Nat} {ending : Ending (List ρ)}
    (hended : (v.resume h i).state? c = some (.ended ending)) :
    v.state? c = some (.ended ending) := by
  rcases v.resume_calls (h := h) i with hsame | ⟨-, v', errand, d, -, -, hcall, hresume⟩
  · rwa [state?, hsame] at hended
  · have hended' := ended_of_lookUp (hresume ▸ hended)
    rwa [state?, hcall.computations] at hended'

/-- A turn in which a task is neither told anything nor resumed leaves it waiting. -/
theorem Waits.perform (hw : v.Waits isAsked c t task) (hu : v.Unwaited t) (hcaller : v.IsCaller c t)
    {done : Turn} (hg : v.Grows (v.perform h done)) (hresume : done ≠ .resume t)
    (htell : ∀ c', done ≠ .tell c' t) : (v.perform h done).Waits isAsked c t task := by
  cases done with
  | begin c' => exact hw.begin hcaller c'
  | finish c' => exact hw.finish hcaller c'
  | settle c' =>
      obtain ⟨hcomputations, hturns, -⟩ := v.settleComputation_frame c'
      refine hw.of_computations hg ?_ ?_ ?_
      · exact congrArg (·[t]?) (v.sameTasks_settleComputation c').tasks
      · exact fun turn hturn => hturns.symm ▸ hturn
      · exact fun ending hended => by rwa [state?, ← hcomputations]
  | ring i =>
      by_cases hit : i = t
      · have hasleep := Stage.isAsleep_of_awaits hw.awaits
        have hring : v.ring i = v := by simp [World.ring, hit, hw.stands, hasleep]
        rw [World.perform, hring]
        exact hw
      · exact hw.leavesBe (hu.ring hit) hg fun ending hended => by
          rwa [state?, ← (v.sameBooks_ring i).computations]
  | tell c' i =>
      have hit : i ≠ t := fun hit => htell c' (by rw [hit])
      exact hw.leavesBe (hu.tellTask hit c') hg fun ending hended => by
        rwa [state?, ← (v.sameBooks_tellTask c' i).computations]
  | resume i =>
      have hit : i ≠ t := fun hit => hresume (by rw [hit])
      exact hw.leavesBe (hu.resume hit) hg fun ending hended => ended_of_resume hended

/-- Nothing takes from a task that it waits for a computation but the turn in which it receives how
the computation ended. -/
theorem Waits.use (hw : v.Waits isAsked c t task) (hl : v.Locked) (hcaller : v.IsCaller c t)
    (htells : ∀ c', .tell c' t ∈ v.turns → c' = c) (u : Use ρ)
    (hasked : u = .act (.cancelTask t) → isAsked) :
    (∃ task', (v.use h u).Waits isAsked c t task') ∨
      ∃ ending, v.Receives h u t ending ∧
        (v.state? c = some (.ended ending) ∨ ending = .cancelled ∧ isAsked) := by
  have hg := v.grows_use (h := h) u
  have hu := hw.unwaited hl
  cases u with
  | cache op => exact .inl ⟨task, hw.of_computations hg rfl (fun _ => id) fun _ => id⟩
  | act a =>
      cases a with
      | openDocument | edit | setClock =>
          exact .inl ⟨task, hw.of_computations hg rfl (fun _ => id) fun _ => id⟩
      | moveTo =>
          exact .inl ⟨task, hw.of_computations hg rfl (fun _ => List.mem_append_left _) fun _ => id⟩
      | start errand k =>
          have hlt := (List.getElem?_eq_some_iff.mp hw.stands).1
          exact .inl ⟨task, hw.of_computations hg (List.getElem?_append_left hlt)
            (fun _ => List.mem_append_left _) fun _ => id⟩
      | obey command =>
          obtain ⟨-, hturns, hcomputations⟩ := v.obey_frame command
          refine .inl ⟨task, hw.of_computations hg ?_ ?_ ?_⟩
          · exact congrArg (·[t]?) (tasks_obey v command)
          · exact fun turn hturn => hturns ▸ hturn
          · exact fun ending hended => by rwa [state?, ← hcomputations]
      | cancelTask i =>
          by_cases hit : i = t
          · subst hit
            exact .inl (hw.cancelTask (hasked rfl))
          · exact .inl ⟨task, hw.leavesBe (hu.cancelTask hit) hg fun ending hended => by
              rwa [state?, ← (v.sameBooks_cancelTask i).computations]⟩
      | release c' ending => exact .inl ⟨task, hw.release c' ending⟩
      | turn n =>
          cases hdone : v.turns[n]? with
          | none => exact .inl ⟨task, by simpa [World.use, act, hdone] using hw⟩
          | some done =>
              have huse := v.use_turn (h := h) hdone
              by_cases hown : done = .resume t
              · subst hown
                cases hsignal : task.signal with
                | none => exact .inl ⟨task, hw.resume_of_none hdone hsignal⟩
                | some told => exact .inr (hw.receives hdone hsignal)
              by_cases htell : ∃ c', done = .tell c' t
              · obtain ⟨c', rfl⟩ := htell
                obtain rfl := htells c' (List.mem_of_getElem? hdone)
                exact .inl (huse ▸ hw.tell hdone)
              have htell' : ∀ c', done ≠ .tell c' t := fun c' hc' => htell ⟨c', hc'⟩
              have herased := hw.erase hdone hown (htell' c)
              rw [huse] at hg ⊢
              exact .inl ⟨task, herased.perform hu hcaller ⟨hg.tasks, hg.documents, hg.computations⟩
                hown htell'⟩

end Swatch.World

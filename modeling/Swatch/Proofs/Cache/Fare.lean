import Swatch.Proofs.Refresh.Rest

/-!
How tasks fare. What becomes of a task in a use is one of a few things: it is woken, told how a
computation ended, or asked to end; or it goes on with what it has been told. One that is over stays
as it is.
-/

namespace Swatch

variable {η ρ : Type}

namespace World

/-- How a task has come to nothing, if it has. -/
def fault? (w : World η ρ) (t : Nat) : Option (Ending Unit) :=
  (w.standing? t).bind (·.2.fault?)

/-- What becomes of a task in a use of the world. -/
inductive Fares (h : Host η ρ) (w : World η ρ) (u : Use ρ) (t : Nat) (task : Task ρ) :
    Task ρ → Prop where
  | same (hasked : u = .act (.cancelTask t) → task.stage.isOver = true) : Fares h w u t task task
  | woken {n : Nat} (hu : u = .act (.turn n)) (hsignal : task.signal = none)
      (hwaits : task.stage.queued?.isSome = true ∨ task.stage.isAsleep = true) :
      Fares h w u t task { task with signal := some (.finished []) }
  | told {n c : Nat} {ending : Ending (List ρ)} (hu : u = .act (.turn n))
      (hturn : .tell c t ∈ w.turns) (hended : w.state? c = some (.ended ending))
      (hsignal : task.signal = none) (hover : task.stage.isOver = false) :
      Fares h w u t task { task with signal := some ending }
  | requested (hu : u = .act (.cancelTask t)) (hover : task.stage.isOver = false)
      (hsignal : task.signal.isSome = true) :
      Fares h w u t task { task with cancelRequested := true }
  | cancelled (hu : u = .act (.cancelTask t)) (hover : task.stage.isOver = false)
      (hsignal : task.signal = none) :
      Fares h w u t task { task with signal := some .cancelled }
  | resumed {n begun : Nat} {told : Ending (List ρ)} {d : Document} {task' : Task ρ}
      (hu : u = .act (.turn n)) (hturn : w.turns[n]? = some (.resume t))
      (hover : task.stage.isOver = false) (hsignal : task.signal = some told)
      (hd : w.documents[task.document]? = some d)
      (hcomes : Comes h t task.stage (w.Blames task told) begun
        { w with turns := w.turns.eraseIdx n, timers := w.timers.filter (·.task ≠ t) }
        (w.use h u) task') : Fares h w u t task task'

variable {h : Host η ρ} {w : World η ρ} {u : Use ρ} {t i n : Nat} {task task' : Task ρ}

theorem fault?_of_standing? {k : Nat} {s : Stage ρ} (ht : w.standing? t = some (k, s)) :
    w.fault? t = s.fault? := by
  rw [fault?, ht, Option.bind_some]

theorem fault?_of_getElem? (ht : w.tasks[t]? = some task) : w.fault? t = task.stage.fault? :=
  fault?_of_standing? (standing?_of_getElem? ht)

theorem isOver_of_fault? {s : Stage ρ} {f : Ending Unit} (hf : s.fault? = some f) :
    s.isOver = true := by
  cases s <;> simp_all [Stage.fault?, Stage.isOver]

/-- A task that is over stays as it is. -/
theorem Fares.eq_of_isOver (hf : Fares h w u t task task') (hover : task.stage.isOver = true) :
    task' = task := by
  cases hf with
  | same => rfl
  | woken hu hsignal hwaits =>
      cases hs : task.stage <;> simp_all [Stage.isOver, Stage.queued?, Stage.isAsleep]
  | told _ _ _ _ hnot | requested _ hnot | cancelled _ hnot | resumed _ _ hnot =>
      simp [hnot] at hover

theorem exists_fares_cancelTask (ht : w.tasks[t]? = some task) :
    ∃ task', (w.cancelTask t).2.tasks[t]? = some task' ∧
      Fares h w (.act (.cancelTask t)) t task task' := by
  obtain ⟨heq, hover⟩ | ⟨was, hwas, hover, hcases⟩ := w.cancelTask_cases t
  · exact ⟨task, by rw [heq, ht], .same fun _ => hover task ht⟩
  obtain rfl := Option.some.inj (ht.symm.trans hwas)
  obtain ⟨hsignal, heq⟩ | ⟨hsignal, ⟨ticket, l, -, heq⟩ | ⟨-, heq⟩⟩ := hcases
  · refine ⟨{ task with cancelRequested := true }, ?_, .requested rfl hover hsignal⟩
    simp [heq, ht]
  all_goals
    refine ⟨{ task with signal := some .cancelled }, ?_, .cancelled rfl hover hsignal⟩
    simp [heq, ht]

theorem exists_fares_tell {c : Nat} (hdone : w.turns[n]? = some (.tell c i))
    (ht : w.tasks[t]? = some task) :
    ∃ task', ({ w with turns := w.turns.eraseIdx n }.tellTask c i).tasks[t]? = some task' ∧
      Fares h w (.act (.turn n)) t task task' := by
  obtain ⟨ending, other, hended, hi, hsignal, hover, heq⟩ | ⟨heq, -⟩ :=
    tellTask_cases { w with turns := w.turns.eraseIdx n } c i <;> rw [heq]
  · by_cases hit : i = t
    · subst hit
      obtain rfl := Option.some.inj (hi.symm.trans ht)
      refine ⟨{ other with signal := some ending }, ?_, ?_⟩
      · simp [ht]
      · exact .told rfl (List.mem_of_getElem? hdone) hended hsignal hover
    · exact ⟨task, by simp [hit, ht], .same (by simp)⟩
  · exact ⟨task, ht, .same (by simp)⟩

theorem exists_fares_ring (n : Nat) (ht : w.tasks[t]? = some task) :
    ∃ task', ({ w with turns := w.turns.eraseIdx n }.ring i).tasks[t]? = some task' ∧
      Fares h w (.act (.turn n)) t task task' := by
  obtain ⟨other, hi, hsignal, hasleep, heq⟩ | ⟨heq, -⟩ :=
    ring_cases { w with turns := w.turns.eraseIdx n } i <;> rw [heq]
  · by_cases hit : i = t
    · subst hit
      obtain rfl := Option.some.inj (hi.symm.trans ht)
      refine ⟨{ other with signal := some (.finished []) }, ?_, .woken rfl hsignal (.inr hasleep)⟩
      simp [ht]
    · exact ⟨task, by simp [hit, ht], .same (by simp)⟩
  · exact ⟨task, ht, .same (by simp)⟩

/-- Who has been woken or told already is not woken by a lock. -/
theorem Unblocked.unwaited (hb : w.Unblocked) (ht : w.tasks[t]? = some task)
    (hcalm : task.signal.isSome = true ∨ task.stage.queued? = none) : w.Unwaited t := by
  rcases hcalm with hsignal | hq
  · intro lock hlock hasleep
    obtain ⟨l, hlock⟩ := List.getElem?_of_mem hlock
    obtain ⟨ticket, isTold, hposture, htold⟩ := (hb.attentive.serves l lock hlock).calm _ hasleep
    rw [posture?_of_getElem? ht, hsignal, htold.mp rfl] at hposture
    simp at hposture
  · exact hb.locked.unwaited ht hq

theorem exists_fares_resume (hs : w.Steady) (hb : w.Unblocked) (hdone : w.turns[n]? = some (.resume i))
    (ht : w.tasks[t]? = some task) :
    ∃ task', (w.use h (.act (.turn n))).tasks[t]? = some task' ∧
      Fares h w (.act (.turn n)) t task task' := by
  have huse := w.use_turn (h := h) hdone
  have hrooted : { w with turns := w.turns.eraseIdx n }.Rooted i := hs.rooted i
  have hbacked : { w with turns := w.turns.eraseIdx n }.Backed := hs.backed
  obtain ⟨heq, -⟩ | ⟨heq, -⟩ | ⟨begun, other, told, task', d, hi, hover, hsignal, hd, hc⟩ :=
    resume_cases (h := h) hrooted hbacked
  · exact ⟨task, by rw [huse, perform, heq]; exact ht, .same (by simp)⟩
  · exact ⟨task, by rw [huse, perform, heq]; exact ht, .same (by simp)⟩
  rw [← perform, ← huse] at hc
  by_cases hit : i = t
  · subst hit
    obtain rfl := Option.some.inj (Eq.symm ht |>.trans hi)
    exact ⟨task', hc.stands, .resumed rfl hdone hover hsignal hd hc⟩
  · by_cases hcalm : task.signal.isSome = true ∨ task.stage.queued? = none
    · have hu : { w with turns := w.turns.eraseIdx n }.Unwaited t := hb.unwaited ht hcalm
      refine ⟨task, ?_, .same (by simp)⟩
      rw [huse, perform, (hu.resume hit).task]
      exact ht
    · -- Only who waits for a lock, and is asleep, is woken by another task.
      push Not at hcalm
      obtain ⟨hsignal, hq⟩ := hcalm
      rcases hc.passes.others t (Ne.symm hit) with hsame | ⟨task₁, ht₁, hwoken, -⟩
      · exact ⟨task, hsame.trans ht, .same (by simp)⟩
      · obtain rfl := Option.some.inj (Eq.symm ht |>.trans ht₁)
        refine ⟨_, hwoken, .woken rfl (by simpa using hsignal) (.inl ?_)⟩
        exact Option.isSome_iff_ne_none.mpr hq

theorem exists_fares (hs : w.Steady) (hb : w.Unblocked) (ht : w.tasks[t]? = some task) (u : Use ρ) :
    ∃ task', (w.use h u).tasks[t]? = some task' ∧ Fares h w u t task task' := by
  have hsame : (w.use h u).tasks = w.tasks → u ≠ .act (.cancelTask t) →
      ∃ task', (w.use h u).tasks[t]? = some task' ∧ Fares h w u t task task' :=
    fun htasks hu => ⟨task, htasks ▸ ht, .same fun heq => absurd heq hu⟩
  cases u with
  | cache op => exact hsame rfl (by simp)
  | act a =>
      cases a with
      | openDocument | edit | setClock | moveTo => exact hsame rfl (by simp)
      | obey command => exact hsame (tasks_obey ..) (by simp)
      | release c ending => exact hsame (w.sameTasks_release c ending).tasks (by simp)
      | start errand k =>
          refine ⟨task, ?_, .same (by simp)⟩
          rw [use, act, World.start, List.getElem?_append_left (List.getElem?_eq_some_iff.mp ht).1, ht]
      | cancelTask i =>
          by_cases hit : i = t
          · exact hit ▸ exists_fares_cancelTask (hit ▸ ht)
          · refine ⟨task, ?_, .same (by simp [hit])⟩
            obtain ⟨heq, -⟩ | ⟨-, -, -, ⟨-, heq⟩ | ⟨-, ⟨ticket, l, -, heq⟩ | ⟨-, heq⟩⟩⟩ :=
              w.cancelTask_cases i <;>
              simp [use, act, heq, hit, ht]
      | turn n =>
          cases hdone : w.turns[n]? with
          | none => exact hsame (by simp [use, act, hdone]) (by simp)
          | some done =>
              cases done with
              | resume i => exact exists_fares_resume hs hb hdone ht
              | tell c i => exact w.use_turn (h := h) hdone ▸ exists_fares_tell hdone ht
              | ring i => exact w.use_turn (h := h) hdone ▸ exists_fares_ring n ht
              | begin c =>
                  refine hsame ?_ (by simp)
                  obtain ⟨host, commands, hbegun⟩ :=
                    sameTasks_beginComputation { w with turns := w.turns.eraseIdx n } h c
                  rw [w.use_turn hdone, perform, hbegun.tasks, tasks_obeyAll]
              | finish c =>
                  refine hsame ?_ (by simp)
                  rw [w.use_turn hdone, perform, (sameTasks_finishComputation ..).tasks]
              | settle c =>
                  refine hsame ?_ (by simp)
                  rw [w.use_turn hdone, perform, (sameTasks_settleComputation ..).tasks]

/-- Whoever is not there yet is started, or is not there after a use either. -/
theorem started_of_use (hs : w.Steady) (hnone : w.tasks[t]? = none)
    (ht : (w.use h u).tasks[t]? = some task) :
    ∃ errand k, task = ⟨errand, k, .starting, some (.finished []), false⟩ := by
  have hsame : (w.use h u).tasks ≠ w.tasks := fun htasks => by simp [htasks, hnone] at ht
  have hstanding {v : World η ρ} {task' : Task ρ} (ht' : v.tasks[t]? = some task') :
      v.standing? t ≠ w.standing? t := by
    simp [standing?, ht', hnone]
  cases u with
  | cache op => exact absurd rfl hsame
  | act a =>
      cases a with
      | openDocument | edit | setClock | moveTo => exact absurd rfl hsame
      | obey command => exact absurd (tasks_obey ..) hsame
      | release c ending => exact absurd (w.sameTasks_release c ending).tasks hsame
      | start errand k =>
          have hle := List.getElem?_eq_none_iff.mp hnone
          rw [use, act, World.start, List.getElem?_append_right hle] at ht
          exact ⟨errand, k, List.mem_singleton.mp (List.mem_of_getElem? ht)⟩
      | cancelTask i =>
          exact absurd ((w.sameBooks_cancelTask i).standing? t) (hstanding ht)
      | turn n =>
          cases hdone : w.turns[n]? with
          | none => simp [use, act, hdone, hnone] at ht
          | some done =>
              rw [use_turn w hdone] at ht hsame
              cases done with
              | resume i =>
                  have hrooted : { w with turns := w.turns.eraseIdx n }.Rooted i := hs.rooted i
                  have hbacked : { w with turns := w.turns.eraseIdx n }.Backed := hs.backed
                  obtain ⟨heq, -⟩ | ⟨heq, -⟩ | ⟨_, other, _, _, _, hi, -, -, -, hc⟩ :=
                    resume_cases (h := h) hrooted hbacked
                  · exact absurd (congrArg World.tasks heq) hsame
                  · exact absurd (congrArg World.tasks heq) hsame
                  · have hne : t ≠ i := by
                      rintro rfl
                      exact absurd (hnone.symm.trans hi) (by simp)
                    rcases hc.passes.others t hne with heq | ⟨other', ht', -⟩
                    · exact absurd (hnone.symm.trans (heq.symm.trans ht)) (by simp)
                    · exact absurd (hnone.symm.trans ht') (by simp)
              | begin c =>
                  obtain ⟨host, commands, hbegun⟩ :=
                    sameTasks_beginComputation { w with turns := w.turns.eraseIdx n } h c
                  exact absurd (hbegun.tasks.trans (tasks_obeyAll ..)) hsame
              | finish c => exact absurd (sameTasks_finishComputation ..).tasks hsame
              | settle c => exact absurd (sameTasks_settleComputation ..).tasks hsame
              | tell c i =>
                  have hsame := sameBooks_tellTask { w with turns := w.turns.eraseIdx n } c i
                  exact absurd (hsame.standing? t) (hstanding ht)
              | ring i =>
                  have hsame := sameBooks_ring { w with turns := w.turns.eraseIdx n } i
                  exact absurd (hsame.standing? t) (hstanding ht)

/-! ### Tasks that come to nothing -/

theorem fault?_wait (ht : w.tasks[t]? = some task) (stage : Stage ρ) :
    (w.wait t stage).fault? t = stage.fault? :=
  fault?_of_getElem? (getElem?_wait ht stage)

theorem fault?_close {k : Nat} {s : Stage ρ} (ht : w.standing? t = some (k, s))
    (ending : Ending (Outcome ρ)) : (w.close t ending).fault? t = ending.fault? := by
  rw [fault?, standing?_close, if_pos rfl, ht]
  rfl

theorem fault?_close_releaseLock (ht : w.tasks[t]? = some task) (ending : Ending (Outcome ρ))
    (l : Nat) : ((w.close t ending).releaseLock l).fault? t = ending.fault? := by
  rw [fault?, (sameBooks_releaseLock ..).standing?]
  exact fault?_close (standing?_of_getElem? ht) ending

/-- A task that is asked to end does so, unless the one who takes its records puts it off. -/
theorem fault?_stop (ht : w.tasks[t]? = some task) (hover : task.stage.isOver = false)
    (happlying : task.stage.isApplying = false) (d : Document) :
    (w.stop h t d task.errand task.stage).fault? t = some .cancelled := by
  cases hs : task.stage with
  | starting =>
      cases task.errand with
      | refresh => exact fault?_close (standing?_of_getElem? ht) .cancelled
      | detection => exact fault?_wait ht _
  | debouncing => exact fault?_close (standing?_of_getElem? ht) .cancelled
  | queueing ticket l =>
      have hstands := (w.sameBooks_leaveQueue t l).standing? t
      rw [standing?_of_getElem? ht] at hstands
      exact fault?_close hstands .cancelled
  | computing | pausing => exact fault?_close_releaseLock ht .cancelled _
  | detecting => exact fault?_wait ht _
  | applying => simp [hs, Stage.isApplying] at happlying
  | ended | answered => simp [hs, Stage.isOver] at hover

/-- A task comes to nothing if the computation has that it waits for. -/
theorem fault?_proceed (ht : w.tasks[t]? = some task) (hawaits : task.stage.awaits = true)
    (d : Document) {ending : Ending (List ρ)} {f : Ending Unit} (hf : ending.fault? = some f) :
    (w.proceed h t task.document d task.errand task.stage ending).fault? t = some f := by
  cases hs : task.stage with
  | computing ticket l =>
      cases ending with
      | finished => simp at hf
      | failed message => exact (fault?_close_releaseLock ht (.failed message) l).trans hf
      | cancelled => exact (fault?_close_releaseLock ht .cancelled l).trans hf
  | detecting => exact (fault?_wait ht _).trans hf
  | _ => simp [hs, Stage.awaits] at hawaits

/-- A refresh that finds that a computation has come to nothing comes to nothing with it. -/
theorem fault?_withLock (ht : w.tasks[t]? = some task) {d : Document} {ticket : Ticket}
    (hv : w.verdict? d ticket = none) {ending : Ending (List ρ)} {f : Ending Unit}
    (hknown : (w.lookUp t .refresh d).1 = .known ending) (hf : ending.fault? = some f) (l : Nat) :
    (w.withLock h t d ticket l).fault? t = some f := by
  have hsame := w.sameTasks_lookUp t .refresh d
  rw [withLock, hv]
  generalize w.lookUp t .refresh d = r at hknown hsame ⊢
  obtain ⟨found, v⟩ := r
  obtain rfl : found = .known ending := hknown
  have htv : v.tasks[t]? = some task := by rw [hsame.tasks, ht]
  cases ending with
  | finished => simp at hf
  | failed message => exact (fault?_close_releaseLock htv (.failed message) l).trans hf
  | cancelled => exact (fault?_close_releaseLock htv .cancelled l).trans hf

/-- So does a detection. -/
theorem fault?_beginDetection (ht : w.tasks[t]? = some task) {d d' : Document} {host : η}
    {commands : List Command} (hprepared : h.prepare d w.host = some (host, commands)) {k : Nat}
    (hd : (({ w with host := host }.obeyAll commands).documents[k]?).getD d = d')
    {ending : Ending (List ρ)} {f : Ending Unit}
    (hknown : (World.lookUp ((({ w with host := host }.obeyAll commands).wait t .detecting).remember
      (.asked t k d'.uri)) t .detection d').1 = .known ending)
    (hf : ending.fault? = some f) : (w.beginDetection h t k d).fault? t = some f := by
  have htv : ({ w with host := host }.obeyAll commands).tasks[t]? = some task := by simpa using ht
  rw [beginDetection, hprepared]
  subst hd
  dsimp only at hknown ⊢
  generalize { w with host := host }.obeyAll commands = v at hknown htv ⊢
  have hsame := sameTasks_lookUp ((v.wait t .detecting).remember
    (.asked t k ((v.documents[k]?).getD d).uri)) t .detection ((v.documents[k]?).getD d)
  generalize World.lookUp _ t .detection _ = r at hknown hsame ⊢
  obtain ⟨found, v'⟩ := r
  obtain rfl : found = .known ending := hknown
  have htv' : v'.tasks[t]? = some _ := (congrArg (·[t]?) hsame.tasks).trans (getElem?_wait htv _)
  exact (fault?_wait htv' _).trans hf

section Resumed

variable {told : Ending (List ρ)} {d : Document} {f : Ending Unit}

theorem use_resume (hturn : w.turns[n]? = some (.resume t)) (ht : w.tasks[t]? = some task)
    (hsignal : task.signal = some told) (hd : w.documents[task.document]? = some d) :
    w.use h (.act (.turn n)) =
      let v := { w with turns := w.turns.eraseIdx n, timers := w.timers.filter (·.task ≠ t) }
      if task.cancelRequested || told.isCancelled then v.stop h t d task.errand task.stage
      else v.proceed h t task.document d task.errand task.stage told := by
  rw [use_turn w hturn, perform, resume_of_told (by exact ht) hsignal (by exact hd)]

theorem fault?_use_of_asked (hturn : w.turns[n]? = some (.resume t)) (ht : w.tasks[t]? = some task)
    (hsignal : task.signal = some told) (hd : w.documents[task.document]? = some d)
    (hasked : task.cancelRequested = true ∨ told = .cancelled) (hover : task.stage.isOver = false)
    (happlying : task.stage.isApplying = false) :
    (w.use h (.act (.turn n))).fault? t = some .cancelled := by
  rw [use_resume hturn ht hsignal hd, if_pos (by simpa using hasked)]
  exact fault?_stop (by exact ht) hover happlying d

theorem fault?_use_of_told (hturn : w.turns[n]? = some (.resume t)) (ht : w.tasks[t]? = some task)
    (hsignal : task.signal = some told) (hd : w.documents[task.document]? = some d)
    (hasked : task.cancelRequested = false) (hawaits : task.stage.awaits = true)
    (hf : told.fault? = some f) : (w.use h (.act (.turn n))).fault? t = some f := by
  by_cases hcancelled : told = .cancelled
  · rw [fault?_use_of_asked hturn ht hsignal hd (.inr hcancelled) (Stage.isOver_of_awaits hawaits)]
    · simpa [hcancelled] using hf
    · cases hs : task.stage <;> simp_all [Stage.awaits, Stage.isApplying]
  · rw [use_resume hturn ht hsignal hd, if_neg (by simp [hasked, hcancelled])]
    exact fault?_proceed (by exact ht) hawaits d hf

end Resumed

/-! ### Tasks that are asked to end -/

/-- A use asks a task to end that is suspended while its records are not being taken. -/
def Cancels (w : World η ρ) (t : Nat) (u : Use ρ) : Prop :=
  u = .act (.cancelTask t) ∧ ∃ task, w.tasks[t]? = some task ∧ task.stage ≠ .starting ∧
    task.stage.isOver = false ∧ task.stage.isApplying = false

/-- A task that is suspended has been asked to end, and will once it goes on. -/
structure Leaving (w : World η ρ) (t : Nat) (task : Task ρ) (told : Ending (List ρ)) : Prop where
  stands : w.tasks[t]? = some task
  begun : task.stage ≠ .starting
  going : task.stage.isOver = false
  idle : task.stage.isApplying = false
  signal : task.signal = some told
  asked : task.cancelRequested = true ∨ told = .cancelled

variable {told : Ending (List ρ)}

theorem Leaving.document (hl : w.Leaving t task told) (hs : w.Steady) :
    ∃ d, w.documents[task.document]? = some d := by
  rcases hs.rooted t _ _ (standing?_of_getElem? hl.stands) with hstarting | hover | hd
  · exact absurd hstarting hl.begun
  · simp [hl.going] at hover
  · exact hd

theorem Leaving.turn (hl : w.Leaving t task told) (hs : w.Steady) : .resume t ∈ w.turns := by
  cases hs.attended t task hl.stands with
  | done hover => simp [hl.going] at hover
  | starting hstage => exact absurd hstage hl.begun
  | turn _ hturn => exact hturn
  | alarm _ hnone | lock _ hnone | records _ hnone => simp [hl.signal] at hnone

theorem leaving_of_cancels (hs : w.Steady) (hb : w.Unblocked) (hc : w.Cancels t u) :
    ∃ task told, (w.use h u).Leaving t task told := by
  obtain ⟨rfl, task, ht, hbegun, hgoing, hidle⟩ := hc
  obtain ⟨task', ht', hfares⟩ := exists_fares (h := h) hs hb ht (.act (.cancelTask t))
  cases hfares with
  | same hasked => simp [hgoing] at hasked
  | requested _ _ hsignal =>
      obtain ⟨told, htold⟩ := Option.isSome_iff_exists.mp hsignal
      exact ⟨_, told, ht', hbegun, hgoing, hidle, htold, .inl rfl⟩
  | cancelled => exact ⟨_, .cancelled, ht', hbegun, hgoing, hidle, rfl, .inr rfl⟩
  | woken hu | told hu | resumed hu => simp at hu

/-- Nothing takes from a task that it is to end but its own turn, in which it does. -/
theorem Leaving.use (hl : w.Leaving t task told) (hs : w.Steady) (hb : w.Unblocked) (u : Use ρ) :
    (w.use h u).fault? t = some .cancelled ∨
      ∃ task' told', (w.use h u).Leaving t task' told' := by
  obtain ⟨d, hd⟩ := hl.document hs
  obtain ⟨task', ht', hfares⟩ := exists_fares (h := h) hs hb hl.stands u
  cases hfares with
  | same => exact .inr ⟨task, told, { hl with stands := ht' }⟩
  | woken _ hsilent | told _ _ _ hsilent | cancelled _ _ hsilent => simp [hl.signal] at hsilent
  | requested => exact .inr ⟨_, told, ht', hl.begun, hl.going, hl.idle, hl.signal, .inl rfl⟩
  | resumed hu hturn _ hsignal =>
      subst hu
      exact .inl (fault?_use_of_asked hturn hl.stands hl.signal hd hl.asked hl.going hl.idle)

theorem fault?_use (hs : w.Steady) (hb : w.Unblocked) {f : Ending Unit} (hf : w.fault? t = some f)
    (u : Use ρ) : (w.use h u).fault? t = some f := by
  obtain ⟨⟨k, s⟩, hstanding, hfault⟩ := Option.bind_eq_some_iff.mp hf
  obtain ⟨task, ht, -, rfl⟩ := standing?_eq_some.mp hstanding
  obtain ⟨task', ht', hfares⟩ := exists_fares (h := h) hs hb ht u
  rw [fault?_of_getElem? ht', hfares.eq_of_isOver (isOver_of_fault? hfault)]
  exact hfault

/-- Whoever has been asked to end while suspended has ended, or is about to. -/
theorem cancelled_or_leaving (h : Host η ρ) (host : η) (us : List (Use ρ))
    (hc : Occurs us fun before u => ((initial host).uses h before).Cancels t u) :
    ((initial host).uses h us).fault? t = some .cancelled ∨
      ∃ task told, ((initial host).uses h us).Leaving t task told := by
  induction us using List.reverseRecOn with
  | nil =>
      obtain ⟨before, u, after, hnil, -⟩ := hc
      simp at hnil
  | append_singleton us u ih =>
      have hs := steady_uses h host us
      have hb := unblocked_uses h host us
      rw [uses_concat]
      rcases occurs_concat.mp hc with hbefore | hnow
      · rcases ih hbefore with hfault | ⟨task, told, hl⟩
        · exact .inl (fault?_use hs hb hfault u)
        · exact hl.use hs hb u
      · exact .inr (leaving_of_cancels hs hb hnow)

end World

end Swatch

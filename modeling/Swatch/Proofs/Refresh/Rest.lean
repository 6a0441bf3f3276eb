import Swatch.Proofs.Cache.Receipt
import Swatch.Proofs.Refresh.Progress

/-!
A world that goes on by itself comes to rest. As long as the one who takes the records does not step
aside forever, no turns, alarms and releases go on without end; and when none is left, all tasks that
have begun are over. So no task waits for one that has come to its end.
-/

namespace Swatch

variable {η ρ : Type}

namespace World

/-- What a task waits for is on its way, if there is such a task. -/
def Attended (w : World η ρ) (t : Nat) : Prop :=
  ∀ task, w.tasks[t]? = some task → w.Expects t task

/-- A task has not begun, is over, or its document is there. -/
def Rooted (w : World η ρ) (t : Nat) : Prop :=
  ∀ k s, w.standing? t = some (k, s) →
    s = .starting ∨ s.isOver = true ∨ ∃ d, w.documents[k]? = some d

/-- A turn makes a difference to a task: the task would go on, be told or be woken. -/
def Heeds (w : World η ρ) (t : Nat) (turn : Turn) : Prop :=
  ∃ task, w.tasks[t]? = some task ∧ task.stage ≠ .starting ∧ task.stage.isOver = false ∧
    match turn with
    | .resume i => i = t ∧ task.signal.isSome = true
    | .tell c i => i = t ∧ task.signal = none ∧ ∃ ending, w.state? c = some (.ended ending)
    | .ring i => i = t ∧ task.signal = none ∧ task.stage.isAsleep = true
    | _ => False

/-- The turn in which a computation comes further is to come. -/
structure Promised (w : World η ρ) (c : Nat) : Prop where
  queued : w.state? c = some .queued → .begin c ∈ w.turns
  released : ∀ ending, w.state? c = some (.released ending) → .finish c ∈ w.turns

/-- All that is to be done is on its way. -/
structure Steady (w : World η ρ) : Prop where
  attended : ∀ t, w.Attended t
  rooted : ∀ t, w.Rooted t
  promised : ∀ c, w.Promised c
  backed : w.Backed

variable {h : Host η ρ} {w w' : World η ρ} {t i c c' n : Nat} {done : Turn}

theorem steady_initial (host : η) : (initial host : World η ρ).Steady := by
  refine ⟨?_, ?_, ?_, ?_⟩
  · intro t task ht
    simp [initial] at ht
  · intro t k s ht
    simp [initial, standing?] at ht
  · intro c
    exact ⟨by simp [initial, state?], by simp [initial, state?]⟩
  · intro key c hc
    simp [initial, show (∅ : Cache ρ).pending.get? key = none from rfl] at hc

/-! ### What is on its way stays so -/

theorem Attended.still (ha : w.Attended t) (htask : w'.tasks[t]? = w.tasks[t]?)
    (hturns : ∀ turn ∈ w.turns, w.Heeds t turn → turn ∈ w'.turns)
    (htimers : ∀ timer ∈ w.timers, timer.task = t → timer ∈ w'.timers ∨ .ring t ∈ w'.turns)
    (hcallers : ∀ c, w.IsCaller c t → w'.IsCaller c t)
    (hended : ∀ c ending, w.IsCaller c t → w'.state? c = some (.ended ending) →
      w.state? c = some (.ended ending) ∨ .tell c t ∈ w'.turns) : w'.Attended t := by
  intro task ht
  rw [htask] at ht
  by_cases hstarting : task.stage = .starting
  · exact .starting hstarting
  cases hover : task.stage.isOver with
  | true => exact .done hover
  | false =>
      cases ha task ht with
      | done hover' => simp [hover] at hover'
      | starting hstage => exact absurd hstage hstarting
      | turn hsignal hturn =>
          exact .turn hsignal (hturns _ hturn ⟨task, ht, hstarting, hover, rfl, hsignal⟩)
      | alarm hstage hsignal halarm =>
          rcases halarm with hring | ⟨timer, htimer, htask⟩
          · have hrings := hturns _ hring ⟨task, ht, hstarting, hover, rfl, hsignal, hstage⟩
            exact .alarm hstage hsignal (.inl hrings)
          · rcases htimers timer htimer htask with hstays | hring
            · exact .alarm hstage hsignal (.inr ⟨timer, hstays, htask⟩)
            · exact .alarm hstage hsignal (.inl hring)
      | lock hstage hsignal => exact .lock hstage hsignal
      | @records c hstage hsignal hcaller htold =>
          refine .records hstage hsignal (hcallers c hcaller) fun ending hends => ?_
          rcases hended c ending hcaller hends with hbefore | htell
          · exact hturns _ (htold ending hbefore)
              ⟨task, ht, hstarting, hover, rfl, hsignal, ending, hbefore⟩
          · exact htell

theorem Attended.of_turns (ha : w.Attended t) (htask : w'.tasks[t]? = w.tasks[t]?)
    (hturns : ∀ turn ∈ w.turns, w.Heeds t turn → turn ∈ w'.turns) (htimers : w'.timers = w.timers)
    (hcomputations : w'.computations = w.computations) : w'.Attended t := by
  refine ha.still htask hturns (fun timer htimer _ => .inl (htimers ▸ htimer)) ?_ ?_
  · intro c hc
    rwa [IsCaller, hcomputations]
  · intro c ending _ hended
    rw [state?, hcomputations] at hended
    exact .inl hended

theorem Attended.erase (ha : w.Attended t) (hdone : w.turns[n]? = some done)
    (hnot : ¬w.Heeds t done) : { w with turns := w.turns.eraseIdx n }.Attended t := by
  refine ha.of_turns rfl (fun turn hturn hheeds => ?_) rfl rfl
  refine mem_eraseIdx_of_ne hdone hturn ?_
  rintro rfl
  exact hnot hheeds

theorem Attended.obeyAll (ha : w.Attended t) (host : η) (commands : List Command) :
    ({ w with host := host }.obeyAll commands).Attended t := by
  obtain ⟨-, hturns, hcomputations⟩ := obeyAll_frame { w with host := host } commands
  refine ha.of_turns (by rw [tasks_obeyAll]) (fun turn hturn _ => ?_) (timers_obeyAll ..) hcomputations
  rwa [hturns]

theorem Attended.signal (ha : i ≠ t → w.Attended i) (ending : Ending (List ρ)) :
    (w.signal t ending).Attended i := by
  by_cases hit : i = t
  · subst hit
    intro task ht
    simp only [tasks_signal, List.getElem?_modify] at ht
    obtain ⟨task', -, rfl⟩ := Option.map_eq_some_iff.mp ht
    exact .turn (by simp) (by simp [World.signal, enqueue])
  · refine (ha hit).of_turns ?_ (fun turn hturn _ => List.mem_append_left _ hturn) rfl rfl
    simp [Ne.symm hit]

/-- Those who wait for a computation are told in time that it has come further. -/
theorem Attended.modify (ha : w.Attended t) (c : Nat) (state : Computation.State ρ) (turns : List Turn)
    (htell : ∀ ending, state = .ended ending → w.IsCaller c t → .tell c t ∈ turns) :
    { w with
      computations := w.computations.modify c fun x => { x with state := state }
      turns := w.turns ++ turns }.Attended t := by
  refine ha.still rfl (fun turn hturn _ => List.mem_append_left _ hturn)
    (fun timer htimer _ => .inl htimer) ?_ ?_
  · rintro c' ⟨x, hx, ht⟩
    by_cases hcc : c = c'
    · exact ⟨{ x with state := state }, by simp [hcc, hx], ht⟩
    · exact ⟨x, by simp [hcc, hx], ht⟩
  · intro c' ending hcaller hended
    rw [state?_modify] at hended
    split at hended
    · rename_i hcc
      subst hcc
      obtain ⟨-, -, hstate⟩ := Option.map_eq_some_iff.mp hended
      exact .inr (List.mem_append_right _ (htell ending hstate hcaller))
    · exact .inl hended

theorem Attended.endComputation (ha : w.Attended t) {x : Computation ρ}
    (hx : w.computations[c]? = some x) (ending : Ending (List ρ)) :
    (w.endComputation c x.callers ending).Attended t := by
  refine ha.modify c (.ended ending) (.settle c :: x.callers.map (.tell c)) ?_
  rintro - - ⟨x', hx', ht⟩
  obtain rfl := Option.some.inj (hx.symm.trans hx')
  exact List.mem_cons_of_mem _ (List.mem_map_of_mem ht)

theorem Attended.begin (ha : w.Attended t) (c : Nat) : (w.beginComputation h c).Attended t := by
  obtain heq | ⟨x, host, commands, hx, -, hcases⟩ := w.beginComputation_cases h c
  · rwa [heq]
  have hobeyed := ha.obeyAll host commands
  obtain ⟨-, -, hcomputations⟩ := obeyAll_frame { w with host := host } commands
  obtain ⟨ending, -, heq⟩ | ⟨records, -, heq⟩ := hcases
  · rw [heq]
    exact hobeyed.endComputation (by rwa [hcomputations]) ending
  · rw [heq]
    simpa using hobeyed.modify c (.held records) [] (by simp)

theorem Attended.finish (ha : w.Attended t) (c : Nat) : (w.finishComputation c).Attended t := by
  obtain ⟨x, ending, hx, -, heq⟩ | ⟨heq, -⟩ := w.finishComputation_cases c <;> rw [heq]
  · exact ha.endComputation hx ending
  · exact ha

theorem Attended.release (ha : w.Attended t) (c : Nat) (ending : Ending (List ρ)) :
    (w.release c ending).2.Attended t := by
  obtain ⟨records, -, heq⟩ | heq := w.release_cases c ending <;> rw [heq]
  · exact ha.modify c (.released ending) [.finish c] (by simp)
  · exact ha

theorem Attended.cancelTask (ha : ∀ t, w.Attended t) (i t : Nat) :
    (w.cancelTask t).2.Attended i := by
  obtain ⟨heq, -⟩ | ⟨task, ht, -, ⟨hsignal, heq⟩ | ⟨-, ⟨ticket, l, -, heq⟩ | ⟨-, heq⟩⟩⟩ :=
    w.cancelTask_cases t <;> rw [heq]
  · exact ha i
  · by_cases hit : i = t
    · subst hit
      intro task' ht'
      simp only [tasks_modifyTask, List.getElem?_modify, ht] at ht'
      obtain rfl := Option.some.inj ht'
      cases ha i task ht with
      | done hover => exact .done hover
      | starting hstage => exact .starting hstage
      | turn _ hturn => exact .turn hsignal hturn
      | alarm _ hnone | lock _ hnone | records _ hnone => simp [hnone] at hsignal
    · exact (ha i).of_turns (by simp [Ne.symm hit]) (fun _ hturn _ => hturn) rfl rfl
  · have hcancelled : { w with locks := w.locks.modify l (·.cancel t) }.Attended i :=
      (ha i).of_turns rfl (fun _ hturn _ => hturn) rfl rfl
    exact Attended.signal (fun _ => hcancelled) _
  · exact Attended.signal (fun _ => ha i) _

/-! ### What a turn keeps -/

theorem Passes.standing? {begun : Nat} (hp : Passes t begun w w') (hit : i ≠ t) :
    w'.standing? i = w.standing? i := by
  rcases hp.others i hit with hsame | ⟨task, hi, hwoken, -⟩
  · rw [World.standing?, World.standing?, hsame]
  · rw [standing?_of_getElem? hi, standing?_of_getElem? hwoken]

/-- What comes of the turn of a task. -/
theorem resume_cases (hr : w.Rooted t) (hb : w.Backed) :
    (w.resume h t = w ∧ ¬w.Heeds t (.resume t)) ∨
    (w.resume h t = { w with timers := w.timers.filter (·.task ≠ t) } ∧
      ∃ task, w.tasks[t]? = some task ∧ task.stage.isOver = true) ∨
    ∃ begun task told task' d, w.tasks[t]? = some task ∧ task.stage.isOver = false ∧
      task.signal = some told ∧ w.documents[task.document]? = some d ∧
      Comes h t task.stage (w.Blames task told) begun
        { w with timers := w.timers.filter (·.task ≠ t) } (w.resume h t) task' := by
  by_cases hnone : ∀ task, w.tasks[t]? = some task →
      task.signal = none ∨ w.documents[task.document]? = none
  · refine .inl ⟨resume_of_none w t hnone, ?_⟩
    rintro ⟨task, ht, hstarting, hover, -, hsignal⟩
    rcases hnone task ht with hsilent | hd
    · simp [hsilent] at hsignal
    · rcases hr _ _ (standing?_of_getElem? ht) with hstage | hover' | ⟨d, hd'⟩
      · exact hstarting hstage
      · simp [hover] at hover'
      · simp [hd] at hd'
  push Not at hnone
  obtain ⟨task, ht, hsignal, hd⟩ := hnone
  obtain ⟨told, htold⟩ := Option.ne_none_iff_exists'.mp hsignal
  obtain ⟨d, hd⟩ := Option.ne_none_iff_exists'.mp hd
  cases hover : task.stage.isOver with
  | true =>
      refine .inr (.inl ⟨?_, task, ht, hover⟩)
      rw [resume_of_told ht htold hd]
      cases hstage : task.stage with
      | ended | answered => split <;> rfl
      | _ => simp [hstage, Stage.isOver] at hover
  | false =>
      obtain ⟨begun, task', hc⟩ := comes_resume (h := h) hb ht hd hover htold
      exact .inr (.inr ⟨begun, task, told, task', d, ht, hover, htold, hd, hc⟩)

theorem Attended.resume (ha : ∀ i, i ≠ t → w.Attended i) (hr : w.Rooted t) (hb : w.Backed)
    (hself : ¬w.Heeds t (.resume t) → w.Attended t) (i : Nat) : (w.resume h t).Attended i := by
  have htimers : ∀ i, i ≠ t → { w with timers := w.timers.filter (·.task ≠ t) }.Attended i := by
    intro i hit
    refine (ha i hit).still rfl (fun _ hturn _ => hturn) (fun timer htimer heq => .inl ?_)
      (fun _ => id) fun _ _ _ => .inl
    simpa [heq] using ⟨htimer, hit⟩
  obtain ⟨heq, hnot⟩ | ⟨heq, task, ht, hover⟩ | ⟨begun, task, told, task', d, ht, -, -, -, hc⟩ :=
    resume_cases (h := h) hr hb
  · rw [heq]
    by_cases hit : i = t
    · exact hit ▸ hself hnot
    · exact ha i hit
  · rw [heq]
    by_cases hit : i = t
    · intro task' ht'
      obtain rfl := Option.some.inj (ht.symm.trans (hit ▸ ht'))
      exact .done hover
    · exact htimers i hit
  · by_cases hit : i = t
    · subst hit
      intro task'' ht''
      obtain rfl := Option.some.inj (hc.stands.symm.trans ht'')
      exact hc.expects
    · rcases hc.passes.others i hit with hsame | ⟨task₁, -, hwoken, hturn⟩
      · refine (htimers i hit).still hsame (fun turn hturn _ => hc.passes.turns turn hturn)
          (fun timer htimer _ => .inl (hc.passes.timers timer htimer))
          (fun c hcaller => hc.passes.callers c i hcaller) fun c ending _ hended => .inl ?_
        have hbefore : w.state? c = some (.ended ending) := ended_of_resume hended
        exact hbefore
      · intro task₂ ht₂
        obtain rfl := Option.some.inj (hwoken.symm.trans ht₂)
        exact .turn rfl hturn

theorem Attended.tell (ha : i ≠ t → w.Attended i) (hself : ¬w.Heeds t (.tell c t) → w.Attended t) :
    (w.tellTask c t).Attended i := by
  obtain ⟨ending, -, -, -, -, -, heq⟩ | ⟨heq, hnone⟩ := w.tellTask_cases c t <;> rw [heq]
  · exact Attended.signal ha ending
  · have hnot : ¬w.Heeds t (.tell c t) := by
      rintro ⟨task, ht, -, hover, -, hsignal, ending, hended⟩
      simp [hnone ending task hended ht hsignal] at hover
    exact if hit : i = t then hit ▸ hself hnot else ha hit

theorem Attended.ring (ha : i ≠ t → w.Attended i) (hself : ¬w.Heeds t (.ring t) → w.Attended t) :
    (w.ring t).Attended i := by
  obtain ⟨-, -, -, -, heq⟩ | ⟨heq, hnone⟩ := w.ring_cases t <;> rw [heq]
  · exact Attended.signal ha _
  · have hnot : ¬w.Heeds t (.ring t) := by
      rintro ⟨task, ht, -, -, -, hsignal, hasleep⟩
      simp [hnone task ht hsignal] at hasleep
    exact if hit : i = t then hit ▸ hself hnot else ha hit

theorem Steady.attended_turn (hs : w.Steady) (hdone : w.turns[n]? = some done) (i : Nat) :
    ({ w with turns := w.turns.eraseIdx n }.perform h done).Attended i := by
  have herase : ∀ i, ¬w.Heeds i done → { w with turns := w.turns.eraseIdx n }.Attended i :=
    fun i hnot => (hs.attended i).erase hdone hnot
  have hnone : (∀ i, ¬w.Heeds i done) → { w with turns := w.turns.eraseIdx n }.Attended i :=
    fun hnot => herase i (hnot i)
  cases done with
  | resume t =>
      refine Attended.resume (fun i hit => herase i ?_) (hs.rooted t) hs.backed (herase t) i
      rintro ⟨-, -, -, -, heq, -⟩
      exact hit heq.symm
  | begin c => exact (hnone fun i ⟨_, _, _, _, hfalse⟩ => hfalse).begin c
  | finish c => exact (hnone fun i ⟨_, _, _, _, hfalse⟩ => hfalse).finish c
  | settle c =>
      have hidle := hnone fun i ⟨_, _, _, _, hfalse⟩ => hfalse
      obtain ⟨x, ending, -, -, heq⟩ | ⟨heq, -⟩ :=
        settleComputation_cases { w with turns := w.turns.eraseIdx n } c <;> rw [perform, heq]
      · exact hidle.of_turns rfl (fun _ hturn _ => hturn) rfl rfl
      · exact hidle
  | tell c t =>
      refine Attended.tell (fun hit => herase i ?_) (herase t)
      rintro ⟨-, -, -, -, heq, -⟩
      exact hit heq.symm
  | ring t =>
      refine Attended.ring (fun hit => herase i ?_) (herase t)
      rintro ⟨-, -, -, -, heq, -⟩
      exact hit heq.symm

theorem Steady.attended_act (hs : w.Steady) (a : Act ρ) (i : Nat) : (w.act h a).Attended i := by
  have hkept : ∀ turn ∈ w.turns, w.Heeds i turn → turn ∈ w.turns := fun _ hturn _ => hturn
  cases a with
  | openDocument | edit | setClock => exact (hs.attended i).of_turns rfl hkept rfl rfl
  | start errand k =>
      by_cases hlast : i = w.tasks.length
      · intro task ht
        simp only [act, World.start, hlast, List.getElem?_concat_length, Option.some.injEq] at ht
        exact .starting (by rw [← ht])
      · refine (hs.attended i).of_turns ?_ (fun _ hturn _ => List.mem_append_left _ hturn) rfl rfl
        simp only [act, World.start]
        grind
  | obey command =>
      obtain ⟨-, hturns, hcomputations⟩ := w.obey_frame command
      refine (hs.attended i).of_turns (by rw [act, tasks_obey]) (fun turn hturn _ => ?_)
        (w.timers_obeyAll [command]) hcomputations
      rwa [act, hturns]
  | cancelTask t => exact Attended.cancelTask hs.attended i t
  | release c ending => exact (hs.attended i).release c ending
  | moveTo instant =>
      refine (hs.attended i).still rfl (fun _ hturn _ => List.mem_append_left _ hturn)
        (fun timer htimer heq => ?_) (fun _ => id) fun _ _ _ => .inl
      by_cases hdue : timer.due ≤ instant
      · refine .inr (List.mem_append_right _ (List.mem_map.mpr ⟨timer, ?_, by rw [heq]⟩))
        simpa using ⟨htimer, hdue⟩
      · exact .inl (by simpa [act, World.moveTo] using ⟨htimer, hdue⟩)
  | turn n =>
      rw [act]
      cases hdone : w.turns[n]? with
      | none => exact hs.attended i
      | some done => exact hs.attended_turn hdone i

/-! ### Computations that are to come further -/

theorem Promised.still (hp : w.Promised c) (hstate : w'.state? c = w.state? c)
    (hturns : ∀ turn ∈ w.turns, turn ∈ w'.turns) : w'.Promised c :=
  ⟨fun hqueued => hturns _ (hp.queued (hstate ▸ hqueued)),
    fun ending hreleased => hturns _ (hp.released ending (hstate ▸ hreleased))⟩

theorem Promised.erase (hp : w.Promised c) (hdone : w.turns[n]? = some done)
    (hbegin : done = .begin c → w.state? c ≠ some .queued)
    (hfinish : done = .finish c → ∀ ending, w.state? c ≠ some (.released ending)) :
    { w with turns := w.turns.eraseIdx n }.Promised c :=
  ⟨fun hqueued => mem_eraseIdx_of_ne hdone (hp.queued hqueued) fun heq => hbegin heq hqueued,
    fun ending hreleased => mem_eraseIdx_of_ne hdone (hp.released ending hreleased) fun heq =>
      hfinish heq ending hreleased⟩

theorem Promised.modify (hp : c ≠ c' → w.Promised c) (state : Computation.State ρ)
    (turns : List Turn) (hqueued : state ≠ .queued)
    (hreleased : ∀ ending, state = .released ending → .finish c' ∈ turns) :
    { w with
      computations := w.computations.modify c' fun x => { x with state := state }
      turns := w.turns ++ turns }.Promised c := by
  by_cases hcc : c' = c
  · subst hcc
    refine ⟨fun hstate => ?_, fun ending hstate => List.mem_append_right _ ?_⟩
    all_goals
      rw [state?_modify, if_pos rfl] at hstate
      obtain ⟨-, -, hstate⟩ := Option.map_eq_some_iff.mp hstate
    · exact absurd hstate hqueued
    · exact hreleased ending hstate
  · refine (hp (Ne.symm hcc)).still ?_ fun turn hturn => List.mem_append_left _ hturn
    rw [state?_modify, if_neg hcc]

theorem Promised.obeyAll (hp : w.Promised c) (host : η) (commands : List Command) :
    ({ w with host := host }.obeyAll commands).Promised c := by
  obtain ⟨-, hturns, hcomputations⟩ := obeyAll_frame { w with host := host } commands
  refine hp.still (by rw [state?, hcomputations, state?]) fun turn hturn => ?_
  rwa [hturns]

/-- What is to be done for a computation stays so while another one is begun, and is done if it is
begun itself. -/
theorem Promised.begin (hp : c ≠ c' → w.Promised c)
    (hself : w.state? c' ≠ some .queued → w.Promised c) : (w.beginComputation h c').Promised c := by
  have hnot := not_queued_beginComputation (h := h) w c'
  obtain heq | ⟨x, host, commands, -, -, hcases⟩ := w.beginComputation_cases h c'
  · rw [heq] at hnot ⊢
    exact hself hnot
  have hobeyed : c ≠ c' → ({ w with host := host }.obeyAll commands).Promised c :=
    fun hne => (hp hne).obeyAll host commands
  obtain ⟨ending, -, heq⟩ | ⟨records, -, heq⟩ := hcases
  · rw [heq]
    exact Promised.modify hobeyed (.ended ending) _ (by simp) (by simp)
  · rw [heq]
    simpa using Promised.modify hobeyed (.held records) [] (by simp) (by simp)

theorem Promised.finish (hp : c ≠ c' → w.Promised c)
    (hself : (∀ ending, w.state? c' ≠ some (.released ending)) → w.Promised c) :
    (w.finishComputation c').Promised c := by
  obtain ⟨x, ending, -, -, heq⟩ | ⟨heq, hnone⟩ := w.finishComputation_cases c' <;> rw [heq]
  · exact Promised.modify hp (.ended ending) _ (by simp) (by simp)
  · exact hself hnone

theorem Promised.release (hp : w.Promised c) (ending : Ending (List ρ)) :
    (w.release c' ending).2.Promised c := by
  obtain ⟨records, -, heq⟩ | heq := w.release_cases c' ending <;> rw [heq]
  · exact Promised.modify (fun _ => hp) (.released ending) _ (by simp) (by simp)
  · exact hp

theorem Promised.comes {begun : Nat} (hp : w.Promised c) (hpasses : Passes t begun w w') :
    w'.Promised c := by
  have hstate : w'.state? c =
      (w.computations.map (·.state) ++ List.replicate begun .queued)[c]? := by
    rw [state?, ← hpasses.states, List.getElem?_map]
  have hlength := congrArg List.length hpasses.states
  by_cases hlt : c < w.computations.length
  · refine hp.still ?_ hpasses.turns
    rw [hstate, List.getElem?_append_left (by simpa using hlt), List.getElem?_map, state?]
  · rw [List.getElem?_append_right (by simpa using hlt), List.getElem?_replicate] at hstate
    refine ⟨fun hqueued => hpasses.begins c (Nat.le_of_not_lt hlt) ?_, fun ending hreleased => ?_⟩
    · obtain ⟨x, hx, -⟩ := Option.map_eq_some_iff.mp hqueued
      exact (List.getElem?_eq_some_iff.mp hx).1
    · rw [hreleased] at hstate
      split at hstate <;> simp at hstate

theorem Promised.resume (hp : w.Promised c) (hr : w.Rooted t) (hb : w.Backed) :
    (w.resume h t).Promised c := by
  obtain ⟨heq, -⟩ | ⟨heq, -⟩ | ⟨begun, task, told, task', d, -, -, -, -, hc⟩ :=
    resume_cases (h := h) hr hb
  · rwa [heq]
  · rw [heq]
    exact hp.still rfl fun _ => id
  · have htimers : { w with timers := w.timers.filter (·.task ≠ t) }.Promised c :=
      hp.still rfl fun _ => id
    exact htimers.comes hc.passes

theorem Steady.promised_turn (hs : w.Steady) (hdone : w.turns[n]? = some done) (c : Nat) :
    ({ w with turns := w.turns.eraseIdx n }.perform h done).Promised c := by
  have herase := (hs.promised c).erase hdone
  cases done with
  | resume t => exact Promised.resume (herase (by simp) (by simp)) (hs.rooted t) hs.backed
  | begin c' =>
      refine Promised.begin (fun hne => herase (by simp [Ne.symm hne]) (by simp)) fun hnot =>
        herase ?_ (by simp)
      rintro ⟨⟩
      exact hnot
  | finish c' =>
      refine Promised.finish (fun hne => herase (by simp) (by simp [Ne.symm hne])) fun hnot =>
        herase (by simp) ?_
      rintro ⟨⟩
      exact hnot
  | settle c' =>
      obtain ⟨hcomputations, hturns, -⟩ :=
        settleComputation_frame { w with turns := w.turns.eraseIdx n } c'
      refine (herase (by simp) (by simp)).still ?_ fun turn hturn => ?_
      · rw [perform, state?, hcomputations, state?]
      · rwa [perform, hturns]
  | tell c' t =>
      refine (herase (by simp) (by simp)).still ?_ fun turn hturn => ?_
      · rw [perform, state?, (sameBooks_tellTask _ c' t).computations, state?]
      · rcases turns_tellTask { w with turns := w.turns.eraseIdx n } c' t with heq | heq <;>
          simp [perform, heq, hturn]
  | ring t =>
      refine (herase (by simp) (by simp)).still ?_ fun turn hturn => ?_
      · rw [perform, state?, (sameBooks_ring _ t).computations, state?]
      · rcases turns_ring { w with turns := w.turns.eraseIdx n } t with heq | heq <;>
          simp [perform, heq, hturn]

theorem Steady.promised_act (hs : w.Steady) (a : Act ρ) (c : Nat) : (w.act h a).Promised c := by
  cases a with
  | openDocument | edit | setClock => exact (hs.promised c).still rfl fun _ => id
  | start | moveTo => exact (hs.promised c).still rfl fun turn hturn => List.mem_append_left _ hturn
  | obey command => exact (hs.promised c).obeyAll w.host [command]
  | cancelTask t =>
      refine (hs.promised c).still ?_ fun turn hturn => ?_
      · rw [act, state?, (w.sameBooks_cancelTask t).computations, state?]
      · rcases w.turns_cancelTask t with heq | heq <;> simp [act, heq, hturn]
  | release c' ending => exact (hs.promised c).release ending
  | turn n =>
      rw [act]
      cases hdone : w.turns[n]? with
      | none => exact hs.promised c
      | some done => exact hs.promised_turn hdone c

/-! ### Documents that are there -/

theorem Rooted.of_standing? (hr : w.Rooted t) (hg : w.Grows w')
    (hstands : w'.standing? t = w.standing? t) : w'.Rooted t := by
  intro k s hs
  rcases hr k s (hstands ▸ hs) with hstarting | hover | ⟨d, hd⟩
  · exact .inl hstarting
  · exact .inr (.inl hover)
  · obtain ⟨d', hd', -⟩ := hg.documents k d hd
    exact .inr (.inr ⟨d', hd'⟩)

theorem Rooted.resume (hr : ∀ i, w.Rooted i) (hb : w.Backed) (hg : w.Grows (w.resume h t))
    (i : Nat) : (w.resume h t).Rooted i := by
  obtain ⟨heq, -⟩ | ⟨heq, -⟩ | ⟨begun, task, told, task', d, ht, -, -, hd, hc⟩ :=
    resume_cases (h := h) (hr t) hb
  · rw [heq]
    exact hr i
  · rw [heq]
    exact hr i
  · by_cases hit : i = t
    · subst hit
      intro k s hs
      obtain ⟨s', hs'⟩ := hg.tasks i _ _ (standing?_of_getElem? ht)
      obtain ⟨rfl, -⟩ := Prod.mk.inj (Option.some.inj (hs.symm.trans hs'))
      obtain ⟨d', hd', -⟩ := hg.documents _ d hd
      exact .inr (.inr ⟨d', hd'⟩)
    · exact (hr i).of_standing? hg (hc.passes.standing? hit)

theorem Steady.rooted_act (hs : w.Steady) (a : Act ρ) (i : Nat) : (w.act h a).Rooted i := by
  have hg : w.Grows (w.act h a) := w.grows_use (.act a)
  have hr := hs.rooted i
  cases a with
  | openDocument | edit | setClock | moveTo => exact hr.of_standing? hg rfl
  | obey command => exact hr.of_standing? hg (standing?_of_tasks (tasks_obey ..) i)
  | release c ending =>
      exact hr.of_standing? hg (standing?_of_tasks (w.sameTasks_release c ending).tasks i)
  | cancelTask t => exact hr.of_standing? hg ((w.sameBooks_cancelTask t).standing? i)
  | start errand k =>
      by_cases hlast : i = w.tasks.length
      · intro k' s hs'
        rw [act, standing?_start, if_pos hlast] at hs'
        exact .inl (Prod.mk.inj (Option.some.inj hs')).2.symm
      · exact hr.of_standing? hg (by rw [act, standing?_start, if_neg hlast])
  | turn n =>
      cases hdone : w.turns[n]? with
      | none => simpa [act, hdone] using hr
      | some done =>
          have hact : w.act h (.turn n) = { w with turns := w.turns.eraseIdx n }.perform h done := by
            simp [act, hdone]
          rw [hact] at hg ⊢
          cases done with
          | resume t =>
              exact Rooted.resume (w := { w with turns := w.turns.eraseIdx n }) hs.rooted hs.backed
                ⟨hg.tasks, hg.documents, hg.computations⟩ i
          | begin c =>
              obtain ⟨host, commands, hsame⟩ :=
                sameTasks_beginComputation { w with turns := w.turns.eraseIdx n } h c
              refine hr.of_standing? hg (standing?_of_tasks ?_ i)
              rw [perform, hsame.tasks, tasks_obeyAll]
          | finish c =>
              exact hr.of_standing? hg (standing?_of_tasks (sameTasks_finishComputation ..).tasks i)
          | settle c =>
              exact hr.of_standing? hg (standing?_of_tasks (sameTasks_settleComputation ..).tasks i)
          | tell c t => exact hr.of_standing? hg ((sameBooks_tellTask ..).standing? i)
          | ring t => exact hr.of_standing? hg ((sameBooks_ring ..).standing? i)

/-! ### What all uses keep -/

theorem Backed.use (hb : w.Backed) (u : Use ρ) : (w.use h u).Backed := by
  rintro ⟨key, version⟩ c hpending
  rcases pending_or_new hpending with hbefore | ⟨-, x, hx, -⟩
  · exact Nat.lt_of_lt_of_le (hb _ c hbefore) (w.grows_use u).length_le
  · exact (List.getElem?_eq_some_iff.mp hx).1

theorem Steady.use (hs : w.Steady) (u : Use ρ) : (w.use h u).Steady := by
  have hb := hs.backed.use (h := h) u
  cases u with
  | act a => exact ⟨hs.attended_act a, hs.rooted_act a, hs.promised_act a, hb⟩
  | cache op =>
      exact ⟨fun t => (hs.attended t).of_turns rfl (fun _ hturn _ => hturn) rfl rfl, hs.rooted,
        fun c => (hs.promised c).still rfl fun _ => id, hb⟩

theorem Unblocked.use (hu : w.Unblocked) (u : Use ρ) : (w.use h u).Unblocked := by
  cases u with
  | act a => exact hu.act a
  | cache op =>
      exact hu.of_sameTasks ⟨rfl, rfl, rfl, rfl, rfl⟩
        (hu.locked.of_tasks rfl rfl hu.locked.told hu.locked.callers)

theorem steady_uses (h : Host η ρ) (host : η) (us : List (Use ρ)) :
    ((initial host).uses h us).Steady :=
  uses_induction (fun _ a hs => hs.use (.act a)) (fun _ op hs => hs.use (h := h) (.cache op))
    (steady_initial host) us

theorem unblocked_uses (h : Host η ρ) (host : η) (us : List (Use ρ)) :
    ((initial host).uses h us).Unblocked :=
  uses_induction (fun _ a hu => hu.use (.act a)) (fun _ op hu => hu.use (h := h) (.cache op))
    (unblocked_initial host) us

/-! ### Where nothing is to come -/

/-- Nothing goes on by itself: no turn is to come, nobody sleeps, and no computation is held. -/
structure AtRest (w : World η ρ) : Prop where
  turns : w.turns = []
  timers : w.timers = []
  unheld : ∀ c records, w.state? c ≠ some (.held records)

/-- At rest only those still wait who wait for a lock. -/
theorem AtRest.queueing (hr : w.AtRest) (hs : w.Steady) {task : Task ρ}
    (ht : w.tasks[t]? = some task) (hstarting : task.stage ≠ .starting)
    (hover : task.stage.isOver = false) :
    ∃ ticket l, task.stage = .queueing ticket l ∧ task.signal = none := by
  cases hs.attended t task ht with
  | done hover' => simp [hover] at hover'
  | starting hstage => exact absurd hstage hstarting
  | turn hsignal hturn => simp [hr.turns] at hturn
  | alarm hstage hsignal halarm => simp [hr.turns, hr.timers] at halarm
  | @lock ticket l hstage hsignal => exact ⟨ticket, l, hstage, hsignal⟩
  | @records c hstage hsignal hcaller htold =>
      obtain ⟨x, hx, -⟩ := hcaller
      have hstate : w.state? c = some x.state := by rw [state?, hx, Option.map_some]
      cases hx' : x.state with
      | queued =>
          have hturn := (hs.promised c).queued (hx' ▸ hstate)
          simp [hr.turns] at hturn
      | held records => exact absurd (hx' ▸ hstate) (hr.unheld c records)
      | released ending =>
          have hturn := (hs.promised c).released ending (hx' ▸ hstate)
          simp [hr.turns] at hturn
      | ended ending =>
          have hturn := htold ending (hx' ▸ hstate)
          simp [hr.turns] at hturn

/-- At rest all tasks that have begun are over. -/
theorem AtRest.isOver (hr : w.AtRest) (hs : w.Steady) (hu : w.Unblocked) {task : Task ρ}
    (ht : w.tasks[t]? = some task) (hstarting : task.stage ≠ .starting) :
    task.stage.isOver = true := by
  by_contra hover
  rw [Bool.not_eq_true] at hover
  obtain ⟨ticket, l, hstage, hsignal⟩ := hr.queueing hs ht hstarting hover
  have hposture := posture?_of_getElem? ht
  rw [hstage] at hposture
  obtain ⟨lock, hlock, hname⟩ := hu.attentive.counted t ticket l _ hposture
  have hserves := hu.attentive.serves l lock hlock
  cases hheld : lock.held with
  | true =>
      -- Whoever holds the lock waits for no other one, and has come to rest as well.
      obtain ⟨i, k, s, hi, hholds⟩ := hserves.holder hheld
      obtain ⟨task', ht', -, rfl⟩ := standing?_eq_some.mp hi
      obtain ⟨ticket', l', hstage', -⟩ := hr.queueing hs ht'
        (fun heq => by simp [heq, Stage.held?] at hholds)
        (by cases hs' : task'.stage <;> simp_all [Stage.held?, Stage.isOver])
      simp [hstage', Stage.held?] at hholds
  | false =>
      -- The first who waits has been woken, and so has a turn.
      obtain ⟨x, hx, -⟩ := List.mem_map.mp hname
      obtain ⟨y, hy⟩ : ∃ y, lock.waiters.head? = some y :=
        ⟨_, List.head?_eq_some_head (List.ne_nil_of_mem hx)⟩
      obtain ⟨ticket', isTold, hposture', hasleep⟩ := hserves.calm y (List.mem_of_mem_head? hy)
      obtain ⟨task', ht', heq⟩ := Option.map_eq_some_iff.mp hposture'
      obtain ⟨hstage', htold⟩ := Prod.mk.inj heq
      obtain ⟨-, -, -, hsilent⟩ := hr.queueing hs ht' (by simp [hstage'])
        (by simp [hstage', Stage.isOver])
      refine hserves.first hheld y hy (hasleep.mpr ?_)
      simpa [hsilent] using htold.symm

end World

end Swatch

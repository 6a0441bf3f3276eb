import Mathlib.Algebra.BigOperators.Group.List.Basic
import Mathlib.Data.Prod.Lex
import Mathlib.Order.OrderIsoNat
import Swatch.Proofs.Refresh.Rest

/-!
A world that is left to itself does not go on forever. Each turn, each alarm and each release brings
it nearer to rest, as long as the one who takes the records does not step aside again and again: with
each, a task comes further or a computation does; or a task is woken or told that was not; or else a
turn or an alarm is gone.
-/

namespace Swatch

variable {η ρ : Type}

/-- How much a computation has before it until it has ended. -/
def Computation.State.weight : Computation.State ρ → Nat
  | .queued => 3
  | .held _ => 2
  | .released _ => 1
  | .ended _ => 0

/-- What a task weighs that has yet to be woken or told. -/
def Task.silence (task : Task ρ) : Nat :=
  if task.signal.isNone && !task.stage.isOver then 2 else 0

namespace World

/-- Something that is on its way happens: a turn is taken, someone is woken who sleeps, or a computation
is released that is held. -/
def GoesOn (w : World η ρ) : Use ρ → Prop
  | .act (.turn n) => n < w.turns.length
  | .act (.moveTo instant) => ∃ timer ∈ w.timers, timer.due ≤ instant
  | .act (.release c _) => ∃ records, w.state? c = some (.held records)
  | _ => False

/-- How far it is to rest: how much is to be done until all records are there, how much then until all
have been handed on, and how many signals, alarms and turns there may be until one of these is less. -/
def remaining (h : Host η ρ) (n : Nat) (w : World η ρ) : Nat ×ₗ Nat ×ₗ Nat :=
  toLex ((w.tasks.map (·.stage.early)).sum + (w.computations.map (·.state.weight)).sum,
    toLex ((w.tasks.map (·.stage.late h n)).sum,
      (w.tasks.map Task.silence).sum + 2 * w.timers.length + w.turns.length))

variable {h : Host η ρ} {w w' : World η ρ} {t c m n begun : Nat} {task task' : Task ρ} {done : Turn}

/-! ### What becomes of a sum where one thing changes -/

theorem sum_map_modify {α : Type} {l : List α} {i : Nat} {x : α} (hx : l[i]? = some x)
    (f : α → α) (g : α → Nat) :
    ((l.modify i f).map g).sum + g x = (l.map g).sum + g (f x) := by
  obtain ⟨hlt, rfl⟩ := List.getElem?_eq_some_iff.mp hx
  have hsplit : l = l.take i ++ l[i] :: l.drop (i + 1) := by simp
  have hmodify : l.modify i f = l.take i ++ f l[i] :: l.drop (i + 1) := by
    rw [List.modify_eq_take_cons_drop hlt]
  have hsum := congrArg (fun ys => (ys.map g).sum) hsplit
  simp only [List.map_append, List.map_cons, List.sum_append, List.sum_cons] at hsum
  rw [hmodify, hsum]
  simp only [List.map_append, List.map_cons, List.sum_append, List.sum_cons]
  omega

theorem Passes.sum_stages (hp : Passes t begun w w') (ht : w.tasks[t]? = some task)
    (ht' : w'.tasks[t]? = some task') (g : Stage ρ → Nat) :
    (w'.tasks.map (g ·.stage)).sum + g task.stage = (w.tasks.map (g ·.stage)).sum + g task'.stage := by
  have hstages : w'.tasks.map (·.stage) = (w.tasks.map (·.stage)).modify t fun _ => task'.stage := by
    refine List.ext_getElem? fun i => ?_
    rw [List.getElem?_modify, List.getElem?_map, List.getElem?_map]
    by_cases hit : i = t
    · subst hit
      simp [ht, ht']
    · rcases hp.others i hit with hsame | ⟨other, hi, hwoken, -⟩
      · simp [hsame, Ne.symm hit]
      · simp [hi, hwoken, Ne.symm hit]
  have hsum := sum_map_modify (l := w.tasks.map (·.stage)) (i := t) (x := task.stage)
    (by simp [ht]) (fun _ => task'.stage) g
  rw [← hstages] at hsum
  simpa [List.map_map, Function.comp_def] using hsum

theorem Passes.sum_weights (hp : Passes t begun w w') :
    (w'.computations.map (·.state.weight)).sum =
      (w.computations.map (·.state.weight)).sum + 3 * begun := by
  have hsum := congrArg (fun states => (states.map Computation.State.weight).sum) hp.states
  simpa [List.map_map, Function.comp_def, Computation.State.weight, Nat.mul_comm] using hsum

/-! ### Each turn brings a world nearer to rest -/

theorem remaining_lt_of_weights (hstages : w'.tasks.map (·.stage) = w.tasks.map (·.stage))
    (hweights : (w'.computations.map (·.state.weight)).sum <
      (w.computations.map (·.state.weight)).sum) : w'.remaining h n < w.remaining h n := by
  have hearly := congrArg (fun stages => (stages.map Stage.early).sum) hstages
  simp only [List.map_map, Function.comp_def] at hearly
  rw [remaining, remaining, Prod.Lex.toLex_lt_toLex, hearly]
  exact .inl (Nat.add_lt_add_left hweights _)

theorem remaining_lt_of_turns (hstages : w'.tasks.map (·.stage) = w.tasks.map (·.stage))
    (hcomputations : w'.computations = w.computations)
    (hless : (w'.tasks.map Task.silence).sum + 2 * w'.timers.length + w'.turns.length <
      (w.tasks.map Task.silence).sum + 2 * w.timers.length + w.turns.length) :
    w'.remaining h n < w.remaining h n := by
  have hearly := congrArg (fun stages => (stages.map Stage.early).sum) hstages
  have hlate := congrArg (fun stages => (stages.map (Stage.late h n)).sum) hstages
  simp only [List.map_map, Function.comp_def] at hearly hlate
  simp only [remaining, Prod.Lex.toLex_lt_toLex, hearly, hlate, hcomputations]
  exact .inr ⟨trivial, .inr ⟨trivial, hless⟩⟩

theorem Comes.remaining_lt {q : Ending Unit → Prop} (hc : Comes h t task.stage q begun w w' task')
    (ht : w.tasks[t]? = some task) (hn : h.Prompt n) : w'.remaining h n < w.remaining h n := by
  have hearly := hc.passes.sum_stages ht hc.stands Stage.early
  have hlate := hc.passes.sum_stages ht hc.stands (Stage.late h n)
  have hweights := hc.passes.sum_weights
  rw [remaining, remaining, Prod.Lex.toLex_lt_toLex, Prod.Lex.toLex_lt_toLex]
  rcases hc.outweighs n hn with hless | ⟨hsame, hless⟩
  · exact .inl (by omega)
  · exact .inr ⟨by omega, .inl (by omega)⟩

theorem length_eraseIdx_lt {turns : List Turn} (hdone : turns[m]? = some done) :
    (turns.eraseIdx m).length < turns.length := by
  have hlt := (List.getElem?_eq_some_iff.mp hdone).1
  rw [List.length_eraseIdx_of_lt hlt]
  omega

theorem remaining_lt_erase (hdone : w.turns[m]? = some done) :
    { w with turns := w.turns.eraseIdx m }.remaining h n < w.remaining h n :=
  remaining_lt_of_turns rfl rfl (Nat.add_lt_add_left (length_eraseIdx_lt hdone) _)

/-- A task that is woken or told weighs less, even with its turn. -/
theorem remaining_lt_signal (hdone : w.turns[m]? = some done) (ht : w.tasks[t]? = some task)
    (hsignal : task.signal = none) (hover : task.stage.isOver = false) (ending : Ending (List ρ)) :
    ({ w with turns := w.turns.eraseIdx m }.signal t ending).remaining h n < w.remaining h n := by
  refine remaining_lt_of_turns ?_ rfl ?_
  · refine List.ext_getElem? fun i => ?_
    simp only [tasks_signal, List.getElem?_map, List.getElem?_modify]
    grind
  · have hsilence := sum_map_modify ht (fun task => { task with signal := some ending }) Task.silence
    have hturns := length_eraseIdx_lt hdone
    simp only [Task.silence, hsignal, hover, Option.isNone_none, Option.isNone_some, Bool.not_false,
      Bool.and_self, Bool.false_and, Bool.false_eq_true, if_true, if_false] at hsilence
    simp only [World.signal, enqueue, modifyTask, List.length_append, List.length_singleton]
    omega

theorem remaining_lt_modify {x : Computation ρ} (hx : w.computations[c]? = some x)
    (state : Computation.State ρ) (hless : state.weight < x.state.weight)
    (htasks : w'.tasks = w.tasks)
    (hcomputations :
      w'.computations = w.computations.modify c fun x => { x with state := state }) :
    w'.remaining h n < w.remaining h n := by
  refine remaining_lt_of_weights (by rw [htasks]) ?_
  have hsum := sum_map_modify hx (fun x => { x with state := state }) (·.state.weight)
  dsimp only at hsum
  rw [hcomputations]
  omega

theorem remaining_begin_lt (hdone : w.turns[m]? = some (.begin c)) :
    ({ w with turns := w.turns.eraseIdx m }.beginComputation h c).remaining h n <
      w.remaining h n := by
  obtain heq | ⟨x, host, commands, hx, hqueued, hcases⟩ :=
    beginComputation_cases { w with turns := w.turns.eraseIdx m } h c
  · rw [heq]
    exact remaining_lt_erase hdone
  obtain ⟨-, -, hcomputations⟩ :=
    obeyAll_frame { w with turns := w.turns.eraseIdx m, host := host } commands
  have htasks := tasks_obeyAll { w with turns := w.turns.eraseIdx m, host := host } commands
  obtain ⟨ending, -, heq⟩ | ⟨records, -, heq⟩ := hcases
  · rw [heq]
    refine remaining_lt_modify hx (.ended ending) ?_ htasks ?_
    · simp [hqueued, Computation.State.weight]
    · rw [endComputation, hcomputations]
  · rw [heq]
    refine remaining_lt_modify hx (.held records) ?_ htasks ?_
    · simp [hqueued, Computation.State.weight]
    · dsimp only
      rw [hcomputations]

theorem remaining_finish_lt (hdone : w.turns[m]? = some (.finish c)) :
    ({ w with turns := w.turns.eraseIdx m }.finishComputation c).remaining h n <
      w.remaining h n := by
  obtain ⟨x, ending, hx, hreleased, heq⟩ | ⟨heq, -⟩ :=
    finishComputation_cases { w with turns := w.turns.eraseIdx m } c <;> rw [heq]
  · exact remaining_lt_modify hx (.ended ending)
      (by simp [hreleased, Computation.State.weight]) rfl rfl
  · exact remaining_lt_erase hdone

theorem remaining_settle_lt (hdone : w.turns[m]? = some (.settle c)) :
    ({ w with turns := w.turns.eraseIdx m }.settleComputation c).remaining h n <
      w.remaining h n := by
  obtain ⟨x, ending, -, -, heq⟩ | ⟨heq, -⟩ :=
    settleComputation_cases { w with turns := w.turns.eraseIdx m } c <;> rw [heq]
  all_goals exact remaining_lt_erase hdone

theorem remaining_tell_lt (hdone : w.turns[m]? = some (.tell c t)) :
    ({ w with turns := w.turns.eraseIdx m }.tellTask c t).remaining h n < w.remaining h n := by
  obtain ⟨ending, task, -, ht, hsignal, hover, heq⟩ | ⟨heq, -⟩ :=
    tellTask_cases { w with turns := w.turns.eraseIdx m } c t <;> rw [heq]
  · exact remaining_lt_signal hdone ht hsignal hover ending
  · exact remaining_lt_erase hdone

theorem remaining_ring_lt (hdone : w.turns[m]? = some (.ring t)) :
    ({ w with turns := w.turns.eraseIdx m }.ring t).remaining h n < w.remaining h n := by
  obtain ⟨task, ht, hsignal, hasleep, heq⟩ | ⟨heq, -⟩ :=
    ring_cases { w with turns := w.turns.eraseIdx m } t <;> rw [heq]
  · refine remaining_lt_signal hdone ht hsignal ?_ _
    cases hs : task.stage <;> simp_all [Stage.isAsleep, Stage.isOver]
  · exact remaining_lt_erase hdone

theorem remaining_resume_lt (hs : w.Steady) (hn : h.Prompt n)
    (hdone : w.turns[m]? = some (.resume t)) :
    ({ w with turns := w.turns.eraseIdx m }.resume h t).remaining h n < w.remaining h n := by
  have hrooted : { w with turns := w.turns.eraseIdx m }.Rooted t := hs.rooted t
  have hbacked : { w with turns := w.turns.eraseIdx m }.Backed := hs.backed
  have htimers : { w with
      turns := w.turns.eraseIdx m
      timers := w.timers.filter (·.task ≠ t) }.remaining h n < w.remaining h n := by
    refine remaining_lt_of_turns rfl rfl ?_
    have hless := length_eraseIdx_lt hdone
    have hle := List.length_filter_le (fun timer : Timer => timer.task ≠ t) w.timers
    dsimp only
    omega
  obtain ⟨heq, -⟩ | ⟨heq, -⟩ | ⟨begun, task, told, task', d, ht, -, -, -, hc⟩ :=
    resume_cases (h := h) hrooted hbacked
  · rw [heq]
    exact remaining_lt_erase hdone
  · rw [heq]
    exact htimers
  · exact lt_trans (hc.remaining_lt ht hn) htimers

theorem remaining_moveTo_lt {instant : Float} (hdue : ∃ timer ∈ w.timers, timer.due ≤ instant) :
    (w.moveTo instant).remaining h n < w.remaining h n := by
  refine remaining_lt_of_turns rfl rfl ?_
  have hsplit := List.length_eq_length_filter_add (l := w.timers) fun timer => timer.due ≤ instant
  have hpos : 0 < (w.timers.filter fun timer => timer.due ≤ instant).length := by
    obtain ⟨timer, htimer, hle⟩ := hdue
    exact List.length_pos_of_mem (List.mem_filter.mpr ⟨htimer, decide_eq_true hle⟩)
  simp only [moveTo, List.length_append, List.length_map]
  omega

theorem remaining_release_lt {records : List ρ} (hheld : w.state? c = some (.held records))
    (ending : Ending (List ρ)) : (w.release c ending).2.remaining h n < w.remaining h n := by
  obtain ⟨x, hx, hstate⟩ := Option.map_eq_some_iff.mp hheld
  rw [release, hheld]
  exact remaining_lt_modify hx (.released ending) (by simp [hstate, Computation.State.weight]) rfl rfl

/-- Whatever goes on by itself brings a world nearer to rest. -/
theorem GoesOn.remaining_lt {u : Use ρ} (hu : w.GoesOn u) (hs : w.Steady) (hn : h.Prompt n) :
    (w.use h u).remaining h n < w.remaining h n := by
  cases u with
  | cache op => exact hu.elim
  | act a =>
      cases a with
      | moveTo instant => exact remaining_moveTo_lt hu
      | release c ending =>
          obtain ⟨records, hheld⟩ := hu
          exact remaining_release_lt hheld ending
      | turn m =>
          have hdone := List.getElem?_eq_getElem (show m < w.turns.length from hu)
          rw [use_turn w hdone]
          generalize w.turns[m] = done at hdone
          cases done with
          | resume t => exact remaining_resume_lt hs hn hdone
          | begin c => exact remaining_begin_lt hdone
          | finish c => exact remaining_finish_lt hdone
          | settle c => exact remaining_settle_lt hdone
          | tell c t => exact remaining_tell_lt hdone
          | ring t => exact remaining_ring_lt hdone
      | _ => exact hu.elim

/-! ### No world goes on forever -/

/-- What comes next in an endless run comes to something that does not go on by itself. -/
theorem Steady.exists_not_goesOn (hs : w.Steady) (hn : h.Prompt n) (next : Nat → Use ρ) :
    ∃ m, ¬(w.uses h ((List.range m).map next)).GoesOn (next m) := by
  by_contra hgoes
  push Not at hgoes
  have hsteady : ∀ m, (w.uses h ((List.range m).map next)).Steady := fun m =>
    uses_induction (fun _ a hs => hs.use (.act a)) (fun _ op hs => hs.use (h := h) (.cache op)) hs _
  have hless : ∀ m, (w.uses h ((List.range (m + 1)).map next)).remaining h n <
      (w.uses h ((List.range m).map next)).remaining h n := by
    intro m
    rw [List.range_succ, List.map_append, List.map_singleton, uses_concat]
    exact (hgoes m).remaining_lt (hsteady m) hn
  exact not_strictAnti_of_wellFoundedLT (fun m => (w.uses h ((List.range m).map next)).remaining h n)
    (strictAnti_nat_of_succ_lt hless)

end World

end Swatch

import Swatch.Proofs.Cache.Wait
import Swatch.Proofs.Refresh.Queue

/-!
What a task makes of its turn. Others stay as they are or are woken for a lock, and nothing is lost
that they wait for. The task itself has come further, unless it has to wait, and then what it waits
for is on its way. It fails only with what has failed that it called for.
-/

namespace Swatch

variable {η ρ : Type}

/-- How somebody comes to nothing: with an error, or cancelled. -/
def Ending.fault? {α : Type} : Ending α → Option (Ending Unit)
  | .finished _ => none
  | .failed message => some (.failed message)
  | .cancelled => some .cancelled

@[simp] theorem Ending.fault?_finished {α : Type} (value : α) :
    (Ending.finished value).fault? = none :=
  rfl

@[simp] theorem Ending.fault?_failed {α : Type} (message : String) :
    (Ending.failed message : Ending α).fault? = some (.failed message) :=
  rfl

@[simp] theorem Ending.fault?_cancelled {α : Type} :
    (Ending.cancelled : Ending α).fault? = some .cancelled :=
  rfl

namespace Stage

/-- How a task has come to nothing that is over. -/
def fault? : Stage ρ → Option (Ending Unit)
  | .ended ending => ending.fault?
  | .answered ending => ending.fault?
  | _ => none

/-! ### How far it is to the end -/

/-- How much a task has before it until it has its records. A computation that it begins on the way
counts three. -/
def early : Stage ρ → Nat
  | .starting => 7
  | .debouncing _ => 6
  | .queueing _ _ => 5
  | .computing _ _ | .detecting => 1
  | _ => 0

/-- How much a task has before it that hands on its records, where the one who takes them steps aside
`n` times at most at each chunk. -/
def late (h : Host η ρ) (n : Nat) : Stage ρ → Nat
  | .applying _ _ delivery count =>
      2 * (delivery.records.length - delivery.index * h.chunkSize) * (n + 3) + (n + 1 - count) + 1
  | .pausing _ _ delivery =>
      (2 * (delivery.records.length - delivery.index * h.chunkSize) + 1) * (n + 3)
  | _ => 0

/-- A task has come further that goes from one stage to another and begins some computations on the
way. -/
def Outweighs (h : Host η ρ) (n : Nat) (s s' : Stage ρ) (begun : Nat) : Prop :=
  s'.early + 3 * begun < s.early ∨ s'.early + 3 * begun = s.early ∧ s'.late h n < s.late h n

end Stage

/-- The one who takes the records steps aside `n` times at most at each chunk. -/
def Host.Prompt (h : Host η ρ) (n : Nat) : Prop :=
  ∀ visit host, n ≤ visit.count → (h.apply visit host).2.2 ≠ none

/-- A task that goes on from one stage has come further than from another one, or just as far. -/
def Stage.AtLeast (h : Host η ρ) (s s' : Stage ρ) : Prop :=
  s = s' ∨ ∀ n, h.Prompt n → s.Outweighs h n s' 0

section Weights

variable {h : Host η ρ} {s s' s'' : Stage ρ}

theorem Stage.AtLeast.outweighs (hs : s.AtLeast h s') {begun : Nat}
    (hs' : ∀ n, h.Prompt n → s'.Outweighs h n s'' begun) (n : Nat) (hn : h.Prompt n) :
    s.Outweighs h n s'' begun := by
  rcases hs with rfl | hs
  · exact hs' n hn
  · have hfirst := hs n hn
    have hlast := hs' n hn
    simp only [Stage.Outweighs] at hfirst hlast ⊢
    omega

theorem Stage.AtLeast.trans (hs : s.AtLeast h s')
    (hs' : ∀ n, h.Prompt n → s'.Outweighs h n s'' 0) : s.AtLeast h s'' :=
  .inr (hs.outweighs hs')

theorem Stage.outweighs_of_isOver (hs : s.isOver = false) (hs' : s'.isOver = true) (n : Nat) :
    s.Outweighs h n s' 0 := by
  cases s' with
  | ended | answered =>
      cases s <;> simp_all [Outweighs, early, late, isOver]
  | _ => simp [isOver] at hs'

/-- Once a chunk is on its way there is less to do than before it. -/
theorem Stage.outweighs_applying (ticket : Ticket) (l : Nat) (delivery : Delivery ρ) (n : Nat) :
    (Stage.pausing ticket l delivery).Outweighs h n (.applying ticket l delivery 0) 0 := by
  refine .inr ⟨rfl, ?_⟩
  simp only [late, Nat.add_mul]
  omega

theorem Stage.outweighs_revisited {n count : Nat} (hcount : count < n) (ticket : Ticket) (l : Nat)
    (delivery : Delivery ρ) : (Stage.applying ticket l delivery count).Outweighs h n
      (.applying ticket l delivery (count + 1)) 0 := by
  refine .inr ⟨rfl, ?_⟩
  simp only [late]
  omega

theorem Stage.outweighs_taken {delivery : Delivery ρ}
    (hmore : (delivery.index + 1) * h.chunkSize < delivery.records.length) (ticket : Ticket)
    (l count n : Nat) : (Stage.applying ticket l delivery count).Outweighs h n
      (.pausing ticket l (World.afterChunk h delivery)) 0 := by
  refine .inr ⟨rfl, ?_⟩
  have hpos := h.chunkSize_pos
  have hnext : (delivery.index + 1) * h.chunkSize = delivery.index * h.chunkSize + h.chunkSize := by
    rw [Nat.add_mul, Nat.one_mul]
  simp only [late, World.afterChunk]
  rw [hnext] at hmore ⊢
  generalize delivery.index * h.chunkSize = i at hmore ⊢
  generalize delivery.records.length = m at hmore ⊢
  have hless : 2 * (m - (i + h.chunkSize)) + 1 ≤ 2 * (m - i) := by omega
  have hscaled := Nat.mul_le_mul_right (n + 3) hless
  omega

end Weights

namespace World

/-- What a task waits for is on its way: its turn, or what it is to be woken by or told. -/
inductive Expects (w : World η ρ) (t : Nat) (task : Task ρ) : Prop where
  | done (hover : task.stage.isOver = true)
  | starting (hstage : task.stage = .starting)
  | turn (hsignal : task.signal.isSome = true) (hturn : .resume t ∈ w.turns)
  | alarm (hstage : task.stage.isAsleep = true) (hsignal : task.signal = none)
      (halarm : .ring t ∈ w.turns ∨ ∃ timer ∈ w.timers, timer.task = t)
  | lock {ticket : Ticket} {l : Nat} (hstage : task.stage = .queueing ticket l)
      (hsignal : task.signal = none)
  | records {c : Nat} (hstage : task.stage.awaits = true) (hsignal : task.signal = none)
      (hcaller : w.IsCaller c t)
      (htold : ∀ ending, w.state? c = some (.ended ending) → .tell c t ∈ w.turns)

/-- What the turn of a task leaves to others: they stay as they are or are woken for a lock, nothing is
lost that is to come, and some computations are begun. -/
structure Passes (t begun : Nat) (w w' : World η ρ) : Prop where
  others : ∀ i, i ≠ t → w'.tasks[i]? = w.tasks[i]? ∨
    ∃ task, w.tasks[i]? = some task ∧
      w'.tasks[i]? = some { task with signal := some (.finished []) } ∧ .resume i ∈ w'.turns
  turns : ∀ turn ∈ w.turns, turn ∈ w'.turns
  timers : ∀ timer ∈ w.timers, timer ∈ w'.timers
  states : w'.computations.map (·.state) =
    w.computations.map (·.state) ++ List.replicate begun .queued
  callers : ∀ c i, w.IsCaller c i → w'.IsCaller c i
  begins : ∀ c, w.computations.length ≤ c → c < w'.computations.length → .begin c ∈ w'.turns

/-- What a task makes of its turn that it comes to from a stage. What it may come to nothing with is
told by `q`, unless its consumer has failed it. -/
structure Comes (h : Host η ρ) (t : Nat) (s : Stage ρ) (q : Ending Unit → Prop) (begun : Nat)
    (w w' : World η ρ) (task : Task ρ) : Prop where
  passes : Passes t begun w w'
  stands : w'.tasks[t]? = some task
  expects : w'.Expects t task
  fresh : task.stage.isOver = false →
    task.cancelRequested = false ∧ ∀ told, task.signal = some told → told = .finished []
  outweighs : ∀ n, h.Prompt n → s.Outweighs h n task.stage begun
  fault : ∀ f, task.stage.fault? = some f → .taken t f ∈ w'.history ∨ q f

variable {h : Host η ρ} {w w' v : World η ρ} {t l begun : Nat} {s : Stage ρ} {task : Task ρ}
  {ticket : Ticket} {delivery : Delivery ρ} {q : Ending Unit → Prop}

/-! ### What a task leaves to others -/

theorem passes_of_same (htasks : ∀ i, i ≠ t → w'.tasks[i]? = w.tasks[i]?)
    (hturns : ∀ turn ∈ w.turns, turn ∈ w'.turns) (htimers : ∀ timer ∈ w.timers, timer ∈ w'.timers)
    (hcomputations : w'.computations = w.computations) : Passes t 0 w w' where
  others i hi := .inl (htasks i hi)
  turns := hturns
  timers := htimers
  states := by simp [hcomputations]
  callers c i hc := by rwa [IsCaller, hcomputations]
  begins c hle hlt := by
    rw [hcomputations] at hlt
    omega

theorem passes_refl (t : Nat) (w : World η ρ) : Passes t 0 w w :=
  passes_of_same (fun _ _ => rfl) (fun _ => id) (fun _ => id) rfl

theorem Passes.trans {begun' : Nat} (hp : Passes t begun w w') (hp' : Passes t begun' w' v) :
    Passes t (begun + begun') w v := by
  refine ⟨fun i hi => ?_, fun turn hturn => hp'.turns turn (hp.turns turn hturn),
    fun timer htimer => hp'.timers timer (hp.timers timer htimer), ?_,
    fun c i hc => hp'.callers c i (hp.callers c i hc), fun c hle hlt => ?_⟩
  · rcases hp'.others i hi with hsame' | ⟨task', ht', hwoken', hturn'⟩
    · rcases hp.others i hi with hsame | ⟨task, ht, hwoken, hturn⟩
      · exact .inl (hsame'.trans hsame)
      · exact .inr ⟨task, ht, hsame'.trans hwoken, hp'.turns _ hturn⟩
    · rcases hp.others i hi with hsame | ⟨task, ht, hwoken, hturn⟩
      · exact .inr ⟨task', hsame.symm.trans ht', hwoken', hturn'⟩
      · obtain rfl := Option.some.inj (hwoken.symm.trans ht')
        exact .inr ⟨task, ht, hwoken', hturn'⟩
  · rw [hp'.states, hp.states, List.append_assoc, List.replicate_append_replicate]
  · by_cases hearly : c < w'.computations.length
    · exact hp'.turns _ (hp.begins c hle hearly)
    · exact hp'.begins c (Nat.le_of_not_lt hearly) hlt

theorem Passes.remember (hp : Passes t begun w w') (e : Event ρ) :
    Passes t begun w (w'.remember e) :=
  ⟨hp.others, hp.turns, hp.timers, hp.states, hp.callers, hp.begins⟩

theorem passes_wait (w : World η ρ) (t : Nat) (stage : Stage ρ) : Passes t 0 w (w.wait t stage) :=
  passes_of_same (fun i hi => by simp [Ne.symm hi]) (fun _ => id) (fun _ => id) rfl

theorem passes_stepAside (w : World η ρ) (t : Nat) : Passes t 0 w (w.stepAside t) := by
  refine passes_of_same (fun i hi => ?_) (fun turn hturn => ?_) (fun _ => id) rfl
  · simp [stepAside, Ne.symm hi]
  · exact List.mem_append_left _ hturn

theorem passes_sleep (w : World η ρ) (t : Nat) (seconds : Float) :
    Passes t 0 w (w.sleep t seconds) :=
  passes_of_same (fun _ _ => rfl) (fun _ => id) (fun _ htimer => List.mem_append_left _ htimer) rfl

theorem timers_obeyAll (w : World η ρ) (commands : List Command) :
    (w.obeyAll commands).timers = w.timers := by
  induction commands generalizing w with
  | nil => rfl
  | cons command commands ih =>
      rw [obeyAll_cons, ih]
      cases command with
      | edit uri text =>
          rw [obey, edit]
          split <;> rfl
      | cancel | forget | invalidate => rfl

theorem passes_obeyAll (w : World η ρ) (t : Nat) (host : η) (commands : List Command) :
    Passes t 0 w ({ w with host := host }.obeyAll commands) := by
  obtain ⟨-, hturns, hcomputations⟩ := obeyAll_frame { w with host := host } commands
  refine passes_of_same (fun i _ => by rw [tasks_obeyAll]) (fun turn hturn => ?_) (fun timer ht => ?_)
    hcomputations
  · rwa [hturns]
  · rwa [timers_obeyAll]

/-- A lock that is given back wakes one who waits for it at most. -/
theorem passes_releaseLock (w : World η ρ) (t l : Nat) : Passes t 0 w (w.releaseLock l) := by
  rw [releaseLock_eq]
  split
  · rename_i j hj
    refine ⟨fun i hi => ?_, fun turn hturn => List.mem_append_left _ hturn, fun _ => id, ?_, ?_, ?_⟩
    · by_cases hij : i = j
      · cases hi' : w.tasks[i]? with
        | none =>
            have hle := List.getElem?_eq_none_iff.mp hi'
            exact .inl (by simp [hle])
        | some task =>
            exact .inr ⟨task, rfl, by simp [hij ▸ hi', hij],
              by simp [hij]⟩
      · exact .inl (by simp [Ne.symm hij])
    · simp [signal, enqueue, modifyTask]
    · exact fun c i hc => hc
    · intro c hle hlt
      exact absurd hlt (Nat.not_lt.mpr hle)
  · exact passes_of_same (fun _ _ => rfl) (fun _ => id) (fun _ => id) rfl

theorem passes_leaveQueue (w : World η ρ) (t l : Nat) : Passes t 0 w (w.leaveQueue t l) := by
  have hlocks : ∀ locks, Passes t 0 w { w with locks := locks } := fun _ =>
    passes_of_same (fun _ _ => rfl) (fun _ => id) (fun _ => id) rfl
  obtain ⟨lock, -, ⟨-, heq⟩ | ⟨-, heq⟩⟩ | ⟨-, heq⟩ := w.leaveQueue_cases t l <;> rw [heq]
  · exact hlocks _
  · exact (hlocks _).trans (passes_releaseLock ..)
  · exact passes_refl t w

theorem Comes.after (hc : Comes h t s q begun v w' task) (hp : Passes t 0 w v) :
    Comes h t s q begun w w' task :=
  ⟨by simpa using hp.trans hc.passes, hc.stands, hc.expects, hc.fresh, hc.outweighs, hc.fault⟩

/-! ### A task that comes to its end -/

theorem comes_of_over (hp : Passes t 0 w w') {k : Nat} {stage : Stage ρ}
    (hstands : w'.standing? t = some (k, stage)) (hover : stage.isOver = true)
    (hs : s.isOver = false)
    (hfault : ∀ f, stage.fault? = some f → .taken t f ∈ w'.history ∨ q f) :
    ∃ task', Comes h t s q 0 w w' task' := by
  obtain ⟨task', ht', -, rfl⟩ := standing?_eq_some.mp hstands
  exact ⟨task', hp, ht', .done hover, by simp [hover],
    fun n _ => Stage.outweighs_of_isOver hs hover n, hfault⟩

theorem comes_close (ht : w.tasks[t]? = some task) (hs : s.isOver = false)
    (ending : Ending (Outcome ρ))
    (hfault : ∀ f, ending.fault? = some f → .taken t f ∈ w.history ∨ q f) :
    ∃ task', Comes h t s q 0 w (w.close t ending) task' := by
  have hstands : (w.close t ending).standing? t = some (task.document, .ended ending) := by
    rw [standing?_close, if_pos rfl, standing?_of_getElem? ht]
    rfl
  refine comes_of_over ((passes_wait w t _).remember _) hstands rfl hs fun f hf => ?_
  exact (hfault f hf).imp_left (List.mem_append_left _)

theorem comes_close_releaseLock (ht : w.tasks[t]? = some task) (hs : s.isOver = false)
    (ending : Ending (Outcome ρ)) (l : Nat)
    (hfault : ∀ f, ending.fault? = some f → .taken t f ∈ w.history ∨ q f) :
    ∃ task', Comes h t s q 0 w ((w.close t ending).releaseLock l) task' := by
  obtain ⟨task', hc⟩ := comes_close (h := h) ht hs ending hfault
  have hbooks := (w.close t ending).sameBooks_releaseLock l
  have hstands : ((w.close t ending).releaseLock l).standing? t =
      some (task.document, .ended ending) := by
    rw [hbooks.standing?, standing?_close, if_pos rfl, standing?_of_getElem? ht]
    rfl
  refine comes_of_over (hc.passes.trans (passes_releaseLock _ t l)) hstands rfl hs fun f hf => ?_
  rw [hbooks.history]
  exact (hfault f hf).imp_left (List.mem_append_left _)

theorem comes_conclude (ht : w.tasks[t]? = some task) (hs : s.isOver = false)
    (outcome : Outcome ρ) : ∃ task', Comes h t s q 0 w (w.conclude t outcome) task' := by
  have ht' : { w with scheduler := w.scheduler.note outcome.status }.tasks[t]? = some task := ht
  obtain ⟨task', hc⟩ := comes_close (h := h) (q := q) ht' hs (.finished outcome) (by simp)
  exact ⟨task', hc.after (passes_of_same (fun _ _ => rfl) (fun _ => id) (fun _ => id) rfl)⟩

theorem comes_conclude_releaseLock (ht : w.tasks[t]? = some task) (hs : s.isOver = false)
    (outcome : Outcome ρ) (l : Nat) :
    ∃ task', Comes h t s q 0 w ((w.conclude t outcome).releaseLock l) task' := by
  have ht' : { w with scheduler := w.scheduler.note outcome.status }.tasks[t]? = some task := ht
  obtain ⟨task', hc⟩ := comes_close_releaseLock (h := h) (q := q) ht' hs (.finished outcome) l (by simp)
  exact ⟨task', hc.after (passes_of_same (fun _ _ => rfl) (fun _ => id) (fun _ => id) rfl)⟩

theorem comes_answer (ht : w.tasks[t]? = some task) (hs : s.isOver = false)
    (ending : Ending (List ρ)) (hfault : ∀ f, ending.fault? = some f → q f) :
    ∃ task', Comes h t s q 0 w (w.wait t (.answered ending)) task' :=
  comes_of_over (passes_wait ..) (standing?_of_getElem? (getElem?_wait ht _)) rfl hs
    fun f hf => .inr (hfault f hf)

/-! ### A task that hands on its records -/

theorem comes_goOn (ht : w.tasks[t]? = some task) (hstage : task.stage = .pausing ticket l delivery)
    (hsignal : task.signal = none) (hasked : task.cancelRequested = false) (hs : s.isOver = false)
    (hmore : delivery.index * h.chunkSize < delivery.records.length →
      ∀ n, h.Prompt n → s.Outweighs h n (.pausing ticket l delivery) 0) :
    ∃ task', Comes h t s q 0 w (w.goOn h t ticket l delivery) task' := by
  rw [goOn]
  split
  · rename_i hlt
    split
    · refine ⟨task, ?_, ht, ?_, fun _ => ⟨hasked, by simp [hsignal]⟩, hstage ▸ hmore hlt,
        by simp [hstage, Stage.fault?]⟩
      · exact passes_sleep w t h.pause
      · refine .alarm (by rw [hstage]; rfl) hsignal (.inr ⟨⟨w.clock + h.pause, t⟩, ?_, rfl⟩)
        simp [sleep]
    · refine ⟨{ task with signal := some (.finished []) }, passes_stepAside w t, ?_, .turn rfl ?_,
        fun _ => ⟨hasked, by simp⟩, hstage ▸ hmore hlt, by simp [hstage, Stage.fault?]⟩
      · simp [stepAside, ht]
      · simp [stepAside]
  · exact comes_conclude_releaseLock ht hs _ l

theorem comes_visit (ht : w.tasks[t]? = some task) (hs : s.isOver = false) {count : Nat}
    (hle : s.AtLeast h (.applying ticket l delivery count)) (uri : String) (cancelled : Bool) :
    ∃ task', Comes h t s q 0 w (w.visit h t uri ticket l delivery count cancelled) task' := by
  rw [visit]
  generalize hv :
    h.apply ⟨uri, nextChunk h delivery, delivery.index, count, cancelled⟩ w.host = r
  obtain ⟨host, commands, ending?⟩ := r
  have hobeyed := w.passes_obeyAll t host commands
  have ht' : ({ w with host := host }.obeyAll commands).tasks[t]? = some task := by
    rwa [tasks_obeyAll]
  dsimp only
  generalize { w with host := host }.obeyAll commands = v at hobeyed ht' ⊢
  suffices hc : ∃ task', Comes h t s q 0 v _ task' from hc.imp fun _ hc => hc.after hobeyed
  cases ending? with
  | none =>
      refine ⟨{ task with
          stage := .applying ticket l delivery (count + 1), cancelRequested := false
          signal := some (.finished []) },
        (passes_wait v t _).trans (passes_stepAside _ t), ?_, .turn rfl ?_, fun _ => ⟨rfl, by simp⟩,
        hle.outweighs ?_, by simp [Stage.fault?]⟩
      · simp [stepAside, ht']
      · simp [stepAside]
      · -- One who steps aside once more has not done so too often yet.
        intro n hn
        refine Stage.outweighs_revisited (Nat.lt_of_not_le fun hle' => ?_) ticket l delivery
        exact hn ⟨uri, nextChunk h delivery, delivery.index, count, cancelled⟩ w.host hle' (by rw [hv])
  | some ending =>
      have hwaits := getElem?_wait ht' (.pausing ticket l (afterChunk h delivery))
      have htaken : Passes t 0 v ((v.wait t (.pausing ticket l (afterChunk h delivery))).remember
          (.taken t ending)) :=
        (passes_wait v t _).remember _
      have hfails : ∀ f, ending.fault? = some f → .taken t f ∈
          ((v.wait t (.pausing ticket l (afterChunk h delivery))).remember
            (.taken t ending)).history := by
        intro f hf
        cases ending <;> simp_all [World.remember, Ending.fault?]
      refine Exists.imp (fun _ hc => Comes.after hc htaken) ?_
      cases ending with
      | finished =>
          refine comes_goOn (by exact hwaits) rfl rfl rfl hs fun hmore => hle.outweighs fun n _ => ?_
          exact Stage.outweighs_taken hmore ticket l count n
      | failed message =>
          exact comes_close_releaseLock (by exact hwaits) hs _ l fun f hf =>
            .inl (hfails f (by simpa using hf))
      | cancelled =>
          exact comes_close_releaseLock (by exact hwaits) hs _ l fun f hf =>
            .inl (hfails f (by simpa using hf))

theorem comes_handOn (ht : w.tasks[t]? = some task) (hs : s.isOver = false)
    (hle : s.AtLeast h (.pausing ticket l delivery)) (uri : String) :
    ∃ task', Comes h t s q 0 w (w.handOn h t uri ticket l delivery) task' := by
  have hwaits := getElem?_wait ht (.applying ticket l delivery 0)
  have hless := hle.trans fun n _ => Stage.outweighs_applying ticket l delivery n
  obtain ⟨task', hc⟩ := comes_visit (h := h) (q := q) (w := (w.wait t
    (.applying ticket l delivery 0)).remember (.handed (w.offer h t uri ticket delivery)))
    hwaits hs hless uri false
  exact ⟨task', hc.after ((passes_wait w t _).remember _)⟩

theorem isOver_of_early {n : Nat} (hs : n < s.early) : s.isOver = false := by
  cases s <;> simp_all [Stage.early, Stage.isOver]

theorem comes_withRecords (ht : w.tasks[t]? = some task) (hs : 0 < s.early) (d : Document)
    (ticket : Ticket) (l : Nat) (ending : Ending (List ρ))
    (hfault : ∀ f, ending.fault? = some f → q f) :
    ∃ task', Comes h t s q 0 w (w.withRecords h t d ticket l ending) task' := by
  have hover := isOver_of_early hs
  cases ending with
  | failed => exact comes_close_releaseLock ht hover _ l fun f hf => .inr (hfault f hf)
  | cancelled => exact comes_close_releaseLock ht hover _ l fun f hf => .inr (hfault f hf)
  | finished records =>
      rw [withRecords]
      cases w.verdict? d ticket with
      | some status => exact comes_conclude_releaseLock ht hover _ l
      | none => exact comes_handOn ht hover (.inr fun n _ => .inl hs) d.uri

/-! ### A task that calls for records -/

/-- Records at an address are pending whose computation has come to nothing. -/
def Encounters (w : World η ρ) (uri : String) (f : Ending Unit) : Prop :=
  ∃ version c ending, w.cache.pending.get? (uri, version) = some c ∧
    w.state? c = some (.ended ending) ∧ ending.fault? = some f

/-- What is pending is being computed. -/
def Backed (w : World η ρ) : Prop :=
  ∀ key c, w.cache.pending.get? key = some c → c < w.computations.length

theorem Backed.obeyAll (hb : w.Backed) (host : η) (commands : List Command) :
    ({ w with host := host }.obeyAll commands).Backed := by
  obtain ⟨es, hr⟩ := w.retains_hosted host commands
  rintro ⟨key, version⟩ c hpending
  rcases hr.begun c key version hpending with hbefore | ⟨-, x, hx, -⟩
  · exact Nat.lt_of_lt_of_le (hb _ c hbefore) hr.grows.length_le
  · exact (List.getElem?_eq_some_iff.mp hx).1

theorem encounters_obeyAll {host : η} {commands : List Command} {uri : String}
    {f : Ending Unit} (hf : ({ w with host := host }.obeyAll commands).Encounters uri f) :
    w.Encounters uri f := by
  obtain ⟨version, c, ending, hpending, hended, hfault⟩ := hf
  have hcomputations := (obeyAll_frame { w with host := host } commands).2.2
  obtain ⟨es, hr⟩ := w.retains_hosted host commands
  rw [state?, hcomputations] at hended
  rcases hr.begun c uri version hpending with hbefore | ⟨hle, x, hx, -⟩
  · exact ⟨version, c, ending, hbefore, hended, hfault⟩
  · have hlt := (List.getElem?_eq_some_iff.mp hx).1
    rw [hcomputations] at hlt
    exact absurd hlt (Nat.not_lt.mpr hle)

/-- Who looks records up begins one computation at most, and none if the records are known; who has to
wait for them waits for a computation that has not ended. -/
theorem exists_passes_lookUp (hb : w.Backed) (t : Nat) (errand : Errand) (d : Document) :
    ∃ begun ≤ 1, Passes t begun w (w.lookUp t errand d).2 ∧
      match (w.lookUp t errand d).1 with
      | .known ending => begun = 0 ∧ ∀ f, ending.fault? = some f → w.Encounters d.uri f
      | .awaited => ∃ c, (w.lookUp t errand d).2.IsCaller c t ∧
          ∀ ending, (w.lookUp t errand d).2.state? c ≠ some (.ended ending) := by
  have hlooks := w.looksUp t errand d
  generalize w.lookUp t errand d = r at hlooks ⊢
  cases hlooks with
  | held hheld =>
      refine ⟨0, Nat.zero_le 1, ?_, rfl, by simp⟩
      exact passes_of_same (fun _ _ => rfl) (fun _ => id) (fun _ => id) rfl
  | @ended c ending hheld hpending hended =>
      refine ⟨0, Nat.zero_le 1, ?_, rfl, fun f hf => ⟨_, c, ending, hpending, hended, hf⟩⟩
      exact passes_of_same (fun _ _ => rfl) (fun _ => id) (fun _ => id) rfl
  | @joined c hheld hpending hrunning =>
      have hx := List.getElem?_eq_getElem (hb _ c hpending)
      have hstate : ∀ c', (w.computations.modify c fun x =>
          { x with callers := x.callers ++ [t] })[c']?.map (·.state) = w.state? c' := by
        intro c'
        simp only [state?, List.getElem?_modify]
        cases w.computations[c']? with
        | none => rfl
        | some x => by_cases hcc : c = c' <;> simp [hcc]
      refine ⟨0, Nat.zero_le 1, ⟨fun _ _ => .inl rfl, fun _ => id, fun _ => id, ?_, ?_, ?_⟩, c, ?_, ?_⟩
      · refine List.ext_getElem? fun c' => ?_
        rw [List.getElem?_map, hstate, List.replicate_zero, List.append_nil, List.getElem?_map]
        rfl
      · rintro c' i ⟨y, hy, hi⟩
        by_cases hcc : c = c'
        · exact ⟨{ y with callers := y.callers ++ [t] }, by simp [hcc, hy], List.mem_append_left _ hi⟩
        · exact ⟨y, by simp [hcc, hy], hi⟩
      · intro c' hle hlt
        rw [List.length_modify] at hlt
        exact absurd hlt (Nat.not_lt.mpr hle)
      · exact ⟨_, by rw [List.getElem?_modify, hx]; rfl, by simp⟩
      · intro ending hended
        exact hrunning ending ((hstate c).symm.trans hended)
  | begun hheld hnone =>
      refine ⟨1, Nat.le_refl 1, ⟨fun _ _ => .inl rfl, fun turn hturn => List.mem_append_left _ hturn,
        fun _ => id, by simp, ?_, ?_⟩, w.computations.length, ?_, ?_⟩
      · rintro c' i ⟨y, hy, hi⟩
        exact ⟨y, by rw [List.getElem?_append_left (List.getElem?_eq_some_iff.mp hy).1, hy], hi⟩
      · intro c' hle hlt
        rw [List.length_append, List.length_singleton] at hlt
        obtain rfl : c' = w.computations.length := by omega
        simp
      · exact ⟨_, List.getElem?_concat_length, List.mem_singleton_self t⟩
      · intro ending hended
        simp [state?] at hended

theorem comes_withLock (hb : w.Backed) (ht : w.tasks[t]? = some task) (hs : 4 < s.early)
    (hstage : task.stage = .computing ticket l) (hsignal : task.signal = none)
    (hasked : task.cancelRequested = false) (d : Document)
    (hfault : ∀ f, w.Encounters d.uri f → q f) :
    ∃ begun task', Comes h t s q begun w (w.withLock h t d ticket l) task' := by
  have hover := isOver_of_early hs
  rw [withLock]
  cases w.verdict? d ticket with
  | some status => exact ⟨0, comes_conclude_releaseLock ht hover _ l⟩
  | none =>
      obtain ⟨begun, hbegun, hp, hfound⟩ := exists_passes_lookUp hb t .refresh d
      have htasks := (w.sameTasks_lookUp t .refresh d).tasks
      generalize w.lookUp t .refresh d = r at hp hfound htasks ⊢
      obtain ⟨_ | ending, v⟩ := r
      · obtain ⟨rfl, hmeets⟩ := hfound
        rename_i ending
        have ht' : v.tasks[t]? = some task := by rw [htasks, ht]
        obtain ⟨task', hc⟩ := comes_withRecords (h := h) (q := q) ht' (Nat.zero_lt_of_lt hs) d ticket l
          ending fun f hf => hfault f (hmeets f hf)
        exact ⟨0, task', hc.after hp⟩
      · obtain ⟨c, hcaller, hrunning⟩ := hfound
        refine ⟨begun, task, hp, by rw [htasks, ht], ?_, fun _ => ⟨hasked, by simp [hsignal]⟩,
          fun n _ => .inl ?_, ?_⟩
        · exact .records (by rw [hstage]; rfl) hsignal hcaller fun ending hended =>
            absurd hended (hrunning ending)
        · rw [hstage, Stage.early]
          omega
        · simp [hstage, Stage.fault?]

theorem comes_afterDebounce (hb : w.Backed) (ht : w.tasks[t]? = some task) (hs : 5 < s.early)
    (d : Document) (ticket : Ticket) (hfault : ∀ f, w.Encounters d.uri f → q f) :
    ∃ begun task', Comes h t s q begun w (w.afterDebounce h t d ticket) task' := by
  obtain ⟨-, l, locks, scheduler, -, -, -, hcases⟩ | ⟨-, heq⟩ :=
    w.afterDebounce_cases (h := h) t d ticket
  · have hwaits : ∀ (locks : List Lock) (stage : Stage ρ), Passes t 0 w
        ({ w with locks := locks, scheduler := scheduler }.wait t stage) := fun locks stage =>
      passes_of_same (fun i hi => by simp [Ne.symm hi]) (fun _ => id) (fun _ => id) rfl
    have hstands : ∀ (locks : List Lock) (stage : Stage ρ),
        ({ w with locks := locks, scheduler := scheduler }.wait t stage).tasks[t]? =
          some { task with stage := stage, signal := none, cancelRequested := false } :=
      fun locks stage => getElem?_wait (by exact ht) stage
    obtain ⟨lock, -, -, heq⟩ | ⟨-, heq⟩ := hcases <;> rw [heq]
    · obtain ⟨begun, task', hc⟩ := comes_withLock (h := h) (q := q) (s := s) (by exact hb)
        (hstands (locks.modify l (·.take)) (.computing ticket l)) (Nat.lt_of_succ_lt hs) rfl rfl rfl d
        hfault
      refine ⟨begun, task', hc.after (hwaits _ _)⟩
    · refine ⟨0, _, hwaits _ _, hstands _ _, .lock rfl rfl, fun _ => ⟨rfl, by simp⟩,
        fun n _ => .inl hs, ?_⟩
      simp [Stage.fault?]
  · exact ⟨0, heq ▸ comes_conclude ht (isOver_of_early hs) _⟩

theorem comes_beginRefresh (hb : w.Backed) (ht : w.tasks[t]? = some task) (hs : 6 < s.early)
    (k : Nat) (d : Document) (hfault : ∀ f, w.Encounters d.uri f → q f) :
    ∃ begun task', Comes h t s q begun w (w.beginRefresh h t k d) task' := by
  rw [beginRefresh]
  split
  · have hdrawn : Passes t 0 w (({ w with scheduler := w.scheduler.draw d.uri }.wait t
        (.debouncing ⟨d.version, w.scheduler.next⟩)).remember
          (.drawn t k d.uri ⟨d.version, w.scheduler.next⟩)) :=
      passes_of_same (fun i hi => by simp [World.remember, Ne.symm hi]) (fun _ => id)
        (fun _ => id) rfl
    have hstands := getElem?_wait (w := { w with scheduler := w.scheduler.draw d.uri }) ht
      (.debouncing ⟨d.version, w.scheduler.next⟩)
    dsimp only
    split
    · refine ⟨0, _, ?_, hstands, .alarm rfl rfl (.inr ⟨⟨w.clock + h.debounce, t⟩, ?_, rfl⟩),
        fun _ => ⟨rfl, by simp⟩, fun n _ => .inl hs, by simp [Stage.fault?]⟩
      · exact hdrawn.trans (passes_sleep _ t h.debounce)
      · simp [sleep, World.remember, wait, modifyTask]
    · obtain ⟨begun, task', hc⟩ := comes_afterDebounce (h := h) (q := q) (s := s) (w :=
        ({ w with scheduler := w.scheduler.draw d.uri }.wait t
        (.debouncing ⟨d.version, w.scheduler.next⟩)).remember
          (.drawn t k d.uri ⟨d.version, w.scheduler.next⟩)) hb hstands (Nat.lt_of_succ_lt hs) d
        ⟨d.version, w.scheduler.next⟩ hfault
      exact ⟨begun, task', hc.after hdrawn⟩
  · exact ⟨0, comes_conclude ht (isOver_of_early hs) _⟩

theorem comes_beginDetection (hb : w.Backed) (ht : w.tasks[t]? = some task) (hs : 6 < s.early)
    (hd : w.documents[task.document]? = some d)
    (hfault : ∀ f, w.Encounters d.uri f → q f) :
    ∃ begun task', Comes h t s q begun w (w.beginDetection h t task.document d) task' := by
  have hover := isOver_of_early hs
  rw [beginDetection]
  cases h.prepare d w.host with
  | none => exact ⟨0, comes_answer ht hover _ (by simp)⟩
  | some r =>
      obtain ⟨host, commands⟩ := r
      dsimp only
      have hobeyed := w.passes_obeyAll t host commands
      have hb' := hb.obeyAll host commands
      have hgrows := w.grows_hosted host commands
      have hmeets : ∀ uri f, ({ w with host := host }.obeyAll commands).Encounters uri f →
          w.Encounters uri f := fun uri f => encounters_obeyAll
      have ht' : ({ w with host := host }.obeyAll commands).tasks[t]? = some task := by
        rwa [tasks_obeyAll]
      obtain ⟨d', hd', hbecomes⟩ := hgrows.documents _ d hd
      generalize { w with host := host }.obeyAll commands = v at hobeyed hb' hmeets ht' hd' ⊢
      rw [hd', Option.getD_some]
      have hwaits : Passes t 0 w ((v.wait t .detecting).remember (.asked t task.document d'.uri)) := by
        simpa using hobeyed.trans ((passes_wait v t .detecting).remember _)
      have hstands := getElem?_wait ht' .detecting
      obtain ⟨begun, hbegun, hp, hfound⟩ := exists_passes_lookUp
        (w := (v.wait t .detecting).remember (.asked t task.document d'.uri)) hb' t .detection d'
      have htasks := (sameTasks_lookUp
        ((v.wait t .detecting).remember (.asked t task.document d'.uri)) t .detection d').tasks
      generalize ((v.wait t .detecting).remember (.asked t task.document d'.uri)).lookUp t .detection d'
        = r at hp hfound htasks ⊢
      obtain ⟨_ | ending, v'⟩ := r
      · obtain ⟨rfl, hmeets'⟩ := hfound
        rename_i ending
        obtain ⟨task', hc⟩ := comes_answer (h := h) (w := v') (q := q)
          (by rw [htasks]; exact hstands) hover ending fun f hf =>
            hfault f (hbecomes.uri ▸ hmeets _ f (hmeets' f hf))
        exact ⟨0, task', hc.after (hwaits.trans hp)⟩
      · obtain ⟨c, hcaller, hrunning⟩ := hfound
        refine ⟨begun, _, by simpa using hwaits.trans hp, by rw [htasks]; exact hstands, ?_,
          fun _ => ⟨rfl, by simp⟩, fun n _ => .inl ?_, by simp [Stage.fault?]⟩
        · exact .records rfl rfl hcaller fun ending hended => absurd hended (hrunning ending)
        · rw [Stage.early]
          omega

/-! ### The turn of a task -/

theorem comes_proceed (hb : w.Backed) (ht : w.tasks[t]? = some task) {d : Document}
    (hd : w.documents[task.document]? = some d) (hover : task.stage.isOver = false) (errand : Errand)
    (ending : Ending (List ρ)) (hmeets : ∀ f, w.Encounters d.uri f → q f)
    (htold : ∀ f, task.stage.awaits = true → ending.fault? = some f → q f) :
    ∃ begun task', Comes h t task.stage q begun w
      (w.proceed h t task.document d errand task.stage ending) task' := by
  cases hstage : task.stage with
  | starting =>
      cases errand with
      | refresh => exact comes_beginRefresh hb ht (by simp [Stage.early]) _ d hmeets
      | detection => exact comes_beginDetection hb ht (by simp [Stage.early]) hd hmeets
  | debouncing ticket => exact comes_afterDebounce hb ht (by simp [Stage.early]) d ticket hmeets
  | queueing ticket l =>
      have hstands := getElem?_wait
        (w := { w with locks := w.locks.modify l fun lock => (lock.leave t).take }) ht
        (.computing ticket l)
      obtain ⟨begun, task', hc⟩ := comes_withLock (h := h) (q := q)
        (s := (.queueing ticket l : Stage ρ)) (w := { w with
          locks := w.locks.modify l fun lock => (lock.leave t).take }.wait t (.computing ticket l))
        hb hstands (by simp [Stage.early]) rfl rfl rfl d hmeets
      refine ⟨begun, task', hc.after (passes_of_same (fun i hi => ?_) (fun _ => id) (fun _ => id) rfl)⟩
      simp [Ne.symm hi]
  | computing ticket l =>
      refine ⟨0, comes_withRecords ht (by simp [Stage.early]) d ticket l ending fun f hf => ?_⟩
      exact htold f (by rw [hstage]; rfl) hf
  | applying ticket l delivery count => exact ⟨0, comes_visit ht rfl (.inl rfl) d.uri false⟩
  | pausing ticket l delivery =>
      rw [proceed]
      cases w.verdict? d ticket with
      | some status => exact ⟨0, comes_conclude_releaseLock ht rfl _ l⟩
      | none => exact ⟨0, comes_handOn ht rfl (.inl rfl) d.uri⟩
  | detecting => exact ⟨0, comes_answer ht rfl ending fun f hf => htold f (by rw [hstage]; rfl) hf⟩
  | ended | answered => simp [hstage, Stage.isOver] at hover

theorem comes_stop (ht : w.tasks[t]? = some task) (hover : task.stage.isOver = false) (d : Document)
    (errand : Errand) (hq : q .cancelled) :
    ∃ task', Comes h t task.stage q 0 w (w.stop h t d errand task.stage) task' := by
  have hcancelled : ∀ f, (Ending.cancelled : Ending (Outcome ρ)).fault? = some f → q f := by
    intro f hf
    exact Option.some.inj hf ▸ hq
  cases hstage : task.stage with
  | starting =>
      cases errand with
      | refresh => exact comes_close ht rfl _ fun f hf => .inr (hcancelled f hf)
      | detection => exact comes_answer ht rfl _ hcancelled
  | debouncing ticket => exact comes_close ht rfl _ fun f hf => .inr (hcancelled f hf)
  | queueing ticket l =>
      have hstands := (w.sameBooks_leaveQueue t l).standing? t
      rw [standing?_of_getElem? ht] at hstands
      obtain ⟨left, hleft, -⟩ := standing?_eq_some.mp hstands
      obtain ⟨task', hc⟩ := comes_close (h := h) (q := q) (s := (.queueing ticket l : Stage ρ)) hleft
        rfl .cancelled fun f hf => .inr (hcancelled f hf)
      exact ⟨task', hc.after (passes_leaveQueue w t l)⟩
  | computing ticket l => exact comes_close_releaseLock ht rfl _ l fun f hf => .inr (hcancelled f hf)
  | applying ticket l delivery count => exact comes_visit ht rfl (.inl rfl) d.uri true
  | pausing ticket l delivery =>
      exact comes_close_releaseLock ht rfl _ l fun f hf => .inr (hcancelled f hf)
  | detecting => exact comes_answer ht rfl _ hcancelled
  | ended | answered => simp [hstage, Stage.isOver] at hover

/-- What a task may come to nothing with in its turn: it has been asked to end, or its call for records
has come to nothing. -/
def Blames (w : World η ρ) (task : Task ρ) (told : Ending (List ρ)) (f : Ending Unit) : Prop :=
  f = .cancelled ∧ (task.cancelRequested = true ∨ told = .cancelled) ∨
    (∃ d, w.documents[task.document]? = some d ∧ w.Encounters d.uri f) ∨
    task.stage.awaits = true ∧ told.fault? = some f

theorem comes_resume (hb : w.Backed) (ht : w.tasks[t]? = some task) {d : Document}
    (hd : w.documents[task.document]? = some d) (hover : task.stage.isOver = false)
    {told : Ending (List ρ)} (hsignal : task.signal = some told) :
    ∃ begun task', Comes h t task.stage (w.Blames task told) begun
      { w with timers := w.timers.filter (·.task ≠ t) } (w.resume h t) task' := by
  have ht' : { w with timers := w.timers.filter (·.task ≠ t) }.tasks[t]? = some task := ht
  rw [resume_of_told ht hsignal hd]
  dsimp only
  split
  · rename_i hasked
    refine ⟨0, comes_stop ht' hover d task.errand (.inl ⟨rfl, ?_⟩)⟩
    simpa using hasked
  · refine comes_proceed (by exact hb) ht' (by exact hd) hover task.errand told
      (fun f hf => .inr (.inl ⟨d, hd, hf⟩)) fun f hawaits hf => .inr (.inr ⟨hawaits, hf⟩)

end World

end Swatch

import Swatch.Proofs.Refresh.Currency

/-!
No two tasks have one lock. A task that has waited for a lock goes on only if it was woken for it,
and only the first who waits is woken, while nobody has the lock. Nor do two tasks deliver chunks at
one address: a lock is forgotten while it is free at most, and whoever waits for a lock that was
forgotten has a number that is not the last one any more.
-/

namespace Swatch

variable {η ρ : Type}

/-- The ticket of a task that has a lock or waits for one, and the lock. -/
def Stage.claim? : Stage ρ → Option (Ticket × Nat)
  | .queueing ticket l | .computing ticket l | .applying ticket l _ _ | .pausing ticket l _ =>
      some (ticket, l)
  | _ => none

/-- How far a task has come with handing on its records, once it has begun to. -/
def Stage.delivery? : Stage ρ → Option (Delivery ρ)
  | .applying _ _ delivery _ | .pausing _ _ delivery => some delivery
  | _ => none

/-- Whether a task at a stage may wait for a computation, or is past that. -/
def Stage.isLate : Stage ρ → Bool
  | .starting | .debouncing _ | .queueing _ _ => false
  | _ => true

namespace World

/-- A task is late: it has all the locks that it ever waits for. -/
def Late (w : World η ρ) (t : Nat) : Prop :=
  ∃ k s, w.standing? t = some (k, s) ∧ s.isLate = true

def Roused (w : World η ρ) (t l : Nat) : Prop :=
  ∃ task ticket ending, w.tasks[t]? = some task ∧ task.stage = .queueing ticket l ∧
    task.signal = some ending ∧ ending ≠ .cancelled ∧ task.cancelRequested = false

def Holds (w : World η ρ) (t l : Nat) : Prop :=
  ∃ k s, w.standing? t = some (k, s) ∧ s.held? = some l

/-- What holds of locks and of the tasks that have them or wait for them. -/
structure Locked (w : World η ρ) : Prop where
  told : ∀ c t, .tell c t ∈ w.turns → w.Late t
  callers : ∀ x ∈ w.computations, ∀ t ∈ x.callers, w.Late t
  sound : ∀ lock ∈ w.locks, lock.Sound
  waiting : ∀ l lock, w.locks[l]? = some lock → ∀ y ∈ lock.waiters,
    ∃ k ticket, w.standing? y.1 = some (k, .queueing ticket l)
  woken : ∀ t l, w.Roused t l → ∃ lock, w.locks[l]? = some lock ∧ (t, .woken) ∈ lock.waiters
  held : ∀ t l, w.Holds t l → ∃ lock, w.locks[l]? = some lock ∧ lock.held = true
  alone : ∀ t t' l, w.Holds t l → w.Holds t' l → t = t'

theorem locked_initial (host : η) : (initial host : World η ρ).Locked := by
  refine ⟨?_, ?_, ?_, ?_, ?_, ?_, ?_⟩ <;> simp [initial, Roused, Holds, standing?]

variable {h : Host η ρ} {w w' : World η ρ}

theorem late_congr {t : Nat} (hstanding : w'.standing? t = w.standing? t) :
    w'.Late t ↔ w.Late t := by
  rw [Late, Late, hstanding]

theorem holds_congr {t l : Nat} (hstanding : w'.standing? t = w.standing? t) :
    w'.Holds t l ↔ w.Holds t l := by
  rw [Holds, Holds, hstanding]

theorem Locked.of_same (hl : w.Locked) (hstanding : ∀ i, w'.standing? i = w.standing? i)
    (hroused : ∀ i l, w'.Roused i l → w.Roused i l) (hlocks : w'.locks = w.locks)
    (htold : ∀ c t, .tell c t ∈ w'.turns → w.Late t)
    (hcallers : ∀ x ∈ w'.computations, ∀ t ∈ x.callers, w.Late t) : w'.Locked := by
  have hlate : ∀ t, w.Late t → w'.Late t := fun t => (late_congr (hstanding t)).mpr
  have hholds : ∀ t l, w'.Holds t l → w.Holds t l := fun t l => (holds_congr (hstanding t)).mp
  refine ⟨fun c t ht => hlate t (htold c t ht), fun x hx t ht => hlate t (hcallers x hx t ht),
    by rw [hlocks]; exact hl.sound, fun l lock hlock y hy => ?_, fun t l ht => ?_,
    fun t l hh => ?_, fun t t' l hh hh' => hl.alone t t' l (hholds t l hh) (hholds t' l hh')⟩
  · rw [hstanding]
    exact hl.waiting l lock (hlocks ▸ hlock) y hy
  · rw [hlocks]
    exact hl.woken t l (hroused t l ht)
  · rw [hlocks]
    exact hl.held t l (hholds t l hh)

theorem roused_of_tasks (htasks : w'.tasks = w.tasks) (i l : Nat) (hi : w'.Roused i l) :
    w.Roused i l := by
  simpa only [Roused, htasks] using hi

theorem Locked.of_tasks (hl : w.Locked) (htasks : w'.tasks = w.tasks) (hlocks : w'.locks = w.locks)
    (htold : ∀ c t, .tell c t ∈ w'.turns → w.Late t)
    (hcallers : ∀ x ∈ w'.computations, ∀ t ∈ x.callers, w.Late t) : w'.Locked :=
  hl.of_same (standing?_of_tasks htasks) (roused_of_tasks htasks) hlocks htold hcallers

theorem Locked.held_or_forall_not_holds (hl : w.Locked) {l : Nat} {lock : Lock}
    (hlock : w.locks[l]? = some lock) : lock.held = true ∨ ∀ i, ¬w.Holds i l := by
  by_cases hsome : ∃ i, w.Holds i l
  · obtain ⟨i, hi⟩ := hsome
    obtain ⟨old, hold, hheld⟩ := hl.held i l hi
    obtain rfl : old = lock := Option.some.inj (hold.symm.trans hlock)
    exact .inl hheld
  · exact .inr fun i hi => hsome ⟨i, hi⟩

theorem Locked.signal (hl : w.Locked) {t : Nat} {ending : Ending (List ρ)}
    (hwoken : ∀ k ticket l, w.standing? t = some (k, .queueing ticket l) → ending ≠ .cancelled →
      ∃ lock, w.locks[l]? = some lock ∧ (t, .woken) ∈ lock.waiters) :
    (w.signal t ending).Locked := by
  have hstanding := fun i => w.standing?_signal t i ending
  have hlate : ∀ i, w.Late i → (w.signal t ending).Late i :=
    fun i => (late_congr (hstanding i)).mpr
  have hholds : ∀ i l, (w.signal t ending).Holds i l → w.Holds i l :=
    fun i l => (holds_congr (hstanding i)).mp
  refine ⟨fun c i hi => hlate i (hl.told c i (by simpa using hi)),
    fun x hx i hi => hlate i (hl.callers x hx i hi), hl.sound, fun l lock hlock y hy => ?_,
    ?_, fun i l hh => hl.held i l (hholds i l hh),
    fun i i' l hh hh' => hl.alone i i' l (hholds i l hh) (hholds i' l hh')⟩
  · rw [hstanding]
    exact hl.waiting l lock hlock y hy
  · rintro i l ⟨task, ticket, ending', hi, hstage, hsignal, hending, hasked⟩
    by_cases hit : i = t
    · subst hit
      have hqueued : w.standing? i = some (task.document, .queueing ticket l) := by
        rw [← hstanding, standing?_of_getElem? hi, hstage]
      refine hwoken _ _ _ hqueued fun hcancelled => hending ?_
      simp only [tasks_signal, List.getElem?_modify] at hi
      grind
    · refine hl.woken i l ⟨task, ticket, ending', ?_, hstage, hsignal, hending, hasked⟩
      simp only [tasks_signal, List.getElem?_modify] at hi
      grind

/-- A task may go to another stage if no lock counts it among those who wait, and if it is the only
one who has the lock of that stage. -/
theorem Locked.wait (hl : w.Locked) {t k : Nat} {s s' : Stage ρ}
    (ht : w.standing? t = some (k, s)) (hlate : s.isLate = true → s'.isLate = true)
    (hwaiting : ∀ l lock, w.locks[l]? = some lock → ∀ y ∈ lock.waiters, y.1 = t →
      ∃ ticket, s' = .queueing ticket l)
    (hheld : ∀ l, s'.held? = some l → (∃ lock, w.locks[l]? = some lock ∧ lock.held = true) ∧
      ∀ i, i ≠ t → ¬w.Holds i l) : (w.wait t s').Locked := by
  have hstanding : ∀ i, (w.wait t s').standing? i =
      if i = t then some (k, s') else w.standing? i := fun i => by
    rw [standing?_wait, ht]
    rfl
  have hlate' : ∀ i, w.Late i → (w.wait t s').Late i := by
    rintro i ⟨k', s'', hi, hs⟩
    by_cases hit : i = t
    · subst hit
      obtain ⟨rfl, rfl⟩ := Prod.mk.inj (Option.some.inj (ht.symm.trans hi))
      exact ⟨k, s', by simp [hstanding], hlate hs⟩
    · exact ⟨k', s'', by simp [hstanding, hit, hi], hs⟩
  have hholds : ∀ i l, (w.wait t s').Holds i l → (i = t ∧ s'.held? = some l) ∨
      (i ≠ t ∧ w.Holds i l) := by
    rintro i l ⟨k', s'', hi, hs⟩
    rw [hstanding] at hi
    split at hi
    · obtain ⟨rfl, rfl⟩ := Prod.mk.inj (Option.some.inj hi)
      exact .inl ⟨‹_›, hs⟩
    · exact .inr ⟨‹_›, k', s'', hi, hs⟩
  refine ⟨fun c i hi => hlate' i (hl.told c i (by simpa using hi)),
    fun x hx i hi => hlate' i (hl.callers x hx i hi), hl.sound, fun l lock hlock y hy => ?_,
    ?_, fun i l hh => ?_, fun i i' l hh hh' => ?_⟩
  · rw [hstanding]
    split
    · obtain ⟨ticket, rfl⟩ := hwaiting l lock hlock y hy ‹_›
      exact ⟨k, ticket, rfl⟩
    · exact hl.waiting l lock hlock y hy
  · rintro i l ⟨task, ticket, ending, hi, hstage, hsignal, hending, hasked⟩
    have hit : i ≠ t := fun hit => by
      subst hit
      simp only [tasks_wait, List.getElem?_modify] at hi
      grind
    refine hl.woken i l ⟨task, ticket, ending, ?_, hstage, hsignal, hending, hasked⟩
    simp only [tasks_wait, List.getElem?_modify] at hi
    grind
  · rcases hholds i l hh with ⟨-, hs⟩ | ⟨-, hh⟩
    · exact (hheld l hs).1
    · exact hl.held i l hh
  · rcases hholds i l hh with ⟨hit, hs⟩ | ⟨hit, hi⟩ <;>
      rcases hholds i' l hh' with ⟨hit', hs'⟩ | ⟨hit', hi'⟩
    · exact hit.trans hit'.symm
    · exact absurd hi' ((hheld l hs).2 i' hit')
    · exact absurd hi ((hheld l hs').2 i hit)
    · exact hl.alone i i' l hi hi'

/-- A lock may be changed as long as nobody is counted among those who wait that does not, nobody
who was woken and goes on is left out, and the lock is not taken from the one who has it. -/
theorem Locked.modifyLock (hl : w.Locked) {l : Nat} {f : Lock → Lock}
    (hf : ∀ lock, w.locks[l]? = some lock → (f lock).Sound ∧
      (∀ y ∈ (f lock).waiters, ∃ k ticket, w.standing? y.1 = some (k, .queueing ticket l)) ∧
      (∀ i, w.Roused i l → (i, .woken) ∈ lock.waiters → (i, .woken) ∈ (f lock).waiters) ∧
      ((f lock).held = true ∨ ∀ i, ¬w.Holds i l)) :
    { w with locks := w.locks.modify l f }.Locked := by
  refine ⟨hl.told, hl.callers, fun lock hlock => ?_, fun l' lock hlock y hy => ?_,
    fun i l' hroused => ?_, fun i l' hh => ?_, hl.alone⟩
  · obtain ⟨l', hl'⟩ := List.getElem?_of_mem hlock
    rw [List.getElem?_modify] at hl'
    cases hold : w.locks[l']? with
    | none => simp [hold] at hl'
    | some old =>
        by_cases hll : l = l'
        · subst hll
          obtain rfl : f old = lock := by simpa [hold] using hl'
          exact (hf old hold).1
        · obtain rfl : old = lock := by simpa [hold, hll] using hl'
          exact hl.sound old (List.mem_of_getElem? hold)
  · simp only [List.getElem?_modify] at hlock
    cases hold : w.locks[l']? with
    | none => simp [hold] at hlock
    | some old =>
        by_cases hll : l = l'
        · subst hll
          obtain rfl : f old = lock := by simpa [hold] using hlock
          exact (hf old hold).2.1 y hy
        · obtain rfl : old = lock := by simpa [hold, hll] using hlock
          exact hl.waiting l' old hold y hy
  · obtain ⟨old, hold, hwoken⟩ := hl.woken i l' hroused
    by_cases hll : l = l'
    · subst hll
      exact ⟨f old, by simp [hold], (hf old hold).2.2.1 i hroused hwoken⟩
    · exact ⟨old, by simp [hold, hll], hwoken⟩
  · obtain ⟨old, hold, hheld⟩ := hl.held i l' hh
    by_cases hll : l = l'
    · subst hll
      exact ⟨f old, by simp [hold], (hf old hold).2.2.2.resolve_right fun hnone => hnone i hh⟩
    · exact ⟨old, by simp [hold, hll], hheld⟩

theorem releaseLock_eq (w : World η ρ) (l : Nat) :
    w.releaseLock l =
      match (w.locks[l]?).bind (·.release.2) with
      | some t => { w with locks := w.locks.modify l (·.release.1) }.signal t (.finished [])
      | none => { w with locks := w.locks.modify l (·.release.1) } := by
  simp only [World.releaseLock]
  cases hlock : w.locks[l]? with
  | none =>
      have hlength : w.locks.length ≤ l := List.getElem?_eq_none_iff.mp hlock
      simp [List.modify_eq_set, List.set_eq_of_length_le hlength]
  | some lock =>
      have hmodify : w.locks.modify l (·.release.1) = w.locks.set l lock.release.1 := by
        simp [List.modify_eq_set, hlock]
      cases hr : lock.release.2 <;> simp [hmodify, hr]

theorem Locked.releaseLock (hl : w.Locked) {l : Nat} (hnone : ∀ i, ¬w.Holds i l) :
    (w.releaseLock l).Locked := by
  have hwaiting : ∀ lock, w.locks[l]? = some lock → ∀ y ∈ lock.release.1.waiters,
      ∃ k ticket, w.standing? y.1 = some (k, .queueing ticket l) := fun lock hlock y hy => by
    obtain ⟨x, hx⟩ := Lock.exists_of_mem_release hy
    exact hl.waiting l lock hlock (y.1, x) hx
  have hmodify : { w with locks := w.locks.modify l (·.release.1) }.Locked :=
    hl.modifyLock fun lock hlock => ⟨(hl.sound lock (List.mem_of_getElem? hlock)).release,
      hwaiting lock hlock, fun i _ hwoken => Lock.woken_mem_release hwoken, .inr hnone⟩
  rw [releaseLock_eq]
  split
  · rename_i t ht
    obtain ⟨lock, hlock, hr⟩ := Option.bind_eq_some_iff.mp ht
    refine hmodify.signal fun k ticket l' hqueued _ => ?_
    -- The one who is woken waits for this lock and no other.
    have hwoken := Lock.woken_of_release hr
    obtain ⟨k', ticket', hqueued'⟩ := hwaiting lock hlock _ hwoken
    have hstage := hqueued'.symm.trans hqueued
    simp only [Option.some.injEq, Prod.mk.injEq, Stage.queueing.injEq] at hstage
    obtain ⟨-, -, rfl⟩ := hstage
    exact ⟨lock.release.1, by simp [hlock], hwoken⟩
  · exact hmodify

theorem Locked.leaveQueue (hl : w.Locked) {t l : Nat} (hcalm : ¬w.Roused t l) :
    (w.leaveQueue t l).Locked := by
  have hmodify : { w with locks := w.locks.modify l (·.leave t) }.Locked := by
    refine hl.modifyLock fun lock hlock =>
      ⟨(hl.sound lock (List.mem_of_getElem? hlock)).leave t,
        fun y hy => hl.waiting l lock hlock y (List.mem_filter.mp hy).1,
        fun i hi hwoken => List.mem_filter.mpr ⟨hwoken, ?_⟩, ?_⟩
    · have hit : i ≠ t := fun hit => hcalm (hit ▸ hi)
      simpa using hit
    · exact (hl.held_or_forall_not_holds hlock).imp_left id
  obtain ⟨lock, hlock, ⟨-, heq⟩ | ⟨hheld, heq⟩⟩ | ⟨-, heq⟩ := w.leaveQueue_cases t l <;> rw [heq]
  · exact hmodify
  · refine hmodify.releaseLock ((hl.held_or_forall_not_holds hlock).resolve_left ?_)
    simpa [Lock.leave] using hheld
  · exact hl

theorem exists_of_mem_releaseLock {l l' : Nat} {lock : Lock} {y : Nat × Lock.Waiter}
    (hlock : (w.releaseLock l).locks[l']? = some lock) (hy : y ∈ lock.waiters) :
    ∃ old x, w.locks[l']? = some old ∧ (y.1, x) ∈ old.waiters := by
  have hlocks : (w.releaseLock l).locks = w.locks.modify l (·.release.1) := by
    rw [releaseLock_eq]
    split <;> rfl
  rw [hlocks, List.getElem?_modify] at hlock
  cases hold : w.locks[l']? with
  | none => simp [hold] at hlock
  | some old =>
      by_cases hll : l = l'
      · obtain rfl : old.release.1 = lock := by simpa [hold, hll] using hlock
        obtain ⟨x, hx⟩ := Lock.exists_of_mem_release hy
        exact ⟨old, x, rfl, hx⟩
      · obtain rfl : old = lock := by simpa [hold, hll] using hlock
        exact ⟨old, y.2, rfl, hy⟩

theorem Locked.eq_of_mem_waiters (hl : w.Locked) {t k l l' : Nat} {ticket : Ticket} {lock : Lock}
    (ht : w.standing? t = some (k, .queueing ticket l)) (hlock : w.locks[l']? = some lock)
    {y : Nat × Lock.Waiter} (hy : y ∈ lock.waiters) (hyt : y.1 = t) : l = l' := by
  obtain ⟨k', ticket', hqueued⟩ := hl.waiting l' lock hlock y hy
  have hstage := ht.symm.trans (hyt ▸ hqueued)
  simp only [Option.some.injEq, Prod.mk.injEq, Stage.queueing.injEq] at hstage
  exact hstage.2.2

theorem Locked.ne_of_mem_modify (hl : w.Locked) {t k l l' : Nat} {ticket : Ticket} {f : Lock → Lock}
    {lock : Lock} (ht : w.standing? t = some (k, .queueing ticket l))
    (hf : ∀ old, ∀ y ∈ (f old).waiters, y.1 ≠ t)
    (hlock : (w.locks.modify l f)[l']? = some lock) : ∀ y ∈ lock.waiters, y.1 ≠ t := by
  intro y hy
  cases hwas : w.locks[l']? with
  | none => simp [List.getElem?_modify, hwas] at hlock
  | some was =>
      by_cases hll : l = l'
      · obtain rfl : f was = lock := by simpa [List.getElem?_modify, hwas, hll] using hlock
        exact hf was y hy
      · obtain rfl : was = lock := by simpa [List.getElem?_modify, hwas, hll] using hlock
        exact fun hyt => hll (hl.eq_of_mem_waiters ht hwas hy hyt)

theorem Locked.ne_of_mem_leaveQueue (hl : w.Locked) {t k l l' : Nat} {ticket : Ticket}
    {lock : Lock} (ht : w.standing? t = some (k, .queueing ticket l))
    (hlock : (w.leaveQueue t l).locks[l']? = some lock) : ∀ y ∈ lock.waiters, y.1 ≠ t := by
  have hleft := fun old (hold : (w.locks.modify l (·.leave t))[l']? = some old) =>
    hl.ne_of_mem_modify ht (fun was => was.ne_of_mem_leave) hold
  obtain ⟨was, -, ⟨-, heq⟩ | ⟨-, heq⟩⟩ | ⟨hnone, heq⟩ := w.leaveQueue_cases t l <;> rw [heq] at hlock
  · exact hleft lock hlock
  · intro y hy
    obtain ⟨old, x, hold, hx⟩ := exists_of_mem_releaseLock hlock hy
    exact hleft old hold (y.1, x) hx
  · refine hleft lock ?_
    rw [List.modify_eq_set, List.set_eq_of_length_le (List.getElem?_eq_none_iff.mp hnone), hlock]

theorem Locked.cancelTask (hl : w.Locked) (t : Nat) : (w.cancelTask t).2.Locked := by
  obtain ⟨heq, -⟩ | ⟨task, ht, -, ⟨-, heq⟩ | ⟨hsignal, ⟨ticket, l, -, heq⟩ | ⟨-, heq⟩⟩⟩ :=
    w.cancelTask_cases t
  · rwa [heq]
  · rw [heq]
    refine hl.of_same ?_ ?_ rfl hl.told hl.callers
    · intro i
      simp only [standing?, tasks_modifyTask, List.getElem?_modify]
      grind
    · rintro i l ⟨task', ticket, ending, hi, hq, hs, hne, hc⟩
      have hit : i ≠ t := fun hit => by
        subst hit
        simp only [tasks_modifyTask, List.getElem?_modify] at hi
        grind
      refine ⟨task', ticket, ending, ?_, hq, hs, hne, hc⟩
      simpa [hit.symm] using hi
  · have hcalm : ¬w.Roused t l := by
      rintro ⟨task', ticket', ending, hi, hq, hs, hne, hc⟩
      obtain rfl : task = task' := Option.some.inj (ht.symm.trans hi)
      simp [hs] at hsignal
    have hmodify : { w with locks := w.locks.modify l (·.cancel t) }.Locked := by
      refine hl.modifyLock fun lock hlock =>
        ⟨(hl.sound lock (List.mem_of_getElem? hlock)).cancel t, fun y hy => ?_,
          fun i hi hwoken => List.mem_map.mpr ⟨_, hwoken, ?_⟩, ?_⟩
      · obtain ⟨x, hx, rfl⟩ := List.mem_map.mp hy
        obtain ⟨k, ticket', hqueued⟩ := hl.waiting l lock hlock x hx
        refine ⟨k, ticket', ?_⟩
        split <;> exact hqueued
      · have hit : i ≠ t := fun hit => hcalm (hit ▸ hi)
        simp [hit]
      · exact (hl.held_or_forall_not_holds hlock).imp_left id
    rw [heq]
    exact hmodify.signal fun _ _ _ _ hne => absurd rfl hne
  · rw [heq]
    exact hl.signal fun _ _ _ _ hne => absurd rfl hne

theorem Locked.tellTask (hl : w.Locked) {c t : Nat} (hturn : .tell c t ∈ w.turns) :
    (w.tellTask c t).Locked := by
  obtain ⟨ending, -, -, -, -, -, heq⟩ | ⟨heq, -⟩ := w.tellTask_cases c t
  · rw [heq]
    refine hl.signal fun k ticket l hqueued _ => ?_
    obtain ⟨k', s, hlate, hs⟩ := hl.told c t hturn
    obtain ⟨-, rfl⟩ := Prod.mk.inj (Option.some.inj (hqueued.symm.trans hlate))
    simp [Stage.isLate] at hs
  · rwa [heq]

theorem Locked.start (hl : w.Locked) (errand : Errand) (k : Nat) : (w.start errand k).Locked := by
  have hstanding := w.standing?_start errand k
  have hkeep : ∀ i x, w.standing? i = some x → (w.start errand k).standing? i = some x := by
    intro i x hi
    rw [hstanding, if_neg (fun hlast => by simp [hlast, standing?_length] at hi), hi]
  have hlate : ∀ i, w.Late i → (w.start errand k).Late i := by
    rintro i ⟨k', s, hi, hs⟩
    exact ⟨k', s, hkeep i _ hi, hs⟩
  have hholds : ∀ i l, (w.start errand k).Holds i l → w.Holds i l := by
    rintro i l ⟨k', s, hi, hs⟩
    rw [hstanding] at hi
    split at hi
    · obtain ⟨rfl, rfl⟩ := Prod.mk.inj (Option.some.inj hi)
      simp [Stage.held?] at hs
    · exact ⟨k', s, hi, hs⟩
  refine ⟨fun c i hi => hlate i (hl.told c i (by simpa [World.start] using hi)),
    fun x hx i hi => hlate i (hl.callers x hx i hi), hl.sound, fun l lock hlock y hy => ?_,
    ?_, fun i l hh => hl.held i l (hholds i l hh),
    fun i i' l hh hh' => hl.alone i i' l (hholds i l hh) (hholds i' l hh')⟩
  · obtain ⟨k', ticket, hqueued⟩ := hl.waiting l lock hlock y hy
    exact ⟨k', ticket, hkeep _ _ hqueued⟩
  · rintro i l ⟨task, ticket, ending, hi, hstage, hrest⟩
    refine hl.woken i l ⟨task, ticket, ending, ?_, hstage, hrest⟩
    simp only [World.start, List.getElem?_append] at hi
    grind

theorem mem_modify {α : Type} {xs : List α} {i : Nat} {f : α → α} {y : α}
    (hy : y ∈ xs.modify i f) : y ∈ xs ∨ ∃ x ∈ xs, y = f x := by
  obtain ⟨j, hj⟩ := List.getElem?_of_mem hy
  rw [List.getElem?_modify] at hj
  obtain ⟨x, hx, rfl⟩ := Option.map_eq_some_iff.mp hj
  split
  · exact .inr ⟨x, List.mem_of_getElem? hx, rfl⟩
  · exact .inl (List.mem_of_getElem? hx)

theorem Locked.lookUp (hl : w.Locked) {t : Nat} (ht : w.Late t) (errand : Errand) (d : Document) :
    (w.lookUp t errand d).2.Locked := by
  have hsame := w.sameTasks_lookUp t errand d
  obtain ⟨cache, -, ⟨-, heq⟩ | ⟨-, c, -, heq⟩ | ⟨-, heq⟩⟩ := w.lookUp_cases t errand d <;>
    rw [heq] at hsame ⊢
  · exact hl.of_tasks hsame.tasks hsame.locks hl.told hl.callers
  · refine hl.of_tasks hsame.tasks hsame.locks hl.told fun x hx i hi => ?_
    rcases mem_modify hx with hx | ⟨y, hy, rfl⟩
    · exact hl.callers x hx i hi
    · rcases List.mem_append.mp hi with hi | hi
      · exact hl.callers y hy i hi
      · exact List.mem_singleton.mp hi ▸ ht
  · refine hl.of_tasks hsame.tasks hsame.locks (fun c i hi => hl.told c i (by simpa using hi))
      fun x hx i hi => ?_
    rcases List.mem_append.mp hx with hx | hx
    · exact hl.callers x hx i hi
    · obtain rfl := List.mem_singleton.mp hx
      exact List.mem_singleton.mp hi ▸ ht

theorem obey_frame (w : World η ρ) (c : Command) : (w.obey c).locks = w.locks ∧
    (w.obey c).turns = w.turns ∧ (w.obey c).computations = w.computations := by
  cases c with
  | edit uri text =>
      rw [obey, edit]
      split <;> exact ⟨rfl, rfl, rfl⟩
  | cancel | forget | invalidate => exact ⟨rfl, rfl, rfl⟩

theorem obeyAll_frame (w : World η ρ) (cs : List Command) : (w.obeyAll cs).locks = w.locks ∧
    (w.obeyAll cs).turns = w.turns ∧ (w.obeyAll cs).computations = w.computations := by
  induction cs generalizing w with
  | nil => exact ⟨rfl, rfl, rfl⟩
  | cons c cs ih =>
      obtain ⟨hlocks, hturns, hcomputations⟩ := w.obey_frame c
      obtain ⟨hlocks', hturns', hcomputations'⟩ := ih (w.obey c)
      exact ⟨hlocks'.trans hlocks, hturns'.trans hturns, hcomputations'.trans hcomputations⟩

theorem Locked.obeyAll (hl : w.Locked) (host : η) (cs : List Command) :
    ({ w with host := host }.obeyAll cs).Locked := by
  obtain ⟨hlocks, hturns, hcomputations⟩ := obeyAll_frame { w with host := host } cs
  refine hl.of_tasks (tasks_obeyAll ..) hlocks (fun c t ht => hl.told c t ?_) fun x hx => ?_
  · rwa [hturns] at ht
  · rw [hcomputations] at hx
    exact hl.callers x hx

theorem Locked.endComputation (hl : w.Locked) {c : Nat} {x : Computation ρ}
    (hx : w.computations[c]? = some x) (ending : Ending (List ρ)) :
    (w.endComputation c x.callers ending).Locked := by
  refine hl.of_tasks rfl rfl (fun c' t ht => ?_) fun y hy => ?_
  · simp only [World.endComputation, List.mem_append, List.mem_cons, reduceCtorEq, List.mem_map,
      Turn.tell.injEq, false_or] at ht
    rcases ht with ht | ⟨t', ht', -, rfl⟩
    · exact hl.told c' t ht
    · exact hl.callers x (List.mem_of_getElem? hx) t' ht'
  · rcases mem_modify hy with hy | ⟨y', hy', rfl⟩
    · exact hl.callers y hy
    · exact hl.callers y' hy'

theorem Locked.modifyState (hl : w.Locked) (c : Nat) (state : Computation.State ρ)
    {turns : List Turn} (hturns : ∀ c t, .tell c t ∈ turns → .tell c t ∈ w.turns) :
    { w with
      computations := w.computations.modify c fun x => { x with state := state }
      turns := turns }.Locked := by
  refine hl.of_tasks rfl rfl (fun c t ht => hl.told c t (hturns c t ht)) fun y hy => ?_
  rcases mem_modify hy with hy | ⟨y', hy', rfl⟩
  · exact hl.callers y hy
  · exact hl.callers y' hy'

theorem Locked.release (hl : w.Locked) (c : Nat) (ending : Ending (List ρ)) :
    (w.release c ending).2.Locked := by
  obtain ⟨records, -, heq⟩ | heq := w.release_cases c ending
  · rw [heq]
    exact hl.modifyState c _ fun c' t ht => by simpa using ht
  · rwa [heq]

theorem Locked.finishComputation (hl : w.Locked) (c : Nat) : (w.finishComputation c).Locked := by
  obtain ⟨x, ending, hx, -, heq⟩ | ⟨heq, -⟩ := w.finishComputation_cases c
  · rw [heq]
    exact hl.endComputation hx ending
  · rwa [heq]

theorem Locked.beginComputation (hl : w.Locked) (c : Nat) : (w.beginComputation h c).Locked := by
  obtain heq | ⟨x, host, commands, hx, -, ⟨ending, -, heq⟩ | ⟨records, -, heq⟩⟩ :=
    w.beginComputation_cases h c
  · rwa [heq]
  · rw [heq]
    refine (hl.obeyAll host commands).endComputation ?_ ending
    rwa [(obeyAll_frame ..).2.2]
  · rw [heq]
    exact (hl.obeyAll host commands).modifyState c _ fun _ _ => id

theorem Locked.settleComputation (hl : w.Locked) (c : Nat) : (w.settleComputation c).Locked := by
  obtain ⟨x, ending, -, -, heq⟩ | ⟨heq, -⟩ := w.settleComputation_cases c
  · rw [heq]
    exact hl.of_tasks rfl rfl hl.told hl.callers
  · rwa [heq]

theorem Locked.remember (hl : w.Locked) (e : Event ρ) : (w.remember e).Locked :=
  hl.of_tasks rfl rfl hl.told hl.callers

theorem Locked.wait_of_held (hl : w.Locked) {t k : Nat} {s s' : Stage ρ}
    (ht : w.standing? t = some (k, s)) (hqueued : s.queued? = none)
    (hlate : s.isLate = true → s'.isLate = true) (hheld : ∀ l, s'.held? = some l → s.held? = some l) :
    (w.wait t s').Locked := by
  refine hl.wait ht hlate (fun l lock hlock y hy hyt => ?_) fun l hs => ?_
  · obtain ⟨k', ticket, hwaits⟩ := hl.waiting l lock hlock y hy
    obtain ⟨-, rfl⟩ := Prod.mk.inj (Option.some.inj (ht.symm.trans (hyt ▸ hwaits)))
    simp [Stage.queued?] at hqueued
  · have hholds : w.Holds t l := ⟨k, s, ht, hheld l hs⟩
    exact ⟨hl.held t l hholds, fun i hit hi => hit (hl.alone i t l hi hholds)⟩

theorem Locked.close (hl : w.Locked) {t k : Nat} {s : Stage ρ} (ht : w.standing? t = some (k, s))
    (hqueued : s.queued? = none) (ending : Ending (Outcome ρ)) : (w.close t ending).Locked :=
  (hl.wait_of_held ht hqueued (fun _ => rfl) (by simp [Stage.held?])).remember _

theorem Locked.not_holds_close (hl : w.Locked) {t l : Nat} (hholds : w.Holds t l)
    (ending : Ending (Outcome ρ)) (i : Nat) : ¬(w.close t ending).Holds i l := by
  rintro ⟨k, s, hi, hs⟩
  rw [standing?_close] at hi
  split at hi
  · obtain ⟨x, -, hx⟩ := Option.map_eq_some_iff.mp hi
    obtain ⟨-, rfl⟩ := Prod.mk.inj hx
    simp [Stage.held?] at hs
  · exact absurd (hl.alone i t l ⟨k, s, hi, hs⟩ hholds) ‹_›

theorem wait_wait (w : World η ρ) (t : Nat) (s s' : Stage ρ) :
    (w.wait t s).wait t s' = w.wait t s' := by
  simp only [World.wait, modifyTask, World.mk.injEq, true_and, and_true]
  refine List.ext_getElem? fun i => ?_
  simp only [List.getElem?_modify]
  cases w.tasks[i]? <;> grind

theorem Stage.queued?_of_idle? {s : Stage ρ} {l : Nat} (hs : s.idle? = some l) :
    s.queued? = none ∧ s.held? = some l := by
  cases s <;> simp_all [Stage.idle?, Stage.queued?, Stage.held?]

theorem Locked.makeLock (hl : w.Locked) (scheduler : Scheduler) :
    { w with locks := w.locks ++ [Lock.free], scheduler := scheduler }.Locked := by
  have hkeep : ∀ l lock, w.locks[l]? = some lock → (w.locks ++ [Lock.free])[l]? = some lock :=
    fun l lock hlock => by
      rw [List.getElem?_append_left (List.getElem?_eq_some_iff.mp hlock).1, hlock]
  refine ⟨hl.told, hl.callers, fun lock hlock => ?_, fun l lock hlock y hy => ?_, fun t l ht => ?_,
    fun t l hh => ?_, hl.alone⟩
  · rcases List.mem_append.mp hlock with hlock | hlock
    · exact hl.sound lock hlock
    · exact List.mem_singleton.mp hlock ▸ Lock.sound_free
  · simp only [List.getElem?_append] at hlock
    split at hlock
    · exact hl.waiting l lock hlock y hy
    · obtain rfl := List.mem_singleton.mp (List.mem_of_getElem? hlock)
      exact absurd hy (by simp [Lock.free])
  · obtain ⟨lock, hlock, hwoken⟩ := hl.woken t l ht
    exact ⟨lock, hkeep l lock hlock, hwoken⟩
  · obtain ⟨lock, hlock, hheld⟩ := hl.held t l hh
    exact ⟨lock, hkeep l lock hlock, hheld⟩

theorem Locked.acquire (hl : w.Locked) {t k l : Nat} {s : Stage ρ} {ticket : Ticket} {lock : Lock}
    (ht : w.standing? t = some (k, s)) (hqueued : s.queued? = none)
    (hlock : w.locks[l]? = some lock) (hopen : lock.isOpen = true) :
    ({ w with locks := w.locks.modify l (·.take) }.wait t (.computing ticket l)).Locked := by
  have hnone : ∀ i, ¬w.Holds i l := (hl.held_or_forall_not_holds hlock).resolve_left
    (by simp [Lock.not_held_of_isOpen hopen])
  have htaken : { w with locks := w.locks.modify l (·.take) }.Locked :=
    hl.modifyLock fun old hold => by
      obtain rfl : old = lock := Option.some.inj (hold.symm.trans hlock)
      exact ⟨Lock.Sound.take (Lock.not_woken_of_isOpen hopen), hl.waiting l old hold,
        fun _ _ => id, .inl rfl⟩
  refine htaken.wait ht (fun _ => rfl) (fun l' lock' hlock' y hy hyt => ?_) fun l' hs => ?_
  · obtain ⟨k', ticket', hwaits⟩ := htaken.waiting l' lock' hlock' y hy
    obtain ⟨-, rfl⟩ := Prod.mk.inj (Option.some.inj (ht.symm.trans (hyt ▸ hwaits)))
    simp [Stage.queued?] at hqueued
  · obtain rfl : l = l' := by simpa [Stage.held?] using hs
    exact ⟨⟨lock.take, by simp [hlock], rfl⟩, fun i _ => hnone i⟩

theorem Locked.queue (hl : w.Locked) {t k l : Nat} {s : Stage ρ} {ticket : Ticket}
    (ht : w.standing? t = some (k, s)) (hqueued : s.queued? = none) (hlate : s.isLate = false) :
    ({ w with locks := w.locks.modify l (·.await t) }.wait t (.queueing ticket l)).Locked := by
  have hwaits : (w.wait t (.queueing ticket l)).Locked :=
    hl.wait_of_held ht hqueued (by simp [hlate]) (by simp [Stage.held?])
  refine hwaits.modifyLock fun lock hlock => ⟨(hwaits.sound lock (List.mem_of_getElem? hlock)).await t,
    fun y hy => ?_, fun i _ hwoken => List.mem_append_left _ hwoken,
    (hwaits.held_or_forall_not_holds hlock).imp_left id⟩
  rcases List.mem_append.mp hy with hy | hy
  · exact hwaits.waiting l lock hlock y hy
  · obtain rfl := List.mem_singleton.mp hy
    exact ⟨k, ticket, by simp [ht]⟩

theorem Locked.wake (hl : w.Locked) {t k l : Nat} {ticket : Ticket}
    (ht : w.standing? t = some (k, .queueing ticket l)) (hroused : w.Roused t l) :
    ({ w with locks := w.locks.modify l fun lock => (lock.leave t).take }.wait t
      (.computing ticket l)).Locked := by
  obtain ⟨lock, hlock, hwoken⟩ := hl.woken t l hroused
  have hsound := hl.sound lock (List.mem_of_getElem? hlock)
  have hnone : ∀ i, ¬w.Holds i l := (hl.held_or_forall_not_holds hlock).resolve_left
    (by simp [hsound.open_of_woken _ hwoken rfl])
  -- The signal is used up first: after that the task may leave the queue.
  have hcalm : (w.wait t (.queueing ticket l)).Locked := by
    refine hl.wait ht (by simp [Stage.isLate]) (fun l' lock' hlock' y hy hyt => ?_)
      (by simp [Stage.held?])
    exact ⟨ticket, by rw [hl.eq_of_mem_waiters ht hlock' hy hyt]⟩
  have hnot : ¬(w.wait t (.queueing ticket l)).Roused t l := by
    rintro ⟨task, ticket', ending, hi, -, hsignal, -⟩
    simp only [tasks_wait, List.getElem?_modify] at hi
    grind
  have htaken : ({ w with locks := w.locks.modify l fun lock => (lock.leave t).take }.wait t
      (.queueing ticket l)).Locked := by
    refine hcalm.modifyLock fun old hold => ?_
    obtain rfl : old = lock := Option.some.inj (hold.symm.trans hlock)
    refine ⟨Lock.Sound.take (hsound.leave_woken hwoken),
      fun y hy => hcalm.waiting l old hlock y (List.mem_filter.mp hy).1,
      fun i hi hmem => List.mem_filter.mpr ⟨hmem, ?_⟩, .inl rfl⟩
    have hit : i ≠ t := fun hit => hnot (hit ▸ hi)
    simpa using hit
  rw [← wait_wait _ t (.queueing ticket l)]
  have ht' : { w with locks := w.locks.modify l fun lock => (lock.leave t).take }.standing? t =
      some (k, .queueing ticket l) := ht
  refine htaken.wait (k := k) (s := .queueing ticket l)
    (by rw [standing?_wait, if_pos rfl, ht']; rfl) (fun _ => rfl) ?_ ?_
  · intro l' lock' hlock' y hy hyt
    exact absurd hyt (hl.ne_of_mem_modify ht (f := fun lock => (lock.leave t).take)
      (fun was => was.ne_of_mem_leave) hlock' y hy)
  · intro l' hs
    obtain rfl : l = l' := by simpa [Stage.held?] using hs
    refine ⟨⟨(lock.leave t).take, ?_, rfl⟩, ?_⟩
    · show (w.locks.modify l fun lock => (lock.leave t).take)[l]? = _
      simp [hlock]
    · rintro i hit ⟨k', s, hi, hh⟩
      rw [standing?_wait, if_neg hit] at hi
      exact hnone i ⟨k', s, hi, hh⟩

theorem Locked.leave (hl : w.Locked) {t k l : Nat} {ticket : Ticket}
    (ht : w.standing? t = some (k, .queueing ticket l)) (hcalm : ¬w.Roused t l)
    (ending : Ending (Outcome ρ)) : ((w.leaveQueue t l).close t ending).Locked := by
  refine Locked.remember ?_ _
  refine (hl.leaveQueue hcalm).wait (k := k) (s := .queueing ticket l) ?_ (fun _ => rfl)
    (fun l' lock hlock y hy hyt => absurd hyt (hl.ne_of_mem_leaveQueue ht hlock y hy))
    (by simp [Stage.held?])
  rw [(sameBooks_leaveQueue ..).standing?, ht]

theorem Locked.step (hl : w.Locked) {free : Bool} (hs : Step h free w w') : w'.Locked := by
  cases hs with
  | pass turns timers clock ended hturns =>
      exact hl.of_tasks rfl rfl (fun c t ht => hl.told c t (hturns c t ht)) hl.callers
  | openDocument d => exact hl.of_tasks rfl rfl hl.told hl.callers
  | editAt k text => exact hl.of_tasks rfl rfl hl.told hl.callers
  | obey c => exact hl.obeyAll w.host [c]
  | hosted => exact hl.obeyAll _ _
  | start errand k => exact hl.start errand k
  | cancelTask t => exact hl.cancelTask t
  | release c ending => exact hl.release c ending
  | finish c => exact hl.finishComputation c
  | tell hturn => exact hl.tellTask hturn
  | nudge ht hs =>
      refine hl.signal fun k ticket l hqueued _ => ?_
      obtain ⟨-, hstage⟩ := Prod.mk.inj (Option.some.inj ((standing?_of_getElem? ht).symm.trans hqueued))
      simp [hstage, Stage.isAsleep, Stage.isApplying] at hs
  | close ht hs ending =>
      refine hl.close (standing?_of_getElem? ht) ?_ ending
      rcases hs with hs | ⟨ticket, hs⟩ <;> rw [hs] <;> rfl
  | answer ht hs ending =>
      refine hl.wait_of_held (standing?_of_getElem? ht) ?_ (fun _ => rfl) (by simp [Stage.held?])
      rcases hs with hs | hs <;> rw [hs] <;> rfl
  | @ask t task d ht hd hs =>
      have hasked : ((w.wait t .detecting).remember (.asked t task.document d.uri)).Locked :=
        (hl.wait_of_held (standing?_of_getElem? ht) (by rw [hs]; rfl) (fun _ => rfl)
          (by simp [Stage.held?])).remember _
      exact hasked.lookUp ⟨task.document, .detecting,
        standing?_of_getElem? (getElem?_wait ht .detecting), rfl⟩ _ _
  | @draw t task d ht hd hs =>
      have hdrawn : { w with scheduler := w.scheduler.draw d.uri }.Locked :=
        hl.of_tasks rfl rfl hl.told hl.callers
      exact (hdrawn.wait_of_held (standing?_of_getElem? ht) (by rw [hs]; rfl) (by simp [hs, Stage.isLate])
        (by simp [Stage.held?])).remember _
  | makeLock uri huri => exact hl.makeLock _
  | acquire ht hd hs hc huri hlock hopen =>
      exact hl.acquire (standing?_of_getElem? ht) (by rw [hs]; rfl) hlock hopen
  | queue ht hd hs hc huri =>
      exact hl.queue (standing?_of_getElem? ht) (by rw [hs]; rfl) (by rw [hs]; rfl)
  | wake ht hs hsignal hending hasked =>
      exact hl.wake (hs ▸ standing?_of_getElem? ht) ⟨_, _, _, ht, hs, hsignal, hending, hasked⟩
  | @quit t task l ht hs ending =>
      obtain ⟨hqueued, hheld⟩ := Stage.queued?_of_idle? hs
      have hholds : w.Holds t l := ⟨task.document, task.stage, standing?_of_getElem? ht, hheld⟩
      exact (hl.close (standing?_of_getElem? ht) hqueued ending).releaseLock
        (hl.not_holds_close hholds ending)
  | @leave t task ticket l ht hs hasked =>
      refine hl.leave (hs ▸ standing?_of_getElem? ht) ?_ _
      rintro ⟨task', ticket', ending, ht', -, hsignal, hending, hnot⟩
      obtain rfl : task = task' := Option.some.inj (ht.symm.trans ht')
      grind
  | @lookUp t task d ticket l ht hd hs hv =>
      exact hl.lookUp ⟨task.document, task.stage, standing?_of_getElem? ht, by rw [hs]; rfl⟩ _ _
  | @hand t task d ticket l delivery ht hd hv hs =>
      have hstage : task.stage.queued? = none ∧ task.stage.held? = some l := by
        rcases hs with hs | ⟨hs, -⟩ <;> rw [hs] <;> exact ⟨rfl, rfl⟩
      exact (hl.wait_of_held (standing?_of_getElem? ht) hstage.1 (fun _ => rfl)
        (fun _ hs' => hstage.2.trans (by exact hs'))).remember _
  | revisit ht hs =>
      exact hl.wait_of_held (standing?_of_getElem? ht) (by rw [hs]; rfl) (fun _ => rfl)
        (fun _ hs' => by rw [hs]; exact hs')
  | taken ht hs hmore =>
      exact (hl.wait_of_held (standing?_of_getElem? ht) (by rw [hs]; rfl) (fun _ => rfl)
        (fun _ hs' => by rw [hs]; exact hs')).remember _
  | @last t task ticket l delivery count ht hs ending ending' =>
      have htaken : ((w.wait t (.pausing ticket l (afterChunk h delivery))).remember
          (.taken t ending)).Locked :=
        (hl.wait_of_held (standing?_of_getElem? ht) (by rw [hs]; rfl) (fun _ => rfl)
          (fun _ hs' => by rw [hs]; exact hs')).remember _
      have ht' := standing?_of_getElem? (getElem?_wait ht (.pausing ticket l (afterChunk h delivery)))
      refine (htaken.close (by exact ht') rfl ending').releaseLock ?_
      exact htaken.not_holds_close ⟨_, _, ht', rfl⟩ ending'

/-! ### Which lock belongs to an address -/

/-- Whoever has or waits for a lock while its number is the last one has or waits for the lock of
its address, and so does whoever has begun to hand on records, even if it is out of date. -/
structure Registered (w : World η ρ) : Prop where
  current : ∀ t k s ticket l d, w.standing? t = some (k, s) → s.claim? = some (ticket, l) →
    w.documents[k]? = some d → w.scheduler.isCurrent d.uri ticket.generation = true →
    w.scheduler.locks.get? d.uri = some l
  delivering : ∀ t k s ticket l d, w.standing? t = some (k, s) → s.claim? = some (ticket, l) →
    s.delivery?.isSome = true → w.documents[k]? = some d → w.scheduler.locks.get? d.uri = some l

theorem registered_initial (host : η) : (initial host : World η ρ).Registered := by
  refine ⟨?_, ?_⟩ <;> simp [initial, standing?]

theorem Course.claim (hcourse : w.Course h w') {t k l : Nat} {s : Stage ρ} {ticket : Ticket}
    (ht : w'.standing? t = some (k, s)) (hs : s.claim? = some (ticket, l)) :
    ∃ s', w.standing? t = some (k, s') ∧ s'.ticket? = some ticket ∧
      (s'.claim? = some (ticket, l) ∧ (s.delivery?.isSome = true → s'.delivery?.isSome = true ∨
        s'.held? = some l ∧
          ∃ d, w.documents[k]? = some d ∧ w.scheduler.isCurrent d.uri ticket.generation = true) ∨
      s.delivery? = none ∧
        ∃ d, w.documents[k]? = some d ∧ w.scheduler.locks.get? d.uri = some l) := by
  have hticket : ∀ s : Stage ρ, s.claim? = some (ticket, l) → s.ticket? = some ticket := by
    intro s hs
    cases s <;> simp_all [Stage.claim?, Stage.ticket?]
  cases hcourse with
  | aside hes hhistory hstanding =>
      rw [hstanding] at ht
      exact ⟨s, ht, hticket s hs, .inl ⟨hs, .inl⟩⟩
  | start k' hhistory hstanding =>
      rw [hstanding] at ht
      split at ht
      · obtain ⟨rfl, rfl⟩ := Prod.mk.inj (Option.some.inj ht)
        simp [Stage.claim?] at hs
      · exact ⟨s, ht, hticket s hs, .inl ⟨hs, .inl⟩⟩
  | @move i k' s₁ s₂ es hi hleads hhistory hstanding =>
      rw [hstanding] at ht
      split at ht
      · rename_i hit
        subst hit
        obtain ⟨rfl, rfl⟩ := Prod.mk.inj (Option.some.inj ht)
        refine ⟨s₁, hi, ?_⟩
        cases hleads with
        | acquire hd hl ticket' =>
            obtain ⟨rfl, rfl⟩ := Prod.mk.inj (Option.some.inj hs)
            exact ⟨rfl, .inr ⟨rfl, _, hd, hl⟩⟩
        | queue hd hl ticket' =>
            obtain ⟨rfl, rfl⟩ := Prod.mk.inj (Option.some.inj hs)
            exact ⟨rfl, .inr ⟨rfl, _, hd, hl⟩⟩
        | hand hd hv hstage =>
            obtain ⟨rfl, rfl⟩ := Prod.mk.inj (Option.some.inj hs)
            have hcurrent := (verdict?_eq_none.mp hv).2
            rcases hstage with rfl | ⟨rfl, -⟩
            · exact ⟨rfl, .inl ⟨rfl, fun _ => .inl rfl⟩⟩
            · exact ⟨rfl, .inl ⟨rfl, fun _ => .inr ⟨rfl, _, hd, hcurrent⟩⟩⟩
        | wake => exact ⟨hticket _ hs, .inl ⟨hs, by simp [Stage.delivery?]⟩⟩
        | revisit => exact ⟨hticket _ hs, .inl ⟨hs, fun _ => .inl rfl⟩⟩
        | taken => exact ⟨hticket _ hs, .inl ⟨hs, fun _ => .inl rfl⟩⟩
        | draw => simp [Stage.claim?] at hs
        | ask => simp [Stage.claim?] at hs
        | answer => simp [Stage.claim?] at hs
        | last => simp [Stage.claim?] at hs
        | close => simp [Stage.claim?] at hs
      · exact ⟨s, ht, hticket s hs, .inl ⟨hs, .inl⟩⟩

theorem Stage.held?_of_delivery? {s : Stage ρ} {ticket : Ticket} {l : Nat}
    (hs : s.claim? = some (ticket, l)) (hd : s.delivery?.isSome = true) : s.held? = some l := by
  cases s <;> simp_all [Stage.claim?, Stage.delivery?, Stage.held?]

theorem Registered.course (hr : w.Registered) (hn : w.Numbered) (hcourse : w.Course h w')
    (huri : ∀ k u, w.uri? k = some u → w'.uri? k = some u)
    (hcurrent : ∀ uri g, g ≤ w.scheduler.drawn → w'.scheduler.isCurrent uri g = true →
      w.scheduler.isCurrent uri g = true)
    (hlocks : ∀ uri l, w.scheduler.locks.get? uri = some l → (∃ t, w.Holds t l) ∨
      (∃ g, g ≤ w.scheduler.drawn ∧ w'.scheduler.isCurrent uri g = true) →
      w'.scheduler.locks.get? uri = some l) : w'.Registered := by
  refine ⟨fun t k s ticket l d' ht hs hd' hc => ?_, fun t k s ticket l d' ht hs hdelivery hd' => ?_⟩
  all_goals
    obtain ⟨s', ht', hticket, hclaim⟩ := hcourse.claim ht hs
    obtain ⟨hle, d, hd, -⟩ := hn.ticket t k s' ticket ht' hticket
    have hsame : d'.uri = d.uri := by
      have := huri k d.uri (by simp [uri?, hd])
      simpa [uri?, hd'] using this
    rw [hsame]
  · rw [hsame] at hc
    refine hlocks _ _ ?_ (.inr ⟨_, hle, hc⟩)
    rcases hclaim with ⟨hclaim, -⟩ | ⟨-, d₁, hd₁, hl⟩
    · exact hr.current t k s' ticket l d ht' hclaim hd (hcurrent _ _ hle hc)
    · obtain rfl : d = d₁ := Option.some.inj (hd.symm.trans hd₁)
      exact hl
  · rcases hclaim with ⟨hclaim, hbegun⟩ | ⟨hnone, -⟩
    · rcases hbegun hdelivery with hdelivery' | ⟨hheld, d₁, hd₁, hc⟩
      · exact hlocks _ _ (hr.delivering t k s' ticket l d ht' hclaim hdelivery' hd)
          (.inl ⟨t, k, s', ht', Stage.held?_of_delivery? hclaim hdelivery'⟩)
      · obtain rfl : d = d₁ := Option.some.inj (hd.symm.trans hd₁)
        exact hlocks _ _ (hr.current t k s' ticket l d ht' hclaim hd hc) (.inl ⟨t, k, s', ht', hheld⟩)
    · simp [hnone] at hdelivery

theorem Registered.of_books (hr : w.Registered) (hn : w.Numbered) (hcourse : w.Course h w')
    (hdocuments : w'.documents = w.documents)
    (hgenerations : w'.scheduler.generations = w.scheduler.generations)
    (hlocks : w'.scheduler.locks = w.scheduler.locks) : w'.Registered := by
  refine hr.course hn hcourse (fun k u hu => ?_) (fun uri g _ hc => ?_) fun uri l hl _ => ?_
  · rwa [uri?, hdocuments]
  · rwa [Scheduler.isCurrent, hgenerations] at hc
  · rwa [hlocks]

theorem Registered.of_scheduler (hr : w.Registered) (hn : w.Numbered) (hcourse : w.Course h w')
    (hdocuments : w'.documents = w.documents) (hscheduler : w'.scheduler = w.scheduler) :
    w'.Registered :=
  hr.of_books hn hcourse hdocuments (by rw [hscheduler]) (by rw [hscheduler])

theorem locks_forget (hl : w.Locked) {uri u : String} {l : Nat}
    (huri : w.scheduler.locks.get? uri = some l) (hkept : (∃ t, w.Holds t l) ∨ u ≠ uri) :
    (w.forget u).scheduler.locks.get? uri = some l := by
  simp only [World.forget, remember]
  split
  · exact huri
  · rename_i hheld
    simp only [Scheduler.dropLock, Scheduler.forget, Keyed.get?_erase]
    split
    · rename_i hu
      subst hu
      obtain ⟨t, ht⟩ := hkept.resolve_right fun hne => hne rfl
      obtain ⟨lock, hlock, htrue⟩ := hl.held t l ht
      exact absurd (by simp [Scheduler.forget, huri, hlock, htrue]) hheld
    · exact huri

theorem Registered.obey (h : Host η ρ) (hr : w.Registered) (hn : w.Numbered) (hl : w.Locked)
    (c : Command) : (w.obey c).Registered := by
  obtain ⟨es, hes, hhistory⟩ := course_obey w c
  have hcourse : w.Course h (w.obey c) := .aside hes hhistory (standing?_of_tasks (tasks_obey ..))
  cases c with
  | edit uri text =>
      rw [World.obey, World.edit] at hcourse ⊢
      split at hcourse
      · rename_i k hk
        exact hr.course hn hcourse (fun k' u hu => by rw [uri?_editAt, hu]) (fun _ _ _ => id)
          fun _ _ huri _ => huri
      · exact hr
  | cancel u =>
      refine hr.course hn hcourse (fun _ _ => id)
        (fun uri g hg hc => (Scheduler.isCurrent_cancel hg hc).1) fun uri l huri _ => ?_
      exact (congrArg (·.get? uri) (Scheduler.locks_cancel ..)).trans huri
  | forget u =>
      refine hr.course hn hcourse (fun _ _ => id) (fun uri g _ hc => (isCurrent_forget hc).1)
        fun uri l huri hkept => locks_forget hl huri ?_
      refine hkept.imp_right ?_
      rintro ⟨g, -, hc⟩
      exact (isCurrent_forget hc).2
  | invalidate => exact hr.of_books hn hcourse rfl rfl rfl

theorem Registered.obeyAll (h : Host η ρ) (hr : w.Registered) (hn : w.Numbered) (hl : w.Locked)
    (host : η) (cs : List Command) : ({ w with host := host }.obeyAll cs).Registered := by
  have hr' : { w with host := host }.Registered := ⟨hr.current, hr.delivering⟩
  have hn' : { w with host := host }.Numbered := ⟨hn.drawn, hn.ticket, hn.timely⟩
  have hl' : { w with host := host }.Locked := hl.obeyAll host []
  generalize { w with host := host } = v at hr' hn' hl'
  induction cs generalizing v with
  | nil => exact hr'
  | cons c cs ih => exact ih (v.obey c) (hr'.obey h hn' hl' c) (hn'.obey c) (hl'.obeyAll v.host [c])

theorem Registered.step (hr : w.Registered) (hn : w.Numbered) (hl : w.Locked) {free : Bool} (hs : Step h free w w') :
    w'.Registered := by
  have hcourse := hs.course
  cases id hs with
  | openDocument d =>
      exact hr.course hn hcourse (fun _ _ => hs.uri?) (fun _ _ _ => id) fun _ _ huri _ => huri
  | editAt k text =>
      exact hr.course hn hcourse (fun _ _ => hs.uri?) (fun _ _ _ => id) fun _ _ huri _ => huri
  | obey c => exact hr.obey h hn hl c
  | hosted => exact hr.obeyAll h hn hl _ _
  | draw ht hd hs =>
      exact hr.course hn hcourse (fun _ _ => id)
        (fun uri g hg hc => (Scheduler.isCurrent_draw hg hc).1) fun _ _ huri _ => huri
  | makeLock u hnone =>
      refine hr.course hn hcourse (fun _ _ => id) (fun _ _ _ => id) fun uri l huri _ => ?_
      have hne : uri ≠ u := fun heq => by simp [← heq, huri] at hnone
      simpa [Scheduler.setLock, hne] using huri
  | cancelTask t =>
      have hbooks := w.sameBooks_cancelTask t
      exact hr.of_scheduler hn hcourse hbooks.documents hbooks.scheduler
  | release c ending =>
      have hsame := w.sameTasks_release c ending
      exact hr.of_scheduler hn hcourse hsame.documents hsame.scheduler
  | finish c =>
      have hsame := w.sameTasks_finishComputation c
      exact hr.of_scheduler hn hcourse hsame.documents hsame.scheduler
  | @tell c t hturn =>
      have hbooks := w.sameBooks_tellTask c t
      exact hr.of_scheduler hn hcourse hbooks.documents hbooks.scheduler
  | @ask t task d ht hd hs =>
      have hsame := sameTasks_lookUp
        ((w.wait t .detecting).remember (.asked t task.document d.uri)) t .detection d
      exact hr.of_scheduler hn hcourse hsame.documents hsame.scheduler
  | @quit t task l ht hs ending =>
      have hbooks := sameBooks_releaseLock (w.close t ending) l
      exact hr.of_scheduler hn hcourse hbooks.documents hbooks.scheduler
  | @leave t task ticket l ht hs hasked =>
      have hbooks := w.sameBooks_leaveQueue t l
      exact hr.of_scheduler hn hcourse hbooks.documents hbooks.scheduler
  | @lookUp t task d ticket l ht hd hs hv =>
      have hsame := w.sameTasks_lookUp t .refresh d
      exact hr.of_scheduler hn hcourse hsame.documents hsame.scheduler
  | @last t task ticket l delivery count ht hs ending ending' =>
      have hbooks := sameBooks_releaseLock (((w.wait t
        (.pausing ticket l (afterChunk h delivery))).remember (.taken t ending)).close t ending') l
      exact hr.of_scheduler hn hcourse hbooks.documents hbooks.scheduler
  | _ => exact hr.of_books hn hcourse rfl rfl rfl

theorem Registered.begin (hr : w.Registered) (hn : w.Numbered) (hl : w.Locked) (c : Nat) :
    (w.beginComputation h c).Registered := by
  obtain ⟨host, commands, hsame⟩ := w.sameTasks_beginComputation h c
  have hn' : { w with host := host }.Numbered := ⟨hn.drawn, hn.ticket, hn.timely⟩
  exact (hr.obeyAll h hn hl host commands).of_scheduler (h := h) (hn'.obeyAll commands)
    hsame.course hsame.documents hsame.scheduler

theorem Registered.settle (h : Host η ρ) (hr : w.Registered) (hn : w.Numbered) (c : Nat) :
    (w.settleComputation c).Registered := by
  have hsame := w.sameTasks_settleComputation c
  exact hr.of_scheduler (h := h) hn hsame.course hsame.documents hsame.scheduler

structure Ruled (w : World η ρ) : Prop where
  numbered : w.Numbered
  locked : w.Locked
  registered : w.Registered

theorem ruled_initial (host : η) : (initial host : World η ρ).Ruled :=
  ⟨numbered_initial host, locked_initial host, registered_initial host⟩

theorem Ruled.step (hr : w.Ruled) {free : Bool} (hs : Step h free w w') : w'.Ruled :=
  ⟨hr.numbered.step hs, hr.locked.step hs, hr.registered.step hr.numbered hr.locked hs⟩

theorem Ruled.begin (hr : w.Ruled) (c : Nat) : (w.beginComputation h c).Ruled :=
  ⟨hr.numbered.begin c, hr.locked.beginComputation c, hr.registered.begin hr.numbered hr.locked c⟩

theorem Ruled.settle (h : Host η ρ) (hr : w.Ruled) (c : Nat) : (w.settleComputation c).Ruled :=
  ⟨hr.numbered.settle c, hr.locked.settleComputation c, hr.registered.settle h hr.numbered c⟩

/-- One task at most delivers at an address, and while it does no other may begin to. -/
theorem Ruled.eq_of_delivering (hr : w.Ruled) {t t' k k' l l' : Nat} {s s' : Stage ρ}
    {ticket ticket' : Ticket} {d d' : Document} (ht : w.standing? t = some (k, s))
    (hs : s.claim? = some (ticket, l)) (hheld : s.held? = some l) (hd : w.documents[k]? = some d)
    (hmay : s.delivery?.isSome = true ∨ w.scheduler.isCurrent d.uri ticket.generation = true)
    (ht' : w.standing? t' = some (k', s')) (hs' : s'.claim? = some (ticket', l'))
    (hdelivery' : s'.delivery?.isSome = true) (hd' : w.documents[k']? = some d')
    (huri : d.uri = d'.uri) : t = t' := by
  have hl : w.scheduler.locks.get? d.uri = some l := by
    rcases hmay with hdelivery | hc
    · exact hr.registered.delivering t k s ticket l d ht hs hdelivery hd
    · exact hr.registered.current t k s ticket l d ht hs hd hc
  have hl' := hr.registered.delivering t' k' s' ticket' l' d' ht' hs' hdelivery' hd'
  obtain rfl : l = l' := Option.some.inj (hl.symm.trans (huri ▸ hl'))
  exact hr.locked.alone t t' l ⟨k, s, ht, hheld⟩
    ⟨k', s', ht', Stage.held?_of_delivery? hs' hdelivery'⟩

end World

end Swatch

import Swatch.Proofs.Cache.Bystander

/-!
Who waits for a lock does not wait in vain. A lock that is taken is held by a task that has not come
to its end; and while it is free, the first who waits for it has been told so, or is about to leave.
-/

namespace Swatch

variable {η ρ : Type}

namespace Lock

variable {l : Lock} {t : Nat}

/-- Those who wait for a lock, in the order in which they came. -/
def names (l : Lock) : List Nat :=
  l.waiters.map (·.1)

@[simp] theorem names_free : free.names = [] :=
  rfl

@[simp] theorem names_take (l : Lock) : l.take.names = l.names :=
  rfl

@[simp] theorem names_await (l : Lock) (t : Nat) : (l.await t).names = l.names ++ [t] := by
  simp [names, await]

@[simp] theorem names_leave (l : Lock) (t : Nat) : (l.leave t).names = l.names.filter (· ≠ t) := by
  simp [names, leave, List.filter_map, Function.comp_def]

@[simp] theorem names_cancel (l : Lock) (t : Nat) : (l.cancel t).names = l.names := by
  simp only [names, cancel, List.map_map]
  refine List.map_congr_left fun y _ => ?_
  simp only [Function.comp_apply]
  split <;> rfl

@[simp] theorem names_release (l : Lock) : l.release.1.names = l.names := by
  simp only [names, release, wakeFirst]
  split
  · rename_i hw
    simp [show l.waiters = _ from hw]
  · rfl

theorem leave_of_not_mem (ht : t ∉ l.names) : l.leave t = l := by
  have hwaiters : l.waiters.filter (·.1 ≠ t) = l.waiters := by
    refine List.filter_eq_self.mpr fun y hy => ?_
    have hne : y.1 ≠ t := fun hyt => ht (hyt ▸ List.mem_map_of_mem hy)
    simpa using hne
  rw [leave, hwaiters]

theorem mem_names {y : Nat × Waiter} (hy : y ∈ l.waiters) : y.1 ∈ l.names :=
  List.mem_map_of_mem hy

theorem held_release (l : Lock) : l.release.1.held = false := by
  simp only [release, wakeFirst]
  split <;> rfl

theorem head?_release (l : Lock) : ∀ y ∈ l.release.1.waiters.head?, y.2 ≠ .asleep := by
  simp only [release, wakeFirst]
  split
  · simp
  · rename_i hnone
    intro y hy hasleep
    obtain ⟨rest, hw⟩ := List.head?_eq_some_iff.mp hy
    exact hnone y.1 rest (by simp [← hasleep, show l.waiters = _ from hw])

/-- To give a lock back rouses one who was asleep, and nobody else. -/
theorem mem_release {y : Nat × Waiter} (hnodup : l.names.Nodup) (hy : y ∈ l.release.1.waiters) :
    l.release.2 = some y.1 ∧ y.2 = .woken ∨ l.release.2 ≠ some y.1 ∧ y ∈ l.waiters := by
  simp only [names, release, wakeFirst] at hnodup hy ⊢
  split at hy
  · rename_i task rest hw
    have hwaiters : l.waiters = (task, .asleep) :: rest := hw
    rw [hwaiters, List.map_cons, List.nodup_cons] at hnodup
    rcases List.mem_cons.mp hy with rfl | hrest
    · exact .inl ⟨rfl, rfl⟩
    · refine .inr ⟨?_, by simp [hwaiters, hrest]⟩
      rintro ⟨⟩
      exact hnodup.1 (List.mem_map.mpr ⟨y, hrest, rfl⟩)
  · exact .inr ⟨by simp, hy⟩

theorem head?_cancel {P : Waiter → Prop} (hcancelled : P .cancelled)
    (hfirst : ∀ y ∈ l.waiters.head?, P y.2) : ∀ y ∈ (l.cancel t).waiters.head?, P y.2 := by
  simp only [cancel, List.head?_map, Option.mem_def, Option.map_eq_some_iff]
  rintro y ⟨x, hx, rfl⟩
  split
  · exact hcancelled
  · exact hfirst x hx

end Lock

namespace World

/-- The stage of a task, and whether it has a signal. -/
def posture? (w : World η ρ) (t : Nat) : Option (Stage ρ × Bool) :=
  (w.tasks[t]?).map fun task => (task.stage, task.signal.isSome)

/-- A lock does not forget those who wait for it: whoever has it goes on, and while nobody has it, the
first who waits does. Who is asleep has no signal yet. -/
structure Serves (w : World η ρ) (l : Nat) (lock : Lock) : Prop where
  once : lock.names.Nodup
  holder : lock.held = true → ∃ t, w.Holds t l
  first : lock.held = false → ∀ y ∈ lock.waiters.head?, y.2 ≠ .asleep
  calm : ∀ y ∈ lock.waiters, ∃ ticket isTold,
    w.posture? y.1 = some (.queueing ticket l, isTold) ∧ (y.2 = .asleep ↔ isTold = false)

/-- All locks serve those who wait for them, and know them. -/
structure Attentive (w : World η ρ) : Prop where
  serves : ∀ l lock, w.locks[l]? = some lock → w.Serves l lock
  counted : ∀ t ticket l isTold, w.posture? t = some (.queueing ticket l, isTold) →
    ∃ lock, w.locks[l]? = some lock ∧ t ∈ lock.names

variable {h : Host η ρ} {w w' v : World η ρ} {t l k : Nat} {s s' : Stage ρ}

theorem attentive_initial (host : η) : (initial host : World η ρ).Attentive := by
  refine ⟨?_, ?_⟩ <;> simp [initial, posture?]

/-! ### Postures -/

theorem posture?_of_getElem? {task : Task ρ} (ht : w.tasks[t]? = some task) :
    w.posture? t = some (task.stage, task.signal.isSome) := by
  simp [posture?, ht]

theorem posture?_of_tasks (htasks : w'.tasks = w.tasks) (i : Nat) : w'.posture? i = w.posture? i := by
  rw [posture?, posture?, htasks]

theorem posture?_wait (w : World η ρ) (t i : Nat) (stage : Stage ρ) :
    (w.wait t stage).posture? i =
      if i = t then (w.posture? t).map fun _ => (stage, false) else w.posture? i := by
  simp only [posture?, tasks_wait, List.getElem?_modify]
  grind

theorem posture?_signal (w : World η ρ) (t i : Nat) (ending : Ending (List ρ)) :
    (w.signal t ending).posture? i =
      if i = t then (w.posture? t).map fun x => (x.1, true) else w.posture? i := by
  simp only [posture?, tasks_signal, List.getElem?_modify]
  grind

theorem posture?_close (w : World η ρ) (t i : Nat) (ending : Ending (Outcome ρ)) :
    (w.close t ending).posture? i =
      if i = t then (w.posture? t).map fun _ => (.ended ending, false) else w.posture? i :=
  w.posture?_wait t i _

theorem posture?_releaseLock (w : World η ρ) (l i : Nat) :
    (w.releaseLock l).posture? i =
      if (w.locks[l]?).bind (·.release.2) = some i then (w.posture? i).map fun x => (x.1, true)
      else w.posture? i := by
  rw [releaseLock_eq]
  split
  · rename_i t ht
    rw [posture?_signal, ht]
    by_cases hit : i = t
    · simp [hit, posture?]
    · rw [if_neg hit, if_neg (by simpa using Ne.symm hit)]
      rfl
  · rename_i hnone
    simp [hnone, posture?]

theorem locks_releaseLock (w : World η ρ) (l : Nat) :
    (w.releaseLock l).locks = w.locks.modify l (·.release.1) := by
  rw [releaseLock_eq]
  split <;> rfl

theorem standing?_of_posture? {isTold : Bool} (ht : w.posture? t = some (s, isTold)) :
    ∃ k, w.standing? t = some (k, s) := by
  obtain ⟨task, htask, heq⟩ := Option.map_eq_some_iff.mp ht
  exact ⟨task.document, by rw [standing?_of_getElem? htask, (Prod.mk.inj heq).1]⟩

theorem posture?_of_standing? (ht : w.standing? t = some (k, s)) :
    ∃ isTold, w.posture? t = some (s, isTold) := by
  obtain ⟨task, htask, -, rfl⟩ := standing?_eq_some.mp ht
  exact ⟨_, posture?_of_getElem? htask⟩

/-! ### Changes of one lock -/

/-- Who waits for a lock stands there. -/
theorem Serves.queueing {lock : Lock} (hs : w.Serves l lock) (ht : t ∈ lock.names) :
    ∃ ticket isTold, w.posture? t = some (.queueing ticket l, isTold) := by
  obtain ⟨y, hy, rfl⟩ := List.mem_map.mp ht
  obtain ⟨ticket, isTold, hposture, -⟩ := hs.calm y hy
  exact ⟨ticket, isTold, hposture⟩

/-- When only a task changes that does not have a lock, whoever has it keeps it. -/
theorem Holds.of_others {i : Nat} (hi : w.Holds i l) (ht : w.standing? t = some (k, s))
    (hs : s.held? ≠ some l) (hother : ∀ i, i ≠ t → w'.standing? i = w.standing? i) :
    w'.Holds i l := by
  have hit : i ≠ t := by
    rintro rfl
    obtain ⟨k', s', hi, hl⟩ := hi
    obtain ⟨rfl, rfl⟩ := Prod.mk.inj (Option.some.inj (ht.symm.trans hi))
    exact hs hl
  exact (holds_congr (hother i hit)).mpr hi

theorem Attentive.not_mem_names (ho : w.Attentive) (ht : w.standing? t = some (k, s))
    (hs : s.queued? ≠ some l) {lock : Lock} (hlock : w.locks[l]? = some lock) : t ∉ lock.names := by
  intro hmem
  obtain ⟨ticket, isTold, hposture⟩ := (ho.serves l lock hlock).queueing hmem
  obtain ⟨k', ht'⟩ := standing?_of_posture? hposture
  obtain ⟨-, rfl⟩ := Prod.mk.inj (Option.some.inj (ht.symm.trans ht'))
  exact hs rfl

/-- One lock may be changed along with some tasks that wait for no other one, if it serves those who
wait for it then. -/
theorem Attentive.change (ho : w.Attentive) {f : Lock → Lock} {p : Nat → Prop}
    (hlocks : w'.locks = w.locks.modify l f)
    (hsame : ∀ i, ¬p i → w'.posture? i = w.posture? i)
    (haway : ∀ i, p i → ∀ l' lock, l' ≠ l → w.locks[l']? = some lock → i ∉ lock.names)
    (hholds : ∀ i l', l' ≠ l → w.Holds i l' → w'.Holds i l')
    (hcounted : ∀ i ticket l' isTold, p i →
      w'.posture? i = some (.queueing ticket l', isTold) →
      l' = l ∧ ∃ lock, w.locks[l]? = some lock ∧ i ∈ (f lock).names)
    (hserves : ∀ lock, w.locks[l]? = some lock → w'.Serves l (f lock))
    (hkept : ∀ lock, w.locks[l]? = some lock → ∀ i ∈ lock.names, ¬p i → i ∈ (f lock).names) :
    w'.Attentive := by
  refine ⟨fun l' lock' hlock' => ?_, fun i ticket l' isTold hi => ?_⟩
  · rw [hlocks, List.getElem?_modify] at hlock'
    obtain ⟨lock, hlock, rfl⟩ := Option.map_eq_some_iff.mp hlock'
    by_cases hll : l = l'
    · subst hll
      simpa using hserves lock hlock
    · have hs := ho.serves l' lock hlock
      rw [if_neg hll]
      refine ⟨hs.once, fun hheld => ?_, hs.first, fun y hy => ?_⟩
      · obtain ⟨i, hi⟩ := hs.holder hheld
        exact ⟨i, hholds i l' (Ne.symm hll) hi⟩
      · have hnot : ¬p y.1 := fun ht =>
          haway y.1 ht l' lock (Ne.symm hll) hlock (Lock.mem_names hy)
        rw [hsame y.1 hnot]
        exact hs.calm y hy
  · rw [hlocks]
    by_cases hi' : p i
    · obtain ⟨rfl, lock, hlock, hmem⟩ := hcounted i ticket l' isTold hi' hi
      exact ⟨f lock, by simp [hlock], hmem⟩
    · obtain ⟨lock, hlock, hmem⟩ := ho.counted i ticket l' isTold (hsame i hi' ▸ hi)
      by_cases hll : l = l'
      · subst hll
        exact ⟨f lock, by simp [hlock], hkept lock hlock i hmem hi'⟩
      · exact ⟨lock, by simp [hlock, hll], hmem⟩

/-- Tasks may change as they like that wait for no lock and wait for none then, as long as no lock is
taken from them. -/
theorem Attentive.still (ho : w.Attentive) {p : Nat → Prop} (hlocks : w'.locks = w.locks)
    (hsame : ∀ i, ¬p i → w'.posture? i = w.posture? i)
    (haway : ∀ i, p i → ∀ (l : Nat) (lock : Lock), w.locks[l]? = some lock → i ∉ lock.names)
    (hholds : ∀ i l, w.Holds i l → w'.Holds i l)
    (hleft : ∀ i ticket l isTold, p i → w'.posture? i ≠ some (.queueing ticket l, isTold)) :
    w'.Attentive := by
  refine ho.change (l := w.locks.length) (f := id) (by rw [hlocks, List.modify_id]) hsame
    (fun i hi l' lock _ => haway i hi l' lock) (fun i l' _ => hholds i l')
    (fun i ticket l' isTold hi hq => absurd hq (hleft i ticket l' isTold hi)) ?_ ?_
  all_goals
    intro lock hlock
    simp at hlock

theorem Attentive.of_tasks (ho : w.Attentive) (htasks : w'.tasks = w.tasks)
    (hlocks : w'.locks = w.locks) : w'.Attentive :=
  ho.still (p := fun _ => False) hlocks (fun i _ => posture?_of_tasks htasks i)
    (fun _ => False.elim) (fun _ _ => (holds_congr (standing?_of_tasks htasks _)).mpr)
    fun _ _ _ _ => False.elim

theorem Attentive.wait (ho : w.Attentive) (ht : w.standing? t = some (k, s)) (hs : s.queued? = none)
    (hs' : s'.queued? = none) (hheld : ∀ l, s.held? = some l → s'.held? = some l) :
    (w.wait t s').Attentive := by
  refine ho.still (p := (· = t)) rfl (fun i hi => by rw [posture?_wait, if_neg hi]) ?_ ?_ ?_
  · rintro i rfl l lock hlock
    exact ho.not_mem_names ht (by simp [hs]) hlock
  · rintro i l ⟨k', s'', hi, hl⟩
    by_cases hit : i = t
    · subst hit
      obtain ⟨rfl, rfl⟩ := Prod.mk.inj (Option.some.inj (ht.symm.trans hi))
      exact ⟨k, s', by simp [ht], hheld l hl⟩
    · exact ⟨k', s'', by simp [hit, hi], hl⟩
  · rintro i ticket l isTold rfl hq
    obtain ⟨isTold', hposture⟩ := posture?_of_standing? ht
    rw [posture?_wait, if_pos rfl, hposture] at hq
    obtain ⟨rfl, -⟩ := Prod.mk.inj (Option.some.inj hq)
    simp [Stage.queued?] at hs'

theorem Attentive.signal (ho : w.Attentive) (ht : w.standing? t = some (k, s)) (hs : s.queued? = none)
    (ending : Ending (List ρ)) : (w.signal t ending).Attentive := by
  refine ho.still (p := (· = t)) rfl (fun i hi => by rw [posture?_signal, if_neg hi]) ?_
    (fun i l => (holds_congr (w.standing?_signal t i ending)).mpr) ?_
  · rintro i rfl l lock hlock
    exact ho.not_mem_names ht (by simp [hs]) hlock
  · rintro i ticket l isTold rfl hq
    obtain ⟨isTold', hposture⟩ := posture?_of_standing? ht
    rw [posture?_signal, if_pos rfl, hposture] at hq
    obtain ⟨rfl, -⟩ := Prod.mk.inj (Option.some.inj hq)
    simp [Stage.queued?] at hs

theorem Attentive.remember (ho : w.Attentive) (e : Event ρ) : (w.remember e).Attentive :=
  ho.of_tasks rfl rfl

theorem Attentive.start (ho : w.Attentive) (errand : Errand) (k : Nat) : (w.start errand k).Attentive := by
  have hlength : w.posture? w.tasks.length = none := by simp [posture?]
  refine ho.still (p := (· = w.tasks.length)) rfl (fun i hi => ?_) ?_ ?_ ?_
  · simp only [posture?, World.start]
    grind
  · rintro i rfl l lock hlock hmem
    obtain ⟨ticket, isTold, hposture⟩ := (ho.serves l lock hlock).queueing hmem
    simp [hlength] at hposture
  · rintro i l ⟨k', s, hi, hl⟩
    have hne : i ≠ w.tasks.length := fun hlast => by simp [hlast, standing?_length] at hi
    exact ⟨k', s, by rw [standing?_start, if_neg hne, hi], hl⟩
  · rintro i ticket l isTold rfl
    simp [posture?, World.start]

theorem Attentive.makeLock (ho : w.Attentive) (scheduler : Scheduler) :
    { w with locks := w.locks ++ [Lock.free], scheduler := scheduler }.Attentive := by
  refine ⟨fun l lock hlock => ?_, fun t ticket l isTold ht => ?_⟩
  · simp only [List.getElem?_append] at hlock
    split at hlock
    · have hs := ho.serves l lock hlock
      exact ⟨hs.once, hs.holder, hs.first, hs.calm⟩
    · obtain rfl := List.mem_singleton.mp (List.mem_of_getElem? hlock)
      exact ⟨by simp, by simp [Lock.free], by simp [Lock.free], by simp [Lock.free]⟩
  · obtain ⟨lock, hlock, hmem⟩ := ho.counted t ticket l isTold ht
    exact ⟨lock, by rw [List.getElem?_append_left (List.getElem?_eq_some_iff.mp hlock).1, hlock], hmem⟩

/-! ### How locks are taken and given back -/

theorem modify_leave (ho : w.Attentive) (ht : w.standing? t = some (k, s)) (hs : s.queued? = none)
    (g : Lock → Lock) : w.locks.modify l (fun lock => g (lock.leave t)) = w.locks.modify l g := by
  refine List.ext_getElem? fun l' => ?_
  simp only [List.getElem?_modify]
  cases hlock : w.locks[l']? with
  | none => rfl
  | some lock => simp [Lock.leave_of_not_mem (ho.not_mem_names ht (by simp [hs]) hlock)]

/-- A task may take a lock that it has waited for, or that it need not wait for. -/
theorem Attentive.take (ho : w.Attentive) (ht : w.standing? t = some (k, s))
    (hs : ∀ l', s.queued? = some l' → l' = l) (hheld : s.held? = none) (ticket : Ticket) :
    ({ w with locks := w.locks.modify l fun lock => (lock.leave t).take }.wait t
      (.computing ticket l)).Attentive := by
  have hother : ∀ i, i ≠ t →
      ({ w with locks := w.locks.modify l fun lock => (lock.leave t).take }.wait t
        (.computing ticket l)).posture? i = w.posture? i := by
    intro i hit
    rw [posture?_wait, if_neg hit]
    rfl
  have hstands : ({ w with locks := w.locks.modify l fun lock => (lock.leave t).take }.wait t
      (.computing ticket l)).standing? t = some (k, .computing ticket l) := by
    rw [standing?_wait, if_pos rfl]
    show Option.map _ (w.standing? t) = _
    rw [ht]
    rfl
  refine ho.change (p := (· = t)) rfl hother ?_ ?_ ?_ ?_ ?_
  · rintro i rfl l' lock hne hlock
    exact ho.not_mem_names ht (fun hq => hne (hs l' hq)) hlock
  · intro i l' _ hi
    refine hi.of_others ht (by simp [hheld]) fun i hit => ?_
    rw [standing?_wait, if_neg hit]
    rfl
  · rintro i ticket' l' isTold rfl hq
    obtain ⟨k', hq⟩ := standing?_of_posture? hq
    obtain ⟨-, hstage⟩ := Prod.mk.inj (Option.some.inj (hstands.symm.trans hq))
    simp at hstage
  · intro lock hlock
    have hserves := ho.serves l lock hlock
    refine ⟨?_, fun _ => ⟨t, k, _, hstands, rfl⟩, by simp [Lock.take], fun y hy => ?_⟩
    · rw [Lock.names_take, Lock.names_leave]
      exact hserves.once.filter _
    · rw [hother y.1 (Lock.ne_of_mem_leave lock y hy)]
      exact hserves.calm y (List.mem_filter.mp hy).1
  · intro lock hlock i hi hit
    simpa using ⟨hi, hit⟩

/-- A task may join those who wait for a lock that is not open. -/
theorem Attentive.queue (ho : w.Attentive) (ht : w.standing? t = some (k, s)) (hs : s.queued? = none)
    (hheld : s.held? = none) (hclosed : ∀ lock, w.locks[l]? = some lock → lock.isOpen = false)
    (hl : ∃ lock, w.locks[l]? = some lock) (ticket : Ticket) :
    ({ w with locks := w.locks.modify l (·.await t) }.wait t (.queueing ticket l)).Attentive := by
  obtain ⟨isTold, hposture⟩ := posture?_of_standing? ht
  have hother : ∀ i, i ≠ t → ({ w with locks := w.locks.modify l (·.await t) }.wait t
      (.queueing ticket l)).posture? i = w.posture? i := by
    intro i hit
    rw [posture?_wait, if_neg hit]
    rfl
  have hself : ({ w with locks := w.locks.modify l (·.await t) }.wait t
      (.queueing ticket l)).posture? t = some (.queueing ticket l, false) := by
    rw [posture?_wait, if_pos rfl]
    show Option.map _ (w.posture? t) = _
    rw [hposture]
    rfl
  have hholds : ∀ i l', w.Holds i l' → ({ w with locks := w.locks.modify l (·.await t) }.wait t
      (.queueing ticket l)).Holds i l' := by
    intro i l' hi
    refine hi.of_others ht (by simp [hheld]) fun i hit => ?_
    rw [standing?_wait, if_neg hit]
    rfl
  refine ho.change (p := (· = t)) rfl hother ?_ (fun i l' _ => hholds i l') ?_ ?_ ?_
  · rintro i rfl l' lock - hlock
    exact ho.not_mem_names ht (by simp [hs]) hlock
  · rintro i ticket' l' isTold' rfl hq
    obtain ⟨lock, hlock⟩ := hl
    obtain ⟨heq, -⟩ := Prod.mk.inj (Option.some.inj (hself.symm.trans hq))
    obtain ⟨-, rfl⟩ := Stage.queueing.inj heq
    exact ⟨rfl, lock, hlock, by simp⟩
  · intro lock hlock
    have hserves := ho.serves l lock hlock
    have hnew := ho.not_mem_names ht (l := l) (by simp [hs]) hlock
    refine ⟨?_, fun hheld => ?_, fun hheld => ?_, fun y hy => ?_⟩
    · rw [Lock.names_await]
      exact List.nodup_append.mpr ⟨hserves.once, by simp, by grind⟩
    · obtain ⟨i, hi⟩ := hserves.holder hheld
      exact ⟨i, hholds i l hi⟩
    · -- A lock that is free but not open has somebody waiting for it already.
      have hfree : lock.held = false := hheld
      have hsome := hclosed lock hlock
      have hfirst := hserves.first hfree
      cases hw : lock.waiters with
      | nil => simp [Lock.isOpen, hfree, hw] at hsome
      | cons first rest =>
          rw [hw] at hfirst
          simpa [Lock.await, hw] using hfirst
    · rcases List.mem_append.mp hy with hy | hy
      · have hyt : y.1 ≠ t := fun hyt => hnew (hyt ▸ Lock.mem_names hy)
        rw [hother y.1 hyt]
        exact hserves.calm y hy
      · obtain rfl := List.mem_singleton.mp hy
        exact ⟨ticket, false, hself, by simp⟩
  · intro lock hlock i hi _
    simp [hi]

/-- A lock is given back, and a task that has held it or waited for it is done with it. -/
theorem Attentive.handBack (ho : w.Attentive) (ht : w.standing? t = some (k, s))
    (hs : ∀ l', s.queued? = some l' → l' = l)
    (hlocks : w'.locks = w.locks.modify l fun lock => (lock.leave t).release.1)
    (hother : ∀ i, i ≠ t → w'.posture? i =
      if (w.locks[l]?).bind (fun lock => (lock.leave t).release.2) = some i then
        (w.posture? i).map fun x => (x.1, true)
      else w.posture? i)
    (hself : ∀ ticket l' isTold, w'.posture? t ≠ some (.queueing ticket l', isTold))
    (hholds : ∀ i l', l' ≠ l → w.Holds i l' → w'.Holds i l') : w'.Attentive := by
  have hwoken : ∀ i, (w.locks[l]?).bind (fun lock => (lock.leave t).release.2) = some i →
      i ≠ t ∧ ∃ lock, w.locks[l]? = some lock ∧ i ∈ lock.names := by
    intro i hi
    obtain ⟨lock, hlock, hr⟩ := Option.bind_eq_some_iff.mp hi
    have hmem := Lock.mem_names (Lock.woken_of_release hr)
    rw [Lock.names_release, Lock.names_leave, List.mem_filter] at hmem
    exact ⟨by simpa using hmem.2, lock, hlock, hmem.1⟩
  refine ho.change (p := fun i => i = t ∨
    (w.locks[l]?).bind (fun lock => (lock.leave t).release.2) = some i) hlocks ?_ ?_ hholds ?_ ?_ ?_
  · intro i hi
    rw [hother i fun hit => hi (.inl hit), if_neg fun hr => hi (.inr hr)]
  · rintro i (rfl | hi) l' lock' hne hlock'
    · exact ho.not_mem_names ht (fun hq => hne (hs l' hq)) hlock'
    · obtain ⟨-, lock, hlock, hmem⟩ := hwoken i hi
      obtain ⟨ticket, isTold, hposture⟩ := (ho.serves l lock hlock).queueing hmem
      obtain ⟨k', hi⟩ := standing?_of_posture? hposture
      exact ho.not_mem_names hi (by simpa [Stage.queued?] using Ne.symm hne) hlock'
  · rintro i ticket l' isTold (rfl | hi) hq
    · exact absurd hq (hself ticket l' isTold)
    · obtain ⟨hit, lock, hlock, hmem⟩ := hwoken i hi
      obtain ⟨ticket', isTold', hposture⟩ := (ho.serves l lock hlock).queueing hmem
      rw [hother i hit, if_pos hi, hposture] at hq
      obtain ⟨-, rfl⟩ := Stage.queueing.inj (Prod.mk.inj (Option.some.inj hq)).1
      exact ⟨rfl, lock, hlock, by simp [hmem, hit]⟩
  · intro lock hlock
    have hserves := ho.serves l lock hlock
    have hnodup : (lock.leave t).names.Nodup := by
      rw [Lock.names_leave]
      exact hserves.once.filter _
    refine ⟨by rwa [Lock.names_release], by simp [Lock.held_release],
      fun _ => Lock.head?_release _, fun y hy => ?_⟩
    have hr : (w.locks[l]?).bind (fun lock => (lock.leave t).release.2) =
        (lock.leave t).release.2 := by rw [hlock]; rfl
    rcases Lock.mem_release hnodup hy with ⟨hwakes, hstate⟩ | ⟨hnot, hy⟩
    · obtain ⟨hyt, lock', hlock', hmem⟩ := hwoken y.1 (hr.trans hwakes)
      obtain ⟨ticket, isTold, hposture⟩ := (ho.serves l lock' hlock').queueing hmem
      rw [hother y.1 hyt, if_pos (hr.trans hwakes), hposture]
      exact ⟨ticket, true, rfl, by simp [hstate]⟩
    · rw [hother y.1 (Lock.ne_of_mem_leave lock y hy), if_neg (by rwa [hr])]
      exact hserves.calm y (List.mem_filter.mp hy).1
  · intro lock hlock i hi hnot
    have hit : i ≠ t := fun hit => hnot (.inl hit)
    simp [hi, hit]

/-- A task that has a lock gives it back at its end. -/
theorem Attentive.close_releaseLock (ho : w.Attentive) (ht : w.standing? t = some (k, s))
    (hs : s.queued? = none) (hheld : s.held? = some l) (ending : Ending (Outcome ρ)) :
    ((w.close t ending).releaseLock l).Attentive := by
  have hleave : ∀ lock, w.locks[l]? = some lock → lock.leave t = lock := fun lock hlock =>
    Lock.leave_of_not_mem (ho.not_mem_names ht (by simp [hs]) hlock)
  have hbooks := (w.close t ending).sameBooks_releaseLock l
  refine ho.handBack (l := l) ht (by simp [hs]) ?_ (fun i hit => ?_) (fun ticket l' isTold hq => ?_) ?_
  · rw [locks_releaseLock, modify_leave ho ht hs fun lock => lock.release.1]
    rfl
  · have hbind : (w.locks[l]?).bind (fun lock => (lock.leave t).release.2) =
        (w.locks[l]?).bind (·.release.2) := by
      cases hlock : w.locks[l]? with
      | none => rfl
      | some lock => simp [hleave lock hlock]
    rw [posture?_releaseLock, posture?_close, if_neg hit, hbind]
    rfl
  · obtain ⟨k', hq⟩ := standing?_of_posture? hq
    rw [hbooks.standing?, standing?_close, if_pos rfl, ht] at hq
    simp at hq
  · intro i l' hne hi
    refine hi.of_others ht (by simpa [hheld] using Ne.symm hne) fun i hit => ?_
    rw [hbooks.standing?, standing?_close, if_neg hit]

/-- A task may leave those who wait for a lock that somebody has. -/
theorem Attentive.leave (ho : w.Attentive) (ht : w.standing? t = some (k, s))
    (hs : ∀ l', s.queued? = some l' → l' = l) (hlocks : w'.locks = w.locks.modify l (·.leave t))
    (hother : ∀ i, i ≠ t → w'.posture? i = w.posture? i)
    (hself : ∀ ticket l' isTold, w'.posture? t ≠ some (.queueing ticket l', isTold))
    (hholds : ∀ i l', w.Holds i l' → w'.Holds i l')
    (hheld : ∀ lock, w.locks[l]? = some lock → lock.held = true) : w'.Attentive := by
  refine ho.change (p := (· = t)) hlocks hother ?_ (fun i l' _ => hholds i l') ?_ ?_ ?_
  · rintro i rfl l' lock hne hlock
    exact ho.not_mem_names ht (fun hq => hne (hs l' hq)) hlock
  · rintro i ticket l' isTold rfl hq
    exact absurd hq (hself ticket l' isTold)
  · intro lock hlock
    have hserves := ho.serves l lock hlock
    refine ⟨?_, fun _ => ?_, by simp [Lock.leave, hheld lock hlock], fun y hy => ?_⟩
    · rw [Lock.names_leave]
      exact hserves.once.filter _
    · obtain ⟨i, hi⟩ := hserves.holder (hheld lock hlock)
      exact ⟨i, hholds i l hi⟩
    · rw [hother y.1 (Lock.ne_of_mem_leave lock y hy)]
      exact hserves.calm y (List.mem_filter.mp hy).1
  · intro lock hlock i hi hit
    simpa using ⟨hi, hit⟩

/-- A task that has waited for a lock may leave. -/
theorem Attentive.leaveQueue_close (ho : w.Attentive) {ticket : Ticket}
    (ht : w.standing? t = some (k, .queueing ticket l)) (ending : Ending (Outcome ρ)) :
    ((w.leaveQueue t l).close t ending).Attentive := by
  obtain ⟨isTold, hposture⟩ := posture?_of_standing? ht
  obtain ⟨lock, hlock, -⟩ := ho.counted t ticket l isTold hposture
  have hbooks := w.sameBooks_leaveQueue t l
  have hself : ∀ ticket l' isTold,
      ((w.leaveQueue t l).close t ending).posture? t ≠ some (.queueing ticket l', isTold) := by
    intro ticket l' isTold hq
    obtain ⟨k', hq⟩ := standing?_of_posture? hq
    rw [standing?_close, if_pos rfl, hbooks.standing?, ht] at hq
    simp at hq
  have hholds : ∀ i l', w.Holds i l' → ((w.leaveQueue t l).close t ending).Holds i l' := by
    intro i l' hi
    refine hi.of_others ht (by simp [Stage.held?]) fun i hit => ?_
    rw [standing?_close, if_neg hit, hbooks.standing?]
  have hqueued : ∀ l', (Stage.queueing ticket l : Stage ρ).queued? = some l' → l' = l := by
    simp [Stage.queued?, eq_comm]
  obtain ⟨lock', hlock', ⟨hheld, hleft⟩ | ⟨-, hleft⟩⟩ | ⟨hnone, -⟩ := w.leaveQueue_cases t l
  · rw [hleft] at hself hholds ⊢
    refine ho.leave ht hqueued rfl (fun i hit => ?_) hself hholds fun was hwas => ?_
    · rw [posture?_close, if_neg hit]
      rfl
    · obtain rfl := Option.some.inj (hlock'.symm.trans hwas)
      exact hheld
  · refine ho.handBack ht hqueued ?_ (fun i hit => ?_) hself fun i l' _ => hholds i l'
    · have hlocks : ((w.leaveQueue t l).close t ending).locks = (w.leaveQueue t l).locks := rfl
      rw [hlocks, hleft, locks_releaseLock, List.modify_modify_eq]
      rfl
    · rw [posture?_close, if_neg hit, hleft, posture?_releaseLock]
      simp [hlock', posture?]
  · simp [hlock] at hnone

/-- A task that waits for a lock is roused when it is asked to end, and waits there until it leaves. -/
theorem Attentive.cancel (ho : w.Attentive) {ticket : Ticket}
    (ht : w.standing? t = some (k, .queueing ticket l)) :
    ({ w with locks := w.locks.modify l (·.cancel t) }.signal t .cancelled).Attentive := by
  obtain ⟨isTold, hposture⟩ := posture?_of_standing? ht
  have hother : ∀ i, i ≠ t → ({ w with locks := w.locks.modify l (·.cancel t) }.signal t
      .cancelled).posture? i = w.posture? i := by
    intro i hit
    rw [posture?_signal, if_neg hit]
    rfl
  have hself : ({ w with locks := w.locks.modify l (·.cancel t) }.signal t
      .cancelled).posture? t = some (.queueing ticket l, true) := by
    rw [posture?_signal, if_pos rfl]
    show Option.map _ (w.posture? t) = _
    rw [hposture]
    rfl
  have hholds : ∀ i l', w.Holds i l' →
      ({ w with locks := w.locks.modify l (·.cancel t) }.signal t .cancelled).Holds i l' :=
    fun i l' => (holds_congr (standing?_signal ..)).mpr
  refine ho.change (p := (· = t)) rfl hother ?_ (fun i l' _ => hholds i l') ?_ ?_ ?_
  · rintro i rfl l' lock hne hlock
    exact ho.not_mem_names ht (by simpa [Stage.queued?] using Ne.symm hne) hlock
  · rintro i ticket' l' isTold' rfl hq
    obtain ⟨-, rfl⟩ := Stage.queueing.inj (Prod.mk.inj (Option.some.inj (hself.symm.trans hq))).1
    obtain ⟨lock, hlock, hmem⟩ := ho.counted i ticket l isTold hposture
    exact ⟨rfl, lock, hlock, by rwa [Lock.names_cancel]⟩
  · intro lock hlock
    have hserves := ho.serves l lock hlock
    refine ⟨by rw [Lock.names_cancel]; exact hserves.once, fun hheld => ?_, fun hheld =>
      Lock.head?_cancel (P := (· ≠ .asleep)) (by simp) (hserves.first hheld), fun y hy => ?_⟩
    · obtain ⟨i, hi⟩ := hserves.holder hheld
      exact ⟨i, hholds i l hi⟩
    · obtain ⟨x, hx, rfl⟩ := List.mem_map.mp hy
      by_cases hxt : x.1 = t
      · exact ⟨ticket, true, by simpa [hxt] using hself, by simp [hxt]⟩
      · simpa [hxt, hother x.1 hxt] using hserves.calm x hx
  · intro lock hlock i hi _
    rwa [Lock.names_cancel]

/-- A task may be asked to end. -/
theorem Attentive.cancelTask (ho : w.Attentive) (t : Nat) : (w.cancelTask t).2.Attentive := by
  have hstanding := (w.sameBooks_cancelTask t).standing?
  obtain ⟨heq, -⟩ | ⟨task, ht, -, ⟨-, heq⟩ | ⟨-, ⟨ticket, l, hs, heq⟩ | ⟨hqueued, heq⟩⟩⟩ :=
    w.cancelTask_cases t
  · rwa [heq]
  · rw [heq] at hstanding ⊢
    refine ho.still (p := fun _ => False) rfl (fun i _ => ?_) (fun _ => False.elim)
      (fun i l => (holds_congr (hstanding i)).mpr) fun _ _ _ _ => False.elim
    simp only [posture?, tasks_modifyTask, List.getElem?_modify]
    grind
  · rw [heq]
    exact ho.cancel (hs ▸ standing?_of_getElem? ht)
  · rw [heq]
    exact ho.signal (standing?_of_getElem? ht) hqueued _

/-! ### What every step keeps -/

/-- The locks that belong to addresses exist. -/
def Lodged (w : World η ρ) : Prop :=
  ∀ uri l, w.scheduler.locks.get? uri = some l → l < w.locks.length

theorem lodged_initial (host : η) : (initial host : World η ρ).Lodged := by
  intro uri l hl
  simp [initial, show (∅ : Scheduler).locks.get? uri = none from rfl] at hl

theorem Lodged.of_same (hk : w.Lodged) (hscheduler : w'.scheduler.locks = w.scheduler.locks)
    (hlength : w'.locks.length = w.locks.length) : w'.Lodged := by
  rwa [Lodged, hscheduler, hlength]

theorem Lodged.obeyAll (hk : w.Lodged) (host : η) (cs : List Command) :
    ({ w with host := host }.obeyAll cs).Lodged := by
  have hk' : { w with host := host }.Lodged := hk
  generalize { w with host := host } = v at hk'
  induction cs generalizing v with
  | nil => exact hk'
  | cons c cs ih =>
      refine ih (v.obey c) ?_
      cases c with
      | edit uri text =>
          rw [obey, edit]
          split
          · exact hk'.of_same rfl rfl
          · exact hk'
      | cancel uri => exact hk'.of_same (v.scheduler.locks_cancel uri) rfl
      | invalidate => exact hk'
      | forget uri =>
          intro u l hl
          refine hk' u l ?_
          simp only [obey, forget, remember] at hl
          split at hl
          · exact hl
          · simp only [Scheduler.dropLock, Scheduler.forget, Keyed.get?_erase] at hl
            split at hl
            · simp at hl
            · exact hl

theorem length_locks_releaseLock (w : World η ρ) (l : Nat) :
    (w.releaseLock l).locks.length = w.locks.length := by
  rw [locks_releaseLock, List.length_modify]

theorem length_locks_leaveQueue (w : World η ρ) (t l : Nat) :
    (w.leaveQueue t l).locks.length = w.locks.length := by
  obtain ⟨lock, -, ⟨-, heq⟩ | ⟨-, heq⟩⟩ | ⟨-, heq⟩ := w.leaveQueue_cases t l <;>
    simp [heq, length_locks_releaseLock]

theorem length_locks_cancelTask (w : World η ρ) (t : Nat) :
    (w.cancelTask t).2.locks.length = w.locks.length := by
  obtain ⟨heq, -⟩ | ⟨-, -, -, ⟨-, heq⟩ | ⟨-, ⟨ticket, l, -, heq⟩ | ⟨-, heq⟩⟩⟩ := w.cancelTask_cases t <;>
    simp [heq]

theorem locks_tellTask (w : World η ρ) (c t : Nat) : (w.tellTask c t).locks = w.locks := by
  obtain ⟨ending, -, -, -, -, -, heq⟩ | ⟨heq, -⟩ := w.tellTask_cases c t <;> rw [heq]
  rfl

theorem Step.lodged {free : Bool} (hs : Step h free w w') (hk : w.Lodged) : w'.Lodged := by
  cases hs with
  | obey c => exact hk.obeyAll w.host [c]
  | hosted => exact hk.obeyAll _ _
  | makeLock uri hnone =>
      intro u l hl
      simp only [Scheduler.setLock, Keyed.get?_set] at hl
      rw [List.length_append, List.length_singleton]
      split at hl
      · exact Option.some.inj hl ▸ Nat.lt_succ_self _
      · exact Nat.lt_succ_of_lt (hk u l hl)
  | cancelTask t =>
      exact hk.of_same (by rw [(w.sameBooks_cancelTask t).scheduler]) (w.length_locks_cancelTask t)
  | @tell c t hturn =>
      exact hk.of_same (by rw [(w.sameBooks_tellTask c t).scheduler]) (by rw [locks_tellTask])
  | release c ending =>
      have hsame := w.sameTasks_release c ending
      exact hk.of_same (by rw [hsame.scheduler]) (by rw [hsame.locks])
  | finish c =>
      have hsame := w.sameTasks_finishComputation c
      exact hk.of_same (by rw [hsame.scheduler]) (by rw [hsame.locks])
  | @ask t task d ht hd hs =>
      have hsame := sameTasks_lookUp
        ((w.wait t .detecting).remember (.asked t task.document d.uri)) t .detection d
      exact hk.of_same (by rw [hsame.scheduler]; rfl) (by rw [hsame.locks]; rfl)
  | @lookUp t task d ticket l ht hd hs hv =>
      have hsame := w.sameTasks_lookUp t .refresh d
      exact hk.of_same (by rw [hsame.scheduler]) (by rw [hsame.locks])
  | @quit t task l ht hs ending =>
      have hbooks := sameBooks_releaseLock (w.close t ending) l
      exact hk.of_same (by rw [hbooks.scheduler]; rfl) (length_locks_releaseLock ..)
  | @leave t task ticket l ht hs hasked =>
      have hbooks := w.sameBooks_leaveQueue t l
      refine hk.of_same ?_ (w.length_locks_leaveQueue t l)
      show (w.leaveQueue t l).scheduler.locks = _
      rw [hbooks.scheduler]
  | @last t task ticket l delivery count ht hs ending ending' =>
      have hbooks := sameBooks_releaseLock (((w.wait t
        (.pausing ticket l (afterChunk h delivery))).remember (.taken t ending)).close t ending') l
      exact hk.of_same (by rw [hbooks.scheduler]; rfl) (length_locks_releaseLock ..)
  | acquire | queue | wake => exact hk.of_same rfl (by simp)
  | _ => exact hk.of_same rfl rfl

/-- What holds together of locks, at any time. -/
structure Unblocked (w : World η ρ) : Prop where
  locked : w.Locked
  attentive : w.Attentive
  lodged : w.Lodged

theorem unblocked_initial (host : η) : (initial host : World η ρ).Unblocked :=
  ⟨locked_initial host, attentive_initial host, lodged_initial host⟩

theorem Attentive.step (ho : w.Attentive) (hl : w.Locked) (hk : w.Lodged) {free : Bool}
    (hs : Step h free w w') : w'.Attentive := by
  cases hs with
  | pass | openDocument | editAt => exact ho.of_tasks rfl rfl
  | obey c => exact ho.of_tasks (tasks_obey ..) (w.obey_frame c).1
  | @hosted host commands hhost =>
      exact ho.of_tasks (tasks_obeyAll ..) (obeyAll_frame { w with host := host } commands).1
  | start errand k => exact ho.start errand k
  | cancelTask t => exact ho.cancelTask t
  | release c ending =>
      have hsame := w.sameTasks_release c ending
      exact ho.of_tasks hsame.tasks hsame.locks
  | finish c =>
      have hsame := w.sameTasks_finishComputation c
      exact ho.of_tasks hsame.tasks hsame.locks
  | @tell c t hturn =>
      obtain ⟨k, s, ht, hlate⟩ := hl.told c t hturn
      have hqueued : s.queued? = none := by cases s <;> simp_all [Stage.isLate, Stage.queued?]
      obtain ⟨ending, -, -, -, -, -, heq⟩ | ⟨heq, -⟩ := w.tellTask_cases c t <;> rw [heq]
      · exact ho.signal ht hqueued ending
      · exact ho
  | nudge ht hs =>
      refine ho.signal (standing?_of_getElem? ht) ?_ _
      rename_i task
      cases hstage : task.stage <;> simp_all [Stage.isAsleep, Stage.isApplying, Stage.queued?]
  | close ht hs ending =>
      refine (ho.wait (standing?_of_getElem? ht) ?_ rfl ?_).remember _
      all_goals rcases hs with hs | ⟨ticket, hs⟩ <;> simp [hs, Stage.queued?, Stage.held?]
  | answer ht hs ending =>
      refine ho.wait (standing?_of_getElem? ht) ?_ rfl ?_
      all_goals rcases hs with hs | hs <;> simp [hs, Stage.queued?, Stage.held?]
  | @ask t task d ht hd hs =>
      have hsame := sameTasks_lookUp
        ((w.wait t .detecting).remember (.asked t task.document d.uri)) t .detection d
      refine Attentive.of_tasks (w := w.wait t .detecting) ?_ hsame.tasks hsame.locks
      exact ho.wait (standing?_of_getElem? ht) (by rw [hs]; rfl) rfl (by simp [hs, Stage.held?])
  | @draw t task d ht hd hs =>
      have hdrawn : { w with scheduler := w.scheduler.draw d.uri }.Attentive := ho.of_tasks rfl rfl
      refine Attentive.remember (hdrawn.wait (k := task.document) (s := task.stage) ?_ (by rw [hs]; rfl)
        rfl (by simp [hs, Stage.held?])) _
      exact standing?_of_getElem? ht
  | makeLock => exact ho.makeLock _
  | @acquire t task d ticket l lock ht hd hs hc huri hlock hopen =>
      have hstands := standing?_of_getElem? ht
      have htaken := ho.take (l := l) hstands (by simp [hs, Stage.queued?])
        (by simp [hs, Stage.held?]) ticket
      rwa [modify_leave ho hstands (by simp [hs, Stage.queued?]) fun lock => lock.take] at htaken
  | @queue t task d ticket l ht hd hs hc huri hclosed =>
      refine ho.queue (standing?_of_getElem? ht) (by rw [hs]; rfl) (by rw [hs]; rfl) hclosed ?_ ticket
      exact ⟨_, List.getElem?_eq_getElem (hk _ _ huri)⟩
  | @wake t task ticket l ending ht hs =>
      exact ho.take (standing?_of_getElem? ht) (by simp [hs, Stage.queued?, eq_comm])
        (by simp [hs, Stage.held?]) ticket
  | @quit t task l ht hs ending =>
      obtain ⟨hqueued, hheld⟩ := Stage.queued?_of_idle? hs
      exact ho.close_releaseLock (standing?_of_getElem? ht) hqueued hheld ending
  | @leave t task ticket l ht hs hasked =>
      exact ho.leaveQueue_close (hs ▸ standing?_of_getElem? ht) _
  | @lookUp t task d ticket l ht hd hs hv =>
      have hsame := w.sameTasks_lookUp t .refresh d
      exact ho.of_tasks hsame.tasks hsame.locks
  | @hand t task d ticket l delivery ht hd hv hs =>
      refine (ho.wait (standing?_of_getElem? ht) ?_ rfl ?_).remember _
      all_goals rcases hs with hs | ⟨hs, -⟩ <;> simp [hs, Stage.queued?, Stage.held?]
  | revisit ht hs =>
      exact ho.wait (standing?_of_getElem? ht) (by rw [hs]; rfl) rfl (by simp [hs, Stage.held?])
  | taken ht hs hmore =>
      exact (ho.wait (standing?_of_getElem? ht) (by rw [hs]; rfl) rfl
        (by simp [hs, Stage.held?])).remember _
  | @last t task ticket l delivery count ht hs ending ending' =>
      have htaken : ((w.wait t (.pausing ticket l (afterChunk h delivery))).remember
          (.taken t ending)).Attentive :=
        (ho.wait (standing?_of_getElem? ht) (by rw [hs]; rfl) rfl
          (by simp [hs, Stage.held?])).remember _
      exact htaken.close_releaseLock (s := .pausing ticket l (afterChunk h delivery))
        (standing?_of_getElem? (getElem?_wait ht _)) rfl rfl ending'

theorem Unblocked.step (hu : w.Unblocked) {free : Bool} (hs : Step h free w w') : w'.Unblocked :=
  ⟨hu.locked.step hs, hu.attentive.step hu.locked hu.lodged hs, hs.lodged hu.lodged⟩

theorem Unblocked.of_sameTasks (hu : w.Unblocked) (hsame : w.SameTasks w') (hl : w'.Locked) :
    w'.Unblocked :=
  ⟨hl, hu.attentive.of_tasks hsame.tasks hsame.locks,
    hu.lodged.of_same (by rw [hsame.scheduler]) (by rw [hsame.locks])⟩

theorem Unblocked.obeyAll (hu : w.Unblocked) (host : η) (cs : List Command) :
    ({ w with host := host }.obeyAll cs).Unblocked :=
  ⟨hu.locked.obeyAll host cs,
    hu.attentive.of_tasks (tasks_obeyAll ..) (obeyAll_frame { w with host := host } cs).1,
    hu.lodged.obeyAll host cs⟩

theorem Unblocked.act (hu : w.Unblocked) (a : Act ρ) : (w.act h a).Unblocked := by
  refine act_induction (fun _ _ _ hs hu => hu.step hs) (fun v c hu => ?_) (fun v c hu => ?_) hu a
  · obtain ⟨host, commands, hsame⟩ := v.sameTasks_beginComputation h c
    exact (hu.obeyAll host commands).of_sameTasks hsame (hu.locked.beginComputation c)
  · exact hu.of_sameTasks (v.sameTasks_settleComputation c) (hu.locked.settleComputation c)

end World

end Swatch

/-!
Locks that are handed on in the order in which they were asked for. A lock that is given back wakes
the first who waits; until that one has run, the lock is free but taken by nobody else.
-/

namespace Swatch

inductive Lock.Waiter where
  | asleep
  | woken
  | cancelled
  deriving DecidableEq, Repr

structure Lock where
  held : Bool
  waiters : List (Nat × Lock.Waiter)
  deriving DecidableEq, Repr

namespace Lock

def free : Lock := ⟨false, []⟩

instance : Inhabited Lock := ⟨free⟩

def isOpen (l : Lock) : Bool :=
  !l.held && l.waiters.all (·.2 = .cancelled)

def take (l : Lock) : Lock :=
  { l with held := true }

def await (l : Lock) (task : Nat) : Lock :=
  { l with waiters := l.waiters ++ [(task, .asleep)] }

def leave (l : Lock) (task : Nat) : Lock :=
  { l with waiters := l.waiters.filter (·.1 ≠ task) }

def cancel (l : Lock) (task : Nat) : Lock :=
  { l with waiters := l.waiters.map fun w => if w.1 = task then (w.1, .cancelled) else w }

def wakeFirst (l : Lock) : Lock × Option Nat :=
  match l.waiters with
  | (task, .asleep) :: rest => ({ l with waiters := (task, .woken) :: rest }, some task)
  | _ => (l, none)

def release (l : Lock) : Lock × Option Nat :=
  wakeFirst { l with held := false }

/-- Only the first who waits may be woken, and only while nobody has the lock. -/
structure Sound (l : Lock) : Prop where
  first : ∀ x ∈ l.waiters.tail, x.2 ≠ .woken
  open_of_woken : ∀ x ∈ l.waiters, x.2 = .woken → l.held = false

theorem sound_free : free.Sound :=
  ⟨by simp [free], by simp [free]⟩

theorem not_held_of_isOpen {l : Lock} (hopen : l.isOpen = true) : l.held = false := by
  simp only [isOpen, Bool.and_eq_true, Bool.not_eq_true'] at hopen
  exact hopen.1

theorem not_woken_of_isOpen {l : Lock} (hopen : l.isOpen = true) :
    ∀ x ∈ l.waiters, x.2 ≠ .woken := by
  simp only [isOpen, Bool.and_eq_true, List.all_eq_true, decide_eq_true_eq] at hopen
  intro x hx
  simp [hopen.2 x hx]

theorem Sound.take {l : Lock} (hnone : ∀ x ∈ l.waiters, x.2 ≠ .woken) : l.take.Sound :=
  ⟨fun x hx => hnone x (List.mem_of_mem_tail hx), fun x hx hwoken => absurd hwoken (hnone x hx)⟩

theorem Sound.await {l : Lock} (hl : l.Sound) (task : Nat) : (l.await task).Sound := by
  refine ⟨fun x hx => ?_, fun x hx hwoken => ?_⟩
  · have : x ∈ l.waiters.tail ++ [(task, .asleep)] := by
      cases hw : l.waiters <;> simp_all [Lock.await]
    rcases List.mem_append.mp this with hx | hx
    · exact hl.first x hx
    · simp_all
  · rcases List.mem_append.mp hx with hx | hx
    · exact hl.open_of_woken x hx hwoken
    · simp_all

theorem Sound.leave {l : Lock} (hl : l.Sound) (task : Nat) : (l.leave task).Sound := by
  refine ⟨fun x hx => hl.first x ?_, fun x hx => hl.open_of_woken x (List.mem_filter.mp hx).1⟩
  cases hw : l.waiters with
  | nil => simp [Lock.leave, hw] at hx
  | cons first rest =>
      simp only [Lock.leave, hw, List.filter_cons] at hx
      split at hx
      · exact (List.mem_filter.mp hx).1
      · exact (List.mem_filter.mp (List.mem_of_mem_tail hx)).1

theorem Sound.cancel {l : Lock} (hl : l.Sound) (task : Nat) : (l.cancel task).Sound := by
  refine ⟨fun x hx => ?_, fun x hx hwoken => ?_⟩
  · simp only [Lock.cancel, ← List.map_tail, List.mem_map] at hx
    obtain ⟨y, hy, rfl⟩ := hx
    have := hl.first y hy
    grind
  · obtain ⟨y, hy, rfl⟩ := List.mem_map.mp hx
    exact hl.open_of_woken y hy (by grind)

theorem Sound.wakeFirst {l : Lock} (hl : l.Sound) (hheld : l.held = false) :
    l.wakeFirst.1.Sound := by
  rw [Lock.wakeFirst]
  split
  · rename_i task rest hw
    exact ⟨by simpa [hw] using hl.first, fun _ _ _ => hheld⟩
  · exact hl

theorem Sound.release {l : Lock} (hl : l.Sound) : l.release.1.Sound :=
  Sound.wakeFirst (l := { l with held := false }) ⟨hl.first, fun _ _ _ => rfl⟩ rfl

theorem exists_of_mem_release {l : Lock} {y : Nat × Waiter} (hy : y ∈ l.release.1.waiters) :
    ∃ x, (y.1, x) ∈ l.waiters := by
  simp only [release, wakeFirst] at hy
  split at hy
  · rename_i task rest hw
    rcases List.mem_cons.mp hy with rfl | hy
    · exact ⟨.asleep, by simp [hw]⟩
    · exact ⟨y.2, by simp [hw, hy]⟩
  · exact ⟨y.2, hy⟩

theorem woken_mem_release {l : Lock} {task : Nat} (hwoken : (task, .woken) ∈ l.waiters) :
    (task, .woken) ∈ l.release.1.waiters := by
  simp only [release, wakeFirst]
  split
  · rename_i first rest hw
    simp_all
  · exact hwoken

theorem woken_of_release {l : Lock} {task : Nat} (hr : l.release.2 = some task) :
    (task, .woken) ∈ l.release.1.waiters := by
  simp only [release, wakeFirst] at hr ⊢
  split at hr
  · simp_all
  · simp at hr

theorem ne_of_mem_leave {task : Nat} (l : Lock) : ∀ y ∈ (l.leave task).waiters, y.1 ≠ task := by
  intro y hy
  simpa using (List.mem_filter.mp hy).2

theorem Sound.leave_woken {l : Lock} (hl : l.Sound) {task : Nat}
    (hwoken : (task, .woken) ∈ l.waiters) : ∀ x ∈ (l.leave task).waiters, x.2 ≠ .woken := by
  intro x hx
  obtain ⟨hmem, hne⟩ := List.mem_filter.mp hx
  cases hw : l.waiters with
  | nil => simp [hw] at hmem
  | cons first rest =>
      have hfirst : first = (task, .woken) := by
        rw [hw, List.mem_cons] at hwoken
        refine (hwoken.resolve_right fun hrest => ?_).symm
        exact hl.first _ (by rwa [hw]) rfl
      rw [hw, List.mem_cons] at hmem
      refine hl.first x ?_
      rw [hw]
      exact hmem.resolve_left fun heq => by simp [heq, hfirst] at hne

end Lock

end Swatch

import Swatch.Keyed

/-!
The books of a scheduler of refreshes. A refresh draws a number for its document, and goes on only
while the number is the last one drawn for it. Numbers are drawn from one row for all documents, so
that a document that was forgotten and opened again never sees a number twice.
-/

namespace Swatch

inductive Status where
  | applied
  | stale
  | superseded
  | skipped
  deriving DecidableEq, Repr

namespace Status

def name : Status → String
  | .applied => "applied"
  | .stale => "stale"
  | .superseded => "superseded"
  | .skipped => "skipped"

def all : List Status :=
  [.applied, .stale, .superseded, .skipped]

end Status

/-- The outcome of a refresh: how it ended, for which version, the records that were found, and how
many of them were handed on. -/
structure Outcome (ρ : Type) where
  status : Status
  version : Int
  records : List ρ
  applied : Nat
  deriving DecidableEq, Repr

/-- The books of a scheduler: the last number of each document, how many numbers were drawn, the
lock of each document, and how each refresh ended. -/
structure Scheduler where
  generations : Keyed String Nat
  drawn : Nat
  locks : Keyed String Nat
  ended : List Status

namespace Scheduler

def empty : Scheduler := ⟨∅, 0, ∅, []⟩

instance : EmptyCollection Scheduler := ⟨empty⟩

instance : Inhabited Scheduler := ⟨empty⟩

def next (s : Scheduler) : Nat :=
  s.drawn + 1

def draw (s : Scheduler) (key : String) : Scheduler :=
  { s with generations := s.generations.set key s.next, drawn := s.next }

def isCurrent (s : Scheduler) (key : String) (generation : Nat) : Bool :=
  s.generations.get? key = some generation

def cancel (s : Scheduler) (key : String) : Scheduler :=
  if s.generations.contains key then s.draw key else s

def forget (s : Scheduler) (key : String) : Scheduler :=
  { s with generations := s.generations.erase key }

def dropLock (s : Scheduler) (key : String) : Scheduler :=
  { s with locks := s.locks.erase key }

def setLock (s : Scheduler) (key : String) (lock : Nat) : Scheduler :=
  { s with locks := s.locks.set key lock }

def note (s : Scheduler) (status : Status) : Scheduler :=
  { s with ended := s.ended ++ [status] }

def count (s : Scheduler) (status : Status) : Nat :=
  s.ended.count status

def documents (s : Scheduler) : Nat :=
  s.generations.size

/-- Where an address is drawn for, a number that was drawn before is not the last one. -/
theorem isCurrent_draw {s : Scheduler} {g : Nat} (hg : g ≤ s.drawn)
    {uri u : String} (hc : (s.draw u).isCurrent uri g = true) :
    s.isCurrent uri g = true ∧ u ≠ uri := by
  simp only [Scheduler.isCurrent, Scheduler.draw, Keyed.get?_set, Scheduler.next,
    decide_eq_true_eq] at hc ⊢
  split at hc
  · simp only [Option.some.injEq] at hc
    omega
  · exact ⟨hc, by grind⟩

theorem isCurrent_cancel {s : Scheduler} {g : Nat} (hg : g ≤ s.drawn)
    {uri u : String} (hc : (s.cancel u).isCurrent uri g = true) :
    s.isCurrent uri g = true ∧ u ≠ uri := by
  rw [Scheduler.cancel] at hc
  split at hc
  · exact Scheduler.isCurrent_draw hg hc
  · rename_i hcontains
    refine ⟨hc, fun hu => hcontains ?_⟩
    rw [Keyed.contains_eq_isSome, hu, of_decide_eq_true hc]
    rfl

theorem isCurrent_forget {s : Scheduler} {g : Nat} {uri u : String}
    (hc : (s.forget u).isCurrent uri g = true) : s.isCurrent uri g = true ∧ u ≠ uri := by
  simp only [Scheduler.isCurrent, Scheduler.forget, Keyed.get?_erase, decide_eq_true_eq] at hc ⊢
  split at hc
  · simp at hc
  · exact ⟨hc, by grind⟩

theorem locks_cancel (s : Scheduler) (u : String) : (s.cancel u).locks = s.locks := by
  rw [cancel]
  split <;> rfl

theorem drawn_le_cancel (s : Scheduler) (u : String) :
    s.drawn ≤ (s.cancel u).drawn := by
  rw [Scheduler.cancel]
  split
  · exact Nat.le_succ _
  · exact Nat.le_refl _

theorem le_drawn_draw {s : Scheduler}
    (hs : ∀ uri g, s.generations.get? uri = some g → g ≤ s.drawn) (u : String) :
    ∀ uri g, (s.draw u).generations.get? uri = some g → g ≤ (s.draw u).drawn := by
  intro uri g hg
  simp only [Scheduler.draw, Scheduler.next, Keyed.get?_set] at hg ⊢
  split at hg
  · grind
  · exact Nat.le_succ_of_le (hs uri g hg)

theorem le_drawn_cancel {s : Scheduler}
    (hs : ∀ uri g, s.generations.get? uri = some g → g ≤ s.drawn) (u : String) :
    ∀ uri g, (s.cancel u).generations.get? uri = some g → g ≤ (s.cancel u).drawn := by
  rw [Scheduler.cancel]
  split
  · exact Scheduler.le_drawn_draw hs u
  · exact hs

end Scheduler

end Swatch

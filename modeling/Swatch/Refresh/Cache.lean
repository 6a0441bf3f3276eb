import Swatch.Keyed

/-!
A cache of results, one slot a key. A slot holds the records of exactly one version, and only that
version is answered from it. Of a version that is being computed, the cache knows the computation,
so that all who ask for it share one.
-/

namespace Swatch

inductive Ending (α : Type) where
  | finished (value : α)
  | failed (message : String)
  | cancelled
  deriving DecidableEq, Repr

def Ending.isCancelled {α : Type} : Ending α → Bool
  | .cancelled => true
  | _ => false

@[simp] theorem Ending.isCancelled_iff {α : Type} {ending : Ending α} :
    ending.isCancelled = true ↔ ending = .cancelled := by
  cases ending <;> simp [isCancelled]

namespace Cache

/-- The records of one version, and how often they were asked for. -/
structure Entry (ρ : Type) where
  version : Int
  records : List ρ
  uses : Nat
  deriving DecidableEq, Repr

end Cache

/-- A cache: settled entries by key, the computations under way by key and version, and how often
an answer was at hand, was not, and was being computed. -/
structure Cache (ρ : Type) where
  entries : Keyed String (Cache.Entry ρ)
  pending : Keyed (String × Int) Nat
  hits : Nat
  misses : Nat
  joins : Nat

namespace Cache

variable {ρ : Type}

def empty : Cache ρ := ⟨∅, ∅, 0, 0, 0⟩

instance : EmptyCollection (Cache ρ) := ⟨empty⟩

instance : Inhabited (Cache ρ) := ⟨empty⟩

def held? (c : Cache ρ) (key : String) (version : Int) : Option (List ρ) :=
  match c.entries.get? key with
  | some entry => if entry.version = version then some entry.records else none
  | none => none

/-- Looks up the records of a key at a version, and counts the attempt. -/
def get (c : Cache ρ) (key : String) (version : Int) : Option (List ρ) × Cache ρ :=
  match c.entries.get? key with
  | some entry =>
    if entry.version = version then
      (some entry.records,
        { c with
          entries := c.entries.set key { entry with uses := entry.uses + 1 }
          hits := c.hits + 1 })
    else (none, { c with misses := c.misses + 1 })
  | none => (none, { c with misses := c.misses + 1 })

def set (c : Cache ρ) (key : String) (version : Int) (records : List ρ) : Cache ρ :=
  { c with entries := c.entries.set key ⟨version, records, 0⟩ }

def delete (c : Cache ρ) (key : String) : Cache ρ :=
  { c with entries := c.entries.erase key, pending := c.pending.filter fun k _ => k.1 ≠ key }

def clear (c : Cache ρ) : Cache ρ :=
  { c with entries := ∅, pending := ∅ }

def invalidate (c : Cache ρ) : Cache ρ :=
  { c with entries := ∅ }

def clearCounts (c : Cache ρ) : Cache ρ :=
  { c with hits := 0, misses := 0, joins := 0 }

def begin (c : Cache ρ) (key : String) (version : Int) (computation : Nat) : Cache ρ :=
  { c with pending := c.pending.set (key, version) computation }

def join (c : Cache ρ) : Cache ρ :=
  { c with joins := c.joins + 1 }

/-- Takes in the end of a computation, unless it was forgotten meanwhile. Records are held unless
those of a later version are. -/
def settle (c : Cache ρ) (key : String) (version : Int) (computation : Nat)
    (ending : Ending (List ρ)) : Cache ρ :=
  if c.pending.get? (key, version) = some computation then
    let settled := { c with pending := c.pending.erase (key, version) }
    match ending, c.entries.get? key with
    | .finished records, some entry =>
      if version < entry.version then settled else settled.set key version records
    | .finished records, none => settled.set key version records
    | _, _ => settled
  else c

/-- Whether a computation is under way for a key, at a version or at any. -/
def hasPending (c : Cache ρ) (key : String) (version : Option Int) : Bool :=
  match version with
  | some v => c.pending.contains (key, v)
  | none => c.pending.keys.any (·.1 = key)

def contains (c : Cache ρ) (key : String) : Bool :=
  c.entries.contains key

def size (c : Cache ρ) : Nat :=
  c.entries.size

def pendingCount (c : Cache ρ) : Nat :=
  c.pending.size

def hitRatio (c : Cache ρ) : Float :=
  if c.hits + c.misses = 0 then 0.0 else c.hits.toFloat / (c.hits + c.misses).toFloat

@[simp] theorem held?_get (c : Cache ρ) (key k : String) (version v : Int) :
    (c.get key version).2.held? k v = c.held? k v := by
  simp only [get]
  split
  · rename_i entry hentry
    split
    · simp only [held?, Keyed.get?_set]
      by_cases hk : k = key
      · simp [hk, hentry]
      · simp [hk]
    · rfl
  · rfl

@[simp] theorem pending_get (c : Cache ρ) (key : String) (version : Int) :
    (c.get key version).2.pending = c.pending := by
  simp only [get]
  repeat' split
  all_goals rfl

theorem get_fst (c : Cache ρ) (key : String) (version : Int) :
    (c.get key version).1 = c.held? key version := by
  simp only [get, held?]
  repeat' split
  all_goals rfl

theorem held?_set (c : Cache ρ) (key k : String) (version v : Int) (records : List ρ) :
    (c.set key version records).held? k v =
      if k = key then if version = v then some records else none else c.held? k v := by
  simp only [held?, set, Keyed.get?_set]
  by_cases hk : k = key <;> simp [hk]

theorem held?_delete (c : Cache ρ) (key k : String) (v : Int) :
    (c.delete key).held? k v = if k = key then none else c.held? k v := by
  simp only [held?, delete, Keyed.get?_erase]
  split <;> simp_all

theorem pending_delete (c : Cache ρ) (key : String) (k : String × Int) :
    (c.delete key).pending.get? k = if k.1 = key then none else c.pending.get? k := by
  simp only [delete]
  rw [Keyed.get?_filter_key c.pending (fun k' => decide (k'.1 ≠ key))]
  by_cases hk : k.1 = key <;> simp [hk]

theorem held?_invalidate (c : Cache ρ) (key : String) (version : Int) :
    c.invalidate.held? key version = none := by
  simp [held?, invalidate]

/-- Records that are held once a computation has been settled were held before, or the computation
was under way and has found them, and none of a later version were held. -/
theorem held?_settle {c : Cache ρ} {key k : String} {version v : Int} {computation : Nat}
    {ending : Ending (List ρ)} {records : List ρ}
    (hheld : (c.settle key version computation ending).held? k v = some records) :
    c.held? k v = some records ∨ k = key ∧ v = version ∧ ending = .finished records ∧
      c.pending.get? (key, version) = some computation ∧
      ∀ entry, c.entries.get? key = some entry → entry.version ≤ version := by
  simp only [settle] at hheld
  split at hheld
  · rename_i hpending
    split at hheld
    · rename_i records' entry hentry
      split at hheld
      · exact .inl hheld
      · rename_i hle
        simp only [set, held?, Keyed.get?_set] at hheld ⊢
        by_cases hk : k = key
        · simp_all
        · simp_all
    · rename_i records' hnone
      simp only [set, held?, Keyed.get?_set] at hheld ⊢
      by_cases hk : k = key <;> simp_all
    · exact .inl hheld
  · exact .inl hheld

/-- The records of a computation that is under way are held once it has been settled, unless those
of a later version are. -/
theorem held?_settle_self {c : Cache ρ} {key : String} {version : Int} {computation : Nat}
    (hpending : c.pending.get? (key, version) = some computation)
    (hnewest : ∀ entry, c.entries.get? key = some entry → entry.version ≤ version)
    (records : List ρ) :
    (c.settle key version computation (.finished records)).held? key version = some records := by
  simp only [settle, if_pos hpending]
  split
  · rename_i records' entry hrecords hentry
    obtain rfl := Ending.finished.inj hrecords
    have hle := hnewest entry hentry
    rw [if_neg (by omega)]
    simp [set, held?]
  · rename_i records' hrecords hnone
    obtain rfl := Ending.finished.inj hrecords
    simp [set, held?]
  · rename_i hfinished hnone
    cases hentry : c.entries.get? key with
    | none => exact absurd hentry (hnone records rfl)
    | some entry => exact absurd hentry (hfinished records entry rfl)

/-- What is under way once a computation has been settled is what was under way before, but for that
computation. -/
theorem pending_settle_iff {c : Cache ρ} {key : String} {version : Int} {computation c' : Nat}
    {ending : Ending (List ρ)} {k : String × Int} :
    (c.settle key version computation ending).pending.get? k = some c' ↔
      c.pending.get? k = some c' ∧ ¬(k = (key, version) ∧ c' = computation) := by
  have herase : c.pending.get? (key, version) = some computation →
      ((c.pending.erase (key, version)).get? k = some c' ↔
        c.pending.get? k = some c' ∧ ¬(k = (key, version) ∧ c' = computation)) := by
    intro hpending
    rw [Keyed.get?_erase]
    grind
  simp only [settle]
  repeat' split
  all_goals first | exact herase ‹_› | grind

theorem pending_settle {c : Cache ρ} {key : String} {version : Int} {computation c' : Nat}
    {ending : Ending (List ρ)} {k : String × Int}
    (hpending : (c.settle key version computation ending).pending.get? k = some c') :
    c.pending.get? k = some c' :=
  (pending_settle_iff.mp hpending).1

/-- An entry stays where a computation of another key, or of a lower version, is settled. -/
theorem entries_settle {c : Cache ρ} {key k : String} {version : Int} {computation : Nat}
    {ending : Ending (List ρ)} {entry : Entry ρ} (hentry : c.entries.get? k = some entry)
    (hnewer : k = key → version < entry.version) :
    (c.settle key version computation ending).entries.get? k = some entry := by
  simp only [settle]
  repeat' split
  all_goals grind [set]

end Cache

end Swatch

import Mathlib.Data.Set.Card
import Swatch.Proofs.Cache.Source

/-!
Which computations are in flight: those that were begun, have not been settled and whose key has not
been dropped. They are just those that a cache knows as pending, one at most for a key and a version.
-/

namespace Swatch

open World

variable {η ρ : Type}

/-- Something was so at some use of a run: of that use, and of those before it. -/
def Occurs (us : List (Use ρ)) (p : List (Use ρ) → Use ρ → Prop) : Prop :=
  ∃ before u after, us = before ++ u :: after ∧ p before u

theorem Occurs.append {us : List (Use ρ)} {p : List (Use ρ) → Use ρ → Prop} (ho : Occurs us p)
    (us' : List (Use ρ)) : Occurs (us ++ us') p := by
  obtain ⟨before, u, after, rfl, hp⟩ := ho
  exact ⟨before, u, after ++ us', by simp, hp⟩

theorem occurs_concat {us : List (Use ρ)} {u : Use ρ} {p : List (Use ρ) → Use ρ → Prop} :
    Occurs (us ++ [u]) p ↔ Occurs us p ∨ p us u := by
  constructor
  · rintro ⟨before, u', after, hsplit, hp⟩
    rcases exists_split_or_eq_of_concat hsplit with ⟨after', hsplit', -⟩ | ⟨rfl, rfl⟩
    · exact .inl ⟨before, u', after', hsplit', hp⟩
    · exact .inr hp
  · rintro (ho | hp)
    · exact ho.append [u]
    · exact ⟨us, u, [], rfl, hp⟩

namespace World

variable (h : Host η ρ) (w : World η ρ) (us : List (Use ρ))

/-- The end of a computation has been taken in. -/
def Settled (c : Nat) : Prop :=
  Occurs us fun before u => (w.uses h before).Settles c u

/-- The key of a computation has been dropped since the computation was begun. -/
def Dropped (c : Nat) : Prop :=
  Occurs us fun before u => ∃ x, (w.uses h before).computations[c]? = some x ∧
    (w.uses h before).Drops h x.document.uri u

/-- A computation has been begun, and has been neither settled nor dropped. -/
structure InFlight (c : Nat) : Prop where
  begun : c < (w.uses h us).computations.length
  settled : ¬w.Settled h us c
  dropped : ¬w.Dropped h us c

variable {h w us}

theorem Settles.lt {u : Use ρ} {c : Nat} (hs : w.Settles c u) : c < w.computations.length := by
  cases u with
  | cache op => exact hs.elim
  | act a =>
      cases a with
      | turn n =>
          obtain ⟨-, ending, hended⟩ := hs
          obtain ⟨x, hx, -⟩ := Option.map_eq_some_iff.mp hended
          exact (List.getElem?_eq_some_iff.mp hx).1
      | _ => exact hs.elim

theorem length_le_of_split {before after : List (Use ρ)} {u : Use ρ}
    (hsplit : us = before ++ u :: after) :
    (w.uses h before).computations.length ≤ (w.uses h us).computations.length := by
  rw [hsplit, uses_append]
  exact (grows_uses ..).length_le

theorem Settled.lt {c : Nat} (hs : w.Settled h us c) : c < (w.uses h us).computations.length := by
  obtain ⟨before, u, after, hsplit, hsettles⟩ := hs
  exact Nat.lt_of_lt_of_le hsettles.lt (length_le_of_split hsplit)

theorem Dropped.lt {c : Nat} (hd : w.Dropped h us c) : c < (w.uses h us).computations.length := by
  obtain ⟨before, u, after, hsplit, x, hx, -⟩ := hd
  exact Nat.lt_of_lt_of_le (List.getElem?_eq_some_iff.mp hx).1 (length_le_of_split hsplit)

theorem settled_concat {u : Use ρ} {c : Nat} :
    w.Settled h (us ++ [u]) c ↔ w.Settled h us c ∨ (w.uses h us).Settles c u :=
  occurs_concat

theorem dropped_concat {u : Use ρ} {c : Nat} {x : Computation ρ}
    (hx : (w.uses h us).computations[c]? = some x) :
    w.Dropped h (us ++ [u]) c ↔ w.Dropped h us c ∨ (w.uses h us).Drops h x.document.uri u := by
  rw [Dropped, occurs_concat]
  simp [hx, Dropped]

theorem Begins.pending {u : Use ρ} {c : Nat} {key : String} {v : Int} (hb : w.Begins h u c key v) :
    (w.use h u).cache.pending.get? (key, v) = some c := by
  obtain @⟨v, t, errand, d, hcall, hheld, hnone, huse⟩ := hb
  rw [huse, lookUp_of_none hheld hnone errand, ← hcall.computations]
  simp [Cache.begin]

theorem pending_iff_not (host : η) {c : Nat} {x : Computation ρ}
    (hx : ((initial host).uses h us).computations[c]? = some x) :
    ((initial host).uses h us).cache.pending.get? (x.document.uri, x.document.version) = some c ↔
      ¬(initial host).Settled h us c ∧ ¬(initial host).Dropped h us c := by
  induction us using List.reverseRecOn generalizing x with
  | nil => simp [initial] at hx
  | append_singleton us u ih =>
      rw [uses_concat] at hx ⊢
      obtain ⟨y, hy, hbecomes⟩ | ⟨hnew, hbegins⟩ := was_or_begins hx
      · rw [settled_concat, dropped_concat hy, hbecomes.document, pending_use hy, ih hy]
        tauto
      · -- A computation that is new can have been neither settled nor dropped before.
        have hsettled : ¬(initial host).Settled h (us ++ [u]) c := by
          rw [settled_concat]
          rintro (hs | hs)
          · exact Nat.not_lt.mpr hnew hs.lt
          · exact Nat.not_lt.mpr hnew hs.lt
        have hdropped : ¬(initial host).Dropped h (us ++ [u]) c := by
          rw [Dropped, occurs_concat]
          rintro (hd | ⟨y, hy, -⟩)
          · exact Nat.not_lt.mpr hnew (Dropped.lt hd)
          · exact Nat.not_lt.mpr hnew (List.getElem?_eq_some_iff.mp hy).1
        exact iff_of_true hbegins.pending ⟨hsettled, hdropped⟩

/-- A computation is pending just as long as it is neither settled nor dropped. -/
theorem pending_iff (host : η) {c : Nat} {x : Computation ρ}
    (hx : ((initial host).uses h us).computations[c]? = some x) :
    ((initial host).uses h us).cache.pending.get? (x.document.uri, x.document.version) = some c ↔
      (initial host).InFlight h us c := by
  rw [pending_iff_not host hx]
  exact ⟨fun ⟨hs, hd⟩ => ⟨(List.getElem?_eq_some_iff.mp hx).1, hs, hd⟩,
    fun hf => ⟨hf.settled, hf.dropped⟩⟩

/-- Whatever is pending is a computation of just that key and version. -/
theorem exists_of_pending (host : η) {key : String} {v : Int} {c : Nat}
    (hpending : ((initial host).uses h us).cache.pending.get? (key, v) = some c) :
    ∃ x, ((initial host).uses h us).computations[c]? = some x ∧ x.document.uri = key ∧
      x.document.version = v := by
  obtain ⟨before, u, ⟨after, rfl, -⟩, hbegins⟩ :=
    (traced_uses h host us).pending key v c hpending
  rw [uses_append]
  exact hbegins.exists_computation after

/-- Of a key and a version, one computation at most is in flight. -/
theorem InFlight.eq {host : η} {c c' : Nat} {x x' : Computation ρ}
    (hf : (initial host).InFlight h us c) (hf' : (initial host).InFlight h us c')
    (hx : ((initial host).uses h us).computations[c]? = some x)
    (hx' : ((initial host).uses h us).computations[c']? = some x')
    (huri : x.document.uri = x'.document.uri)
    (hversion : x.document.version = x'.document.version) : c = c' := by
  have hpending := (pending_iff host hx).mpr hf
  rw [huri, hversion, (pending_iff host hx').mpr hf'] at hpending
  exact (Option.some.inj hpending).symm

/-- A use runs a computation: the host is asked for the records. -/
def Runs (w : World η ρ) (c : Nat) : Use ρ → Prop
  | .act (.turn n) => w.turns[n]? = some (.begin c) ∧ w.state? c = some .queued
  | _ => False

theorem queued_of_use {u : Use ρ} {c : Nat} (hlt : c < w.computations.length)
    (hqueued : (w.use h u).state? c = some .queued) : w.state? c = some .queued := by
  rcases w.use_calls (h := h) u with hsame | ⟨-, t, -, v, errand, d, -, -, -, -, hcall, huse⟩
  · obtain ⟨x, hx, hstate⟩ := Option.map_eq_some_iff.mp hqueued
    obtain ⟨y, hy, -, -, hwas⟩ := hsame c x hx
    rw [state?, hy, Option.map_some, hwas hstate]
  · rw [huse] at hqueued
    rcases state?_lookUp hqueued with hwas | ⟨hnew, -⟩
    · rwa [state?, ← hcall.computations]
    · rw [hcall.computations] at hnew
      omega

theorem queued_of_uses {c : Nat} (hlt : c < w.computations.length)
    (hqueued : (w.uses h us).state? c = some .queued) : w.state? c = some .queued := by
  induction us generalizing w with
  | nil => exact hqueued
  | cons u us ih =>
      exact queued_of_use hlt (ih (Nat.lt_of_lt_of_le hlt (w.grows_use u).length_le) hqueued)

theorem Runs.queued {u : Use ρ} {c : Nat} (hr : w.Runs c u) : w.state? c = some .queued := by
  cases u with
  | cache op => exact hr.elim
  | act a =>
      cases a with
      | turn n => exact hr.2
      | _ => exact hr.elim

theorem Runs.lt {u : Use ρ} {c : Nat} (hr : w.Runs c u) : c < w.computations.length := by
  obtain ⟨x, hx, -⟩ := Option.map_eq_some_iff.mp hr.queued
  exact (List.getElem?_eq_some_iff.mp hx).1

theorem not_queued_beginComputation (w : World η ρ) (c : Nat) :
    (w.beginComputation h c).state? c ≠ some .queued := by
  rw [beginComputation]
  split
  · rename_i x hx
    split
    · generalize h.compute x.errand x.document w.host = r
      obtain ⟨host, commands, progress⟩ := r
      dsimp only
      generalize { w with host := host }.obeyAll commands = v
      cases progress with
      | ended ending =>
          dsimp only [endComputation]
          rw [state?_modify, if_pos rfl]
          simp
      | held records =>
          dsimp only
          rw [state?_modify, if_pos rfl]
          simp
    · simp_all [state?]
  · simp_all [state?]

theorem Runs.not_queued {u : Use ρ} {c : Nat} (hr : w.Runs c u) :
    (w.use h u).state? c ≠ some .queued := by
  cases u with
  | cache op => exact hr.elim
  | act a =>
      cases a with
      | turn n =>
          rw [use_turn w hr.1]
          exact not_queued_beginComputation { w with turns := w.turns.eraseIdx n } c
      | _ => exact hr.elim

/-- No computation is run twice. -/
theorem not_runs_twice {before between : List (Use ρ)} {u u' : Use ρ} {c : Nat}
    (hr : (w.uses h before).Runs c u) : ¬(w.uses h (before ++ u :: between)).Runs c u' := by
  intro hr'
  rw [uses_append] at hr'
  have hqueued := queued_of_uses (Nat.lt_of_lt_of_le hr.lt (grows_use ..).length_le) hr'.queued
  exact hr.not_queued hqueued

/-- As many computations are counted as pending as are in flight. -/
theorem pendingCount_eq (h : Host η ρ) (host : η) (us : List (Use ρ)) :
    (((initial host).uses h us).cache.pendingCount : ℕ∞) =
      {c | (initial host).InFlight h us c}.encard := by
  have hvalues : {c | (initial host).InFlight h us c} =
      ((initial host).uses h us).cache.pending.values.toFinset := by
    ext c
    rw [Set.mem_ofPred_eq, Finset.mem_coe, List.mem_toFinset, Keyed.mem_values_iff]
    constructor
    · intro hf
      exact ⟨_, (pending_iff host (List.getElem?_eq_getElem hf.begun)).mpr hf⟩
    · rintro ⟨⟨key, v⟩, hpending⟩
      obtain ⟨x, hx, rfl, rfl⟩ := exists_of_pending host hpending
      exact (pending_iff host hx).mp hpending
  have hnodup : ((initial host).uses h us).cache.pending.values.Nodup := by
    refine Keyed.nodup_values fun k k' c hpending hpending' => ?_
    obtain ⟨x, hx, huri, hversion⟩ := exists_of_pending host hpending
    obtain ⟨x', hx', huri', hversion'⟩ := exists_of_pending host hpending'
    obtain rfl := Option.some.inj (hx.symm.trans hx')
    exact Prod.ext (huri.symm.trans huri') (hversion.symm.trans hversion')
  rw [hvalues, Set.encard_coe_eq_coe_finsetCard, List.toFinset_card_of_nodup hnodup]
  simp [Cache.pendingCount, Keyed.size, Keyed.values]

end World

end Swatch

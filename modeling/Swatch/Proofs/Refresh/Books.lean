import Swatch.Proofs.Refresh.Frame

/-!
The books of a world: the numbers and the locks of addresses, what the cache holds and waits for, and
what is put down of numbers that were drawn, of detections and of addresses that were forgotten. An
act enters one thing after the other there. A lock is made only for an address that has a number,
and a refresh looks up records only for one that has.
-/

namespace Swatch

open Relation

variable {η ρ : Type}

/-- What is put down of numbers, detections and forgotten addresses. -/
def Event.isEntry : Event ρ → Bool
  | .forgotten _ | .drawn _ _ _ _ | .asked _ _ _ => true
  | _ => false

namespace World

def HasNumber (w : World η ρ) (uri : String) : Prop :=
  (w.scheduler.generations.get? uri).isSome

/-- Two worlds whose books say the same. -/
structure SameEntries (w v : World η ρ) : Prop where
  generations : v.scheduler.generations = w.scheduler.generations
  locks : v.scheduler.locks = w.scheduler.locks
  cache : v.cache = w.cache
  history : ∃ es, v.history = w.history ++ es ∧ ∀ e ∈ es, e.isEntry = false

/-- One thing is entered, or none. -/
inductive Entry (w : World η ρ) : World η ρ → Prop where
  | none {v : World η ρ} (hs : w.SameEntries v) : Entry w v
  | obey (c : Command) : Entry w (w.obey c)
  | draw (t k : Nat) (uri : String) (ticket : Ticket) :
      Entry w ({ w with scheduler := w.scheduler.draw uri }.remember (.drawn t k uri ticket))
  | makeLock {uri : String} (hn : w.HasNumber uri) (l : Nat) :
      Entry w { w with scheduler := w.scheduler.setLock uri l }
  | lookUp {d : Document} (hn : w.HasNumber d.uri) (t : Nat) :
      Entry w (w.lookUp t .refresh d).2
  | ask (t k : Nat) (d : Document) :
      Entry w ((w.remember (.asked t k d.uri)).lookUp t .detection d).2
  | settle (c : Nat) : Entry w (w.settleComputation c)

abbrev Entries : World η ρ → World η ρ → Prop :=
  ReflTransGen Entry

variable {h : Host η ρ} {w v u : World η ρ} {t l : Nat} {d : Document} {ticket : Ticket}
  {delivery : Delivery ρ}

/-! ### What enters nothing -/

theorem SameEntries.entries (hs : w.SameEntries v) : Entries w v :=
  .single (.none hs)

theorem SameEntries.trans (hs : w.SameEntries v) (hs' : v.SameEntries u) : w.SameEntries u := by
  obtain ⟨es, hes, hnone⟩ := hs.history
  obtain ⟨es', hes', hnone'⟩ := hs'.history
  refine ⟨hs'.generations.trans hs.generations, hs'.locks.trans hs.locks, hs'.cache.trans hs.cache,
    es ++ es', by rw [hes', hes, List.append_assoc], ?_⟩
  intro e he
  exact (List.mem_append.mp he).elim (hnone e) (hnone' e)

theorem sameEntries_of_history (hgenerations : v.scheduler.generations = w.scheduler.generations)
    (hlocks : v.scheduler.locks = w.scheduler.locks) (hcache : v.cache = w.cache)
    (hhistory : v.history = w.history) : w.SameEntries v :=
  ⟨hgenerations, hlocks, hcache, [], by simp [hhistory], by simp⟩

theorem SameBooks.sameEntries (hs : w.SameBooks v) : w.SameEntries v :=
  sameEntries_of_history (by rw [hs.scheduler]) (by rw [hs.scheduler]) hs.cache hs.history

theorem SameTasks.sameEntries (hs : w.SameTasks v) (hcache : v.cache = w.cache) : w.SameEntries v :=
  sameEntries_of_history (by rw [hs.scheduler]) (by rw [hs.scheduler]) hcache hs.history

theorem sameEntries_remember {e : Event ρ} (he : e.isEntry = false) :
    w.SameEntries (w.remember e) :=
  ⟨rfl, rfl, rfl, [e], rfl, by simpa using he⟩

theorem sameEntries_editAt (w : World η ρ) (k : Nat) (text : String) :
    w.SameEntries (w.editAt k text) :=
  .trans (v := { w with documents := w.documents.modify k (·.edit text) })
    (sameEntries_of_history rfl rfl rfl rfl) (sameEntries_remember rfl)

theorem sameEntries_edit (w : World η ρ) (uri text : String) :
    w.SameEntries (w.edit uri text) := by
  rw [edit]
  split
  · exact w.sameEntries_editAt ..
  · exact sameEntries_of_history rfl rfl rfl rfl

theorem sameEntries_wait (t : Nat) (s : Stage ρ) : w.SameEntries (w.wait t s) :=
  sameEntries_of_history rfl rfl rfl rfl

theorem sameEntries_close (t : Nat) (ending : Ending (Outcome ρ)) :
    w.SameEntries (w.close t ending) :=
  (sameEntries_wait t _).trans (sameEntries_remember rfl)

theorem sameEntries_conclude (t : Nat) (outcome : Outcome ρ) :
    w.SameEntries (w.conclude t outcome) :=
  .trans (v := { w with scheduler := w.scheduler.note outcome.status })
    (sameEntries_of_history rfl rfl rfl rfl) (sameEntries_close t _)

theorem SameEntries.releaseLock (hs : w.SameEntries v) (l : Nat) :
    w.SameEntries (v.releaseLock l) :=
  hs.trans (v.sameBooks_releaseLock l).sameEntries

theorem sameEntries_goOn (w : World η ρ) (t : Nat) (ticket : Ticket) (l : Nat)
    (delivery : Delivery ρ) : w.SameEntries (w.goOn h t ticket l delivery) := by
  rw [goOn]
  split
  · split <;> exact sameEntries_of_history rfl rfl rfl rfl
  · exact (sameEntries_conclude t _).releaseLock l

/-! ### What is entered in an act -/

theorem entries_obeyAll (w : World η ρ) (cs : List Command) : Entries w (w.obeyAll cs) := by
  induction cs generalizing w with
  | nil => exact .refl
  | cons c cs ih => exact .head (.obey c) (ih (w.obey c))

/-- The host does what it does, and its commands are obeyed. -/
theorem entries_hosted (w : World η ρ) (host : η) (cs : List Command) :
    Entries w ({ w with host := host }.obeyAll cs) :=
  have hhost : w.SameEntries { w with host := host } := sameEntries_of_history rfl rfl rfl rfl
  hhost.entries.trans (entries_obeyAll { w with host := host } cs)

theorem entries_visit (w : World η ρ) (t : Nat) (uri : String) (ticket : Ticket) (l : Nat)
    (delivery : Delivery ρ) (count : Nat) (cancelled : Bool) :
    Entries w (w.visit h t uri ticket l delivery count cancelled) := by
  rw [visit]
  generalize h.apply ⟨uri, nextChunk h delivery, delivery.index, count, cancelled⟩ w.host = r
  obtain ⟨host, commands, ending?⟩ := r
  refine (w.entries_hosted host commands).trans (SameEntries.entries ?_)
  dsimp only
  split
  · exact sameEntries_of_history rfl rfl rfl rfl
  · next ending =>
    have htaken : ({ w with host := host }.obeyAll commands).SameEntries
        ((({ w with host := host }.obeyAll commands).wait t
          (.pausing ticket l (afterChunk h delivery))).remember (.taken t ending)) :=
      (sameEntries_wait t _).trans (sameEntries_remember rfl)
    split
    · exact htaken.trans (sameEntries_goOn ..)
    · exact (htaken.trans (sameEntries_close t _)).releaseLock l
    · exact (htaken.trans (sameEntries_close t _)).releaseLock l

theorem entries_handOn (w : World η ρ) (t : Nat) (uri : String) (ticket : Ticket) (l : Nat)
    (delivery : Delivery ρ) : Entries w (w.handOn h t uri ticket l delivery) :=
  .trans (SameEntries.entries ((sameEntries_wait t _).trans (sameEntries_remember rfl)))
    (entries_visit ..)

theorem entries_withRecords (w : World η ρ) (t : Nat) (d : Document) (ticket : Ticket) (l : Nat)
    (ending : Ending (List ρ)) : Entries w (w.withRecords h t d ticket l ending) := by
  cases ending with
  | failed | cancelled => exact ((sameEntries_close t _).releaseLock l).entries
  | finished records =>
    rw [withRecords]
    split
    · exact ((sameEntries_conclude t _).releaseLock l).entries
    · exact entries_handOn ..

theorem hasNumber_of_isCurrent {uri : String} {g : Nat}
    (hc : w.scheduler.isCurrent uri g = true) : w.HasNumber uri := by
  rw [HasNumber, of_decide_eq_true hc]
  rfl

theorem hasNumber_of_verdict? (hv : w.verdict? d ticket = none) : w.HasNumber d.uri := by
  unfold verdict? at hv
  split at hv
  · cases hv
  · split at hv
    · cases hv
    · next hc => exact hasNumber_of_isCurrent (by simpa using hc)

theorem entries_withLock (w : World η ρ) (t : Nat) (d : Document) (ticket : Ticket) (l : Nat) :
    Entries w (w.withLock h t d ticket l) := by
  rw [withLock]
  cases hv : w.verdict? d ticket with
  | some status => exact ((sameEntries_conclude t _).releaseLock l).entries
  | none =>
    have hlook : Entries w (w.lookUp t .refresh d).2 := .single (.lookUp (hasNumber_of_verdict? hv) t)
    dsimp only
    split
    · next hfound =>
      rw [hfound] at hlook
      exact hlook.trans (entries_withRecords ..)
    · next hfound => rwa [hfound] at hlook

theorem entries_lockOf {uri : String} (hn : w.HasNumber uri) : Entries w (w.lockOf uri).2 := by
  rw [lockOf]
  split
  · exact .refl
  -- The lock is there before the books name it.
  · refine .trans (b := { w with locks := w.locks ++ [.free] })
      (SameEntries.entries (sameEntries_of_history rfl rfl rfl rfl)) (.single ?_)
    exact Entry.makeLock (w := { w with locks := w.locks ++ [.free] }) hn w.locks.length

theorem entries_afterDebounce (w : World η ρ) (t : Nat) (d : Document) (ticket : Ticket) :
    Entries w (w.afterDebounce h t d ticket) := by
  obtain ⟨hcurrent, l, locks, scheduler, hlockOf, -, -, hcases⟩ | ⟨-, heq⟩ :=
    w.afterDebounce_cases (h := h) t d ticket
  · have hentries := entries_lockOf (hasNumber_of_isCurrent hcurrent)
    rw [hlockOf] at hentries
    refine hentries.trans ?_
    obtain ⟨lock, -, -, heq⟩ | ⟨-, heq⟩ := hcases <;> rw [heq]
    · refine .trans (SameEntries.entries ?_) (entries_withLock ..)
      exact sameEntries_of_history rfl rfl rfl rfl
    · exact SameEntries.entries (sameEntries_of_history rfl rfl rfl rfl)
  · rw [heq]
    exact (sameEntries_conclude t _).entries

theorem entries_beginRefresh (w : World η ρ) (t k : Nat) (d : Document) :
    Entries w (w.beginRefresh h t k d) := by
  rw [beginRefresh]
  split
  -- That the task waits enters nothing, so it may as well wait before it draws.
  · have hdraw : Entries w (({ w with scheduler := w.scheduler.draw d.uri }.wait t
        (.debouncing ⟨d.version, w.scheduler.next⟩)).remember
          (.drawn t k d.uri ⟨d.version, w.scheduler.next⟩)) :=
      .tail (sameEntries_wait t (.debouncing ⟨d.version, w.scheduler.next⟩)).entries
        (.draw t k d.uri _)
    refine hdraw.trans ?_
    dsimp only
    split
    · exact SameEntries.entries (sameEntries_of_history rfl rfl rfl rfl)
    · exact entries_afterDebounce ..
  · exact (sameEntries_conclude t _).entries

theorem entries_beginDetection (w : World η ρ) (t k : Nat) (d : Document) :
    Entries w (w.beginDetection h t k d) := by
  rw [beginDetection]
  split
  · exact (sameEntries_wait t _).entries
  · next host commands _ =>
    refine (w.entries_hosted host commands).trans ?_
    dsimp only
    generalize { w with host := host }.obeyAll commands = v
    generalize (v.documents[k]?).getD d = d'
    have hask : Entries v
        (((v.wait t .detecting).remember (.asked t k d'.uri)).lookUp t .detection d').2 :=
      .tail (sameEntries_wait t .detecting).entries (.ask t k d')
    split
    · next hfound =>
      rw [hfound] at hask
      exact hask.trans (sameEntries_wait t _).entries
    · next hfound =>
      rwa [hfound] at hask

theorem entries_proceed (w : World η ρ) (t k : Nat) (d : Document) (errand : Errand)
    (stage : Stage ρ) (ending : Ending (List ρ)) :
    Entries w (w.proceed h t k d errand stage ending) := by
  cases stage with
  | starting =>
    cases errand with
    | refresh => exact entries_beginRefresh ..
    | detection => exact entries_beginDetection ..
  | debouncing => exact entries_afterDebounce ..
  | queueing =>
    refine .trans (SameEntries.entries ?_) (entries_withLock ..)
    exact sameEntries_of_history rfl rfl rfl rfl
  | computing => exact entries_withRecords ..
  | applying => exact entries_visit ..
  | pausing =>
    rw [proceed]
    split
    · exact ((sameEntries_conclude t _).releaseLock _).entries
    · exact entries_handOn ..
  | detecting => exact (sameEntries_wait t _).entries
  | ended => exact .refl
  | answered => exact .refl

theorem entries_stop (w : World η ρ) (t : Nat) (d : Document) (errand : Errand) (stage : Stage ρ) :
    Entries w (w.stop h t d errand stage) := by
  cases stage with
  | starting =>
    cases errand with
    | refresh => exact (sameEntries_close t _).entries
    | detection => exact (sameEntries_wait t _).entries
  | debouncing => exact (sameEntries_close t _).entries
  | queueing _ l =>
    exact ((w.sameBooks_leaveQueue t l).sameEntries.trans (sameEntries_close t _)).entries
  | computing _ l | pausing _ l => exact ((sameEntries_close t _).releaseLock l).entries
  | applying => exact entries_visit ..
  | detecting => exact (sameEntries_wait t _).entries
  | ended => exact .refl
  | answered => exact .refl

theorem entries_resume (w : World η ρ) (t : Nat) : Entries w (w.resume h t) := by
  have htimers : Entries w { w with timers := w.timers.filter (·.task ≠ t) } :=
    SameEntries.entries (sameEntries_of_history rfl rfl rfl rfl)
  obtain ⟨task, told, d, -, -, -, ⟨-, heq⟩ | ⟨-, heq⟩⟩ | heq :=
    w.stops_or_proceeds (h := h) t <;> rw [heq]
  · exact htimers.trans (entries_stop ..)
  · exact htimers.trans (entries_proceed ..)

theorem entries_beginComputation (w : World η ρ) (c : Nat) :
    Entries w (w.beginComputation h c) := by
  obtain heq | ⟨x, host, commands, -, -, ⟨ending, -, heq⟩ | ⟨records, -, heq⟩⟩ :=
    w.beginComputation_cases h c
  · rw [heq]
  all_goals
    rw [heq]
    exact (w.entries_hosted host commands).trans
      (SameEntries.entries (sameEntries_of_history rfl rfl rfl rfl))

theorem entries_perform (w : World η ρ) (turn : Turn) : Entries w (w.perform h turn) := by
  cases turn with
  | resume t => exact w.entries_resume t
  | begin c => exact w.entries_beginComputation c
  | finish c =>
    exact ((w.sameTasks_finishComputation c).sameEntries (w.finishComputation_frame c).1).entries
  | settle c => exact .single (.settle c)
  | tell c t => exact (w.sameBooks_tellTask c t).sameEntries.entries
  | ring t => exact (w.sameBooks_ring t).sameEntries.entries

theorem entries_act (w : World η ρ) (a : Act ρ) : Entries w (w.act h a) := by
  cases a with
  | openDocument | start | moveTo | setClock =>
    exact SameEntries.entries (sameEntries_of_history rfl rfl rfl rfl)
  | edit k text => exact (w.sameEntries_editAt k text).entries
  | obey c => exact .single (.obey c)
  | cancelTask t => exact (w.sameBooks_cancelTask t).sameEntries.entries
  | release c ending =>
    exact ((w.sameTasks_release c ending).sameEntries (w.release_frame c ending).1).entries
  | turn n =>
    rw [act]
    split
    · refine .trans (b := { w with turns := w.turns.eraseIdx n }) ?_ (entries_perform ..)
      exact SameEntries.entries (sameEntries_of_history rfl rfl rfl rfl)
    · exact .refl

theorem entries_acts (w : World η ρ) (as : List (Act ρ)) : Entries w (w.acts h as) := by
  induction as generalizing w with
  | nil => exact .refl
  | cons a as ih => exact (w.entries_act a).trans (ih (w.act h a))

end World

end Swatch

import Swatch.Proofs.Refresh.Books
import Swatch.Proofs.Refresh.Currency

/-!
What is left of an address that was forgotten. What was under way when it was forgotten brings
nothing of it back, wherever it stood; a refresh that begins afterwards does, and a lock that was
held at that moment stays behind. Main statement: nothing is left of an address exactly where
neither happened.
-/

namespace Swatch

open Relation

variable {η ρ : Type}

/-! ### What a cache has of a key -/

namespace Cache

/-- Nothing is held of a key, and nothing is under way for it. -/
structure Lacks (c : Cache ρ) (key : String) : Prop where
  entry : c.entries.get? key = none
  pending : ∀ version, c.pending.get? (key, version) = none

variable {c : Cache ρ} {key k : String}

theorem lacks_delete (c : Cache ρ) (key : String) : (c.delete key).Lacks key :=
  ⟨by simp [delete], fun version => by rw [pending_delete, if_pos rfl]⟩

theorem Lacks.delete (hc : c.Lacks key) (k : String) : (c.delete k).Lacks key := by
  refine ⟨?_, fun version => ?_⟩
  · rw [Cache.delete, Keyed.get?_erase, hc.entry, ite_self]
  · rw [pending_delete, hc.pending, ite_self]

theorem Lacks.invalidate (hc : c.Lacks key) : c.invalidate.Lacks key :=
  ⟨rfl, hc.pending⟩

theorem Lacks.get (hc : c.Lacks key) (hk : key ≠ k) (version : Int) :
    (c.get k version).2.Lacks key := by
  refine ⟨?_, fun v => by rw [pending_get, hc.pending]⟩
  rw [Cache.get]
  repeat' split
  · rw [Keyed.get?_set, if_neg hk, hc.entry]
  · exact hc.entry
  · exact hc.entry

theorem Lacks.begin (hc : c.Lacks key) (hk : key ≠ k) (version : Int) (computation : Nat) :
    (c.begin k version computation).Lacks key := by
  refine ⟨hc.entry, fun v => ?_⟩
  rw [Cache.begin, Keyed.get?_set, if_neg (by simp [hk]), hc.pending]

/-- A computation that ends is not taken in for a key that nothing is under way for. -/
theorem Lacks.settle (hc : c.Lacks key) (k : String) (version : Int) (computation : Nat)
    (ending : Ending (List ρ)) : (c.settle k version computation ending).Lacks key := by
  refine ⟨?_, fun v => ?_⟩
  · by_cases hk : key = k
    -- Its own computation is no longer under way: it was forgotten with the key.
    · subst hk
      rw [Cache.settle, if_neg (by simp [hc.pending]), hc.entry]
    · simp only [Cache.settle]
      repeat' split
      all_goals simp [set, hk, hc.entry]
  · rw [Option.eq_none_iff_forall_ne_some]
    intro c' hc'
    exact absurd (pending_settle hc') (by simp [hc.pending])

end Cache

/-- Something is begun for an address. -/
def Event.Begins : Event ρ → String → Prop
  | .drawn _ _ u _, uri | .asked _ _ u, uri => u = uri
  | _, _ => False

namespace World

/-- Neither the scheduler nor the cache knows anything of an address. -/
structure Gone (w : World η ρ) (uri : String) : Prop where
  generation : w.scheduler.generations.get? uri = none
  lock : w.scheduler.locks.get? uri = none
  cache : w.cache.Lacks uri

def isLocked (w : World η ρ) (uri : String) : Bool :=
  (w.scheduler.locks.get? uri).any fun l => (w.locks[l]?).any (·.held)

theorem isSome_of_isLocked {w : World η ρ} {uri : String} (hlocked : w.isLocked uri = true) :
    (w.scheduler.locks.get? uri).isSome := by
  rw [isLocked, Option.any_eq_true] at hlocked
  obtain ⟨l, hl, -⟩ := hlocked
  exact Option.isSome_of_eq_some hl

/-- What is carried over from one world to another of what the books say of an address, while some
events are put down. -/
structure Carries (uri : String) (w : World η ρ) (es : List (Event ρ)) (v : World η ρ) : Prop where
  history : v.history = w.history ++ es
  gone : (∀ e ∈ es, ¬e.Begins uri) → w.Gone uri → v.Gone uri
  number : .forgotten uri ∉ es →
    (w.HasNumber uri ∨ ∃ t k ticket, .drawn t k uri ticket ∈ es) → v.HasNumber uri
  lock : .forgotten uri ∉ es →
    (w.scheduler.locks.get? uri).isSome → (v.scheduler.locks.get? uri).isSome

variable {w v u : World η ρ} {uri : String} {es es' before after : List (Event ρ)}

theorem Carries.refl (w : World η ρ) : Carries uri w [] w :=
  ⟨by simp, fun _ hgone => hgone, fun _ hnumber => hnumber.resolve_right (by simp),
    fun _ hlock => hlock⟩

theorem Carries.trans (hc : Carries uri w es v) (hc' : Carries uri v es' u) :
    Carries uri w (es ++ es') u := by
  refine ⟨by rw [hc'.history, hc.history, List.append_assoc], fun hbegins hgone => ?_,
    fun hforgotten hnumber => ?_, fun hforgotten hlock => ?_⟩
  · exact hc'.gone (fun e he => hbegins e (List.mem_append_right es he))
      (hc.gone (fun e he => hbegins e (List.mem_append_left es' he)) hgone)
  all_goals rw [List.mem_append, not_or] at hforgotten
  · refine hc'.number hforgotten.2 ?_
    rcases hnumber with hnumber | ⟨t, k, ticket, hdrawn⟩
    · exact .inl (hc.number hforgotten.1 (.inl hnumber))
    · rcases List.mem_append.mp hdrawn with hdrawn | hdrawn
      · exact .inl (hc.number hforgotten.1 (.inr ⟨t, k, ticket, hdrawn⟩))
      · exact .inr ⟨t, k, ticket, hdrawn⟩
  · exact hc'.lock hforgotten.2 (hc.lock hforgotten.1 hlock)

/-- Where the scheduler's numbers and locks stay as they are and no refresh begins, only the cache
is to be looked at. -/
theorem Carries.of_cache (hgenerations : v.scheduler.generations = w.scheduler.generations)
    (hlocks : v.scheduler.locks = w.scheduler.locks) (hhistory : v.history = w.history ++ es)
    (hdrawn : ∀ t k ticket, .drawn t k uri ticket ∉ es)
    (hcache : (∀ e ∈ es, ¬e.Begins uri) → w.Gone uri → v.cache.Lacks uri) :
    Carries uri w es v := by
  refine ⟨hhistory, fun hbegins hgone => ⟨?_, ?_, hcache hbegins hgone⟩, fun _ hnumber => ?_,
    fun _ hlock => hlocks ▸ hlock⟩
  · rw [hgenerations, hgone.generation]
  · rw [hlocks, hgone.lock]
  · rw [HasNumber, hgenerations]
    refine hnumber.resolve_right ?_
    rintro ⟨t, k, ticket, hmem⟩
    exact hdrawn t k ticket hmem

theorem SameEntries.carries (hs : w.SameEntries v) : ∃ es, Carries uri w es v := by
  obtain ⟨es, hes, hnone⟩ := hs.history
  refine ⟨es, .of_cache hs.generations hs.locks hes (fun t k ticket hmem => ?_) fun _ hgone => ?_⟩
  · exact absurd (hnone _ hmem) (by simp [Event.isEntry])
  · exact hs.cache ▸ hgone.cache

/-- A lock is made, and records are looked up by a refresh, only where there is a number. -/
theorem Gone.ne_of_hasNumber (hgone : w.Gone uri) {u : String} (hn : w.HasNumber u) : uri ≠ u := by
  rintro rfl
  rw [HasNumber, hgone.generation] at hn
  cases hn

/-! ### What one entry carries over -/

theorem lock_forget (w : World η ρ) (u uri : String) :
    (w.forget u).scheduler.locks.get? uri =
      if uri = u ∧ w.isLocked u = false then none else w.scheduler.locks.get? uri := by
  have hlock : (w.forget u).scheduler.locks =
      if w.isLocked u then w.scheduler.locks else w.scheduler.locks.erase u := by
    show (if w.isLocked u then _ else _ : Scheduler).locks = _
    split <;> rfl
  rw [hlock]
  cases w.isLocked u
  · rw [if_neg Bool.false_ne_true, Keyed.get?_erase]
    simp
  · simp

theorem generation_forget (w : World η ρ) (u uri : String) :
    (w.forget u).scheduler.generations.get? uri =
      if uri = u then none else w.scheduler.generations.get? uri := by
  have hgenerations : (w.forget u).scheduler.generations = w.scheduler.generations.erase u := by
    show (if w.isLocked u then _ else _ : Scheduler).generations = _
    split <;> rfl
  rw [hgenerations, Keyed.get?_erase]

/-- An address that is forgotten is gone at once, unless its lock is held. -/
theorem gone_forget_iff : (w.forget uri).Gone uri ↔ w.isLocked uri = false := by
  refine ⟨fun hgone => ?_, fun hfree => ⟨?_, ?_, w.cache.lacks_delete uri⟩⟩
  · have hlock := w.lock_forget uri uri
    rw [hgone.lock] at hlock
    split at hlock
    · next hfree => exact hfree.2
    · rw [isLocked, ← hlock]
      rfl
  · rw [generation_forget, if_pos rfl]
  · rw [lock_forget, if_pos ⟨rfl, hfree⟩]

theorem carries_forget (w : World η ρ) (u uri : String) :
    Carries uri w [.forgotten u] (w.forget u) := by
  refine ⟨rfl, fun _ hgone => ⟨?_, ?_, hgone.cache.delete u⟩, fun hother hnumber => ?_,
    fun hother hlock => ?_⟩
  · rw [generation_forget, hgone.generation, ite_self]
  · rw [lock_forget, hgone.lock, ite_self]
  all_goals have hne : uri ≠ u := fun heq => hother (by simp [heq])
  · rw [HasNumber, generation_forget, if_neg hne]
    exact hnumber.resolve_right (by simp)
  · rwa [lock_forget, if_neg fun hfree => hne hfree.1]

theorem generation_cancel (w : World η ρ) (u uri : String) :
    (w.cancel u).scheduler.generations.get? uri =
      if uri = u ∧ (w.scheduler.generations.get? u).isSome then some w.scheduler.next
      else w.scheduler.generations.get? uri := by
  show (w.scheduler.cancel u).generations.get? uri = _
  rw [Scheduler.cancel, Keyed.contains_eq_isSome]
  split
  · next hsome => simp [Scheduler.draw, hsome]
  · next hnone => simp [hnone]

theorem carries_cancel (w : World η ρ) (u uri : String) :
    Carries uri w [.cancelled u] (w.cancel u) := by
  have hlocks : (w.cancel u).scheduler.locks = w.scheduler.locks := w.scheduler.locks_cancel u
  refine ⟨rfl, fun _ hgone => ⟨?_, by rw [hlocks, hgone.lock], hgone.cache⟩, fun _ hnumber => ?_,
    fun _ hlock => hlocks ▸ hlock⟩
  · rw [generation_cancel, if_neg, hgone.generation]
    rintro ⟨rfl, hsome⟩
    exact hgone.ne_of_hasNumber hsome rfl
  · rw [HasNumber, generation_cancel]
    split
    · rfl
    · exact hnumber.resolve_right (by simp)

theorem carries_obey (w : World η ρ) (c : Command) : ∃ es, Carries uri w es (w.obey c) := by
  cases c with
  | edit u text => exact (w.sameEntries_edit u text).carries
  | cancel u => exact ⟨_, w.carries_cancel u uri⟩
  | forget u => exact ⟨_, w.carries_forget u uri⟩
  | invalidate =>
    refine ⟨[], .of_cache rfl rfl (by simp [obey]) (by simp) fun _ hgone => ?_⟩
    exact hgone.cache.invalidate

theorem lacks_lookUp {d : Document} (hc : w.cache.Lacks uri) (hd : uri ≠ d.uri) (t : Nat)
    (errand : Errand) : (w.lookUp t errand d).2.cache.Lacks uri := by
  have hget := hc.get hd d.version
  simp only [lookUp]
  repeat' split
  · exact hget
  · exact ⟨hget.entry, hget.pending⟩
  · exact ⟨hget.entry, hget.pending⟩
  · exact hget.begin hd ..

theorem lacks_settleComputation (hc : w.cache.Lacks uri) (c : Nat) :
    (w.settleComputation c).cache.Lacks uri := by
  obtain ⟨x, ending, -, -, heq⟩ | ⟨heq, -⟩ := w.settleComputation_cases c <;> rw [heq]
  · exact hc.settle ..
  · exact hc

theorem Entry.carries (he : w.Entry v) : ∃ es, Carries uri w es v := by
  cases he with
  | none hs => exact hs.carries
  | obey c => exact w.carries_obey c
  | draw t k u ticket =>
    refine ⟨[.drawn t k u ticket], rfl, fun hbegins hgone => ⟨?_, hgone.lock, hgone.cache⟩,
      fun _ hnumber => ?_, fun _ hlock => hlock⟩
    · have hne : uri ≠ u := fun heq => hbegins _ (List.mem_singleton_self _) heq.symm
      exact (Keyed.get?_set ..).trans ((if_neg hne).trans hgone.generation)
    · show ((w.scheduler.generations.set u w.scheduler.next).get? uri).isSome
      rw [Keyed.get?_set]
      split
      · rfl
      · next hne =>
        refine hnumber.resolve_right ?_
        rintro ⟨t', k', ticket', hmem⟩
        refine hne ?_
        simp only [List.mem_singleton, Event.drawn.injEq] at hmem
        exact hmem.2.2.1
  | @makeLock u hn l =>
    refine ⟨[], by simp, fun _ hgone => ⟨hgone.generation, ?_, hgone.cache⟩,
      fun _ hnumber => hnumber.resolve_right (by simp), fun _ hlock => ?_⟩
    · exact (Keyed.get?_set ..).trans ((if_neg (hgone.ne_of_hasNumber hn)).trans hgone.lock)
    · show ((w.scheduler.locks.set u l).get? uri).isSome
      rw [Keyed.get?_set]
      split
      · rfl
      · exact hlock
  | @lookUp d hn t =>
    have htasks := w.sameTasks_lookUp t .refresh d
    refine ⟨[], .of_cache (by rw [htasks.scheduler]) (by rw [htasks.scheduler])
      (by rw [htasks.history, List.append_nil]) (by simp) fun _ hgone => ?_⟩
    exact lacks_lookUp hgone.cache (hgone.ne_of_hasNumber hn) t .refresh
  | ask t k d =>
    have htasks := (w.remember (.asked t k d.uri)).sameTasks_lookUp t .detection d
    refine ⟨[.asked t k d.uri], .of_cache (by rw [htasks.scheduler]; rfl)
      (by rw [htasks.scheduler]; rfl) htasks.history (by simp) fun hbegins hgone => ?_⟩
    have hne : uri ≠ d.uri := fun heq => hbegins _ (List.mem_singleton_self _) heq.symm
    exact lacks_lookUp (w := w.remember (.asked t k d.uri)) hgone.cache hne t .detection
  | settle c =>
    have htasks := w.sameTasks_settleComputation c
    refine ⟨[], .of_cache (by rw [htasks.scheduler]) (by rw [htasks.scheduler])
      (by rw [htasks.history, List.append_nil]) (by simp) fun _ hgone => ?_⟩
    exact lacks_settleComputation hgone.cache c

theorem Entries.carries (he : Entries w v) : ∃ es, Carries uri w es v := by
  induction he with
  | refl => exact ⟨[], .refl w⟩
  | tail _ hlast ih =>
    obtain ⟨es, hes⟩ := ih
    obtain ⟨es', hes'⟩ : ∃ es', Carries uri _ es' _ := hlast.carries
    exact ⟨es ++ es', hes.trans hes'⟩

/-! ### The moment of forgetting -/

theorem SameEntries.not_forgotten (hs : w.SameEntries v) :
    ∃ es, v.history = w.history ++ es ∧ ∀ u, .forgotten u ∉ es := by
  obtain ⟨es, hes, hnone⟩ := hs.history
  exact ⟨es, hes, fun u hmem => absurd (hnone _ hmem) (by simp [Event.isEntry])⟩

/-- No address is forgotten in an entry, unless that is all that is entered. -/
theorem Entry.forget_cases (he : w.Entry v) :
    (∃ es, v.history = w.history ++ es ∧ ∀ u, .forgotten u ∉ es) ∨ ∃ u, v = w.forget u := by
  cases he with
  | none hs => exact .inl hs.not_forgotten
  | obey c =>
    cases c with
    | edit u text => exact .inl (w.sameEntries_edit u text).not_forgotten
    | cancel u => exact .inl ⟨[.cancelled u], rfl, by simp⟩
    | forget u => exact .inr ⟨u, rfl⟩
    | invalidate => exact .inl ⟨[], (List.append_nil _).symm, by simp⟩
  | draw t k u ticket => exact .inl ⟨[.drawn t k u ticket], rfl, by simp⟩
  | makeLock => exact .inl ⟨[], (List.append_nil _).symm, by simp⟩
  | lookUp => exact .inl ⟨[], by simp [(w.sameTasks_lookUp ..).history], by simp⟩
  | ask t k d =>
    exact .inl ⟨[.asked t k d.uri], ((w.remember _).sameTasks_lookUp ..).history, by simp⟩
  | settle => exact .inl ⟨[], by simp [(w.sameTasks_settleComputation _).history], by simp⟩

/-- Where a run that began with `host` put down `before` and then that an address is forgotten: the
world `u` as it was at that moment, from which the run went on to `w`. -/
structure Forgetting (host : η) (before : List (Event ρ)) (uri : String) (u w : World η ρ) :
    Prop where
  reached : Entries (initial host) u
  history : u.history = before
  left : Entries (u.forget uri) w

/-- Whenever an address was forgotten, there was a moment of it. -/
theorem exists_forgetting {host : η} (he : Entries (initial host) w)
    (hhistory : w.history = before ++ .forgotten uri :: after) :
    ∃ u, Forgetting host before uri u w := by
  -- By induction from the end of the run: either the last entry is that moment, or it lies earlier
  -- and the last entry only goes on from it.
  induction he generalizing after with
  | refl => exact absurd hhistory (by simp [initial])
  | @tail v w hreached hlast ih =>
    have hearlier : ∀ after', v.history = before ++ .forgotten uri :: after' →
        ∃ u, Forgetting host before uri u w := by
      intro after' hsplit
      obtain ⟨u, hu⟩ := ih hsplit
      exact ⟨u, hu.reached, hu.history, hu.left.tail hlast⟩
    obtain ⟨es, hes, hnone⟩ | ⟨u, rfl⟩ := hlast.forget_cases
    · obtain ⟨after', hsplit, -⟩ := exists_split_of_append (hnone uri) (hes.symm.trans hhistory)
      exact hearlier after' hsplit
    · obtain ⟨after', hsplit, -⟩ | ⟨hbefore, hforgotten⟩ := exists_split_or_eq_of_concat hhistory
      · exact hearlier after' hsplit
      · obtain rfl := Event.forgotten.inj hforgotten
        exact ⟨v, hreached, hbefore, .refl⟩

/-- What was under way at the moment of forgetting brings nothing back. -/
theorem Forgetting.gone_iff {host : η} (hf : Forgetting host before uri u w)
    (hhistory : w.history = before ++ .forgotten uri :: after)
    (hforgotten : .forgotten uri ∉ after) (hasked : ∀ t k, .asked t k uri ∉ after) :
    w.Gone uri ↔ (∀ t k ticket, .drawn t k uri ticket ∉ after) ∧ u.isLocked uri = false := by
  obtain ⟨es, hes⟩ : ∃ es, Carries uri (u.forget uri) es w := hf.left.carries
  have hsplit : before ++ [.forgotten uri] ++ es = before ++ [.forgotten uri] ++ after :=
    calc
      before ++ [.forgotten uri] ++ es = (u.forget uri).history ++ es := by rw [← hf.history]; rfl
      _ = w.history := hes.history.symm
      _ = before ++ [.forgotten uri] ++ after := by rw [hhistory]; simp
  obtain rfl := List.append_cancel_left hsplit
  refine ⟨fun hgone => ⟨fun t k ticket hdrawn => ?_, ?_⟩, ?_⟩
  · exact hgone.ne_of_hasNumber (hes.number hforgotten (.inr ⟨t, k, ticket, hdrawn⟩)) rfl
  · rw [← Bool.not_eq_true]
    intro hlocked
    have hstays := hes.lock hforgotten
    rw [lock_forget, if_neg (by simp [hlocked]), hgone.lock] at hstays
    exact absurd (hstays (isSome_of_isLocked hlocked)) Bool.false_ne_true
  · rintro ⟨hdrawn, hfree⟩
    refine hes.gone (fun e he hbegins => ?_) (gone_forget_iff.mpr hfree)
    cases e with
    | drawn t k u' ticket =>
      obtain rfl := hbegins
      exact hdrawn t k ticket he
    | asked t k u' =>
      obtain rfl := hbegins
      exact hasked t k he
    | _ => exact hbegins

/-- The moment at which an act of a run was that an address be forgotten. -/
theorem forgetting_acts (h : Host η ρ) (host : η) (as bs : List (Act ρ)) (uri : String) :
    Forgetting host ((initial host).acts h as).history uri ((initial host).acts h as)
      ((initial host).acts h (as ++ .obey (.forget uri) :: bs)) := by
  refine ⟨entries_acts .., rfl, ?_⟩
  rw [acts_append, acts_cons]
  exact entries_acts ..

/-- In a run, an address is forgotten and not forgotten again, and nobody but refreshes asks for its
records afterwards. Wherever its refreshes stood at that moment, in the end the scheduler and the
cache know nothing of it exactly if no refresh of it began afterwards and its lock was not held. -/
theorem gone_iff_of_forgotten (h : Host η ρ) (host : η) (as : List (Act ρ))
    {before after : List (Event ρ)} {uri : String}
    (hhistory : ((initial host).acts h as).history = before ++ .forgotten uri :: after)
    (hforgotten : .forgotten uri ∉ after) (hasked : ∀ t k, .asked t k uri ∉ after) :
    (∃ u, Forgetting host before uri u ((initial host).acts h as)) ∧
      ∀ u, Forgetting host before uri u ((initial host).acts h as) →
        (((initial host).acts h as).Gone uri ↔
          (∀ t k ticket, .drawn t k uri ticket ∉ after) ∧ u.isLocked uri = false) :=
  ⟨exists_forgetting (entries_acts _ as) hhistory,
    fun _ hf => hf.gone_iff hhistory hforgotten hasked⟩

end World

/-- A document is forgotten while its refresh waits for the records. -/
def abandonedSpelling : List (Act Char) :=
  [.openDocument ⟨"a", 1, "css", "xy"⟩, .start .refresh 0, .turn 0] ++ .obey (.forget "a") ::
    [.turn 0, .turn 0, .turn 0, .turn 0]

open World in
/-- The refresh comes to its end, and its lock is left. -/
theorem gone_iff_of_forgotten_abandonedSpelling :
    let u := (initial ()).acts (Host.spelling 0) (abandonedSpelling.take 3)
    let w := (initial ()).acts (Host.spelling 0) abandonedSpelling
    let after : List (Event Char) :=
      [.returned 0 (.finished ⟨.superseded, 1, ['x', 'y'], 0⟩) (some ⟨"a", 1, "css", "xy"⟩)]
    w.history = [.drawn 0 0 "a" ⟨1, 1⟩] ++ .forgotten "a" :: after ∧ .forgotten "a" ∉ after ∧
      (∀ t k, .asked t k "a" ∉ after) ∧ u.isLocked "a" = true ∧ ¬w.Gone "a" := by
  intro u w after
  have hhistory : w.history = u.history ++ .forgotten "a" :: after := by decide
  have hforgotten : .forgotten "a" ∉ after := by decide
  have hasked : ∀ t k, .asked t k "a" ∉ after := by simp [after]
  have hlocked : u.isLocked "a" = true := by decide
  have hgone := (gone_iff_of_forgotten (Host.spelling 0) () abandonedSpelling hhistory hforgotten
    hasked).2 u (forgetting_acts ..)
  exact ⟨hhistory, hforgotten, hasked, hlocked, fun hw => by simp [(hgone.mp hw).2] at hlocked⟩

/-- A document is forgotten when its refresh was requested and has not begun. -/
def requestedSpelling : List (Act Char) :=
  [.openDocument ⟨"a", 1, "css", "xy"⟩, .start .refresh 0, .obey (.forget "a"), .turn 0, .turn 0,
    .turn 0, .turn 0, .turn 0, .turn 0]

open World in
/-- The refresh goes on as if nothing had happened, and all that it enters is left. -/
theorem not_gone_requestedSpelling :
    let w := (initial ()).acts (Host.spelling 0) requestedSpelling
    (∀ task ∈ w.tasks, task.stage.isOver = true) ∧ w.turns = [] ∧
      w.scheduler.generations.get? "a" = some 1 ∧ w.scheduler.locks.get? "a" = some 0 ∧
      w.cache.held? "a" 1 = some ['x', 'y'] ∧ ¬w.Gone "a" := by
  intro w
  have hnumber : w.scheduler.generations.get? "a" = some 1 := by decide
  exact ⟨by decide, by decide, hnumber, by decide, by decide,
    fun hw => Option.some_ne_none 1 (hnumber.symm.trans hw.generation)⟩

end Swatch

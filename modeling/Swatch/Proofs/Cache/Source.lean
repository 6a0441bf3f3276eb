import Swatch.Proofs.Cache.Call

/-!
Where the records come from that a cache has. Main statement: at any moment they are what was put in,
or what a computation has found that was begun for just that key and version, and the key has not
been dropped since they were put in or since the computation was begun.
-/

namespace Swatch

open World

variable {η ρ : Type} {h : Host η ρ} {w : World η ρ} {us : List (Use ρ)}

namespace World

/-- No use drops a key. -/
def Spares (h : Host η ρ) (w : World η ρ) (key : String) (us : List (Use ρ)) : Prop :=
  ∀ before u after, us = before ++ u :: after → ¬(w.uses h before).Drops h key u

/-- A use comes after others in a run, and no later one drops a key. -/
def Lasts (h : Host η ρ) (w : World η ρ) (key : String) (us before : List (Use ρ)) (u : Use ρ) :
    Prop :=
  ∃ after, us = before ++ u :: after ∧ (w.uses h (before ++ [u])).Spares h key after

theorem Spares.concat {key : String} {u : Use ρ} (hs : w.Spares h key us)
    (hu : ¬(w.uses h us).Drops h key u) : w.Spares h key (us ++ [u]) := by
  intro before u' after hsplit
  rcases exists_split_or_eq_of_concat hsplit with ⟨after', hsplit', -⟩ | ⟨rfl, rfl⟩
  · exact hs before u' after' hsplit'
  · exact hu

theorem Lasts.concat {key : String} {before : List (Use ρ)} {u u' : Use ρ}
    (hl : w.Lasts h key us before u) (hu : ¬(w.uses h us).Drops h key u') :
    w.Lasts h key (us ++ [u']) before u := by
  obtain ⟨after, rfl, hs⟩ := hl
  refine ⟨after ++ [u'], by simp, hs.concat ?_⟩
  rw [← uses_append]
  simpa using hu

theorem lasts_last (w : World η ρ) (key : String) (us : List (Use ρ)) (u : Use ρ) :
    w.Lasts h key (us ++ [u]) us u :=
  ⟨[], rfl, fun before u' after hsplit => by simp at hsplit⟩

/-- Where all comes from that is pending or held after a run. -/
structure Traced (h : Host η ρ) (w : World η ρ) (us : List (Use ρ)) : Prop where
  pending : ∀ key v c, (w.uses h us).cache.pending.get? (key, v) = some c →
    ∃ before u, w.Lasts h key us before u ∧ (w.uses h before).Begins h u c key v
  held : ∀ key v records, (w.uses h us).cache.held? key v = some records →
    ∃ before u, w.Lasts h key us before u ∧ (u = .cache (.set key v records) ∨
      ∃ c, (w.uses h before).Begins h u c key v ∧
        (w.uses h us).state? c = some (.ended (.finished records)))

theorem begins_of_pending_use {u : Use ρ} {c : Nat} {key : String} {v : Int}
    (hpending : (w.use h u).cache.pending.get? (key, v) = some c) :
    w.cache.pending.get? (key, v) = some c ∨ w.Begins h u c key v := by
  refine (pending_or_new hpending).imp_right ?_
  rintro ⟨hnew, x, hx, rfl, rfl⟩
  exact begins_of_new hnew hx

theorem Begins.exists_computation {u : Use ρ} {c : Nat} {key : String} {v : Int}
    (hb : w.Begins h u c key v) (us : List (Use ρ)) :
    ∃ x, ((w.use h u).uses h us).computations[c]? = some x ∧ x.document.uri = key ∧
      x.document.version = v := by
  obtain @⟨v, t, errand, d, hcall, hheld, hnone, huse⟩ := hb
  have hx : (w.use h u).computations[w.computations.length]? =
      some ⟨errand, d, t, [t], .queued⟩ := by
    rw [huse, lookUp_of_none hheld hnone errand, ← hcall.computations]
    exact List.getElem?_concat_length
  obtain ⟨x', hx', hbecomes⟩ := ((w.use h u).grows_uses us).computations _ _ hx
  exact ⟨x', hx', by rw [hbecomes.document], by rw [hbecomes.document]⟩

theorem Traced.concat (ht : w.Traced h us) (u : Use ρ) : w.Traced h (us ++ [u]) := by
  have hgrows := (w.uses h us).grows_use (h := h) u
  refine ⟨fun key v c hpending => ?_, fun key v records hheld => ?_⟩
  · rw [uses_concat] at hpending
    rcases begins_of_pending_use hpending with hbefore | hbegins
    · obtain ⟨before, u', hlasts, hbegins⟩ := ht.pending key v c hbefore
      obtain ⟨after, hsplit, -⟩ := id hlasts
      obtain ⟨x, hx, rfl, rfl⟩ := hbegins.exists_computation after
      have hrun : w.uses h us = ((w.uses h before).use h u').uses h after := by
        rw [hsplit, uses_append]
        rfl
      rw [← hrun] at hx
      obtain ⟨-, hdrops, -⟩ := (pending_use hx).mp hpending
      exact ⟨before, u', hlasts.concat hdrops, hbegins⟩
    · exact ⟨us, u, w.lasts_last key us u, hbegins⟩
  · rw [uses_concat] at hheld ⊢
    rcases held?_use hheld with ⟨hbefore, hdrops⟩ | rfl | ⟨hdrops, c, -, hpending, hended⟩
    · obtain ⟨before, u', hlasts, hfrom⟩ := ht.held key v records hbefore
      refine ⟨before, u', hlasts.concat hdrops, hfrom.imp_right ?_⟩
      rintro ⟨c, hbegins, hended⟩
      exact ⟨c, hbegins, hgrows.state? hended⟩
    · exact ⟨us, _, w.lasts_last key us _, .inl rfl⟩
    · obtain ⟨before, u', hlasts, hbegins⟩ := ht.pending key v c hpending
      exact ⟨before, u', hlasts.concat hdrops, .inr ⟨c, hbegins, hgrows.state? hended⟩⟩

theorem traced_uses (h : Host η ρ) (host : η) (us : List (Use ρ)) :
    (initial host).Traced h us := by
  induction us using List.reverseRecOn with
  | nil =>
      refine ⟨fun key v c hpending => ?_, fun key v records hheld => ?_⟩
      · simp [initial, EmptyCollection.emptyCollection, Cache.empty, Keyed.get?, Keyed.empty]
          at hpending
      · simp [initial, EmptyCollection.emptyCollection, Cache.empty, Cache.held?, Keyed.get?,
          Keyed.empty] at hheld
  | append_singleton us u ih => exact ih.concat u

end World

/-- Whatever a cache is used for, and in whatever order computations are begun, end and are settled:
the records that it gives at any moment, in the middle of a turn or between two, were put in for just
that key and version, or are what a computation has found that was begun for them; and the key has
not been dropped since. A key has records of one version only, and to settle a computation leaves an
entry of a higher version as it is. -/
theorem source_of_get (h : Host η ρ) (host : η) (us : List (Use ρ)) (v : World η ρ)
    (hv : Steps h ((initial host).uses h us) v) (key : String) :
    (∀ version records, (v.cache.get key version).1 = some records →
      .forgotten key ∉ v.history.drop ((initial host).uses h us).history.length ∧
        ∃ before u, (initial host).Lasts h key us before u ∧ (u = .cache (.set key version records) ∨
          ∃ c, ((initial host).uses h before).Begins h u c key version ∧
            v.state? c = some (.ended (.finished records)))) ∧
    (∀ version version' records records', (v.cache.get key version).1 = some records →
      (v.cache.get key version').1 = some records' → version = version' ∧ records = records') ∧
    ∀ c x entry, v.computations[c]? = some x → v.cache.entries.get? key = some entry →
      x.document.version < entry.version →
      (v.settleComputation c).cache.entries.get? key = some entry := by
  refine ⟨fun version records hget => ?_, fun version version' records records' hget hget' => ?_,
    fun c x entry hx hentry hlt => ?_⟩
  · obtain ⟨es, hr⟩ := hv.retains
    rw [Cache.get_fst] at hget
    obtain ⟨hheld, hes⟩ := hr.held key version records hget
    obtain ⟨before, u, hlasts, hfrom⟩ := (traced_uses h host us).held key version records hheld
    refine ⟨by rwa [hr.history, List.drop_left], before, u, hlasts, hfrom.imp_right ?_⟩
    rintro ⟨c, hbegins, hended⟩
    exact ⟨c, hbegins, hr.grows.state? hended⟩
  · rw [Cache.get_fst, Cache.held?] at hget hget'
    split at hget
    · rename_i entry hentry
      simp only [hentry] at hget'
      grind
    · simp at hget
  · simp only [settleComputation, hx]
    split
    · exact Cache.entries_settle hentry fun _ => hlt
    · exact hentry

/-- The key of a computation is dropped, and the computation is settled only after another one has
been begun for the same version. -/
def droppedAndBegunAnew : List (Use Char) :=
  [.act (.openDocument ⟨"a", 1, "css", "xy"⟩), .act (.start .detection 0), .act (.turn 0),
    .act (.turn 0), .cache (.delete "a"), .act (.start .detection 0), .act (.turn 0),
    .act (.turn 0), .act (.release 0 (.finished ['x'])), .act (.turn 0), .act (.turn 0),
    .act (.release 1 (.finished ['y'])), .act (.turn 1), .act (.turn 1)]

theorem source_of_get_droppedAndBegunAnew :
    let h := Host.withholding
    let w := (initial ()).uses h droppedAndBegunAnew
    Steps h w w ∧ w.state? 0 = some (.ended (.finished ['x'])) ∧
      (w.cache.get "a" 1).1 = some ['y'] ∧
      ∃ before u, (initial ()).Lasts h "a" droppedAndBegunAnew before u ∧
        (u = .cache (.set "a" 1 ['y']) ∨ ∃ c, ((initial ()).uses h before).Begins h u c "a" 1 ∧
          w.state? c = some (.ended (.finished ['y']))) := by
  intro h w
  obtain ⟨hsource, -, -⟩ := source_of_get h () droppedAndBegunAnew w .refl "a"
  have hget : (w.cache.get "a" 1).1 = some ['y'] := by decide
  exact ⟨.refl, by decide, hget, (hsource 1 ['y'] hget).2⟩

end Swatch

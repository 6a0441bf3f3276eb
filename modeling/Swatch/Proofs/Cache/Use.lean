import Swatch.Proofs.Refresh.Growth

/-!
A world whose cache is used by others as well. Between any two acts, whoever has the cache may look
records up in it, put some in or drop some. What is pending stays so until the key is dropped or the
computation is settled, and what is held was held before, unless it was put in or is what a
computation has found that was settled.
-/

namespace Swatch

open Relation

variable {η ρ : Type}

/-- What may be done to a cache at any moment. -/
inductive Cache.Op (ρ : Type) where
  | get (key : String) (version : Int)
  | set (key : String) (version : Int) (records : List ρ)
  | delete (key : String)
  | clear
  | invalidate

def Cache.after (c : Cache ρ) : Cache.Op ρ → Cache ρ
  | .get key version => (c.get key version).2
  | .set key version records => c.set key version records
  | .delete key => c.delete key
  | .clear => c.clear
  | .invalidate => c.invalidate

/-- What may come next where the cache is used by others. -/
inductive Use (ρ : Type) where
  | act (a : Act ρ)
  | cache (op : Cache.Op ρ)

namespace World

variable (h : Host η ρ)

def use (w : World η ρ) : Use ρ → World η ρ
  | .act a => w.act h a
  | .cache op => { w with cache := w.cache.after op }

def uses (w : World η ρ) (us : List (Use ρ)) : World η ρ :=
  us.foldl (use h) w

/-- A use drops a key: what is held for it and what is pending. -/
def Drops (w : World η ρ) (key : String) : Use ρ → Prop
  | .act a => .forgotten key ∈ (w.act h a).history.drop w.history.length
  | .cache (.delete k) => k = key
  | .cache .clear => True
  | .cache _ => False

/-- A use takes in the end of a computation. -/
def Settles (w : World η ρ) (c : Nat) : Use ρ → Prop
  | .act (.turn n) => w.turns[n]? = some (.settle c) ∧ ∃ ending, w.state? c = some (.ended ending)
  | _ => False

@[simp] theorem uses_nil (w : World η ρ) : w.uses h [] = w :=
  rfl

theorem uses_append (w : World η ρ) (us us' : List (Use ρ)) :
    w.uses h (us ++ us') = (w.uses h us).uses h us' :=
  List.foldl_append

theorem uses_concat (w : World η ρ) (us : List (Use ρ)) (u : Use ρ) :
    w.uses h (us ++ [u]) = (w.uses h us).use h u :=
  uses_append ..

variable {h} {w w' w'' : World η ρ} {es es' : List (Event ρ)}

theorem uses_induction {P : World η ρ → Prop} (hact : ∀ v a, P v → P (v.act h a))
    (hop : ∀ v op, P v → P { v with cache := v.cache.after op }) (hw : P w) (us : List (Use ρ)) :
    P (w.uses h us) := by
  induction us generalizing w with
  | nil => exact hw
  | cons u us ih =>
      cases u with
      | act a => exact ih (hact w a hw)
      | cache op => exact ih (hop w op hw)

theorem use_turn (w : World η ρ) {n : Nat} {done : Turn} (hdone : w.turns[n]? = some done) :
    w.use h (.act (.turn n)) = { w with turns := w.turns.eraseIdx n }.perform h done := by
  simp [use, act, hdone]

theorem state?_modify (w : World η ρ) (c c' : Nat) (state : Computation.State ρ) (turns : List Turn) :
    { w with
      computations := w.computations.modify c' fun x => { x with state := state }
      turns := turns }.state? c =
      if c' = c then (w.state? c).map fun _ => state else w.state? c := by
  simp only [state?, List.getElem?_modify]
  cases w.computations[c]? with
  | none => simp
  | some x => by_cases hcc : c' = c <;> simp [hcc]

/-! ### What comes of looking records up -/

/-- What a task is answered that looks up the records of a document as it is, and what becomes of the
world. -/
inductive LooksUp (v : World η ρ) (t : Nat) (errand : Errand) (d : Document) :
    Lookup ρ × World η ρ → Prop where
  | held {records : List ρ} (hheld : v.cache.held? d.uri d.version = some records) :
      LooksUp v t errand d
        (.known (.finished records), { v with cache := (v.cache.get d.uri d.version).2 })
  | ended {c : Nat} {ending : Ending (List ρ)} (hheld : v.cache.held? d.uri d.version = none)
      (hpending : v.cache.pending.get? (d.uri, d.version) = some c)
      (hended : v.state? c = some (.ended ending)) :
      LooksUp v t errand d
        (.known ending, { v with cache := (v.cache.get d.uri d.version).2.join })
  | joined {c : Nat} (hheld : v.cache.held? d.uri d.version = none)
      (hpending : v.cache.pending.get? (d.uri, d.version) = some c)
      (hrunning : ∀ ending, v.state? c ≠ some (.ended ending)) :
      LooksUp v t errand d
        (.awaited,
          { v with
            cache := (v.cache.get d.uri d.version).2.join
            computations :=
              v.computations.modify c fun x => { x with callers := x.callers ++ [t] } })
  | begun (hheld : v.cache.held? d.uri d.version = none)
      (hnone : v.cache.pending.get? (d.uri, d.version) = none) :
      LooksUp v t errand d
        (.awaited,
          { v with
            cache := (v.cache.get d.uri d.version).2.begin d.uri d.version v.computations.length
            computations := v.computations ++ [⟨errand, d, t, [t], .queued⟩]
            turns := v.turns ++ [.begin v.computations.length] })

theorem looksUp (v : World η ρ) (t : Nat) (errand : Errand) (d : Document) :
    v.LooksUp t errand d (v.lookUp t errand d) := by
  have hfst := v.cache.get_fst d.uri d.version
  have hpending := v.cache.pending_get d.uri d.version
  simp only [lookUp, hpending]
  split
  · rename_i records hrecords
    exact .held (hfst.symm.trans hrecords)
  · rename_i hnone
    have hheld := hfst.symm.trans hnone
    split
    · rename_i c hc
      split
      · rename_i ending hending
        exact .ended hheld hc hending
      · rename_i hrunning
        exact .joined hheld hc hrunning
    · rename_i hc
      exact .begun hheld hc

theorem lookUp_of_none {v : World η ρ} {t : Nat} {d : Document}
    (hheld : v.cache.held? d.uri d.version = none)
    (hnone : v.cache.pending.get? (d.uri, d.version) = none) (errand : Errand) :
    v.lookUp t errand d =
      (.awaited,
        { v with
          cache := (v.cache.get d.uri d.version).2.begin d.uri d.version v.computations.length
          computations := v.computations ++ [⟨errand, d, t, [t], .queued⟩]
          turns := v.turns ++ [.begin v.computations.length] }) := by
  have hlooks := v.looksUp t errand d
  generalize v.lookUp t errand d = r at hlooks ⊢
  cases hlooks with
  | held hheld' => simp [hheld] at hheld'
  | ended _ hpending | joined _ hpending => simp [hnone] at hpending
  | begun => rfl

/-- A computation that there is once records have been looked up was there before, in the same state
and with no caller but those it had and who looks the records up; or it has been begun for them. -/
theorem was_or_begun_of_lookUp {v : World η ρ} {t c : Nat} {errand : Errand} {d : Document}
    {x : Computation ρ} (hx : (v.lookUp t errand d).2.computations[c]? = some x) :
    (∃ y, v.computations[c]? = some y ∧ y.state = x.state ∧ ∀ i ∈ x.callers,
      i ∈ y.callers ∨ i = t ∧ v.cache.pending.get? (d.uri, d.version) = some c) ∨
      c = v.computations.length ∧ x = ⟨errand, d, t, [t], .queued⟩ ∧
        v.cache.held? d.uri d.version = none ∧
        v.cache.pending.get? (d.uri, d.version) = none := by
  have hlooks := v.looksUp t errand d
  generalize v.lookUp t errand d = r at hx hlooks
  cases hlooks with
  | held | ended => exact .inl ⟨x, hx, rfl, fun _ => .inl⟩
  | joined hheld hpending =>
      rw [List.getElem?_modify] at hx
      obtain ⟨y, hy, rfl⟩ := Option.map_eq_some_iff.mp hx
      refine .inl ⟨y, hy, by split <;> rfl, fun i hi => ?_⟩
      split at hi
      · rename_i hc
        exact (List.mem_append.mp hi).imp_right fun hi => ⟨List.mem_singleton.mp hi, hc ▸ hpending⟩
      · exact .inl hi
  | begun hheld hnone =>
      rw [List.getElem?_append] at hx
      split at hx
      · exact .inl ⟨x, hx, rfl, fun _ => .inl⟩
      · obtain rfl := List.mem_singleton.mp (List.mem_of_getElem? hx)
        have hlt := (List.getElem?_eq_some_iff.mp hx).1
        rw [List.length_singleton] at hlt
        exact .inr ⟨by omega, rfl, hheld, hnone⟩

/-- To look records up leaves all computations in the state that they are in, and begins one at
most. -/
theorem state?_lookUp {v : World η ρ} {t c : Nat} {errand : Errand} {d : Document}
    {state : Computation.State ρ} (hstate : (v.lookUp t errand d).2.state? c = some state) :
    v.state? c = some state ∨ c = v.computations.length ∧ state = .queued := by
  obtain ⟨x, hx, rfl⟩ := Option.map_eq_some_iff.mp hstate
  obtain ⟨y, hy, hsame, -⟩ | ⟨hc, rfl, -⟩ := was_or_begun_of_lookUp hx
  · exact .inl (by rw [state?, hy, Option.map_some, hsame])
  · exact .inr ⟨hc, rfl⟩

/-! ### What becomes of the cache in an act -/

/-- What is held was held before, what is pending was pending before or has been begun since, and
all of that has not been forgotten since. -/
structure Retains (w : World η ρ) (es : List (Event ρ)) (w' : World η ρ) : Prop where
  history : w'.history = w.history ++ es
  grows : w.Grows w'
  held : ∀ key v records, w'.cache.held? key v = some records →
    w.cache.held? key v = some records ∧ .forgotten key ∉ es
  pending : ∀ c < w.computations.length, ∀ key v, w'.cache.pending.get? (key, v) = some c ↔
    w.cache.pending.get? (key, v) = some c ∧ .forgotten key ∉ es
  begun : ∀ c key v, w'.cache.pending.get? (key, v) = some c →
    w.cache.pending.get? (key, v) = some c ∨ w.computations.length ≤ c ∧
      ∃ x, w'.computations[c]? = some x ∧ x.document.uri = key ∧ x.document.version = v

theorem Grows.length_le (hg : w.Grows w') : w.computations.length ≤ w'.computations.length := by
  rcases Nat.eq_zero_or_pos w.computations.length with hzero | hpos
  · omega
  · obtain ⟨y, hy, -⟩ := hg.computations (w.computations.length - 1) _
      (List.getElem?_eq_getElem (by omega))
    have := (List.getElem?_eq_some_iff.mp hy).1
    omega

theorem Retains.trans (hr : w.Retains es w') (hr' : w'.Retains es' w'') :
    w.Retains (es ++ es') w'' := by
  refine ⟨by rw [hr'.history, hr.history, List.append_assoc], hr.grows.trans hr'.grows, ?_, ?_, ?_⟩
  · intro key v records hheld
    obtain ⟨hheld', hes'⟩ := hr'.held key v records hheld
    obtain ⟨hheld, hes⟩ := hr.held key v records hheld'
    exact ⟨hheld, by simp [hes, hes']⟩
  · intro c hc key v
    rw [hr'.pending c (Nat.lt_of_lt_of_le hc hr.grows.length_le), hr.pending c hc, List.mem_append]
    grind
  · intro c key v hpending
    rcases hr'.begun c key v hpending with hpending' | ⟨hle, hx⟩
    · refine (hr.begun c key v hpending').imp_right fun ⟨hle, x, hx, huri, hversion⟩ => ?_
      obtain ⟨x', hx', hbecomes⟩ := hr'.grows.computations c x hx
      exact ⟨hle, x', hx', by rw [hbecomes.document, huri], by rw [hbecomes.document, hversion]⟩
    · exact .inr ⟨Nat.le_trans hr.grows.length_le hle, hx⟩

theorem retains_of_cache (hhistory : w'.history = w.history ++ es) (hes : ∀ u, .forgotten u ∉ es)
    (hgrows : w.Grows w') (hcache : w'.cache = w.cache) : w.Retains es w' := by
  refine ⟨hhistory, hgrows, fun key v records hheld => ⟨hcache ▸ hheld, hes key⟩, ?_, ?_⟩
  · intro c hc key v
    simp [hcache, hes key]
  · intro c key v hpending
    exact .inl (hcache ▸ hpending)

theorem retains_refl (w : World η ρ) : w.Retains [] w :=
  retains_of_cache (by simp) (by simp) w.grows_refl rfl

theorem Retains.of_same {v : World η ρ} (hr : w.Retains es v)
    (hstanding : ∀ t k s, v.standing? t = some (k, s) → ∃ s', w'.standing? t = some (k, s'))
    (hdocuments : w'.documents = v.documents) (hcomputations : w'.computations = v.computations)
    (hcache : w'.cache = v.cache) (hhistory : w'.history = v.history ++ es')
    (hes' : ∀ u, .forgotten u ∉ es') : w.Retains (es ++ es') w' := by
  refine hr.trans (retains_of_cache hhistory hes' ⟨hstanding, ?_, ?_⟩ hcache)
  · rw [hdocuments]
    exact v.grows_refl.documents
  · rw [hcomputations]
    exact v.grows_refl.computations

/-- Which turns are to come and what timers run is nothing to the cache. -/
theorem retains_turns (w : World η ρ) (turns : List Turn) (timers : List Timer) :
    w.Retains [] { w with turns := turns, timers := timers } :=
  w.retains_refl.of_same (fun _ _ s hi => ⟨s, hi⟩) rfl rfl rfl (List.append_nil _).symm (by simp)

theorem exists_standing?_wait (w : World η ρ) (t : Nat) (stage : Stage ρ) :
    ∀ i k s, w.standing? i = some (k, s) → ∃ s', (w.wait t stage).standing? i = some (k, s') := by
  intro i k s hi
  rw [standing?_wait]
  split
  · rename_i hit
    exact ⟨stage, by rw [← hit, hi]; rfl⟩
  · exact ⟨s, hi⟩

theorem retains_obey (w : World η ρ) (c : Command) : ∃ es, w.Retains es (w.obey c) := by
  have hgrows := w.grows_obey c
  cases c with
  | edit uri text =>
      rw [obey, edit] at hgrows ⊢
      split
      · rename_i d hd
        rw [hd] at hgrows
        exact ⟨[.edited d], retains_of_cache rfl (by simp) hgrows rfl⟩
      · exact ⟨[], w.retains_refl⟩
  | cancel uri => exact ⟨[.cancelled uri], retains_of_cache rfl (by simp) hgrows rfl⟩
  | forget uri =>
      refine ⟨[.forgotten uri], rfl, hgrows, fun key v records hheld => ?_, fun c _ key v => ?_,
        fun c key v hpending => .inl ?_⟩
      · have hdelete : (w.cache.delete uri).held? key v = some records := hheld
        rw [Cache.held?_delete] at hdelete
        split at hdelete
        · simp at hdelete
        · rename_i hne
          exact ⟨hdelete, by simpa using hne⟩
      · have hdelete : (w.obey (.forget uri)).cache.pending.get? (key, v) =
            if key = uri then none else w.cache.pending.get? (key, v) := w.cache.pending_delete ..
        rw [hdelete]
        split <;> simp_all
      · have hdelete : (w.cache.delete uri).pending.get? (key, v) = some c := hpending
        rw [Cache.pending_delete] at hdelete
        split at hdelete
        · simp at hdelete
        · exact hdelete
  | invalidate =>
      refine ⟨[], by simp [obey], hgrows, fun key v records hheld => ?_, fun c _ key v => ?_,
        fun c key v hpending => .inl hpending⟩
      · have hnone := w.cache.held?_invalidate key v
        exact absurd (hheld.symm.trans hnone) (by simp)
      · simp [obey, Cache.invalidate]

theorem retains_obeyAll (w : World η ρ) (cs : List Command) : ∃ es, w.Retains es (w.obeyAll cs) := by
  induction cs generalizing w with
  | nil => exact ⟨[], w.retains_refl⟩
  | cons c cs ih =>
      obtain ⟨es, hr⟩ := w.retains_obey c
      obtain ⟨es', hr'⟩ := ih (w.obey c)
      exact ⟨es ++ es', hr.trans hr'⟩

theorem retains_hosted (w : World η ρ) (host : η) (cs : List Command) :
    ∃ es, w.Retains es ({ w with host := host }.obeyAll cs) := by
  obtain ⟨es, hr⟩ := retains_obeyAll { w with host := host } cs
  exact ⟨es, hr.history, w.grows_hosted host cs, hr.held, hr.pending, hr.begun⟩

theorem retains_lookUp (w : World η ρ) (t : Nat) (errand : Errand) (d : Document) :
    w.Retains [] (w.lookUp t errand d).2 := by
  have hhistory := (w.sameTasks_lookUp t errand d).history
  have hgrows := w.grows_lookUp t errand d
  have hlooks := w.looksUp t errand d
  generalize w.lookUp t errand d = r at hhistory hgrows hlooks ⊢
  refine ⟨by simpa using hhistory, hgrows, fun key v records hheld => ⟨?_, by simp⟩, ?_, ?_⟩
  · cases hlooks <;> exact (w.cache.held?_get d.uri key d.version v).symm.trans hheld
  · intro c hc key v
    cases hlooks with
    | begun _ hnone =>
        simp only [Cache.begin, Cache.pending_get, Keyed.get?_set, List.not_mem_nil,
          not_false_eq_true, and_true]
        split
        · rename_i hkey
          rw [hkey, hnone]
          simp only [Option.some.injEq, reduceCtorEq, iff_false]
          omega
        · rfl
    | _ => simp [Cache.join]
  · intro c key v hpending
    cases hlooks with
    | begun _ hnone =>
        simp only [Cache.begin, Cache.pending_get, Keyed.get?_set] at hpending
        split at hpending
        · rename_i hkey
          obtain ⟨rfl, rfl⟩ := Prod.mk.inj hkey
          obtain rfl := Option.some.inj hpending
          exact .inr ⟨Nat.le_refl _, _, List.getElem?_concat_length, rfl, rfl⟩
        · exact .inl hpending
    | _ => exact .inl (by simpa [Cache.join] using hpending)

/-- A step carries out commands or forgets no address. -/
theorem Step.obeys_or_remembers {free : Bool} (hs : Step h free w w') :
    (∃ host commands, w' = { w with host := host }.obeyAll commands) ∨
      ∃ es, w'.history = w.history ++ es ∧ ∀ u, .forgotten u ∉ es := by
  rcases hs.quiet_or_stirs with hquiet | hstirs
  · obtain ⟨es, hhistory, hes⟩ := hquiet.history
    exact .inr ⟨es, hhistory, fun u hu => by simpa [Event.isQuiet] using hes _ hu⟩
  · cases hstirs with
    | openDocument d => exact .inr ⟨[], by simp [World.openDocument], by simp⟩
    | editAt k text => exact .inr ⟨_, rfl, by simp⟩
    | obeyAll host commands => exact .inl ⟨host, commands, rfl⟩
    | draw => exact .inr ⟨_, rfl, by simp⟩
    | hand => exact .inr ⟨_, rfl, by simp⟩

theorem Step.retains {free : Bool} (hs : Step h free w w') : ∃ es, w.Retains es w' := by
  rcases hs.obeys_or_remembers with ⟨host, commands, rfl⟩ | ⟨es, hhistory, hes⟩
  · exact w.retains_hosted host commands
  have hgrows := hs.grows
  cases hs.works with
  | nothing hsame => exact ⟨es, retains_of_cache hhistory hes hgrows hsame.cache⟩
  | openDocument d => exact ⟨es, retains_of_cache hhistory hes hgrows rfl⟩
  | editAt k text => exact ⟨es, retains_of_cache hhistory hes hgrows rfl⟩
  | obeyAll => exact w.retains_hosted ..
  | release c ending => exact ⟨es, retains_of_cache hhistory hes hgrows (w.release_frame c ending).1⟩
  | finish c => exact ⟨es, retains_of_cache hhistory hes hgrows (w.finishComputation_frame c).1⟩
  | @lookUp v d hsame hd t errand =>
      have hr := v.retains_lookUp t errand d
      refine ⟨es, hhistory, hgrows, fun key version records hheld => ?_, fun c hc key version => ?_,
        fun c key version hpending => ?_⟩
      · exact ⟨hsame.cache ▸ (hr.held key version records hheld).1, hes key⟩
      · rw [hr.pending c (hsame.computations ▸ hc), hsame.cache]
        simp [hes key]
      · have hbegun := hr.begun c key version hpending
        rwa [hsame.cache, hsame.computations] at hbegun

theorem Steps.retains (hs : Steps h w w') : ∃ es, w.Retains es w' := by
  induction hs with
  | refl => exact ⟨[], w.retains_refl⟩
  | tail _ hstep ih =>
      obtain ⟨es, hr⟩ := ih
      obtain ⟨es', hr'⟩ := hstep.retains
      exact ⟨es ++ es', hr.trans hr'⟩

theorem retains_beginComputation (w : World η ρ) (c : Nat) :
    ∃ es, w.Retains es (w.beginComputation h c) := by
  obtain ⟨host, commands, hgrows, hcache, hhistory⟩ := w.beginComputation_grows (h := h) c
  obtain ⟨es, hr⟩ := w.retains_hosted host commands
  have hnothing : (w.beginComputation h c).history =
      ({ w with host := host }.obeyAll commands).history ++ [] := by simpa using hhistory
  exact ⟨es ++ [], hr.trans (retains_of_cache hnothing (by simp) hgrows hcache)⟩

/-- An act that takes in the end of no computation retains what is pending. -/
theorem act_retains (w : World η ρ) (a : Act ρ) :
    ((∀ c, ¬w.Settles c (.act a)) ∧ ∃ es, w.Retains es (w.act h a)) ∨
      ∃ n c, a = .turn n ∧ w.turns[n]? = some (.settle c) ∧
        w.act h a = { w with turns := w.turns.eraseIdx n }.settleComputation c := by
  by_cases hsettle : ∃ n c, a = .turn n ∧ w.turns[n]? = some (.settle c)
  · obtain ⟨n, c, rfl, hturn⟩ := hsettle
    exact .inr ⟨n, c, rfl, hturn, by simp [act, hturn, perform]⟩
  have hnone : ∀ c, ¬w.Settles c (.act a) := by
    intro c hc
    cases a with
    | turn n => exact hsettle ⟨n, c, rfl, hc.1⟩
    | _ => exact hc
  refine .inl ⟨hnone, ?_⟩
  obtain hs | hsteps | ⟨n, c, -, -, heq⟩ | ⟨n, c, ha, hturn, -⟩ := w.act_cases (h := h) a
  · exact hs.retains
  · exact Steps.retains hsteps
  · have hturns := w.retains_turns (w.turns.eraseIdx n) w.timers
    obtain ⟨es, hr⟩ := retains_beginComputation (h := h) { w with turns := w.turns.eraseIdx n } c
    exact ⟨[] ++ es, heq ▸ hturns.trans hr⟩
  · exact absurd ⟨n, c, ha, hturn⟩ hsettle

theorem Retains.drops_iff {a : Act ρ} (hr : w.Retains es (w.act h a)) (key : String) :
    w.Drops h key (.act a) ↔ .forgotten key ∈ es := by
  rw [Drops, hr.history, List.drop_left]

theorem not_drops_of_settle {n c : Nat} (hturn : w.turns[n]? = some (.settle c)) (key : String) :
    ¬w.Drops h key (.act (.turn n)) := by
  have heq : w.act h (.turn n) = { w with turns := w.turns.eraseIdx n }.settleComputation c := by
    simp [act, hturn, perform]
  rw [Drops, heq, (sameTasks_settleComputation ..).history]
  simp

/-! ### What becomes of the cache in a use -/

/-- What is held after a use was held before and is not dropped, unless it is put in or is what a
computation has found that was pending and is settled. -/
theorem held?_use {u : Use ρ} {key : String} {v : Int} {records : List ρ}
    (hheld : (w.use h u).cache.held? key v = some records) :
    w.cache.held? key v = some records ∧ ¬w.Drops h key u ∨ u = .cache (.set key v records) ∨
      ¬w.Drops h key u ∧ ∃ c, w.Settles c u ∧ w.cache.pending.get? (key, v) = some c ∧
        w.state? c = some (.ended (.finished records)) := by
  cases u with
  | cache op =>
      cases op with
      | get key' v' => exact .inl ⟨(w.cache.held?_get ..).symm.trans hheld, id⟩
      | set key' v' records' =>
          have hset : (w.cache.set key' v' records').held? key v = some records := hheld
          rw [Cache.held?_set] at hset
          split at hset
          · rename_i hkey
            split at hset
            · rename_i hversion
              exact .inr (.inl (by rw [hkey, hversion, Option.some.inj hset]))
            · simp at hset
          · exact .inl ⟨hset, id⟩
      | delete key' =>
          have hdelete : (w.cache.delete key').held? key v = some records := hheld
          rw [Cache.held?_delete] at hdelete
          split at hdelete
          · simp at hdelete
          · rename_i hne
            exact .inl ⟨hdelete, fun hdrops => hne (Eq.symm hdrops)⟩
      | clear => simp [use, Cache.after, Cache.clear, Cache.held?] at hheld
      | invalidate => simp [use, Cache.after, Cache.invalidate, Cache.held?] at hheld
  | act a =>
      obtain ⟨-, es, hr⟩ | ⟨n, c, rfl, hturn, heq⟩ := w.act_retains (h := h) a
      · obtain ⟨hbefore, hes⟩ := hr.held key v records hheld
        exact .inl ⟨hbefore, (hr.drops_iff key).not.mpr hes⟩
      · have hdrops := not_drops_of_settle (h := h) hturn key
        have hsettled : (({ w with turns := w.turns.eraseIdx n } : World η ρ).settleComputation
            c).cache.held? key v = some records := heq ▸ hheld
        obtain ⟨x, ending, hx, hstate, hcases⟩ | ⟨hsame, -⟩ :=
          settleComputation_cases { w with turns := w.turns.eraseIdx n } c
        · rw [hcases] at hsettled
          rcases Cache.held?_settle hsettled with hbefore | ⟨rfl, rfl, rfl, hpending, -⟩
          · exact .inl ⟨hbefore, hdrops⟩
          · have hx : w.computations[c]? = some x := hx
            have hended : w.state? c = some (.ended (.finished records)) := by
              simp [state?, hx, hstate]
            exact .inr (.inr ⟨hdrops, c, ⟨hturn, _, hended⟩, hpending, hended⟩)
        · rw [hsame] at hsettled
          exact .inl ⟨hsettled, hdrops⟩

/-- A computation stays pending until its key is dropped or it is settled. -/
theorem pending_use {u : Use ρ} {c : Nat} {x : Computation ρ} (hx : w.computations[c]? = some x) :
    (w.use h u).cache.pending.get? (x.document.uri, x.document.version) = some c ↔
      w.cache.pending.get? (x.document.uri, x.document.version) = some c ∧
        ¬w.Drops h x.document.uri u ∧ ¬w.Settles c u := by
  cases u with
  | cache op =>
      cases op with
      | get key v => simp [use, Cache.after, Drops, Settles]
      | set key v records => simp [use, Cache.after, Cache.set, Drops, Settles]
      | delete key =>
          simp only [use, Cache.after, Cache.pending_delete, Drops, Settles, not_false_eq_true,
            and_true]
          grind
      | clear => simp [use, Cache.after, Cache.clear, Drops]
      | invalidate => simp [use, Cache.after, Cache.invalidate, Drops, Settles]
  | act a =>
      have hlt := (List.getElem?_eq_some_iff.mp hx).1
      obtain ⟨hnone, es, hr⟩ | ⟨n, c', rfl, hturn, heq⟩ := w.act_retains (h := h) a
      · rw [hr.drops_iff, and_iff_left (hnone c)]
        exact hr.pending c hlt ..
      · rw [and_iff_right (not_drops_of_settle hturn _)]
        have hsettled : (w.use h (.act (.turn n))).cache =
            (({ w with turns := w.turns.eraseIdx n } : World η ρ).settleComputation c').cache :=
          congrArg World.cache heq
        rw [hsettled]
        simp only [Settles, hturn, Option.some.injEq, Turn.settle.injEq]
        obtain ⟨x', ending, hx', hstate, hcases⟩ | ⟨hsame, hnone⟩ :=
          settleComputation_cases { w with turns := w.turns.eraseIdx n } c'
        · have hx' : w.computations[c']? = some x' := hx'
          have hended : w.state? c' = some (.ended ending) := by simp [state?, hx', hstate]
          rw [hcases]
          dsimp only
          rw [Cache.pending_settle_iff]
          refine and_congr_right fun _ => not_congr ⟨?_, ?_⟩
          · rintro ⟨-, rfl⟩
            exact ⟨rfl, ending, hended⟩
          · rintro ⟨rfl, -⟩
            obtain rfl := Option.some.inj (hx.symm.trans hx')
            exact ⟨rfl, rfl⟩
        · rw [hsame, and_iff_left]
          rintro ⟨rfl, ending, hended⟩
          exact hnone ending hended

/-- What is pending after a use was pending before or is new. -/
theorem pending_or_new {u : Use ρ} {c : Nat} {key : String} {v : Int}
    (hpending : (w.use h u).cache.pending.get? (key, v) = some c) :
    w.cache.pending.get? (key, v) = some c ∨ w.computations.length ≤ c ∧
      ∃ x, (w.use h u).computations[c]? = some x ∧ x.document.uri = key ∧ x.document.version = v := by
  cases u with
  | cache op =>
      refine .inl ?_
      cases op with
      | get key v => simpa [use, Cache.after] using hpending
      | set | invalidate => exact hpending
      | delete key =>
          have hdelete := (w.cache.pending_delete key _).symm.trans hpending
          split at hdelete
          · simp at hdelete
          · exact hdelete
      | clear => simp [use, Cache.after, Cache.clear] at hpending
  | act a =>
      obtain ⟨-, es, hr⟩ | ⟨n, c', rfl, hturn, heq⟩ := w.act_retains (h := h) a
      · exact hr.begun c key v hpending
      · refine .inl ?_
        have hsettled : (({ w with turns := w.turns.eraseIdx n } : World η ρ).settleComputation
            c').cache.pending.get? (key, v) = some c := heq ▸ hpending
        obtain ⟨x, ending, -, -, hcases⟩ | ⟨hsame, -⟩ :=
          settleComputation_cases { w with turns := w.turns.eraseIdx n } c'
        · rw [hcases] at hsettled
          exact Cache.pending_settle hsettled
        · rwa [hsame] at hsettled

theorem grows_use (w : World η ρ) (u : Use ρ) : w.Grows (w.use h u) := by
  cases u with
  | cache op => exact ⟨w.grows_refl.tasks, w.grows_refl.documents, w.grows_refl.computations⟩
  | act a =>
      obtain ⟨-, es, hr⟩ | ⟨n, c, rfl, hturn, heq⟩ := w.act_retains (h := h) a
      · exact hr.grows
      · have hgrows := grows_settleComputation { w with turns := w.turns.eraseIdx n } c
        rw [use, heq]
        exact ⟨hgrows.tasks, hgrows.documents, hgrows.computations⟩

theorem grows_uses (w : World η ρ) (us : List (Use ρ)) : w.Grows (w.uses h us) := by
  induction us generalizing w with
  | nil => exact w.grows_refl
  | cons u us ih => exact (w.grows_use u).trans (ih _)

theorem Grows.state? (hg : w.Grows w') {c : Nat} {ending : Ending (List ρ)}
    (hended : w.state? c = some (.ended ending)) : w'.state? c = some (.ended ending) := by
  obtain ⟨y, hy, hstate⟩ := Option.map_eq_some_iff.mp hended
  obtain ⟨y', hy', hbecomes⟩ := hg.computations c y hy
  rw [World.state?, hy', Option.map_some, hbecomes.ended ending hstate]

end World

/-- A host that finds the characters of a document, and holds them back until they are released. -/
def Host.withholding : Host Unit Char :=
  { Host.spelling 0 with compute := fun _ d host => (host, [], .held d.text.toList) }

end Swatch

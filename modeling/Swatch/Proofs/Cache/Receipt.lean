import Swatch.Proofs.Cache.Flight
import Swatch.Proofs.Cache.Wait

/-!
Computations that are shared. Main statement: a computation is begun only for a key and a version of
which no records are held and none are pending, so one at most is in flight for them; and all who have
joined it receive how it ended, unless they were asked to end themselves.
-/

namespace Swatch

open World

variable {η ρ : Type} {h : Host η ρ} {w w' v : World η ρ} {us : List (Use ρ)} {c t : Nat}

namespace World

/-! ### Who joins a computation -/

theorem IsCaller.grows (hc : w.IsCaller c t) (hg : w.Grows w') : w'.IsCaller c t := by
  obtain ⟨x, hx, ht⟩ := hc
  obtain ⟨x', hx', hbecomes⟩ := hg.computations c x hx
  exact ⟨x', hx', hbecomes.callers t ht⟩

/-- Who looks up records and has to wait for them joins one computation, which has not ended. -/
theorem exists_joined {i : Nat} {errand : Errand} {d : Document}
    (hawaited : (v.lookUp i errand d).1 = .awaited) :
    ∃ c₀, (∀ c t, (v.lookUp i errand d).2.IsCaller c t → v.IsCaller c t ∨ c = c₀ ∧ t = i) ∧
      ∀ ending, (v.lookUp i errand d).2.state? c₀ ≠ some (.ended ending) := by
  have hcaller : ∀ c t, (v.lookUp i errand d).2.IsCaller c t → v.IsCaller c t ∨
      t = i ∧ (v.cache.pending.get? (d.uri, d.version) = some c ∨
        c = v.computations.length ∧ v.cache.pending.get? (d.uri, d.version) = none) := by
    rintro c t ⟨x, hx, ht⟩
    obtain ⟨y, hy, -, hcallers⟩ | ⟨hc, rfl, -, hnone⟩ := was_or_begun_of_lookUp hx
    · exact (hcallers t ht).imp (fun ht => ⟨y, hy, ht⟩) fun ⟨hti, hpending⟩ => ⟨hti, .inl hpending⟩
    · exact .inr ⟨List.mem_singleton.mp ht, .inr ⟨hc, hnone⟩⟩
  have hended : ∀ c ending, (v.lookUp i errand d).2.state? c = some (.ended ending) →
      v.state? c = some (.ended ending) := fun _ _ => ended_of_lookUp
  have hlooks := v.looksUp i errand d
  generalize v.lookUp i errand d = r at hlooks hawaited hcaller hended ⊢
  cases hlooks with
  | held | ended => simp at hawaited
  | @joined c₀ hheld hpending hrunning =>
      refine ⟨c₀, fun c t hc => (hcaller c t hc).imp_right ?_,
        fun ending hends => hrunning ending (hended c₀ ending hends)⟩
      rintro ⟨rfl, hpending' | ⟨-, hnone⟩⟩
      · exact ⟨Option.some.inj (hpending'.symm.trans hpending), rfl⟩
      · simp [hpending] at hnone
  | begun hheld hnone =>
      refine ⟨v.computations.length, fun c t hc => (hcaller c t hc).imp_right ?_,
        fun ending hends => ?_⟩
      · rintro ⟨rfl, hpending | ⟨hc, -⟩⟩
        · simp [hnone] at hpending
        · exact ⟨hc, rfl⟩
      · simp [state?] at hends

/-- Who joins a computation in a use was not late before, joins no other one, and waits for it. -/
theorem joins_of_isCaller {u : Use ρ} (hc : (w.use h u).IsCaller c t) :
    w.IsCaller c t ∨ ¬w.Late t ∧
      (∀ c', (w.use h u).IsCaller c' t → w.IsCaller c' t ∨ c' = c) ∧
      ∃ task, (w.use h u).Waits False c t task := by
  rcases w.use_calls (h := h) u with
    hsame | ⟨n, i, early, v, errand, d, -, -, hi, hlate, hcall, huse⟩
  · obtain ⟨x, hx, ht⟩ := hc
    obtain ⟨y, hy, -, hcallers, -⟩ := hsame c x hx
    exact .inl ⟨y, hy, hcallers ▸ ht⟩
  obtain ⟨c₀, hjoined, hrunning⟩ := exists_joined hcall.awaited
  have hold : ∀ c' t', v.IsCaller c' t' → w.IsCaller c' t' := fun c' t' hc' => by
    rwa [IsCaller, ← hcall.computations]
  rw [huse] at hc ⊢
  rcases hjoined c t hc with hbefore | ⟨rfl, rfl⟩
  · exact .inl (hold c t hbefore)
  refine .inr ⟨?_, fun c' hc' => (hjoined c' t hc').imp (hold c' t) And.left, ?_⟩
  · rintro ⟨k, s, hstanding, hs⟩
    have hstage := (standing?_of_getElem? hi).symm.trans hstanding
    obtain ⟨-, rfl⟩ := Prod.mk.inj (Option.some.inj hstage)
    simp [hlate] at hs
  · obtain ⟨task, hstands, hawaits, hsignal, hrequested, hdocument⟩ := hcall.task
    have hsame := v.sameTasks_lookUp t errand d
    exact ⟨task, by rw [hsame.tasks, hstands], hawaits, ⟨d, by rw [hsame.documents, hdocument]⟩,
      fun _ ending hended => absurd hended (hrunning ending), by simp [hsignal],
      by simp [hrequested]⟩

/-! ### Who is to be told of a computation -/

theorem tells_resume (hl : w.Locked) (i : Nat) {c t : Nat}
    (hturn : .tell c t ∈ (w.resume h i).turns) : .tell c t ∈ w.turns := by
  cases hi : w.tasks[i]? with
  | none => rwa [World.resume_of_none _ i (by simp [hi])] at hturn
  | some task =>
      -- A task that does not exist yet is left alone as well.
      have hne : i ≠ w.tasks.length := Nat.ne_of_lt (List.getElem?_eq_some_iff.mp hi).1
      have hu : w.Unwaited w.tasks.length := by
        intro lock hlock hasleep
        obtain ⟨l, hlock⟩ := List.getElem?_of_mem hlock
        obtain ⟨k, ticket, hqueued⟩ := hl.waiting l lock hlock _ hasleep
        rw [standing?_length] at hqueued
        simp at hqueued
      exact (hu.resume (h := h) hne).tells c t hturn

theorem tells_endComputation {x : Computation ρ} {c' : Nat} (hx : w.computations[c']? = some x)
    {ending : Ending (List ρ)} (hturn : .tell c t ∈ (w.endComputation c' x.callers ending).turns) :
    .tell c t ∈ w.turns ∨ w.IsCaller c t := by
  simp only [endComputation, List.mem_append, List.mem_cons, reduceCtorEq, false_or, List.mem_map,
    Turn.tell.injEq] at hturn
  rcases hturn with hturn | ⟨i, hi, rfl, rfl⟩
  · exact .inl hturn
  · exact .inr ⟨x, hx, hi⟩

theorem tells_perform (hl : w.Locked) (done : Turn) (hturn : .tell c t ∈ (w.perform h done).turns) :
    .tell c t ∈ w.turns ∨ w.IsCaller c t := by
  cases done with
  | resume i => exact .inl (tells_resume hl i hturn)
  | settle c' => exact .inl ((settleComputation_frame w c').2.1 ▸ hturn)
  | finish c' =>
      obtain ⟨x, ending, hx, -, heq⟩ | ⟨heq, -⟩ := w.finishComputation_cases c' <;>
        rw [perform, heq] at hturn
      · exact tells_endComputation hx hturn
      · exact .inl hturn
  | begin c' =>
      obtain heq | ⟨x, host, commands, hx, -, hcases⟩ := w.beginComputation_cases h c'
      · exact .inl (heq ▸ hturn)
      obtain ⟨-, hturns, hcomputations⟩ := obeyAll_frame { w with host := host } commands
      obtain ⟨ending, -, heq⟩ | ⟨records, -, heq⟩ := hcases
      · rw [perform, heq] at hturn
        have htold := tells_endComputation (by rwa [hcomputations]) hturn
        rwa [hturns, IsCaller, hcomputations] at htold
      · rw [perform, heq] at hturn
        exact .inl (hturns ▸ hturn)
  | tell c' i =>
      refine .inl ?_
      rcases w.turns_tellTask c' i with heq | heq <;> simpa [perform, heq] using hturn
  | ring i =>
      refine .inl ?_
      rcases w.turns_ring i with heq | heq <;> simpa [perform, heq] using hturn

theorem tells_use (hl : w.Locked) {u : Use ρ} (hturn : .tell c t ∈ (w.use h u).turns) :
    .tell c t ∈ w.turns ∨ w.IsCaller c t := by
  cases u with
  | cache op => exact .inl hturn
  | act a =>
      cases a with
      | openDocument | edit | setClock => exact .inl hturn
      | moveTo | start => exact .inl (by simpa [use, act, World.moveTo, World.start] using hturn)
      | obey command => exact .inl ((w.obey_frame command).2.1 ▸ hturn)
      | cancelTask i =>
          refine .inl ?_
          rcases w.turns_cancelTask i with heq | heq <;> simpa [use, act, heq] using hturn
      | release c' ending =>
          refine .inl ?_
          rcases w.turns_release c' ending with heq | heq <;> simpa [use, act, heq] using hturn
      | turn n =>
          cases hdone : w.turns[n]? with
          | none => exact .inl (by simpa [use, act, hdone] using hturn)
          | some done =>
              rw [use_turn w hdone] at hturn
              have hpassed : { w with turns := w.turns.eraseIdx n }.Locked :=
                hl.of_tasks rfl rfl (fun c t ht => hl.told c t (List.mem_of_mem_eraseIdx ht))
                  hl.callers
              exact (tells_perform hpassed done hturn).imp_left List.mem_of_mem_eraseIdx

/-! ### What becomes of those who have joined a computation -/

theorem locked_uses (h : Host η ρ) (host : η) (us : List (Use ρ)) :
    ((initial host).uses h us).Locked := by
  refine uses_induction (P := Locked) (fun v a hl => ?_) (fun v op hl => ?_) (locked_initial host) us
  · exact act_induction (fun _ _ _ hs hl => hl.step hs) (fun _ c hl => hl.beginComputation c)
      (fun _ c hl => hl.settleComputation c) hl a
  · exact hl.of_tasks rfl rfl hl.told hl.callers

/-- A task that has joined a computation has been asked to end itself. -/
def AskedToEnd (h : Host η ρ) (w : World η ρ) (us : List (Use ρ)) (c t : Nat) : Prop :=
  Occurs us fun before u => u = .act (.cancelTask t) ∧ (w.uses h before).IsCaller c t

/-- A task has received how a computation ended, or that it was asked to end itself. -/
def HasReceived (h : Host η ρ) (w : World η ρ) (us : List (Use ρ)) (c t : Nat) : Prop :=
  Occurs us fun before u => ∃ ending, (w.uses h before).Receives h u t ending ∧
    ((w.uses h before).state? c = some (.ended ending) ∨
      ending = .cancelled ∧ w.AskedToEnd h before c t)

/-- Those who have joined computations: each has joined one, waits for it or has received how it
ended, and only they are to be told. -/
structure Heard (h : Host η ρ) (w : World η ρ) (us : List (Use ρ)) : Prop where
  tells : ∀ c t, .tell c t ∈ (w.uses h us).turns → (w.uses h us).IsCaller c t
  single : ∀ c c' t, (w.uses h us).IsCaller c t → (w.uses h us).IsCaller c' t → c = c'
  callers : ∀ c t, (w.uses h us).IsCaller c t →
    (∃ task, (w.uses h us).Waits (w.AskedToEnd h us c t) c t task) ∨ w.HasReceived h us c t

theorem IsCaller.late (hc : w.IsCaller c t) (hl : w.Locked) : w.Late t := by
  obtain ⟨x, hx, ht⟩ := hc
  exact hl.callers x (List.mem_of_getElem? hx) t ht

theorem Heard.concat (hh : w.Heard h us) (hl : (w.uses h us).Locked) (u : Use ρ) :
    w.Heard h (us ++ [u]) := by
  have hg := (w.uses h us).grows_use (h := h) u
  refine ⟨fun c t hturn => ?_, fun c c' t hc hc' => ?_, fun c t hc => ?_⟩
  all_goals rw [uses_concat] at *
  · rcases tells_use hl hturn with hturn | hc
    · exact (hh.tells c t hturn).grows hg
    · exact hc.grows hg
  · rcases joins_of_isCaller hc with hold | ⟨hearly, honly, -⟩ <;>
      rcases joins_of_isCaller hc' with hold' | ⟨hearly', honly', -⟩
    · exact hh.single c c' t hold hold'
    · exact absurd (hold.late hl) hearly'
    · exact absurd (hold'.late hl) hearly
    · exact ((honly c' hc').resolve_left fun hold' => hearly (hold'.late hl)).symm
  · rcases joins_of_isCaller hc with hold | ⟨-, -, task, hwaits⟩
    · have hasked : w.AskedToEnd h us c t → w.AskedToEnd h (us ++ [u]) c t :=
        fun hasked => occurs_concat.mpr (.inl hasked)
      rcases hh.callers c t hold with ⟨task, hwaits⟩ | hreceived
      · have htells : ∀ c', .tell c' t ∈ (w.uses h us).turns → c' = c := fun c' hturn =>
          hh.single c' c t (hh.tells c' t hturn) hold
        by_cases hcancel : u = .act (.cancelTask t)
        · have hnow : w.AskedToEnd h (us ++ [u]) c t := occurs_concat.mpr (.inr ⟨hcancel, hold⟩)
          rcases (hwaits.mono hasked).use hl hold htells u fun _ => hnow with
            hstill | ⟨ending, hr, -⟩
          · exact .inl hstill
          · obtain ⟨n, -, -, hturn, -⟩ := hr
            simp [hturn] at hcancel
        · rcases hwaits.use hl hold htells u fun heq => absurd heq hcancel with
            ⟨task', hstill⟩ | ⟨ending, hr, hending⟩
          · exact .inl ⟨task', hstill.mono hasked⟩
          · exact .inr (occurs_concat.mpr (.inr ⟨ending, hr, hending⟩))
      · exact .inr (occurs_concat.mpr (.inl hreceived))
    · exact .inl ⟨task, hwaits.mono False.elim⟩

theorem heard_uses (h : Host η ρ) (host : η) (us : List (Use ρ)) : (initial host).Heard h us := by
  induction us using List.reverseRecOn with
  | nil =>
      refine ⟨?_, ?_, ?_⟩
      all_goals simp [initial, IsCaller]
  | append_singleton us u ih => exact ih.concat (locked_uses h host us) u

theorem Waits.exists_hasReceived {task : Task ρ} {ended : Ending (List ρ)}
    (hwaits : (w.uses h us).Waits (w.AskedToEnd h us c t) c t task)
    (hended : (w.uses h us).state? c = some (.ended ended)) :
    ∃ us', us'.length ≤ 2 ∧ w.HasReceived h (us ++ us') c t := by
  obtain ⟨before, u, ending, hlength, hreceives, hending⟩ := hwaits.exists_receives (h := h) hended
  rw [← uses_append] at hreceives hending
  refine ⟨before ++ [u], by simpa using Nat.succ_le_succ hlength, ?_⟩
  rw [← List.append_assoc]
  refine occurs_concat.mpr (.inr ⟨ending, hreceives, hending.imp_right ?_⟩)
  exact fun ⟨hcancelled, hasked⟩ => ⟨hcancelled, hasked.append before⟩

/-- A task that looks records up is told at once what is held, or how the computation has ended that
is pending for them. Otherwise it is from then on one of those who wait for the pending one. -/
def Answers (v : World η ρ) (t : Nat) (errand : Errand) (d : Document) : Prop :=
  match v.lookUp t errand d with
  | (.known ending, _) =>
    (∃ records, ending = .finished records ∧ v.cache.held? d.uri d.version = some records) ∨
      ∃ c x, v.cache.pending.get? (d.uri, d.version) = some c ∧ v.computations[c]? = some x ∧
        x.document.uri = d.uri ∧ x.document.version = d.version ∧ x.state = .ended ending
  | (.awaited, v') =>
    ∃ c x, v'.cache.pending.get? (d.uri, d.version) = some c ∧ v'.computations[c]? = some x ∧
      x.document.uri = d.uri ∧ x.document.version = d.version ∧ t ∈ x.callers

theorem answers (host : η) {es : List (Event ρ)}
    (hr : ((initial host).uses h us).Retains es v) (t : Nat) (errand : Errand) (d : Document) :
    v.Answers t errand d := by
  have hpends : ∀ c, v.cache.pending.get? (d.uri, d.version) = some c → ∃ x,
      v.computations[c]? = some x ∧ x.document.uri = d.uri ∧ x.document.version = d.version := by
    intro c hpending
    rcases hr.begun c d.uri d.version hpending with hbefore | ⟨-, hx⟩
    · obtain ⟨x, hx, huri, hversion⟩ := exists_of_pending host hbefore
      obtain ⟨x', hx', hbecomes⟩ := hr.grows.computations c x hx
      exact ⟨x', hx', by rw [hbecomes.document, huri], by rw [hbecomes.document, hversion]⟩
    · exact hx
  have hlooks := v.looksUp t errand d
  rw [Answers]
  generalize v.lookUp t errand d = r at hlooks ⊢
  cases hlooks with
  | held hheld => exact .inl ⟨_, rfl, hheld⟩
  | @ended c ending hheld hpending hended =>
      obtain ⟨x, hx, huri, hversion⟩ := hpends c hpending
      rw [state?, hx] at hended
      exact .inr ⟨c, x, hpending, hx, huri, hversion, Option.some.inj hended⟩
  | @joined c hheld hpending hrunning =>
      obtain ⟨x, hx, huri, hversion⟩ := hpends c hpending
      exact ⟨c, { x with callers := x.callers ++ [t] }, by simpa [Cache.join] using hpending,
        by simp [hx], huri, hversion, by simp⟩
  | begun hheld hnone =>
      exact ⟨v.computations.length, _, by simp [Cache.begin], List.getElem?_concat_length, rfl, rfl,
        List.mem_singleton_self t⟩

end World

/-- Whatever a cache is used for, and in whatever order computations are begun, end and are settled,
callers are cancelled and keys are dropped: a computation is begun only by who looks up records that
are neither held nor pending, and is run once; so one at most is in flight for a key and a version.
Who looks records up while a computation of them is pending is told at once how it has ended, or
waits for it until it receives that, unless it was asked to end itself; two turns are enough once the
computation has ended, be it dropped or not. And as many computations are counted as pending as are
in flight. -/
theorem single_flight (h : Host η ρ) (host : η) (us : List (Use ρ)) :
    let w := (initial host).uses h us
    (∀ u c x, w.computations.length ≤ c → (w.use h u).computations[c]? = some x →
      w.Begins h u c x.document.uri x.document.version) ∧
    (∀ before u between u' after c, us = before ++ u :: between ++ u' :: after →
      ((initial host).uses h before).Runs c u →
      ¬((initial host).uses h (before ++ u :: between)).Runs c u') ∧
    (∀ c c' x x', (initial host).InFlight h us c → (initial host).InFlight h us c' →
      w.computations[c]? = some x → w.computations[c']? = some x' →
      x.document.uri = x'.document.uri → x.document.version = x'.document.version → c = c') ∧
    (∀ v es, w.Retains es v → ∀ t errand d, v.Answers t errand d) ∧
    (∀ c t, w.IsCaller c t → (initial host).HasReceived h us c t ∨
      (∃ task, w.Waits ((initial host).AskedToEnd h us c t) c t task) ∧
        ∀ ending, w.state? c = some (.ended ending) →
          ∃ us', us'.length ≤ 2 ∧ (initial host).HasReceived h (us ++ us') c t) ∧
    (w.cache.pendingCount : ℕ∞) = {c | (initial host).InFlight h us c}.encard := by
  intro w
  refine ⟨fun u c x hnew hx => begins_of_new hnew hx, ?_, ?_, ?_, ?_, pendingCount_eq h host us⟩
  · intro before u between u' after c _ hr
    exact not_runs_twice hr
  · intro c c' x x' hf hf' hx hx' huri hversion
    exact hf.eq hf' hx hx' huri hversion
  · intro v es hr t errand d
    exact answers host hr t errand d
  · intro c t hc
    rcases (heard_uses h host us).callers c t hc with ⟨task, hwaits⟩ | hreceived
    · refine .inr ⟨⟨task, hwaits⟩, fun ending hended => ?_⟩
      exact hwaits.exists_hasReceived hended
    · exact .inl hreceived

/-- Two tasks ask for the same records. The one that their computation was begun for is cancelled,
and the key is dropped before the computation ends. -/
def droppedWithCallers : List (Use Char) :=
  [.act (.openDocument ⟨"a", 1, "css", "xy"⟩), .act (.start .detection 0),
    .act (.start .detection 0), .act (.turn 0), .act (.turn 0), .act (.turn 0),
    .act (.cancelTask 0), .cache (.delete "a"), .act (.release 0 (.finished ['x'])), .act (.turn 0),
    .act (.turn 0), .act (.turn 0), .act (.turn 0), .act (.turn 0), .act (.turn 0)]

theorem single_flight_droppedWithCallers :
    let h := Host.withholding
    let w := (initial ()).uses h droppedWithCallers
    ((initial ()).uses h (droppedWithCallers.take 3)).Begins h (.act (.turn 0)) 0 "a" 1 ∧
      w.tasks.map (·.stage) = [.answered .cancelled, .answered (.finished ['x'])] ∧
      w.IsCaller 0 1 ∧
      ((initial ()).HasReceived h droppedWithCallers 0 1 ∨
        (∃ task, w.Waits ((initial ()).AskedToEnd h droppedWithCallers 0 1) 0 1 task) ∧
          ∀ ending, w.state? 0 = some (.ended ending) → ∃ us', us'.length ≤ 2 ∧
            (initial ()).HasReceived h (droppedWithCallers ++ us') 0 1) ∧
      w.cache.pendingCount = 0 ∧
      (w.cache.pendingCount : ℕ∞) = {c | (initial ()).InFlight h droppedWithCallers c}.encard := by
  intro h w
  obtain ⟨hbegins, -⟩ := single_flight h () (droppedWithCallers.take 3)
  obtain ⟨-, -, -, -, hcallers, hcount⟩ := single_flight h () droppedWithCallers
  have hcaller : w.IsCaller 0 1 :=
    ⟨⟨.detection, ⟨"a", 1, "css", "xy"⟩, 0, [0, 1], .ended (.finished ['x'])⟩, by decide, by decide⟩
  exact ⟨hbegins (.act (.turn 0)) 0 ⟨.detection, ⟨"a", 1, "css", "xy"⟩, 0, [0], .queued⟩ (by decide)
    (by decide), by decide, hcaller, hcallers 0 1 hcaller, by decide, hcount⟩

end Swatch

import Swatch.Proofs.Cache.Use

/-!
How records are asked for. A task that is resumed begins no computation and joins none, until it
looks records up that are not known at once; with that its turn is over. So nothing comes between the
moment at which a computation is begun or joined and the end of the turn.
-/

namespace Swatch

variable {η ρ : Type}

/-- Whether a task at a stage waits for the records that it has looked up. -/
def Stage.awaits : Stage ρ → Bool
  | .computing _ _ | .detecting => true
  | _ => false

namespace World

/-- From a world on, a task comes to look up the records of a document, and has to wait for them;
nothing has been begun, joined or made ready to be told until then. -/
structure Calls (w v : World η ρ) (t : Nat) (errand : Errand) (d : Document) : Prop where
  retains : ∃ es, w.Retains es v
  computations : v.computations = w.computations
  tells : ∀ c i, .tell c i ∈ v.turns → .tell c i ∈ w.turns
  task : ∃ task, v.tasks[t]? = some task ∧ task.stage.awaits = true ∧ task.signal = none ∧
    task.cancelRequested = false ∧ v.documents[task.document]? = some d
  awaited : (v.lookUp t errand d).1 = .awaited

/-- A task goes on without beginning or joining a computation, or until it waits for one. -/
inductive Asks (w : World η ρ) (t : Nat) : World η ρ → Prop where
  | nothing {w' : World η ρ} (hcomputations : w'.computations = w.computations) : Asks w t w'
  | call {v : World η ρ} {errand : Errand} {d : Document} (hcall : w.Calls v t errand d) :
      Asks w t (v.lookUp t errand d).2

variable {h : Host η ρ} {w w' v : World η ρ} {t l : Nat} {task : Task ρ} {d : Document}
  {ticket : Ticket} {delivery : Delivery ρ} {es : List (Event ρ)}

theorem Calls.of_same {errand : Errand} (hc : w'.Calls v t errand d) (hretains : w.Retains es w')
    (hcomputations : w'.computations = w.computations)
    (htells : ∀ c i, .tell c i ∈ w'.turns → .tell c i ∈ w.turns) : w.Calls v t errand d := by
  obtain ⟨es', hr⟩ := hc.retains
  exact ⟨⟨es ++ es', hretains.trans hr⟩, hc.computations.trans hcomputations,
    fun c i hturn => htells c i (hc.tells c i hturn), hc.task, hc.awaited⟩

theorem Asks.of_same (ha : w'.Asks t v) (hretains : w.Retains es w')
    (hcomputations : w'.computations = w.computations)
    (htells : ∀ c i, .tell c i ∈ w'.turns → .tell c i ∈ w.turns) : w.Asks t v := by
  cases ha with
  | nothing hsame => exact .nothing (hsame.trans hcomputations)
  | call hcall => exact .call (hcall.of_same hretains hcomputations htells)

theorem retains_wait (w : World η ρ) (locks : List Lock) (scheduler : Scheduler) (t : Nat)
    (stage : Stage ρ) :
    w.Retains [] ({ w with locks := locks, scheduler := scheduler }.wait t stage) :=
  w.retains_refl.of_same (w.exists_standing?_wait t stage) rfl rfl rfl (List.append_nil _).symm
    (by simp)

theorem Retains.remember (hr : w.Retains es v) {e : Event ρ} (he : ∀ u, e ≠ .forgotten u) :
    w.Retains (es ++ [e]) (v.remember e) :=
  hr.of_same (fun _ _ s hi => ⟨s, hi⟩) rfl rfl rfl rfl fun u hu =>
    he u (List.mem_singleton.mp hu).symm

/-! ### What neither begins nor joins a computation -/

theorem computations_conclude_releaseLock (w : World η ρ) (t : Nat) (outcome : Outcome ρ) (l : Nat) :
    ((w.conclude t outcome).releaseLock l).computations = w.computations :=
  (sameBooks_releaseLock ..).computations

theorem computations_close_releaseLock (w : World η ρ) (t : Nat) (ending : Ending (Outcome ρ))
    (l : Nat) : ((w.close t ending).releaseLock l).computations = w.computations :=
  (sameBooks_releaseLock ..).computations

theorem computations_goOn (w : World η ρ) (t : Nat) (ticket : Ticket) (l : Nat)
    (delivery : Delivery ρ) : (w.goOn h t ticket l delivery).computations = w.computations := by
  rw [goOn]
  repeat' split
  · rfl
  · rfl
  · exact computations_conclude_releaseLock ..

theorem computations_visit (w : World η ρ) (t : Nat) (uri : String) (ticket : Ticket) (l : Nat)
    (delivery : Delivery ρ) (count : Nat) (cancelled : Bool) :
    (w.visit h t uri ticket l delivery count cancelled).computations = w.computations := by
  rw [visit]
  rcases h.apply ⟨uri, nextChunk h delivery, delivery.index, count, cancelled⟩ w.host with
    ⟨host, commands, ending?⟩
  have hobeyed := (obeyAll_frame { w with host := host } commands).2.2
  dsimp only
  generalize { w with host := host }.obeyAll commands = v at hobeyed ⊢
  cases ending? with
  | none => exact hobeyed
  | some ending =>
      cases ending with
      | finished => exact (computations_goOn ..).trans hobeyed
      | failed => exact (computations_close_releaseLock ..).trans hobeyed
      | cancelled => exact (computations_close_releaseLock ..).trans hobeyed

theorem computations_withRecords (w : World η ρ) (t : Nat) (d : Document) (ticket : Ticket) (l : Nat)
    (ending : Ending (List ρ)) :
    (w.withRecords h t d ticket l ending).computations = w.computations := by
  cases ending with
  | failed => exact computations_close_releaseLock ..
  | cancelled => exact computations_close_releaseLock ..
  | finished records =>
      rw [withRecords]
      cases w.verdict? d ticket with
      | some status => exact computations_conclude_releaseLock ..
      | none => exact computations_visit ..

theorem computations_stop (w : World η ρ) (t : Nat) (d : Document) (errand : Errand)
    (stage : Stage ρ) : (w.stop h t d errand stage).computations = w.computations := by
  cases stage with
  | starting => cases errand <;> rfl
  | queueing ticket l => exact (w.sameBooks_leaveQueue t l).computations
  | computing | pausing => exact computations_close_releaseLock ..
  | applying => exact computations_visit ..
  | _ => rfl

theorem computations_lookUp_of_known {errand : Errand} {ending : Ending (List ρ)}
    (hknown : (w.lookUp t errand d).1 = .known ending) :
    (w.lookUp t errand d).2.computations = w.computations := by
  have hlooks := w.looksUp t errand d
  generalize w.lookUp t errand d = r at hknown hlooks ⊢
  cases hlooks with
  | held | ended => rfl
  | joined | begun => simp at hknown

/-! ### How a turn comes to a call -/

theorem asks_withLock (ht : w.tasks[t]? = some task) (hd : w.documents[task.document]? = some d)
    (hs : task.stage = .computing ticket l) (hsignal : task.signal = none)
    (hasked : task.cancelRequested = false) : w.Asks t (w.withLock h t d ticket l) := by
  rw [withLock]
  cases w.verdict? d ticket with
  | some status => exact .nothing (computations_conclude_releaseLock ..)
  | none =>
      dsimp only
      split
      · rename_i ending v hfound
        have hsame := computations_lookUp_of_known (congrArg Prod.fst hfound)
        rw [hfound] at hsame
        exact .nothing ((computations_withRecords ..).trans hsame)
      · rename_i v hfound
        have hcall : w.Calls w t .refresh d :=
          ⟨⟨[], w.retains_refl⟩, rfl, fun _ _ => id,
            ⟨task, ht, by rw [hs]; rfl, hsignal, hasked, hd⟩, by rw [hfound]⟩
        have hasks := Asks.call hcall
        rwa [hfound] at hasks

theorem asks_afterDebounce (ht : w.tasks[t]? = some task)
    (hd : w.documents[task.document]? = some d) : w.Asks t (w.afterDebounce h t d ticket) := by
  obtain ⟨-, l, locks, scheduler, -, -, -, ⟨lock, -, -, heq⟩ | ⟨-, heq⟩⟩ | ⟨-, heq⟩ :=
    w.afterDebounce_cases (h := h) t d ticket <;> rw [heq]
  · have hretains := w.retains_wait (locks.modify l (·.take)) scheduler t (.computing ticket l)
    refine Asks.of_same ?_ hretains rfl fun _ _ => id
    exact asks_withLock (getElem?_wait (by exact ht) _) hd rfl rfl rfl
  · exact .nothing rfl
  · exact .nothing rfl

theorem asks_beginRefresh (ht : w.tasks[t]? = some task)
    (hd : w.documents[task.document]? = some d) (k : Nat) : w.Asks t (w.beginRefresh h t k d) := by
  rw [beginRefresh]
  split
  · dsimp only
    split
    · exact .nothing rfl
    · have hretains := w.retains_wait w.locks (w.scheduler.draw d.uri) t
        (.debouncing ⟨d.version, w.scheduler.next⟩)
      have hremembers := hretains.remember (e := .drawn t k d.uri ⟨d.version, w.scheduler.next⟩)
        (by simp)
      refine Asks.of_same ?_ hremembers rfl fun _ _ => id
      exact asks_afterDebounce (getElem?_wait (by exact ht) _) hd
  · exact .nothing rfl

theorem asks_beginDetection (ht : w.tasks[t]? = some task)
    (hd : w.documents[task.document]? = some d) :
    w.Asks t (w.beginDetection h t task.document d) := by
  rw [beginDetection]
  cases h.prepare d w.host with
  | none => exact .nothing rfl
  | some r =>
      obtain ⟨host, commands⟩ := r
      dsimp only
      obtain ⟨-, hturns, hcomputations⟩ := obeyAll_frame { w with host := host } commands
      obtain ⟨es, hretains⟩ := w.retains_hosted host commands
      have htv : ({ w with host := host }.obeyAll commands).tasks[t]? = some task := by
        simpa using ht
      have hdv : ({ w with host := host }.obeyAll commands).documents[task.document]? =
          some ((({ w with host := host }.obeyAll commands).documents[task.document]?).getD d) := by
        have hlt := (List.getElem?_eq_some_iff.mp hd).1
        rw [List.getElem?_eq_getElem (by simpa using hlt), Option.getD_some]
      generalize { w with host := host }.obeyAll commands = v
        at hturns hcomputations hretains htv hdv ⊢
      generalize (v.documents[task.document]?).getD d = d' at hdv ⊢
      have hwaits := getElem?_wait htv .detecting
      have hremembers := (hretains.trans (v.retains_wait v.locks v.scheduler t .detecting)).remember
        (e := .asked t task.document d'.uri) (by simp)
      split
      · rename_i ending v' hfound
        have hsame := computations_lookUp_of_known (congrArg Prod.fst hfound)
        rw [hfound] at hsame
        exact .nothing (hsame.trans hcomputations)
      · rename_i v' hfound
        have hcall : w.Calls ((v.wait t .detecting).remember (.asked t task.document d'.uri)) t
            .detection d' :=
          ⟨⟨_, hremembers⟩, hcomputations, fun c i hturn => hturns ▸ hturn,
            ⟨_, hwaits, rfl, rfl, rfl, hdv⟩, by rw [hfound]⟩
        have hasks := Asks.call hcall
        rwa [hfound] at hasks

/-- A task that is late neither begins nor joins a computation. -/
theorem computations_proceed_of_late (w : World η ρ) (t k : Nat) (d : Document) (errand : Errand)
    {stage : Stage ρ} (hlate : stage.isLate = true) (ending : Ending (List ρ)) :
    (w.proceed h t k d errand stage ending).computations = w.computations := by
  cases stage with
  | starting | debouncing | queueing => simp [Stage.isLate] at hlate
  | computing ticket l => exact computations_withRecords ..
  | applying ticket l delivery count => exact computations_visit ..
  | pausing ticket l delivery =>
      rw [proceed]
      cases w.verdict? d ticket with
      | some status => exact computations_conclude_releaseLock ..
      | none => exact computations_visit ..
  | detecting | ended _ | answered _ => rfl

theorem asks_proceed (ht : w.tasks[t]? = some task) (hd : w.documents[task.document]? = some d)
    (errand : Errand) (ending : Ending (List ρ)) :
    w.Asks t (w.proceed h t task.document d errand task.stage ending) := by
  by_cases hlate : task.stage.isLate = true
  · exact .nothing (computations_proceed_of_late w t task.document d errand hlate ending)
  cases hs : task.stage with
  | starting =>
      cases errand with
      | refresh => exact asks_beginRefresh ht hd _
      | detection => exact asks_beginDetection ht hd
  | debouncing ticket => exact asks_afterDebounce ht hd
  | queueing ticket l =>
      have hretains := w.retains_wait (w.locks.modify l fun lock => (lock.leave t).take) w.scheduler
        t (.computing ticket l)
      refine Asks.of_same ?_ hretains rfl fun _ _ => id
      exact asks_withLock (getElem?_wait (by exact ht) _) hd rfl rfl rfl
  | _ => simp [hs, Stage.isLate] at hlate

/-- A task that is resumed neither begins nor joins a computation, unless it is not late and comes
to a call. -/
theorem resume_calls (w : World η ρ) (t : Nat) :
    (w.resume h t).computations = w.computations ∨
      ∃ task v errand d, w.tasks[t]? = some task ∧ task.stage.isLate = false ∧
        w.Calls v t errand d ∧ w.resume h t = (v.lookUp t errand d).2 := by
  obtain ⟨task, told, d, ht, -, hd, ⟨-, heq⟩ | ⟨-, heq⟩⟩ | heq :=
    w.stops_or_proceeds (h := h) t <;> rw [heq]
  · exact .inl (computations_stop ..)
  · have hretains := w.retains_turns w.turns (w.timers.filter (·.task ≠ t))
    have hasks : { w with timers := w.timers.filter (·.task ≠ t) }.Asks t
        ({ w with timers := w.timers.filter (·.task ≠ t) }.proceed h t task.document d task.errand
          task.stage told) :=
      asks_proceed (by exact ht) (by exact hd) task.errand told
    cases hlate : task.stage.isLate with
    | true => exact .inl (computations_proceed_of_late _ t task.document d task.errand hlate told)
    | false =>
        generalize World.proceed h _ t task.document d task.errand task.stage told = w' at hasks ⊢
        cases hasks with
        | nothing hsame => exact .inl hsame
        | call hcall =>
            exact .inr ⟨task, _, _, _, ht, hlate, hcall.of_same hretains rfl (fun _ _ => id), rfl⟩
  · exact .inl rfl

/-! ### What begins or joins a computation -/

/-- A world has the computations of another one, of the same documents and with the same callers, and
has run all that the other one has. -/
def SameCalls (w w' : World η ρ) : Prop :=
  ∀ (c : Nat) (x : Computation ρ), w'.computations[c]? = some x → ∃ y, w.computations[c]? = some y ∧
    y.document = x.document ∧ y.callers = x.callers ∧ (x.state = .queued → y.state = .queued)

theorem sameCalls_of_eq (hcomputations : w'.computations = w.computations) : w.SameCalls w' :=
  fun _ x hx => ⟨x, hcomputations ▸ hx, rfl, rfl, id⟩

theorem SameCalls.trans (hs : w.SameCalls w') (hs' : w'.SameCalls v) : w.SameCalls v := by
  intro c x hx
  obtain ⟨y, hy, hdocument, hcallers, hqueued⟩ := hs' c x hx
  obtain ⟨z, hz, hdocument', hcallers', hqueued'⟩ := hs c y hy
  exact ⟨z, hz, hdocument'.trans hdocument, hcallers'.trans hcallers, hqueued' ∘ hqueued⟩

theorem sameCalls_modify {c : Nat} {state : Computation.State ρ} (hstate : state ≠ .queued)
    (hcomputations :
      w'.computations = w.computations.modify c fun x => { x with state := state }) :
    w.SameCalls w' := by
  intro i x hx
  rw [hcomputations, List.getElem?_modify] at hx
  obtain ⟨y, hy, rfl⟩ := Option.map_eq_some_iff.mp hx
  refine ⟨y, hy, ?_⟩
  split <;> simp [hstate]

theorem sameCalls_finishComputation (w : World η ρ) (c : Nat) :
    w.SameCalls (w.finishComputation c) := by
  obtain ⟨x, ending, -, -, heq⟩ | ⟨heq, -⟩ := w.finishComputation_cases c <;> rw [heq]
  · exact sameCalls_modify (by simp) rfl
  · exact sameCalls_of_eq rfl

theorem sameCalls_beginComputation (w : World η ρ) (c : Nat) :
    w.SameCalls (w.beginComputation h c) := by
  obtain heq | ⟨x, host, commands, -, -, ⟨ending, -, heq⟩ | ⟨records, -, heq⟩⟩ :=
    w.beginComputation_cases h c
  · exact sameCalls_of_eq (by rw [heq])
  all_goals
    obtain ⟨-, -, hcomputations⟩ := obeyAll_frame { w with host := host } commands
    rw [heq]
    exact (sameCalls_of_eq hcomputations).trans (sameCalls_modify (by simp) rfl)

theorem sameCalls_release (w : World η ρ) (c : Nat) (ending : Ending (List ρ)) :
    w.SameCalls (w.release c ending).2 := by
  obtain ⟨records, -, heq⟩ | heq := w.release_cases c ending <;> rw [heq]
  · exact sameCalls_modify (by simp) rfl
  · exact sameCalls_of_eq rfl

/-- No act but the turn of a task that is resumed begins or joins a computation. -/
theorem act_sameCalls (w : World η ρ) (a : Act ρ) :
    w.SameCalls (w.act h a) ∨ ∃ n t, a = .turn n ∧ w.turns[n]? = some (.resume t) ∧
      w.act h a = { w with turns := w.turns.eraseIdx n }.resume h t := by
  cases a with
  | openDocument d => exact .inl (sameCalls_of_eq rfl)
  | edit k text => exact .inl (sameCalls_of_eq rfl)
  | start errand k => exact .inl (sameCalls_of_eq rfl)
  | obey command => exact .inl (sameCalls_of_eq (w.obey_frame command).2.2)
  | cancelTask t => exact .inl (sameCalls_of_eq (w.sameBooks_cancelTask t).computations)
  | release c ending => exact .inl (w.sameCalls_release c ending)
  | moveTo instant => exact .inl (sameCalls_of_eq rfl)
  | setClock instant => exact .inl (sameCalls_of_eq rfl)
  | turn n =>
      rw [act]
      cases hturn : w.turns[n]? with
      | none => exact .inl (sameCalls_of_eq rfl)
      | some turn =>
          cases turn with
          | resume t => exact .inr ⟨n, t, rfl, hturn, rfl⟩
          | begin c => exact .inl (sameCalls_beginComputation { w with turns := _ } c)
          | finish c => exact .inl (sameCalls_finishComputation { w with turns := _ } c)
          | settle c => exact .inl (sameCalls_of_eq (settleComputation_frame ..).1)
          | tell c t => exact .inl (sameCalls_of_eq (sameBooks_tellTask ..).computations)
          | ring t => exact .inl (sameCalls_of_eq (sameBooks_ring ..).computations)

/-- What a use begins or joins it begins or joins by a call of a task that is not late yet. -/
theorem use_calls (w : World η ρ) (u : Use ρ) :
    w.SameCalls (w.use h u) ∨ ∃ n t task v errand d, u = .act (.turn n) ∧
      w.turns[n]? = some (.resume t) ∧ w.tasks[t]? = some task ∧ task.stage.isLate = false ∧
      w.Calls v t errand d ∧ w.use h u = (v.lookUp t errand d).2 := by
  cases u with
  | cache op => exact .inl (sameCalls_of_eq rfl)
  | act a =>
      rcases w.act_sameCalls (h := h) a with hsame | ⟨n, t, rfl, hturn, hact⟩
      · exact .inl hsame
      · rcases resume_calls (h := h) { w with turns := w.turns.eraseIdx n } t with
          hsame | ⟨task, v, errand, d, ht, hlate, hcall, hresume⟩
        · exact .inl (sameCalls_of_eq ((congrArg World.computations hact).trans hsame))
        · exact .inr ⟨n, t, task, v, errand, d, rfl, hturn, ht, hlate,
            hcall.of_same (w.retains_turns (w.turns.eraseIdx n) w.timers) rfl
              (fun _ _ hturn => List.mem_of_mem_eraseIdx hturn), hact.trans hresume⟩

/-- A use begins a computation for a key and a version: some task looks their records up, which are
neither held nor being computed at that moment. -/
inductive Begins (h : Host η ρ) (w : World η ρ) (u : Use ρ) : Nat → String → Int → Prop where
  | call {v : World η ρ} {t : Nat} {errand : Errand} {d : Document} (hcall : w.Calls v t errand d)
      (hheld : v.cache.held? d.uri d.version = none)
      (hnone : v.cache.pending.get? (d.uri, d.version) = none)
      (huse : w.use h u = (v.lookUp t errand d).2) :
      Begins h w u w.computations.length d.uri d.version

/-- A computation that is new after a use is the one that a look-up in it queues. -/
theorem exists_call_of_new {u : Use ρ} {c : Nat} {x : Computation ρ}
    (hnew : w.computations.length ≤ c) (hx : (w.use h u).computations[c]? = some x) :
    ∃ v t errand d, w.Calls v t errand d ∧ w.use h u = (v.lookUp t errand d).2 ∧
      c = w.computations.length ∧ x = ⟨errand, d, t, [t], .queued⟩ ∧
      v.cache.held? d.uri d.version = none ∧ v.cache.pending.get? (d.uri, d.version) = none := by
  rcases w.use_calls (h := h) u with hsame | ⟨n, t, task, v, errand, d, -, -, -, -, hcall, huse⟩
  · obtain ⟨y, hy, -⟩ := hsame c x hx
    exact absurd (List.getElem?_eq_some_iff.mp hy).1 (Nat.not_lt.mpr hnew)
  · rw [huse] at hx
    obtain ⟨y, hy, -⟩ | ⟨hc, hqueued, hheld, hnone⟩ := was_or_begun_of_lookUp hx
    · rw [hcall.computations] at hy
      exact absurd (List.getElem?_eq_some_iff.mp hy).1 (Nat.not_lt.mpr hnew)
    · rw [hcall.computations] at hc
      exact ⟨v, t, errand, d, hcall, huse, hc, hqueued, hheld, hnone⟩

/-- A computation that is new after a use is begun in it, for the document that it is of. -/
theorem begins_of_new {u : Use ρ} {c : Nat} {x : Computation ρ} (hnew : w.computations.length ≤ c)
    (hx : (w.use h u).computations[c]? = some x) :
    w.Begins h u c x.document.uri x.document.version := by
  obtain ⟨v, t, errand, d, hcall, huse, rfl, rfl, hheld, hnone⟩ := exists_call_of_new hnew hx
  exact .call hcall hheld hnone huse

/-- A computation that there is after a use has been there before, or is begun in the use. -/
theorem was_or_begins {u : Use ρ} {c : Nat} {x : Computation ρ}
    (hx : (w.use h u).computations[c]? = some x) :
    (∃ y, w.computations[c]? = some y ∧ y.Becomes x) ∨
      w.computations.length ≤ c ∧ w.Begins h u c x.document.uri x.document.version := by
  by_cases hlt : c < w.computations.length
  · have hy := List.getElem?_eq_getElem hlt
    obtain ⟨x', hx', hbecomes⟩ := (grows_use (h := h) w u).computations c _ hy
    obtain rfl := Option.some.inj (hx.symm.trans hx')
    exact .inl ⟨_, hy, hbecomes⟩
  · have hnew := Nat.le_of_not_lt hlt
    exact .inr ⟨hnew, begins_of_new hnew hx⟩

end World

end Swatch

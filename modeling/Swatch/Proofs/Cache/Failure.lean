import Swatch.Proofs.Cache.Blame
import Swatch.Proofs.Cache.Due
import Swatch.Proofs.Refresh.Descent

/-!
Failures leave no trace. A computation that comes to nothing leaves what is held as it was, is heard of
only by those who have joined it, and is computed anew for the next who calls for it. A refresh that
comes to nothing has no lock and takes no number, so that nothing is in the way of the next one.
-/

namespace Swatch

open World

variable {η ρ : Type} {h : Host η ρ} {w : World η ρ} {us : List (Use ρ)} {c n : Nat} {f : Ending Unit}

/-- The computation that a turn is about. -/
def Turn.computation? : Turn → Option Nat
  | .begin c | .finish c | .settle c | .tell c _ => some c
  | .resume _ | .ring _ => none

theorem Cache.entries_settle_of_fault (cache : Cache ρ) (key : String) (version : Int) (c : Nat)
    {ending : Ending (List ρ)} (hf : ending.fault? = some f) :
    (cache.settle key version c ending).entries = cache.entries := by
  cases ending with
  | finished => simp at hf
  | failed | cancelled =>
      simp only [settle]
      split <;> rfl

namespace World

/-! ### What is held -/

/-- The entries of the cache are left as they were, but for what the host does while it computes a
computation whose turn it is. -/
def SparesEntries (h : Host η ρ) (w : World η ρ) (n c : Nat) (done : Turn) : Prop :=
  ∃ host commands, (w.use h (.act (.turn n))).cache.entries =
      ({ w with turns := w.turns.eraseIdx n, host := host }.obeyAll commands).cache.entries ∧
    (commands = [] ∨ done = .begin c ∧ ∃ x progress, w.computations[c]? = some x ∧
      h.compute x.errand x.document w.host = (host, commands, progress))

theorem sparesEntries_of_eq {done : Turn}
    (heq : (w.use h (.act (.turn n))).cache.entries = w.cache.entries) :
    w.SparesEntries h n c done :=
  ⟨w.host, [], heq, .inl rfl⟩

/-- No turn of a computation that comes to nothing changes what is held. -/
theorem sparesEntries_of_fault {done : Turn} {ending : Ending (List ρ)}
    (hdone : w.turns[n]? = some done) (hc : done.computation? = some c)
    (hended : (w.use h (.act (.turn n))).state? c = some (.ended ending))
    (hf : ending.fault? = some f) : w.SparesEntries h n c done := by
  have huse := use_turn (h := h) w hdone
  cases done with
  | resume | ring => simp [Turn.computation?] at hc
  | begin c' =>
      obtain rfl : c' = c := by simpa [Turn.computation?] using hc
      obtain heq | ⟨x, host, commands, hx, -, ⟨ending', hcompute, heq⟩ | ⟨records, hcompute, heq⟩⟩ :=
        beginComputation_cases { w with turns := w.turns.eraseIdx n } h c'
      · exact sparesEntries_of_eq (by rw [huse, perform, heq])
      · refine ⟨host, commands, ?_, .inr ⟨rfl, x, _, hx, hcompute⟩⟩
        rw [huse, perform, heq]
        rfl
      · refine ⟨host, commands, ?_, .inr ⟨rfl, x, _, hx, hcompute⟩⟩
        rw [huse, perform, heq]
  | finish c' =>
      exact sparesEntries_of_eq (by rw [huse, perform, (finishComputation_frame ..).1])
  | tell c' t => exact sparesEntries_of_eq (by rw [huse, perform, (sameBooks_tellTask ..).cache])
  | settle c' =>
      obtain rfl : c' = c := by simpa [Turn.computation?] using hc
      obtain ⟨hcomputations, -⟩ := settleComputation_frame { w with turns := w.turns.eraseIdx n } c'
      refine sparesEntries_of_eq ?_
      rw [huse, perform] at hended ⊢
      rw [state?, hcomputations] at hended
      obtain ⟨x, hx, hstate⟩ := Option.map_eq_some_iff.mp hended
      rw [settleComputation, show w.computations[c']? = some x from hx]
      simp only [hstate]
      exact w.cache.entries_settle_of_fault _ _ _ hf

/-- A use puts records in, or settles a computation that has found them. -/
def Stores (w : World η ρ) (u : Use ρ) (key : String) (v : Int) (records : List ρ) : Prop :=
  u = .cache (.set key v records) ∨ ∃ c, w.Settles c u ∧
    w.cache.pending.get? (key, v) = some c ∧ w.state? c = some (.ended (.finished records))

/-- What is held after a run was held before it, or has been stored in it. -/
theorem held_or_stored {key : String} {v : Int} {records : List ρ}
    (hheld : (w.uses h us).cache.held? key v = some records) :
    w.cache.held? key v = some records ∨
      Occurs us fun before u => (w.uses h before).Stores u key v records := by
  induction us using List.reverseRecOn with
  | nil => exact .inl hheld
  | append_singleton us u ih =>
      rw [uses_concat] at hheld
      rcases held?_use hheld with ⟨hbefore, -⟩ | hset | ⟨-, c, hsettles, hpending, hended⟩
      · exact (ih hbefore).imp_right fun ho => ho.append [u]
      · exact .inr (occurs_concat.mpr (.inr (.inl hset)))
      · exact .inr (occurs_concat.mpr (.inr (.inr ⟨c, hsettles, hpending, hended⟩)))

/-! ### What is pending -/

/-- Every computation has been begun in some use. -/
theorem exists_begins (host : η) {x : Computation ρ}
    (hx : ((initial host).uses h us).computations[c]? = some x) :
    ∃ before u after, us = before ++ u :: after ∧
      ((initial host).uses h before).Begins h u c x.document.uri x.document.version := by
  induction us using List.reverseRecOn generalizing x with
  | nil => simp [initial] at hx
  | append_singleton us u ih =>
      rw [uses_concat] at hx
      obtain ⟨y, hy, hbecomes⟩ | ⟨-, hbegins⟩ := was_or_begins hx
      · obtain ⟨before, u', after, rfl, hbegins⟩ := ih hy
        rw [hbecomes.document]
        exact ⟨before, u', after ++ [u], by simp, hbegins⟩
      · exact ⟨us, u, [], rfl, hbegins⟩

theorem Begins.index {u : Use ρ} {key : String} {v : Int} (hb : w.Begins h u c key v) :
    c = w.computations.length := by
  cases hb with
  | call => rfl

theorem Begins.held {u : Use ρ} {key : String} {v : Int} (hb : w.Begins h u c key v) :
    (w.use h u).cache.held? key v = none := by
  obtain @⟨v, t, errand, d, hcall, hheld, hnone, huse⟩ := hb
  rw [huse, lookUp_of_none hheld hnone errand]
  exact (v.cache.held?_get ..).trans hheld

/-- A computation that was begun after another one of the same key and version, and is pending after
that one was settled. -/
theorem lt_of_pending (host : η) {x : Computation ρ} {c' : Nat}
    (hx : ((initial host).uses h us).computations[c]? = some x)
    (hsettled : (initial host).Settled h us c)
    (hpending : ((initial host).uses h us).cache.pending.get?
      (x.document.uri, x.document.version) = some c') : c < c' := by
  obtain ⟨x', hx', huri, hversion⟩ := exists_of_pending host hpending
  rw [← huri, ← hversion] at hpending
  have hflight := (pending_iff host hx').mp hpending
  obtain ⟨before, u, after, rfl, hbegins⟩ := exists_begins host hx
  have hindex := hbegins.index
  by_contra hle
  rcases Nat.lt_or_eq_of_le (Nat.le_of_not_lt hle) with hlt | rfl
  · -- One that was begun earlier would have been found when the other one was called for.
    have hpending' := hbegins.pending
    have hlength := (grows_use (h := h) ((initial host).uses h before) u).length_le
    rw [← uses_concat] at hpending' hlength
    have hlt' : c' < ((initial host).uses h (before ++ [u])).computations.length := by omega
    have hy := List.getElem?_eq_getElem hlt'
    have hsplit : before ++ u :: after = (before ++ [u]) ++ after := by simp
    obtain ⟨x'', hx'', hbecomes⟩ :=
      (grows_uses (h := h) ((initial host).uses h (before ++ [u])) after).computations c' _ hy
    rw [← uses_append, ← hsplit] at hx''
    obtain rfl := Option.some.inj (hx'.symm.trans hx'')
    have hflight' : (initial host).InFlight h (before ++ [u]) c' := by
      rw [hsplit] at hflight
      exact ⟨hlt', fun hs => hflight.settled (hs.append after),
        fun hd => hflight.dropped (hd.append after)⟩
    have hpending'' := (pending_iff host hy).mpr hflight'
    rw [← hbecomes.document, huri, hversion, hpending'] at hpending''
    have hsame := Option.some.inj hpending''
    omega
  · exact hflight.settled hsettled

/-! ### What is computed anew -/

/-- What is found by whoever calls for the records of a document in a world that has come of a run,
after a computation of them has come to nothing in it: records that were stored since the computation
was begun, a computation that was begun later, or nothing, so that they are computed anew. -/
inductive Regains (h : Host η ρ) (w : World η ρ) (us : List (Use ρ)) (c : Nat) (v : World η ρ) (t : Nat)
    (errand : Errand) (d : Document) : Prop where
  | stored {records : List ρ}
      (hstored : Occurs us fun before u => c < (w.uses h before).computations.length ∧
        (w.uses h before).Stores u d.uri d.version records)
      (hknown : (v.lookUp t errand d).1 = .known (.finished records))
  | later {c' : Nat} {x : Computation ρ} (hlt : c < c') (hx : v.computations[c']? = some x)
      (huri : x.document.uri = d.uri) (hversion : x.document.version = d.version)
  | nothing (hanew : v.lookUp t errand d =
      (.awaited,
        { v with
          cache := (v.cache.get d.uri d.version).2.begin d.uri d.version v.computations.length
          computations := v.computations ++ [⟨errand, d, t, [t], .queued⟩]
          turns := v.turns ++ [.begin v.computations.length] }))

/-- What is held after a computation was begun for its key and version has been stored since. -/
theorem stored_since (host : η) {x : Computation ρ} {records : List ρ}
    (hx : ((initial host).uses h us).computations[c]? = some x)
    (hheld : ((initial host).uses h us).cache.held? x.document.uri x.document.version =
      some records) :
    Occurs us fun before u => c < ((initial host).uses h before).computations.length ∧
      ((initial host).uses h before).Stores u x.document.uri x.document.version records := by
  obtain ⟨before, u, after, rfl, hbegins⟩ := exists_begins host hx
  have hnone := hbegins.held
  have hpending : ((initial host).uses h (before ++ [u])).cache.pending.get?
      (x.document.uri, x.document.version) = some c := by
    rw [uses_concat]
    exact hbegins.pending
  obtain ⟨y, hy, -⟩ := exists_of_pending host hpending
  have hlt := (List.getElem?_eq_some_iff.mp hy).1
  rw [show before ++ u :: after = (before ++ [u]) ++ after by simp, uses_append] at hheld
  rcases held_or_stored hheld with hearly | ⟨between, u', rest, rfl, hstores⟩
  · rw [uses_concat, hnone] at hearly
    simp at hearly
  · rw [← uses_append] at hstores
    have hgrows := grows_uses (h := h) ((initial host).uses h (before ++ [u])) between
    rw [← uses_append] at hgrows
    exact ⟨before ++ [u] ++ between, u', rest, by simp, Nat.lt_of_lt_of_le hlt hgrows.length_le,
      hstores⟩

theorem regains_of_settled (host : η) {x : Computation ρ} {v : World η ρ} {es : List (Event ρ)}
    (hx : ((initial host).uses h us).computations[c]? = some x)
    (hsettled : (initial host).Settled h us c) (hr : ((initial host).uses h us).Retains es v)
    (t : Nat) (errand : Errand) {d : Document} (huri : d.uri = x.document.uri)
    (hversion : d.version = x.document.version) :
    (initial host).Regains h us c v t errand d := by
  cases hheld : v.cache.held? d.uri d.version with
  | some records =>
      have hbefore := (hr.held _ _ _ hheld).1
      have hknown : (v.lookUp t errand d).1 = .known (.finished records) := by
        have hlooks := v.looksUp t errand d
        generalize v.lookUp t errand d = r at hlooks ⊢
        cases hlooks with
        | held hheld' => rw [Option.some.inj (hheld.symm.trans hheld')]
        | ended hnone | joined hnone | begun hnone => simp [hheld] at hnone
      refine .stored ?_ hknown
      rw [huri, hversion] at hbefore ⊢
      exact stored_since host hx hbefore
  | none =>
      cases hpending : v.cache.pending.get? (d.uri, d.version) with
      | none => exact .nothing (lookUp_of_none hheld hpending errand)
      | some c' =>
          rcases hr.begun c' _ _ hpending with hbefore | ⟨hle, y, hy, hyuri, hyversion⟩
          · obtain ⟨y, hy, hyuri, hyversion⟩ := exists_of_pending host hbefore
            obtain ⟨y', hy', hbecomes⟩ := hr.grows.computations c' y hy
            rw [huri, hversion] at hbefore
            exact .later (lt_of_pending host hx hsettled hbefore) hy'
              (by rw [hbecomes.document, hyuri]) (by rw [hbecomes.document, hyversion])
          · have hlt := (List.getElem?_eq_some_iff.mp hx).1
            exact .later (by omega) hy hyuri hyversion

/-! ### What refreshes put down -/

theorem accounted_uses (h : Host η ρ) (host : η) (us : List (Use ρ)) :
    ((initial host).uses h us).Accounted h :=
  uses_induction (fun _ a hw => hw.act a)
    (fun _ _ hw => hw.of_sameTasks ⟨rfl, rfl, rfl, rfl, rfl⟩
      (hw.ruled.locked.of_tasks rfl rfl hw.ruled.locked.told hw.ruled.locked.callers))
    (accounted_initial h host) us

theorem concluded_uses (h : Host η ρ) (host : η) (us : List (Use ρ)) :
    ((initial host).uses h us).Concluded := by
  refine (uses_induction (P := fun w => w.DrawnOnce ∧ w.Concluded) (fun v a hv => ?_)
    (fun v op hv => ?_) ⟨drawnOnce_initial host, concluded_initial host⟩ us).2
  · refine act_induction_course (P := fun w => w.DrawnOnce ∧ w.Concluded) ?_ hv a
    rintro v v' hcourse ⟨hdrawn, hconcluded⟩
    exact ⟨hdrawn.course hcourse, hconcluded.course hdrawn hcourse⟩
  · exact ⟨⟨hv.1.fresh, hv.1.once⟩, ⟨hv.2.returned, hv.2.drawn, hv.2.taken⟩⟩

/-- A refresh that begins draws a number, if its document is one to be refreshed. -/
theorem drawn_of_eligible {t : Nat} {task : Task ρ} {told : Ending (List ρ)} {d : Document}
    (hturn : w.turns[n]? = some (.resume t)) (ht : w.tasks[t]? = some task)
    (hstage : task.stage = .starting) (herrand : task.errand = .refresh)
    (hsignal : task.signal = some told) (htold : told ≠ .cancelled)
    (hasked : task.cancelRequested = false) (hd : w.documents[task.document]? = some d)
    (heligible : h.eligible d = true) :
    ∃ es, (w.use h (.act (.turn n))).history =
      w.history ++ .drawn t task.document d.uri ⟨d.version, w.scheduler.next⟩ :: es := by
  have hnot : ¬(task.cancelRequested || told.isCancelled) = true := by
    simp [hasked, htold]
  rw [use_resume hturn ht hsignal hd, if_neg hnot, hstage, herrand]
  simp only [proceed, beginRefresh, heligible, if_true]
  split
  · exact ⟨[], rfl⟩
  · generalize hv : World.remember _ _ = v
    have hwaits : v.tasks[t]? = some ⟨task.errand, task.document,
        .debouncing ⟨d.version, w.scheduler.next⟩, none, false⟩ :=
      hv ▸ getElem?_wait (by exact ht) _
    have hhistory : v.history =
        w.history ++ [.drawn t task.document d.uri ⟨d.version, w.scheduler.next⟩] := hv ▸ rfl
    have hdocument : v.documents[task.document]? = some d := hv ▸ hd
    obtain ⟨es, hr⟩ := (steps_afterDebounce (h := h) hwaits hdocument rfl).retains
    exact ⟨es, by rw [hr.history, hhistory, List.append_assoc, List.singleton_append]⟩

/-! ### What is left behind -/

/-- A computation is what a call for the records of a document finds pending. -/
structure Meeting (v : World η ρ) (c : Nat) (x : Computation ρ) (d : Document) : Prop where
  uri : d.uri = x.document.uri
  version : d.version = x.document.version
  held : v.cache.held? d.uri d.version = none
  pending : v.cache.pending.get? (d.uri, d.version) = some c

theorem Meeting.known {v : World η ρ} {x : Computation ρ} {d : Document} {ending : Ending (List ρ)}
    (hm : v.Meeting c x d) (hended : v.state? c = some (.ended ending)) (t : Nat) (errand : Errand) :
    (v.lookUp t errand d).1 = .known ending := by
  have hlooks := v.looksUp t errand d
  generalize v.lookUp t errand d = r at hlooks ⊢
  cases hlooks with
  | held hheld => simp [hm.held] at hheld
  | ended _ hpending hended' =>
      obtain rfl := Option.some.inj (hm.pending.symm.trans hpending)
      obtain rfl := Computation.State.ended.inj (Option.some.inj (hended.symm.trans hended'))
      rfl
  | joined _ hpending hrunning =>
      obtain rfl := Option.some.inj (hm.pending.symm.trans hpending)
      exact absurd hended (hrunning ending)
  | begun _ hnone => simp [hm.pending] at hnone

/-- What is left behind by a computation that has come to nothing: those who have joined it come to
nothing with it, unless they were asked to end themselves, and so does at once whoever finds it before
it is settled; it is settled or about to be, and then it is pending no longer, and is computed anew
for the next who calls for the records. -/
structure Vain (h : Host η ρ) (w : World η ρ) (us : List (Use ρ)) (c : Nat) (x : Computation ρ)
    (f : Ending Unit) : Prop where
  told : ∀ t ∈ x.callers, ∀ task, (w.uses h us).tasks[t]? = some task →
    task.stage.isOver = true → w.Spurned h us c t ∧ task.stage.fault? = some .cancelled ∨
      ¬w.Spurned h us c t ∧ task.stage.fault? = some f
  met : ∀ v es t task d ticket l, (w.uses h us).Retains es v → v.tasks[t]? = some task →
    v.verdict? d ticket = none → v.Meeting c x d → (v.withLock h t d ticket l).fault? t = some f
  found : ∀ v es t task k d d' host commands, (w.uses h us).Retains es v →
    v.tasks[t]? = some task → h.prepare d v.host = some (host, commands) →
    (({ v with host := host }.obeyAll commands).documents[k]?).getD d = d' →
    ({ v with host := host }.obeyAll commands).Meeting c x d' →
    (v.beginDetection h t k d).fault? t = some f
  settles : w.Settled h us c ∨ .settle c ∈ (w.uses h us).turns
  gone : w.Settled h us c →
    (w.uses h us).cache.pending.get? (x.document.uri, x.document.version) ≠ some c
  anew : w.Settled h us c → ∀ v es t errand d, (w.uses h us).Retains es v →
    d.uri = x.document.uri → d.version = x.document.version → w.Regains h us c v t errand d

/-- What failures leave behind after a run. No turn of a computation that comes to nothing changes what
is held, and nobody comes to nothing who has not called for such a computation, has not been asked to
end and has not been failed by its consumer. Whoever is asked to end while suspended does so. Locks
are held by those who are not over yet and numbers stay unless others are drawn, so that a refresh
that begins is over sooner or later, and has been applied if nothing has come in between. -/
structure LeavesNoTrace (h : Host η ρ) (w : World η ρ) (us : List (Use ρ)) : Prop where
  entries : ∀ n done c ending f, (w.uses h us).turns[n]? = some done → done.computation? = some c →
    ((w.uses h us).use h (.act (.turn n))).state? c = some (.ended ending) →
    ending.fault? = some f → (w.uses h us).SparesEntries h n c done
  run : ∀ c < (w.uses h us).computations.length,
    (Occurs us fun before u => (w.uses h before).Runs c u) ∨
      (w.uses h us).state? c = some .queued ∧ .begin c ∈ (w.uses h us).turns
  vain : ∀ c x ending f, (w.uses h us).computations[c]? = some x → x.state = .ended ending →
    ending.fault? = some f → w.Vain h us c x f
  blame : ∀ t task f, (w.uses h us).tasks[t]? = some task → task.stage.fault? = some f →
    w.Spoiled h us t f
  asked : ∀ t, (Occurs us fun before u => (w.uses h before).Cancels t u) →
    (w.uses h us).fault? t = some .cancelled ∨
      ∃ task told, (w.uses h us).Leaving t task told ∧ .resume t ∈ (w.uses h us).turns
  taken : ∀ t f, .taken t f ∈ (w.uses h us).history → f ≠ .finished () →
    ((w.uses h us).fault? t).isSome = true
  served : ∀ (l : Nat) (lock : Lock), (w.uses h us).locks[l]? = some lock →
    (w.uses h us).Serves l lock
  free : ∀ t task, (w.uses h us).tasks[t]? = some task → task.stage.isOver = true →
    ∀ (l : Nat) (lock : Lock), (w.uses h us).locks[l]? = some lock →
      ¬(w.uses h us).Holds t l ∧ t ∉ lock.names
  numbers : ∀ u, (w.uses h us).KeepsNumbers ((w.uses h us).use h u)
  drawn : ∀ n t task told d, (w.uses h us).turns[n]? = some (.resume t) →
    (w.uses h us).tasks[t]? = some task → task.stage = .starting → task.errand = .refresh →
    task.signal = some told → told ≠ .cancelled → task.cancelRequested = false →
    (w.uses h us).documents[task.document]? = some d → h.eligible d = true →
    ∃ es, ((w.uses h us).use h (.act (.turn n))).history = (w.uses h us).history ++
      .drawn t task.document d.uri ⟨d.version, (w.uses h us).scheduler.next⟩ :: es
  isOver : (w.uses h us).AtRest → ∀ (t : Nat) (task : Task ρ), (w.uses h us).tasks[t]? = some task →
    task.stage ≠ .starting → task.stage.isOver = true
  rests : ∀ k, h.Prompt k → ∀ next : Nat → Use ρ,
    ∃ m, ¬((w.uses h us).uses h ((List.range m).map next)).GoesOn (next m)
  applied : ∀ before after t k uri ticket task,
    (w.uses h us).history = before ++ .drawn t k uri ticket :: after →
    (∀ e ∈ after, ¬e.Voids k uri) → (w.uses h us).tasks[t]? = some task →
    task.stage.isOver = true → (∃ f, task.stage.fault? = some f ∧ w.Spoiled h us t f) ∨
      ∃ outcome, task.stage = .ended (.finished outcome) ∧ outcome.status = .applied ∧
        outcome.version = ticket.version

theorem vain_of_fault (h : Host η ρ) (host : η) (us : List (Use ρ)) {x : Computation ρ}
    {ending : Ending (List ρ)} (hx : ((initial host).uses h us).computations[c]? = some x)
    (hstate : x.state = .ended ending) (hf : ending.fault? = some f) :
    (initial host).Vain h us c x f := by
  have hended : ((initial host).uses h us).state? c = some (.ended ending) := by
    rw [state?, hx, Option.map_some, hstate]
  constructor
  case told =>
    intro t hcaller task ht hover
    exact fault?_of_isCaller h host us ⟨x, hx, hcaller⟩ hended hf ht hover
  case met =>
    intro v es t task d ticket l hr ht hv hm
    exact fault?_withLock ht hv (hm.known (hr.grows.state? hended) t .refresh) hf l
  case found =>
    intro v es t task k d d' host' commands hr ht hprepared hd hm
    refine fault?_beginDetection ht hprepared hd (Meeting.known (x := x) (c := c) ?_ ?_ t _) hf
    · exact ⟨hm.uri, hm.version, hm.held, hm.pending⟩
    · have hstays := (v.grows_hosted host' commands).state? (hr.grows.state? hended)
      exact hstays
  case settles => exact settled_or_due h host us hended
  case gone =>
    intro hs hpending
    exact ((pending_iff host hx).mp hpending).settled hs
  case anew =>
    intro hs v es t errand d hr
    exact regains_of_settled host hx hs hr t errand

/-- Whoever is over neither holds a lock nor waits for one. -/
theorem free_of_isOver (hu : w.Unblocked) {t l : Nat} {task : Task ρ} {lock : Lock}
    (ht : w.tasks[t]? = some task) (hover : task.stage.isOver = true)
    (hlock : w.locks[l]? = some lock) : ¬w.Holds t l ∧ t ∉ lock.names := by
  have hstanding := standing?_of_getElem? ht
  refine ⟨?_, hu.attentive.not_mem_names hstanding ?_ hlock⟩
  · rintro ⟨k, s, hs, hheld⟩
    obtain ⟨-, rfl⟩ := Prod.mk.inj (Option.some.inj (hs.symm.trans hstanding))
    cases hstage : task.stage <;> simp_all [Stage.held?, Stage.isOver]
  · cases hstage : task.stage <;> simp_all [Stage.queued?, Stage.isOver]

theorem keepsNumbers_use (w : World η ρ) (u : Use ρ) : w.KeepsNumbers (w.use h u) := by
  cases u with
  | act a => exact w.keepsNumbers_act a
  | cache op => exact keepsNumbers_of_eq (List.append_nil _).symm rfl

/-- Failures leave no trace. -/
theorem leavesNoTrace (h : Host η ρ) (host : η) (us : List (Use ρ)) :
    (initial host).LeavesNoTrace h us := by
  have hs := steady_uses h host us
  have hu := unblocked_uses h host us
  have hc := concluded_uses h host us
  constructor
  case entries => exact fun _ _ _ _ _ => sparesEntries_of_fault
  case run => exact fun _ => run_or_due h host us
  case vain => exact fun _ _ _ _ => vain_of_fault h host us
  case blame => exact fun _ _ f ht => (excused_uses h host us ht).fault f
  case asked =>
    intro t hasked
    refine (cancelled_or_leaving h host us hasked).imp_right ?_
    rintro ⟨task, told, hl⟩
    exact ⟨task, told, hl, hl.turn hs⟩
  case taken =>
    intro t f hf hne
    obtain ⟨k, ending, ht, hfails⟩ := hc.taken t f hf hne
    rcases ending.fault?_cases with ⟨outcome, heq⟩ | ⟨g, hg⟩
    · exact absurd heq (hfails outcome)
    · rw [fault?_of_standing? ht, Stage.fault?, hg, Option.isSome_some]
  case served => exact hu.attentive.serves
  case free => exact fun _ _ ht hover _ _ => free_of_isOver hu ht hover
  case numbers => exact keepsNumbers_use _
  case drawn => exact fun _ _ _ _ _ => drawn_of_eligible
  case isOver => exact fun hr _ _ ht => hr.isOver hs hu ht
  case rests => exact fun _ hn => hs.exists_not_goesOn hn
  case applied =>
    intro before after t k uri ticket task hsplit hvoid ht hover
    cases hfault : task.stage.fault? with
    | some f => exact .inl ⟨f, rfl, (excused_uses h host us ht).fault f hfault⟩
    | none =>
        refine .inr ?_
        refine hc.applied (accounted_uses h host us) hsplit hvoid (standing?_of_getElem? ht) hover ?_
        intro ending hended
        rcases ending.fault?_cases with hfinished | ⟨f, hf⟩
        · exact hfinished
        · simp [hended, Stage.fault?, hf] at hfault

/-- A refresh and two detections wait for the same records when their computation fails; one of the
detections has been cancelled by then. -/
def failedSpelling : List (Use Char) :=
  [.act (.openDocument ⟨"a", 1, "css", "xy"⟩), .act (.start .refresh 0), .act (.turn 0),
    .act (.start .detection 0), .act (.start .detection 0), .act (.turn 0), .act (.turn 0),
    .act (.turn 0), .act (.cancelTask 1), .act (.release 0 (.failed "boom")), .act (.turn 0),
    .act (.turn 0), .act (.turn 0), .act (.turn 0), .act (.turn 0), .act (.turn 0), .act (.turn 0),
    .act (.turn 0)]

/-- After the failure the document is refreshed again. -/
def retriedSpelling : List (Use Char) :=
  failedSpelling ++
    [.act (.start .refresh 0), .act (.turn 0), .act (.turn 0), .act (.release 1 (.finished ['x', 'y'])),
      .act (.turn 0), .act (.turn 0), .act (.turn 0), .act (.turn 0), .act (.turn 0)]

theorem leavesNoTrace_retriedSpelling :
    let h := Host.withholding
    let w := (initial ()).uses h retriedSpelling
    let x : Computation Char := ⟨.refresh, ⟨"a", 1, "css", "xy"⟩, 0, [0, 1, 2], .ended (.failed "boom")⟩
    w.tasks.map (·.stage.fault?) =
        [some (.failed "boom"), some .cancelled, some (.failed "boom"), none] ∧
      w.computations[0]? = some x ∧ (initial ()).Vain h retriedSpelling 0 x (.failed "boom") ∧
      (initial ()).Settled h failedSpelling 0 ∧
      (initial ()).Regains h failedSpelling 0 ((initial ()).uses h failedSpelling) 3 .refresh
        ⟨"a", 1, "css", "xy"⟩ ∧
      ∃ task outcome, w.tasks[3]? = some task ∧ task.stage = .ended (.finished outcome) ∧
        outcome.status = .applied ∧ outcome.version = 1 := by
  intro h w x
  have htrace := leavesNoTrace h () retriedSpelling
  have hx : w.computations[0]? = some x := by decide
  have hfailed := (leavesNoTrace h () failedSpelling).vain 0 x _ (.failed "boom") (by decide) rfl rfl
  have hsettled : (initial ()).Settled h failedSpelling 0 :=
    hfailed.settles.resolve_right (by decide)
  refine ⟨by decide, hx, htrace.vain 0 x _ _ hx rfl rfl, hsettled, ?_, ?_⟩
  · exact hfailed.anew hsettled _ [] _ _ _ (retains_refl _) rfl rfl
  · have hdrawn : w.history = w.history.take 4 ++ .drawn 3 0 "a" ⟨1, 2⟩ :: w.history.drop 5 := by
      decide
    have hvoid : ∀ e ∈ w.history.drop 5, ¬e.Voids 0 "a" := by decide
    have hthere : w.tasks[3]?.isSome = true := by decide
    obtain ⟨task, ht⟩ := Option.isSome_iff_exists.mp hthere
    have hover : w.tasks[3]?.map (·.stage.isOver) = some true := by decide
    have hfault : w.tasks[3]?.map (·.stage.fault?) = some none := by decide
    rw [ht, Option.map_some, Option.some.injEq] at hover hfault
    rcases htrace.applied _ _ 3 0 "a" _ task hdrawn hvoid ht hover with ⟨f, hf, -⟩ | happlied
    · simp [hfault] at hf
    · obtain ⟨outcome, hended, hstatus, hversion⟩ := happlied
      exact ⟨task, outcome, ht, hended, hstatus, hversion⟩

end World

end Swatch

import Swatch.Proofs.Refresh.Growth

/-!
Where the records of a chunk come from. The cache and the computations under way are known by address
and version only, and a document that was closed may have had both in common with the one that was
opened in its place. Yet as long as nothing is begun for a document whose address was given to
another, all that is held or under way for an address belongs to the document that the address
belongs to. Main statement: the records of every chunk were found in the very document that they are
offered for, as it is at that moment.
-/

namespace Swatch

open World

variable {η ρ : Type}

def Event.begun? : Event ρ → Option (Nat × String)
  | .drawn _ k uri _ | .asked _ k uri => some (k, uri)
  | _ => none

def Event.ownerAfter? (uri : String) (owner? : Option Nat) : Event ρ → Option Nat
  | .drawn _ k u _ | .asked _ k u => if u = uri then some k else owner?
  | .forgotten u => if u = uri then none else owner?
  | _ => owner?

/-- The document that an address belongs to: the last one that something was begun for there, until
the address is forgotten. -/
def owner? (uri : String) (history : List (Event ρ)) : Option Nat :=
  history.foldl (Event.ownerAfter? uri) none

def Event.isOrderly (past : List (Event ρ)) (e : Event ρ) : Bool :=
  match e.begun? with
  | some (k, uri) => (owner? uri past).all (· = k)
  | none => true

/-- Nothing is ever begun for a document whose address belongs to another: whoever closes a document
forgets its address, and only then begins something for another document there. -/
def Orderly (history : List (Event ρ)) : Prop :=
  ∀ past e future, history = past ++ e :: future → e.isOrderly past = true

instance (history : List (Event ρ)) : Decidable (Orderly history) :=
  decidable_of_iff (∀ n : Fin history.length, history[n].isOrderly (history.take n) = true) <| by
    constructor
    · rintro hfin past e future rfl
      simpa using hfin ⟨past.length, by simp⟩
    · intro horderly n
      refine horderly _ _ (history.drop (n + 1)) ?_
      rw [Fin.getElem_fin, List.getElem_cons_drop, List.take_append_drop]

theorem Orderly.of_append {past future : List (Event ρ)} (horderly : Orderly (past ++ future)) :
    Orderly past := by
  intro before e after heq
  exact horderly before e (after ++ future) (by simp [heq])

theorem owner?_append_singleton (uri : String) (past : List (Event ρ)) (e : Event ρ) :
    owner? uri (past ++ [e]) = e.ownerAfter? uri (owner? uri past) := by
  simp [owner?]

theorem Event.ownerAfter?_of_isOrderly {past : List (Event ρ)} {e : Event ρ} {uri : String} {k : Nat}
    (he : e.isOrderly past = true) (hforgotten : e ≠ .forgotten uri)
    (howner : owner? uri past = some k) : e.ownerAfter? uri (owner? uri past) = some k := by
  have hbegun : ∀ k' u, e.begun? = some (k', u) → (if u = uri then some k' else some k) = some k := by
    intro k' u hbegun
    split
    · rename_i hu
      subst hu
      simp only [isOrderly, hbegun, howner, Option.all_some, decide_eq_true_eq] at he
      rw [he]
    · rfl
  rw [howner]
  cases e with
  | drawn t k' u ticket => exact hbegun k' u rfl
  | asked t k' u => exact hbegun k' u rfl
  | forgotten u =>
      refine if_neg ?_
      rintro rfl
      exact hforgotten rfl
  | _ => rfl

theorem owner?_append {uri : String} {k : Nat} {past es : List (Event ρ)}
    (horderly : Orderly (past ++ es)) (hforgotten : .forgotten uri ∉ es)
    (howner : owner? uri past = some k) : owner? uri (past ++ es) = some k := by
  induction es generalizing past with
  | nil => simpa using howner
  | cons e es ih =>
      rw [List.mem_cons, not_or] at hforgotten
      have hnext : owner? uri (past ++ [e]) = some k := by
        rw [owner?_append_singleton]
        exact Event.ownerAfter?_of_isOrderly (horderly past e es rfl) (Ne.symm hforgotten.1) howner
      rw [List.append_cons] at horderly ⊢
      exact ih horderly hforgotten.2 hnext

namespace World

def IsFor (w : World η ρ) (t k : Nat) : Prop :=
  ∃ s, w.standing? t = some (k, s)

/-- A computation was begun for a task of the document at a place, with the document as it was at a
version. -/
structure Finding (w : World η ρ) (k : Nat) (version : Int) (y : Computation ρ) : Prop where
  starter : w.IsFor y.starter k
  document : ∃ d, w.documents[k]? = some d ∧ y.document.Becomes d
  version : y.document.version = version

def Finds (w : World η ρ) (k : Nat) (version : Int) (records : List ρ) : Prop :=
  ∃ (c : Nat) (y : Computation ρ), w.computations[c]? = some y ∧ w.Finding k version y ∧
    y.state = .ended (.finished records)

def Signalled (w : World η ρ) (t k : Nat) (ticket : Ticket) (records : List ρ) : Prop :=
  ∃ task l, w.tasks[t]? = some task ∧ task.document = k ∧ task.stage = .computing ticket l ∧
    task.signal = some (.finished records)

/-- All that is held or under way for an address is of the document that the address belongs to. -/
structure Stored (w : World η ρ) : Prop where
  held : ∀ uri version records, w.cache.held? uri version = some records →
    ∃ k, owner? uri w.history = some k ∧ w.Finds k version records
  pending : ∀ uri version c, w.cache.pending.get? (uri, version) = some c →
    ∃ (k : Nat) (y : Computation ρ), owner? uri w.history = some k ∧ w.computations[c]? = some y ∧
      w.Finding k version y

/-- A refresh that waits for records gets those of its own document, at the version that it is
for. -/
structure Awaited (w : World η ρ) : Prop where
  callers : ∀ (c : Nat) (y : Computation ρ) t k ticket l, w.computations[c]? = some y →
    t ∈ y.callers → w.standing? t = some (k, .computing ticket l) → w.Finding k ticket.version y
  told : ∀ (c t : Nat), .tell c t ∈ w.turns →
    ∃ y : Computation ρ, w.computations[c]? = some y ∧ t ∈ y.callers
  signalled : ∀ t k ticket records, w.Signalled t k ticket records →
    w.Finds k ticket.version records

end World

/-- The records of a chunk are those that a computation has found in the document of the refresh that
offers the chunk: the computation was begun for a refresh or a detection of this document, and the
document was then as it is when the chunk is offered, at the version that the refresh is for. -/
def Handover.Genuine (h : Host η ρ) (w : World η ρ) (x : Handover ρ) : Prop :=
  ∃ (k c : Nat) (d : Document) (y : Computation ρ),
    w.IsFor x.task k ∧ x.document? = some d ∧ d.version = x.ticket.version ∧
    w.computations[c]? = some y ∧ y.document = d ∧ w.IsFor y.starter k ∧
    y.state = .ended (.finished x.delivery.records) ∧
    x.chunk = (x.delivery.records.drop (x.delivery.index * h.chunkSize)).take h.chunkSize

namespace World

/-- The records that refreshes hand on, and those that they have handed on. -/
structure Delivered (h : Host η ρ) (w : World η ρ) : Prop where
  delivering : ∀ t k s ticket delivery, w.standing? t = some (k, s) → s.ticket? = some ticket →
    s.delivery? = some delivery → w.Finds k ticket.version delivery.records
  handed : ∀ x, .handed x ∈ w.history → x.Genuine h w

variable {h : Host η ρ} {w w' : World η ρ} {c t k : Nat} {version : Int} {records : List ρ}

theorem IsFor.grows (ht : w.IsFor t k) (hg : w.Grows w') : w'.IsFor t k :=
  ht.elim fun s hs => hg.tasks t k s hs

theorem Finding.grows {y y' : Computation ρ} (hf : w.Finding k version y) (hg : w.Grows w')
    (hy : y.Becomes y') : w'.Finding k version y' := by
  obtain ⟨d, hd, hbecomes⟩ := hf.document
  obtain ⟨d', hd', hbecomes'⟩ := hg.documents k d hd
  refine ⟨?_, ⟨d', hd', ?_⟩, ?_⟩
  · rw [hy.starter]
    exact hf.starter.grows hg
  · rw [hy.document]
    exact hbecomes.trans hbecomes'
  · rw [hy.document, hf.version]

theorem Finds.grows (hf : w.Finds k version records) (hg : w.Grows w') :
    w'.Finds k version records := by
  obtain ⟨c, y, hy, hfinding, hstate⟩ := hf
  obtain ⟨y', hy', hbecomes⟩ := hg.computations c y hy
  exact ⟨c, y', hy', hfinding.grows hg hbecomes, hbecomes.ended _ hstate⟩

theorem genuine_grows {x : Handover ρ} (hx : x.Genuine h w) (hg : w.Grows w') : x.Genuine h w' := by
  obtain ⟨k, c, d, y, ht, hd, hversion, hy, hdocument, hstarter, hstate, hchunk⟩ := hx
  obtain ⟨y', hy', hbecomes⟩ := hg.computations c y hy
  refine ⟨k, c, d, y', ht.grows hg, hd, hversion, hy', hbecomes.document.trans hdocument, ?_,
    hbecomes.ended _ hstate, hchunk⟩
  rw [hbecomes.starter]
  exact hstarter.grows hg

theorem Numbered.owner? (hn : w.Numbered) (horderly : Orderly w.history) {s : Stage ρ}
    {ticket : Ticket} {d : Document} (ht : w.standing? t = some (k, s))
    (hs : s.ticket? = some ticket) (hd : w.documents[k]? = some d)
    (hc : w.scheduler.isCurrent d.uri ticket.generation = true) :
    Swatch.owner? d.uri w.history = some k := by
  obtain ⟨-, d', hd', before, after, hpast, hvoid, -, -⟩ := hn.ticket t k s ticket ht hs
  obtain rfl : d = d' := Option.some.inj (hd.symm.trans hd')
  rw [List.append_cons] at hpast
  rw [hpast] at horderly ⊢
  refine owner?_append horderly ?_ ?_
  · intro hforgotten
    simpa using hvoid hc _ hforgotten rfl
  · rw [owner?_append_singleton]
    exact if_pos rfl

theorem Known.finds {task : Task ρ} {d : Document} {ticket : Ticket} {l : Nat}
    (hknown : w.Known task d records) (hst : w.Stored) (ha : w.Awaited) (hn : w.Numbered)
    (horderly : Orderly w.history) (ht : w.tasks[t]? = some task)
    (hs : task.stage = .computing ticket l) (hd : w.documents[task.document]? = some d)
    (hv : w.verdict? d ticket = none) : w.Finds task.document ticket.version records := by
  obtain ⟨hversion, hc⟩ := verdict?_eq_none.mp hv
  have howner := hn.owner? horderly (standing?_of_getElem? ht) (by rw [hs]; rfl) hd hc
  rw [← hversion]
  rcases hknown with hsignal | hheld | ⟨c, hpending, hstate⟩
  · rw [hversion]
    exact ha.signalled t task.document ticket records ⟨task, l, ht, rfl, hs, hsignal⟩
  · obtain ⟨k', howner', hfinds⟩ := hst.held d.uri d.version records hheld
    obtain rfl : task.document = k' := Option.some.inj (howner.symm.trans howner')
    exact hfinds
  · obtain ⟨k', y, howner', hy, hfinding⟩ := hst.pending d.uri d.version c hpending
    obtain rfl : task.document = k' := Option.some.inj (howner.symm.trans howner')
    exact ⟨c, y, hy, hfinding, by simpa [state?, hy] using hstate⟩

theorem Finds.genuine {task : Task ρ} {d : Document} {ticket : Ticket} {delivery : Delivery ρ}
    (hf : w.Finds task.document ticket.version delivery.records) (ht : w.tasks[t]? = some task)
    (hd : w.documents[task.document]? = some d) (hversion : d.version = ticket.version) :
    (w.offer h t d.uri ticket delivery).Genuine h w := by
  obtain ⟨c, y, hy, hfinding, hstate⟩ := hf
  obtain ⟨d', hd', hbecomes⟩ := hfinding.document
  obtain rfl : d = d' := Option.some.inj (hd.symm.trans hd')
  refine ⟨task.document, c, d, y, ⟨task.stage, standing?_of_getElem? ht⟩, ?_, hversion, hy, ?_,
    hfinding.starter, hstate, rfl⟩
  · simp [offer, documentOf?, ht, hd]
  · exact hbecomes.eq_of_version (hfinding.version.trans hversion.symm)

theorem Delivered.hand (hd : w.Delivered h) (hst : w.Stored) (ha : w.Awaited) (hn : w.Numbered)
    (horderly : Orderly w.history) {s : Stage ρ} {ticket : Ticket} {l : Nat} {delivery : Delivery ρ}
    {d : Document} (ht : w.standing? t = some (k, s)) (hdocument : w.documents[k]? = some d)
    (hv : w.verdict? d ticket = none)
    (hs : s = .pausing ticket l delivery ∨
      s = .computing ticket l ∧ ∃ task records, w.tasks[t]? = some task ∧
        delivery = ⟨records, 0, 0⟩ ∧ w.Known task d records) :
    w.Finds k ticket.version delivery.records ∧ (w.offer h t d.uri ticket delivery).Genuine h w := by
  obtain ⟨task, htask, rfl, rfl⟩ := standing?_eq_some.mp ht
  have hfinds : w.Finds task.document ticket.version delivery.records := by
    rcases hs with hs | ⟨hs, task', records, htask', rfl, hknown⟩
    · exact hd.delivering t _ _ ticket delivery ht (by rw [hs]; rfl) (by rw [hs]; rfl)
    · obtain rfl : task = task' := Option.some.inj (htask.symm.trans htask')
      exact hknown.finds hst ha hn horderly htask hs hdocument hv
  exact ⟨hfinds, hfinds.genuine htask hdocument (verdict?_eq_none.mp hv).1⟩

theorem Delivered.course (hd : w.Delivered h) (hst : w.Stored) (ha : w.Awaited) (hn : w.Numbered)
    (horderly : Orderly w.history) (hcourse : w.Course h w') (hg : w.Grows w') :
    w'.Delivered h := by
  cases hcourse with
  | aside hes hhistory hstanding =>
      refine ⟨?_, ?_⟩
      · intro t k s ticket delivery ht hs hdelivery
        rw [hstanding] at ht
        exact (hd.delivering t k s ticket delivery ht hs hdelivery).grows hg
      · intro x hx
        rw [hhistory, List.mem_append] at hx
        refine genuine_grows (hd.handed x (hx.resolve_right fun hx => ?_)) hg
        simpa [Event.isAside] using hes _ hx
  | start k' hhistory hstanding =>
      refine ⟨?_, ?_⟩
      · intro t k s ticket delivery ht hs hdelivery
        rw [hstanding] at ht
        split at ht
        · obtain ⟨rfl, rfl⟩ := Prod.mk.inj (Option.some.inj ht)
          simp [Stage.ticket?] at hs
        · exact (hd.delivering t k s ticket delivery ht hs hdelivery).grows hg
      · intro x hx
        rw [hhistory] at hx
        exact genuine_grows (hd.handed x hx) hg
  | @move i k' s₁ s₂ es hi hleads hhistory hstanding =>
      -- A task that goes on keeps the records that it hands on, or has just got them.
      have hkept : ∀ ticket delivery, s₂.ticket? = some ticket → s₂.delivery? = some delivery →
          w.Finds k' ticket.version delivery.records := by
        intro ticket delivery hs hdelivery
        cases hleads with
        | hand hdocument hv hstage =>
            obtain rfl := Option.some.inj hs
            obtain rfl := Option.some.inj hdelivery
            exact (hd.hand hst ha hn horderly hi hdocument hv hstage).1
        | revisit ticket' l delivery' count =>
            obtain rfl := Option.some.inj hs
            obtain rfl := Option.some.inj hdelivery
            exact hd.delivering i k' _ _ _ hi rfl rfl
        | taken hmore ticket' l count =>
            obtain rfl := Option.some.inj hs
            obtain rfl := Option.some.inj hdelivery
            have hfinds := hd.delivering i k' _ _ _ hi rfl rfl
            exact hfinds
        | _ => simp [Stage.delivery?] at hdelivery
      refine ⟨?_, ?_⟩
      · intro t k s ticket delivery ht hs hdelivery
        rw [hstanding] at ht
        split at ht
        · obtain ⟨rfl, rfl⟩ := Prod.mk.inj (Option.some.inj ht)
          exact (hkept ticket delivery hs hdelivery).grows hg
        · exact (hd.delivering t k s ticket delivery ht hs hdelivery).grows hg
      · intro x hx
        rw [hhistory, List.mem_append] at hx
        rcases hx with hx | hx
        · exact genuine_grows (hd.handed x hx) hg
        · cases hleads with
          | hand hdocument hv hstage =>
              obtain rfl := Event.handed.inj (List.mem_singleton.mp hx)
              exact genuine_grows (hd.hand hst ha hn horderly hi hdocument hv hstage).2 hg
          | _ => simp at hx

/-! ### What gives nobody records -/

/-- A step that leaves the cache and the computations alone, forgets no address and signals nobody
with records. -/
structure Aloof (w w' : World η ρ) : Prop where
  cache : w'.cache = w.cache
  computations : w'.computations = w.computations
  told : ∀ c t, .tell c t ∈ w'.turns → .tell c t ∈ w.turns
  signalled : ∀ t k ticket records, w'.Signalled t k ticket records → w.Signalled t k ticket records
  history : ∃ es, w'.history = w.history ++ es ∧ ∀ u, .forgotten u ∉ es

theorem Aloof.trans {v : World η ρ} (ha : w.Aloof w') (ha' : w'.Aloof v) : w.Aloof v := by
  obtain ⟨es, hes, hnone⟩ := ha.history
  obtain ⟨es', hes', hnone'⟩ := ha'.history
  refine ⟨ha'.cache.trans ha.cache, ha'.computations.trans ha.computations, ?_, ?_, es ++ es', ?_, ?_⟩
  · intro c t ht
    exact ha.told c t (ha'.told c t ht)
  · intro t k ticket records ht
    exact ha.signalled t k ticket records (ha'.signalled t k ticket records ht)
  · rw [hes', hes, List.append_assoc]
  · intro u hu
    exact (List.mem_append.mp hu).elim (hnone u) (hnone' u)

theorem aloof_of_same (hcache : w'.cache = w.cache) (hcomputations : w'.computations = w.computations)
    (htold : ∀ c t, .tell c t ∈ w'.turns → .tell c t ∈ w.turns) (htasks : w'.tasks = w.tasks)
    (hhistory : w'.history = w.history) : w.Aloof w' := by
  refine ⟨hcache, hcomputations, htold, ?_, [], by simp [hhistory], by simp⟩
  intro t k ticket records ht
  rwa [Signalled, htasks] at ht

theorem aloof_locks (locks : List Lock) : w.Aloof { w with locks := locks } :=
  aloof_of_same rfl rfl (fun _ _ => id) rfl rfl

theorem aloof_wait (t : Nat) (s : Stage ρ) : w.Aloof (w.wait t s) := by
  refine ⟨rfl, rfl, fun _ _ => id, ?_, [], by simp, by simp⟩
  rintro i k ticket records ⟨task, l, hi, hdocument, hstage, hsignal⟩
  refine ⟨task, l, ?_, hdocument, hstage, hsignal⟩
  simp only [tasks_wait, List.getElem?_modify] at hi
  grind

theorem Aloof.remember (ha : w.Aloof w') {e : Event ρ} (he : ∀ u, e ≠ .forgotten u) :
    w.Aloof (w'.remember e) := by
  refine ha.trans ⟨rfl, rfl, fun _ _ => id, fun _ _ _ _ => id, [e], rfl, ?_⟩
  intro u hu
  exact he u (List.mem_singleton.mp hu).symm

theorem aloof_close (t : Nat) (ending : Ending (Outcome ρ)) : w.Aloof (w.close t ending) :=
  (aloof_wait t _).remember (by simp)

theorem Signalled.of_signal {i : Nat} {ticket : Ticket} {ending : Ending (List ρ)}
    (hi : (w.signal t ending).Signalled i k ticket records) :
    w.Signalled i k ticket records ∨
      i = t ∧ ending = .finished records ∧ ∃ l, w.standing? t = some (k, .computing ticket l) := by
  obtain ⟨task, l, hi, hdocument, hstage, hsignal⟩ := hi
  have hstanding := (w.standing?_signal t i ending).symm.trans (standing?_of_getElem? hi)
  simp only [tasks_signal, List.getElem?_modify] at hi
  obtain ⟨was, hwas, heq⟩ := Option.map_eq_some_iff.mp hi
  split at heq
  · rename_i hti
    subst hti heq
    refine .inr ⟨rfl, by simpa using hsignal, l, ?_⟩
    rw [hstanding, ← hdocument, ← hstage]
  · subst heq
    exact .inl ⟨was, l, hwas, hdocument, hstage, hsignal⟩

theorem aloof_signal {t : Nat} {ending : Ending (List ρ)}
    (ht : (∀ k ticket l, w.standing? t ≠ some (k, .computing ticket l)) ∨ ending = .cancelled) :
    w.Aloof (w.signal t ending) := by
  refine ⟨rfl, rfl, ?_, ?_, [], by simp, by simp⟩
  · intro c i hi
    simpa using hi
  · intro i k ticket records hi
    refine hi.of_signal.resolve_right ?_
    rintro ⟨-, rfl, l, hcomputing⟩
    exact ht.elim (fun hnone => hnone k ticket l hcomputing) (by simp)

theorem aloof_releaseLock {l : Nat}
    (hnone : ∀ lock, w.locks[l]? = some lock → ∀ y ∈ lock.waiters, ∀ k ticket l',
      w.standing? y.1 ≠ some (k, .computing ticket l')) : w.Aloof (w.releaseLock l) := by
  rw [releaseLock_eq]
  split
  · rename_i t ht
    obtain ⟨lock, hlock, hr⟩ := Option.bind_eq_some_iff.mp ht
    obtain ⟨x, hx⟩ := Lock.exists_of_mem_release (Lock.woken_of_release hr)
    exact (aloof_locks _).trans (aloof_signal (.inl (hnone lock hlock (t, x) hx)))
  · exact aloof_locks _

theorem Locked.ne_computing (hl : w.Locked) {l : Nat} {lock : Lock} (hlock : w.locks[l]? = some lock)
    {y : Nat × Lock.Waiter} (hy : y ∈ lock.waiters) (k : Nat) (ticket : Ticket) (l' : Nat) :
    w.standing? y.1 ≠ some (k, .computing ticket l') := by
  obtain ⟨k', ticket', hqueued⟩ := hl.waiting l lock hlock y hy
  simp [hqueued]

theorem Locked.aloof_leaveQueue (hl : w.Locked) (t l : Nat) : w.Aloof (w.leaveQueue t l) := by
  obtain ⟨lock, hlock, ⟨-, heq⟩ | ⟨-, heq⟩⟩ | ⟨-, heq⟩ := w.leaveQueue_cases t l <;> rw [heq]
  · exact aloof_locks _
  · refine (aloof_locks _).trans (aloof_releaseLock ?_)
    intro left hleft y hy
    obtain rfl : lock.leave t = left := by simpa [hlock] using hleft
    exact hl.ne_computing hlock (List.mem_filter.mp hy).1
  · exact aloof_of_same rfl rfl (fun _ _ => id) rfl rfl

theorem Locked.aloof_close (hl : w.Locked) (t l : Nat) (ending : Ending (Outcome ρ)) :
    w.Aloof ((w.close t ending).releaseLock l) := by
  refine (World.aloof_close t ending).trans (aloof_releaseLock ?_)
  intro lock hlock y hy k ticket l' hcomputing
  rw [standing?_close] at hcomputing
  split at hcomputing
  · obtain ⟨x, -, hx⟩ := Option.map_eq_some_iff.mp hcomputing
    simp at hx
  · exact hl.ne_computing hlock hy k ticket l' hcomputing

theorem aloof_cancelTask (t : Nat) : w.Aloof (w.cancelTask t).2 := by
  obtain ⟨heq, -⟩ | ⟨-, -, -, ⟨-, heq⟩ | ⟨-, ⟨ticket, l, -, heq⟩ | ⟨-, heq⟩⟩⟩ := w.cancelTask_cases t <;>
    rw [heq]
  · exact aloof_of_same rfl rfl (fun _ _ => id) rfl rfl
  · refine ⟨rfl, rfl, fun _ _ => id, ?_, [], by simp, by simp⟩
    rintro i k ticket records ⟨task', l, hi, hdocument, hstage, hsignal⟩
    simp only [tasks_modifyTask, List.getElem?_modify] at hi
    obtain ⟨was, hwas, hasked⟩ := Option.map_eq_some_iff.mp hi
    refine ⟨was, l, hwas, ?_⟩
    split at hasked <;> subst hasked <;> exact ⟨hdocument, hstage, hsignal⟩
  · exact (aloof_locks _).trans (aloof_signal (.inr rfl))
  · exact aloof_signal (.inr rfl)

theorem aloof_start (errand : Errand) (k : Nat) : w.Aloof (w.start errand k) := by
  refine ⟨rfl, rfl, ?_, ?_, [], by simp [World.start], by simp⟩
  · intro c t ht
    simpa [World.start] using ht
  · rintro t k' ticket records ⟨task, l, ht, hdocument, hstage, hsignal⟩
    refine ⟨task, l, ?_, hdocument, hstage, hsignal⟩
    simp only [World.start, List.getElem?_append] at ht
    grind

theorem Aloof.owner? (ha : w.Aloof w') (horderly : Orderly w'.history) {uri : String}
    (howner : Swatch.owner? uri w.history = some k) : Swatch.owner? uri w'.history = some k := by
  obtain ⟨es, hes, hnone⟩ := ha.history
  rw [hes] at horderly ⊢
  exact owner?_append horderly (hnone uri) howner

/-- While an address keeps its owner, what the cache has for it stays of that document. -/
theorem Stored.of_owner? (hst : w.Stored) (hg : w.Grows w') (hcache : w'.cache = w.cache)
    (howner : ∀ uri k, Swatch.owner? uri w.history = some k → Swatch.owner? uri w'.history = some k) :
    w'.Stored := by
  refine ⟨?_, ?_⟩
  · intro uri version records hheld
    rw [hcache] at hheld
    obtain ⟨k, hk, hfinds⟩ := hst.held uri version records hheld
    exact ⟨k, howner uri k hk, hfinds.grows hg⟩
  · intro uri version c hpending
    rw [hcache] at hpending
    obtain ⟨k, y, hk, hy, hfinding⟩ := hst.pending uri version c hpending
    obtain ⟨y', hy', hbecomes⟩ := hg.computations c y hy
    exact ⟨k, y', howner uri k hk, hy', hfinding.grows hg hbecomes⟩

theorem Stored.aloof (hst : w.Stored) (ha : w.Aloof w') (hg : w.Grows w')
    (horderly : Orderly w'.history) : w'.Stored :=
  hst.of_owner? hg ha.cache fun _ _ => ha.owner? horderly

theorem Course.computing (hcourse : w.Course h w') {ticket : Ticket} {l : Nat}
    (ht : w'.standing? t = some (k, .computing ticket l)) :
    w.standing? t = some (k, .computing ticket l) ∨ ¬w.Late t := by
  have hearly : ∀ s : Stage ρ, w.standing? t = some (k, s) → s.isLate = false → ¬w.Late t := by
    rintro s hs hearly ⟨k', s', hs', hlate⟩
    obtain ⟨-, rfl⟩ := Prod.mk.inj (Option.some.inj (hs.symm.trans hs'))
    simp [hearly] at hlate
  cases hcourse with
  | aside hes hhistory hstanding => exact .inl (hstanding t ▸ ht)
  | start k' hhistory hstanding =>
      rw [hstanding] at ht
      split at ht
      · simp at ht
      · exact .inl ht
  | @move i k' s₁ s₂ es hi hleads hhistory hstanding =>
      rw [hstanding] at ht
      split at ht
      · rename_i hti
        subst hti
        obtain ⟨rfl, rfl⟩ := Prod.mk.inj (Option.some.inj ht)
        cases hleads with
        | acquire => exact .inr (hearly _ hi rfl)
        | wake => exact .inr (hearly _ hi rfl)
      · exact .inl ht

/-- Whoever waits for a computation is told what it has found, as long as no computation is begun or
joined meanwhile. -/
theorem Awaited.course (ha : w.Awaited) (hl : w.Locked) (hcourse : w.Course h w')
    (hg : w.Grows w')
    (hcallers : ∀ (c : Nat) (y' : Computation ρ), w'.computations[c]? = some y' →
      ∃ y : Computation ρ, w.computations[c]? = some y ∧ y'.callers = y.callers)
    (htold : ∀ c t, .tell c t ∈ w'.turns → .tell c t ∈ w.turns ∨
      ∃ y : Computation ρ, w.computations[c]? = some y ∧ t ∈ y.callers)
    (hsignalled : ∀ t k ticket records, w'.Signalled t k ticket records →
      w.Signalled t k ticket records ∨ w.Finds k ticket.version records) : w'.Awaited := by
  refine ⟨?_, ?_, ?_⟩
  · intro c y' t k ticket l hy' ht hcomputing
    obtain ⟨y, hy, hsame⟩ := hcallers c y' hy'
    rw [hsame] at ht
    obtain ⟨y'', hy'', hbecomes⟩ := hg.computations c y hy
    obtain rfl : y' = y'' := Option.some.inj (hy'.symm.trans hy'')
    refine (ha.callers c y t k ticket l hy ht ?_).grows hg hbecomes
    exact (hcourse.computing hcomputing).resolve_right
      fun hearly => hearly (hl.callers y (List.mem_of_getElem? hy) t ht)
  · intro c t ht
    obtain ⟨y, hy, hmem⟩ := (htold c t ht).elim (ha.told c t) id
    obtain ⟨y', hy', hbecomes⟩ := hg.computations c y hy
    exact ⟨y', hy', hbecomes.callers t hmem⟩
  · intro t k ticket records ht
    exact ((hsignalled t k ticket records ht).elim (ha.signalled t k ticket records) id).grows hg

theorem Awaited.aloof (ha : w.Awaited) (hl : w.Locked) (hcourse : w.Course h w')
    (hg : w.Grows w') (haloof : w.Aloof w') : w'.Awaited := by
  refine ha.course hl hcourse hg ?_ ?_ ?_
  · intro c y hy
    rw [haloof.computations] at hy
    exact ⟨y, hy, rfl⟩
  · intro c t ht
    exact .inl (haloof.told c t ht)
  · intro t k ticket records ht
    exact .inl (haloof.signalled t k ticket records ht)

/-! ### What changes the cache and the computations -/

theorem Stored.kept (hst : w.Stored) (hg : w.Grows w') (hcache : w'.cache = w.cache)
    (hhistory : w'.history = w.history) : w'.Stored :=
  hst.of_owner? hg hcache fun _ _ hk => hhistory ▸ hk

theorem Stored.remember (hst : w.Stored) (hg : w.Grows w') {e : Event ρ}
    (hcache : w'.cache = w.cache) (hhistory : w'.history = w.history ++ [e])
    (he : ∀ uri owner?, e.ownerAfter? uri owner? = owner?) : w'.Stored :=
  hst.of_owner? hg hcache fun uri k hk => by rw [hhistory, owner?_append_singleton, he, hk]

theorem Stored.forget (hst : w.Stored) (u : String) : (w.forget u).Stored := by
  have hg : w.Grows (w.forget u) := w.grows_obey (.forget u)
  have howner : ∀ uri k, uri ≠ u → Swatch.owner? uri w.history = some k →
      Swatch.owner? uri (w.forget u).history = some k := by
    intro uri k huri hk
    refine (owner?_append_singleton uri w.history (.forgotten u)).trans ?_
    rw [Event.ownerAfter?, if_neg (Ne.symm huri), hk]
  refine ⟨?_, ?_⟩
  · intro uri version records hheld
    have hheld : (w.cache.delete u).held? uri version = some records := hheld
    rw [Cache.held?_delete] at hheld
    split at hheld
    · simp at hheld
    · obtain ⟨k, hk, hfinds⟩ := hst.held uri version records hheld
      exact ⟨k, howner uri k ‹_› hk, hfinds.grows hg⟩
  · intro uri version c hpending
    have hpending : (w.cache.delete u).pending.get? (uri, version) = some c := hpending
    rw [Cache.pending_delete] at hpending
    split at hpending
    · simp at hpending
    · obtain ⟨k, y, hk, hy, hfinding⟩ := hst.pending uri version c hpending
      exact ⟨k, y, howner uri k ‹_› hk, hy, hfinding.grows hg y.becomes_refl⟩

theorem Stored.obey (hst : w.Stored) (c : Command) : (w.obey c).Stored := by
  have hg := w.grows_obey c
  cases c with
  | edit uri text =>
      simp only [World.obey, World.edit] at hg ⊢
      split at hg
      · exact hst.remember hg rfl rfl fun _ _ => rfl
      · exact hst
  | cancel uri => exact hst.remember hg rfl rfl fun _ _ => rfl
  | forget uri => exact hst.forget uri
  | invalidate =>
      refine ⟨?_, ?_⟩
      · intro uri version records hheld
        have hnone := w.cache.held?_invalidate uri version
        exact absurd (hheld.symm.trans hnone) (by simp)
      · intro uri version c hpending
        obtain ⟨k, y, hk, hy, hfinding⟩ := hst.pending uri version c hpending
        exact ⟨k, y, hk, hy, hfinding.grows hg y.becomes_refl⟩

theorem Stored.hosted (hst : w.Stored) (host : η) (cs : List Command) :
    ({ w with host := host }.obeyAll cs).Stored := by
  have hst' : { w with host := host }.Stored := hst.kept (w.grows_hosted host []) rfl rfl
  generalize { w with host := host } = v at hst'
  induction cs generalizing v with
  | nil => exact hst'
  | cons c cs ih => exact ih (v.obey c) (hst'.obey c)

theorem Stored.lookUp (hst : w.Stored) {s : Stage ρ} {d : Document}
    (ht : w.standing? t = some (k, s)) (hd : w.documents[k]? = some d)
    (howner : Swatch.owner? d.uri w.history = some k) (errand : Errand) :
    (w.lookUp t errand d).2.Stored := by
  have hg := w.grows_lookUp t errand d
  obtain ⟨cache, hheld, hcases⟩ := w.lookUp_cases t errand d
  have hheld' : ∀ uri version records, cache.held? uri version = some records →
      ∃ k', Swatch.owner? uri w.history = some k' ∧ (w.lookUp t errand d).2.Finds k' version records := by
    intro uri version records hrecords
    rw [hheld] at hrecords
    obtain ⟨k', hk', hfinds⟩ := hst.held uri version records hrecords
    exact ⟨k', hk', hfinds.grows hg⟩
  have hpending' : ∀ uri version c, w.cache.pending.get? (uri, version) = some c →
      ∃ (k' : Nat) (y : Computation ρ), Swatch.owner? uri w.history = some k' ∧
        (w.lookUp t errand d).2.computations[c]? = some y ∧
        (w.lookUp t errand d).2.Finding k' version y := by
    intro uri version c hc
    obtain ⟨k', y, hk', hy, hfinding⟩ := hst.pending uri version c hc
    obtain ⟨y', hy', hbecomes⟩ := hg.computations c y hy
    exact ⟨k', y', hk', hy', hfinding.grows hg hbecomes⟩
  obtain ⟨hpending, heq⟩ | ⟨hpending, c, -, heq⟩ | ⟨hpending, heq⟩ := hcases
  · rw [heq] at hheld' hpending' ⊢
    exact ⟨hheld', fun uri version c hc => hpending' uri version c (by rwa [← hpending])⟩
  · rw [heq] at hheld' hpending' ⊢
    exact ⟨hheld', fun uri version c hc => hpending' uri version c (by rwa [← hpending])⟩
  · rw [heq] at hheld' hpending' ⊢
    refine ⟨hheld', ?_⟩
    intro uri version c hget
    have hc : cache.pending.get? (uri, version) = some c := hget
    rw [hpending, Keyed.get?_set] at hc
    split at hc
    · rename_i hkey
      obtain ⟨rfl, rfl⟩ := Prod.mk.inj hkey
      obtain rfl := Option.some.inj hc
      exact ⟨k, ⟨errand, d, t, [t], .queued⟩, howner, by simp,
        ⟨s, ht⟩, ⟨d, hd, d.becomes_refl⟩, rfl⟩
    · exact hpending' uri version c hc

theorem Awaited.lookUp (ha : w.Awaited) (hst : w.Stored) {s : Stage ρ} {d : Document}
    (ht : w.standing? t = some (k, s)) (hd : w.documents[k]? = some d)
    (howner : Swatch.owner? d.uri w.history = some k)
    (hs : ∀ ticket l, s = .computing ticket l → d.version = ticket.version) (errand : Errand) :
    (w.lookUp t errand d).2.Awaited := by
  have hg := w.grows_lookUp t errand d
  have hsame := w.sameTasks_lookUp t errand d
  have hstanding := standing?_of_tasks hsame.tasks
  -- A computation that the task waits for is of the task's document.
  have hnew : ∀ (y : Computation ρ) k' ticket l, (w.lookUp t errand d).2.Finding k d.version y →
      (w.lookUp t errand d).2.standing? t = some (k', .computing ticket l) →
      (w.lookUp t errand d).2.Finding k' ticket.version y := by
    intro y k' ticket l hfinding hcomputing
    rw [hstanding, ht] at hcomputing
    obtain ⟨rfl, hstage⟩ := Prod.mk.inj (Option.some.inj hcomputing)
    rwa [← hs ticket l hstage]
  have hold : ∀ (c : Nat) (y : Computation ρ) i k' ticket l, w.computations[c]? = some y →
      i ∈ y.callers → (w.lookUp t errand d).2.standing? i = some (k', .computing ticket l) →
      ∀ y', y.Becomes y' → (w.lookUp t errand d).2.Finding k' ticket.version y' := by
    intro c y i k' ticket l hy hi hcomputing y' hbecomes
    rw [hstanding] at hcomputing
    exact (ha.callers c y i k' ticket l hy hi hcomputing).grows hg hbecomes
  have htold : ∀ c i, .tell c i ∈ w.turns → ∃ y : Computation ρ,
      (w.lookUp t errand d).2.computations[c]? = some y ∧ i ∈ y.callers := by
    intro c i hi
    obtain ⟨y, hy, hmem⟩ := ha.told c i hi
    obtain ⟨y', hy', hbecomes⟩ := hg.computations c y hy
    exact ⟨y', hy', hbecomes.callers i hmem⟩
  have hsignalled : ∀ i k' ticket records, (w.lookUp t errand d).2.Signalled i k' ticket records →
      (w.lookUp t errand d).2.Finds k' ticket.version records := by
    intro i k' ticket records hi
    rw [Signalled, hsame.tasks] at hi
    exact (ha.signalled i k' ticket records hi).grows hg
  obtain ⟨cache, -, ⟨-, heq⟩ | ⟨-, c, hc, heq⟩ | ⟨-, heq⟩⟩ := w.lookUp_cases t errand d
  · rw [heq] at hold htold hsignalled ⊢
    refine ⟨?_, htold, hsignalled⟩
    intro c y i k' ticket l hy hi hcomputing
    exact hold c y i k' ticket l hy hi hcomputing y y.becomes_refl
  · obtain ⟨k', y, hk', hy, hfinding⟩ := hst.pending d.uri d.version c hc
    obtain rfl : k = k' := Option.some.inj (howner.symm.trans hk')
    have hjoins : y.Becomes { y with callers := y.callers ++ [t] } :=
      ⟨rfl, rfl, fun i hi => List.mem_append_left [t] hi, fun _ => id⟩
    have hfinding' := hfinding.grows hg hjoins
    rw [heq] at hnew hold htold hsignalled hfinding' ⊢
    refine ⟨?_, htold, hsignalled⟩
    intro c' y' i k' ticket l hy' hi hcomputing
    by_cases hcc : c = c'
    · subst hcc
      obtain rfl : { y with callers := y.callers ++ [t] } = y' := by simpa [hy] using hy'
      rcases List.mem_append.mp hi with hi | hi
      · exact hold c y i k' ticket l hy hi hcomputing _ hjoins
      · obtain rfl := List.mem_singleton.mp hi
        exact hnew _ k' ticket l hfinding' hcomputing
    · have hy' : w.computations[c']? = some y' := by simpa [hcc] using hy'
      exact hold c' y' i k' ticket l hy' hi hcomputing y' y'.becomes_refl
  · have hfinding : w.Finding k d.version (⟨errand, d, t, [t], .queued⟩ : Computation ρ) :=
      ⟨⟨s, ht⟩, ⟨d, hd, d.becomes_refl⟩, rfl⟩
    have hfinding' := hfinding.grows hg (Computation.becomes_refl _)
    rw [heq] at hnew hold htold hsignalled hfinding' ⊢
    refine ⟨?_, fun c i hi => htold c i (by simpa using hi), hsignalled⟩
    intro c' y' i k' ticket l hy' hi hcomputing
    simp only [List.getElem?_append] at hy'
    split at hy'
    · exact hold c' y' i k' ticket l hy' hi hcomputing y' y'.becomes_refl
    · obtain rfl := List.mem_singleton.mp (List.mem_of_getElem? hy')
      obtain rfl := List.mem_singleton.mp hi
      exact hnew _ k' ticket l hfinding' hcomputing

theorem Awaited.hosted (ha : w.Awaited) (hl : w.Locked) (host : η) (cs : List Command)
    (hcourse : w.Course h ({ w with host := host }.obeyAll cs)) :
    ({ w with host := host }.obeyAll cs).Awaited := by
  obtain ⟨-, hturns, hcomputations⟩ := obeyAll_frame { w with host := host } cs
  refine ha.course hl hcourse (w.grows_hosted host cs) ?_ ?_ ?_
  · intro c y hy
    rw [hcomputations] at hy
    exact ⟨y, hy, rfl⟩
  · intro c t ht
    rw [hturns] at ht
    exact .inl ht
  · intro t k ticket records ht
    rw [Signalled, tasks_obeyAll] at ht
    exact .inl ht

theorem Awaited.modifyState (h : Host η ρ) (ha : w.Awaited) (hl : w.Locked) {c : Nat}
    {state : Computation.State ρ} {turns : List Turn}
    (hstate : ∀ y : Computation ρ, w.computations[c]? = some y →
      y.Becomes { y with state := state })
    (htold : ∀ c t, .tell c t ∈ turns → .tell c t ∈ w.turns ∨
      ∃ y : Computation ρ, w.computations[c]? = some y ∧ t ∈ y.callers) :
    { w with
      computations := w.computations.modify c fun x => { x with state := state }
      turns := turns }.Awaited := by
  refine ha.course (h := h) hl (.still (fun _ => rfl) rfl) (w.grows_modify c _ _ hstate) ?_ htold ?_
  · intro i y' hy'
    rw [List.getElem?_modify] at hy'
    obtain ⟨y, hy, rfl⟩ := Option.map_eq_some_iff.mp hy'
    refine ⟨y, hy, ?_⟩
    split <;> rfl
  · intro t k ticket records ht
    exact .inl ht

theorem Awaited.endComputation (h : Host η ρ) (ha : w.Awaited) (hl : w.Locked) {c : Nat}
    {x : Computation ρ} (hx : w.computations[c]? = some x) {ending : Ending (List ρ)}
    (hbecomes : x.Becomes { x with state := .ended ending }) :
    (w.endComputation c x.callers ending).Awaited := by
  refine ha.modifyState h hl ?_ ?_
  · intro y hy
    obtain rfl : x = y := Option.some.inj (hx.symm.trans hy)
    exact hbecomes
  · intro c' t ht
    simp only [List.mem_append, List.mem_cons, reduceCtorEq, List.mem_map, Turn.tell.injEq,
      false_or] at ht
    rcases ht with ht | ⟨t', ht', rfl, rfl⟩
    · exact .inl ht
    · exact .inr ⟨x, hx, ht'⟩

theorem Computation.becomes_of_ne {y : Computation ρ} {state : Computation.State ρ}
    (hy : ∀ ending, y.state ≠ .ended ending) : y.Becomes { y with state := state } :=
  ⟨rfl, rfl, fun _ => id, fun ending hending => absurd hending (hy ending)⟩

theorem Awaited.release (h : Host η ρ) (ha : w.Awaited) (hl : w.Locked) (c : Nat)
    (ending : Ending (List ρ)) : (w.release c ending).2.Awaited := by
  obtain ⟨records, hheld, heq⟩ | heq := w.release_cases c ending <;> rw [heq]
  · refine ha.modifyState h hl ?_ ?_
    · intro y hy
      refine Computation.becomes_of_ne ?_
      simp_all [state?]
    · intro c' t ht
      exact .inl (by simpa using ht)
  · exact ha

theorem Awaited.finishComputation (h : Host η ρ) (ha : w.Awaited) (hl : w.Locked) (c : Nat) :
    (w.finishComputation c).Awaited := by
  obtain ⟨x, ending, hx, hstate, heq⟩ | ⟨heq, -⟩ := w.finishComputation_cases c <;> rw [heq]
  · exact ha.endComputation h hl hx (Computation.becomes_of_ne (by simp [hstate]))
  · exact ha

theorem Awaited.tellTask (ha : w.Awaited) (hl : w.Locked) {c t : Nat}
    (hcourse : w.Course h (w.tellTask c t)) (hg : w.Grows (w.tellTask c t))
    (hturn : .tell c t ∈ w.turns) : (w.tellTask c t).Awaited := by
  have hbooks := w.sameBooks_tellTask c t
  refine ha.course hl hcourse hg ?_ ?_ ?_
  · intro i y hy
    rw [hbooks.computations] at hy
    exact ⟨y, hy, rfl⟩
  · intro c' t' ht
    rcases w.turns_tellTask c t with heq | heq <;> exact .inl (by simpa [heq] using ht)
  · intro i k ticket records hi
    obtain ⟨y, hy, hmem⟩ := ha.told c t hturn
    obtain ⟨ending, -, hended, -, -, -, heq⟩ | ⟨heq, -⟩ := w.tellTask_cases c t <;> rw [heq] at hi
    · refine hi.of_signal.imp_right ?_
      rintro ⟨-, rfl, l, hcomputing⟩
      refine ⟨c, y, hy, ha.callers c y t k ticket l hy hmem hcomputing, ?_⟩
      simpa [state?, hy] using hended
    · exact .inl hi

theorem Stored.settle (hst : w.Stored) (c : Nat) : (w.settleComputation c).Stored := by
  have hg := w.grows_settleComputation c
  obtain ⟨x, ending, hx, hstate, heq⟩ | ⟨heq, -⟩ := w.settleComputation_cases c <;> rw [heq] at hg ⊢
  · refine ⟨?_, ?_⟩
    · intro uri version records hheld
      rcases Cache.held?_settle hheld with hheld | ⟨rfl, rfl, rfl, hpending, -⟩
      · obtain ⟨k, hk, hfinds⟩ := hst.held uri version records hheld
        exact ⟨k, hk, hfinds.grows hg⟩
      · obtain ⟨k, y, hk, hy, hfinding⟩ := hst.pending _ _ c hpending
        obtain rfl : x = y := Option.some.inj (hx.symm.trans hy)
        have hfinds : w.Finds k x.document.version records := ⟨c, x, hx, hfinding, hstate⟩
        exact ⟨k, hk, hfinds.grows hg⟩
    · intro uri version c' hpending
      obtain ⟨k, y, hk, hy, hfinding⟩ := hst.pending uri version c' (Cache.pending_settle hpending)
      exact ⟨k, y, hk, hy, hfinding.grows hg y.becomes_refl⟩
  · exact hst

/-- Where the records of all chunks come from, at any time. -/
structure Sourced (h : Host η ρ) (w : World η ρ) : Prop where
  stored : w.Stored
  awaited : w.Awaited
  delivered : w.Delivered h

theorem Course.exists_history (hcourse : w.Course h w') : ∃ es, w'.history = w.history ++ es := by
  cases hcourse with
  | aside hes hhistory hstanding => exact ⟨_, hhistory⟩
  | start k hhistory hstanding => exact ⟨[], by simp [hhistory]⟩
  | move ht hleads hhistory hstanding => exact ⟨_, hhistory⟩

theorem Course.orderly (hcourse : w.Course h w') (horderly : Orderly w'.history) :
    Orderly w.history := by
  obtain ⟨es, hes⟩ := hcourse.exists_history
  rw [hes] at horderly
  exact horderly.of_append

-- The address of a detection belongs to its document as soon as it has begun, which is before the
-- records are looked up.
theorem Sourced.ask (hq : w.Sourced h) (hl : w.Locked) {v : World η ρ} {t : Nat} {task : Task ρ}
    {d : Document} (ht : w.tasks[t]? = some task) (hd : w.documents[task.document]? = some d)
    (hs : task.stage = .starting)
    (hv : v = (w.wait t .detecting).remember (.asked t task.document d.uri))
    (horderly : Orderly v.history) :
    (v.lookUp t .detection d).2.Stored ∧ (v.lookUp t .detection d).2.Awaited := by
  have hasking : w.Course h v := by
    subst hv
    exact .of_wait (hs ▸ standing?_of_getElem? ht) (.ask hd) rfl fun _ => rfl
  have haloof : w.Aloof v := by
    subst hv
    exact (aloof_wait ..).remember (by simp)
  have hg : w.Grows v := by
    subst hv
    exact hasking.grows_of_eq rfl rfl
  have hstanding : v.standing? t = some (task.document, .detecting) := by
    subst hv
    simp [standing?_of_getElem? ht]
  have howner : Swatch.owner? d.uri v.history = some task.document := by
    subst hv
    exact (owner?_append_singleton ..).trans (if_pos rfl)
  have hd' : v.documents[task.document]? = some d := by
    subst hv
    exact hd
  have hstored := hq.stored.aloof haloof hg horderly
  have hawaited := hq.awaited.aloof hl hasking hg haloof
  exact ⟨hstored.lookUp hstanding hd' howner _,
    hawaited.lookUp hstored hstanding hd' howner (by simp) _⟩

theorem Sourced.step (hq : w.Sourced h) (hr : w.Ruled) (horderly : Orderly w'.history)
    {free : Bool} (hs : Step h free w w') : w'.Sourced h := by
  have hcourse := hs.course
  have hg := hs.grows
  have horderly' := hcourse.orderly horderly
  have hdelivered := hq.delivered.course hq.stored hq.awaited hr.numbered horderly' hcourse hg
  have hl := hr.locked
  have haloof : w.Aloof w' → w'.Sourced h := fun ha =>
    ⟨hq.stored.aloof ha hg horderly, hq.awaited.aloof hl hcourse hg ha, hdelivered⟩
  cases hs with
  | pass turns timers clock ended hturns => exact haloof (aloof_of_same rfl rfl hturns rfl rfl)
  | openDocument d => exact haloof (aloof_of_same rfl rfl (fun _ _ => id) rfl rfl)
  | editAt i text =>
      exact haloof
        ⟨rfl, rfl, fun _ _ => id, fun _ _ _ _ => id, [.edited i], rfl, by simp⟩
  | start errand k => exact haloof (aloof_start errand k)
  | cancelTask t => exact haloof (aloof_cancelTask t)
  | nudge ht hs =>
      refine haloof (aloof_signal (.inl ?_))
      intro k ticket l hcomputing
      obtain ⟨-, hstage⟩ :=
        Prod.mk.inj (Option.some.inj ((standing?_of_getElem? ht).symm.trans hcomputing))
      simp [hstage, Stage.isAsleep, Stage.isApplying] at hs
  | @close t task ht hs ending => exact haloof (aloof_close t ending)
  | answer => exact haloof (aloof_wait ..)
  | @draw t task d ht hd hs =>
      have hdrawn : w.Aloof { w with scheduler := w.scheduler.draw d.uri } :=
        aloof_of_same rfl rfl (fun _ _ => id) rfl rfl
      exact haloof ((hdrawn.trans (aloof_wait ..)).remember (by simp))
  | makeLock => exact haloof (aloof_of_same rfl rfl (fun _ _ => id) rfl rfl)
  | acquire => exact haloof ((aloof_locks _).trans (aloof_wait ..))
  | queue => exact haloof ((aloof_locks _).trans (aloof_wait ..))
  | wake => exact haloof ((aloof_locks _).trans (aloof_wait ..))
  | @quit t task l ht hs ending => exact haloof (hl.aloof_close t l ending)
  | @leave t task ticket l ht hs hasked =>
      exact haloof ((hl.aloof_leaveQueue t l).trans (aloof_close t .cancelled))
  | hand => exact haloof ((aloof_wait ..).remember (by simp))
  | revisit => exact haloof (aloof_wait ..)
  | taken => exact haloof ((aloof_wait ..).remember (by simp))
  | @last t task ticket l delivery count ht hs ending ending' =>
      have htaken : ((w.wait t (.pausing ticket l (afterChunk h delivery))).remember
          (.taken t ending)).Locked :=
        (hl.wait_of_held (standing?_of_getElem? ht) (by rw [hs]; rfl) (fun _ => rfl)
          (fun _ hs' => by rw [hs]; exact hs')).remember _
      exact haloof (((aloof_wait ..).remember (by simp)).trans (htaken.aloof_close t l ending'))
  | obey c =>
      exact ⟨hq.stored.obey c, hq.awaited.hosted hl w.host [c] hcourse, hdelivered⟩
  | @hosted host commands hhost =>
      exact ⟨hq.stored.hosted host commands, hq.awaited.hosted hl host commands hcourse, hdelivered⟩
  | release c ending =>
      have hsame := w.sameTasks_release c ending
      exact ⟨hq.stored.kept hg (w.release_frame c ending).1 hsame.history,
        hq.awaited.release h hl c ending, hdelivered⟩
  | finish c =>
      have hsame := w.sameTasks_finishComputation c
      exact ⟨hq.stored.kept hg (w.finishComputation_frame c).1 hsame.history,
        hq.awaited.finishComputation h hl c, hdelivered⟩
  | @tell c t hturn =>
      have hbooks := w.sameBooks_tellTask c t
      exact ⟨hq.stored.kept hg hbooks.cache hbooks.history,
        hq.awaited.tellTask hl hcourse hg hturn, hdelivered⟩
  | @ask t task d ht hd hs =>
      have hsame := sameTasks_lookUp
        ((w.wait t .detecting).remember (.asked t task.document d.uri)) t .detection d
      obtain ⟨hstored, hawaited⟩ := hq.ask hl ht hd hs rfl (hsame.history ▸ horderly)
      exact ⟨hstored, hawaited, hdelivered⟩
  | @lookUp t task d ticket l ht hd hs hv =>
      have hstanding := standing?_of_getElem? ht
      obtain ⟨hversion, hc⟩ := verdict?_eq_none.mp hv
      have howner := hr.numbered.owner? horderly' hstanding (by rw [hs]; rfl) hd hc
      refine ⟨hq.stored.lookUp hstanding hd howner _,
        hq.awaited.lookUp hq.stored hstanding hd howner ?_ _, hdelivered⟩
      intro ticket' l' hcomputing
      obtain ⟨rfl, -⟩ := Stage.computing.inj (hs.symm.trans hcomputing)
      exact hversion

theorem Sourced.begin (hq : w.Sourced h) (hr : w.Ruled)
    (horderly : Orderly (w.beginComputation h c).history) : (w.beginComputation h c).Sourced h := by
  have hcourse : w.Course h (w.beginComputation h c) := course_beginComputation c
  have hg : w.Grows (w.beginComputation h c) := w.grows_beginComputation c
  have hdelivered := hq.delivered.course hq.stored hq.awaited hr.numbered
    (hcourse.orderly horderly) hcourse hg
  obtain heq | ⟨x, host, commands, hx, hqueued, hcases⟩ := w.beginComputation_cases h c
  · rwa [heq]
  have hst := hq.stored.hosted host commands
  have hl := hr.locked.obeyAll host commands
  obtain ⟨es, hes, hhistory⟩ := course_obeyAll { w with host := host } commands
  have ha := hq.awaited.hosted (h := h) hr.locked host commands
    (.aside hes hhistory (standing?_of_tasks (tasks_obeyAll ..)))
  have hx' : ({ w with host := host }.obeyAll commands).computations[c]? = some x := by
    rwa [(obeyAll_frame ..).2.2]
  have hbecomes : ∀ state, x.Becomes { x with state := state } := fun state =>
    Computation.becomes_of_ne (by simp [hqueued])
  obtain ⟨ending, -, heq⟩ | ⟨records, -, heq⟩ := hcases
  · rw [heq] at hdelivered ⊢
    refine ⟨hst.kept (grows_modify _ c _ _ ?_) rfl rfl, ha.endComputation h hl hx' (hbecomes _),
      hdelivered⟩
    intro y hy
    obtain rfl : x = y := Option.some.inj (hx'.symm.trans hy)
    exact hbecomes _
  · rw [heq] at hdelivered ⊢
    have hheld : ∀ y : Computation ρ,
        ({ w with host := host }.obeyAll commands).computations[c]? = some y →
          y.Becomes { y with state := .held records } := by
      intro y hy
      obtain rfl : x = y := Option.some.inj (hx'.symm.trans hy)
      exact hbecomes _
    exact ⟨hst.kept (grows_modify _ c _ _ hheld) rfl rfl,
      ha.modifyState h hl hheld fun _ _ => .inl, hdelivered⟩

theorem Sourced.settle (hq : w.Sourced h) (hr : w.Ruled)
    (horderly : Orderly (w.settleComputation c).history) : (w.settleComputation c).Sourced h := by
  have hcourse : w.Course h (w.settleComputation c) := course_settleComputation c
  have hg := w.grows_settleComputation c
  have hsame := w.sameTasks_settleComputation c
  obtain ⟨hcomputations, hturns, -⟩ := w.settleComputation_frame c
  refine ⟨hq.stored.settle c, ?_, hq.delivered.course hq.stored hq.awaited hr.numbered
    (hcourse.orderly horderly) hcourse hg⟩
  refine hq.awaited.course hr.locked hcourse hg ?_ ?_ ?_
  · intro i y hy
    rw [hcomputations] at hy
    exact ⟨y, hy, rfl⟩
  · intro c' t ht
    rw [hturns] at ht
    exact .inl ht
  · intro t k ticket records ht
    rw [Signalled, hsame.tasks] at ht
    exact .inl ht

end World

end Swatch

import Swatch.Proofs.Refresh.Sequence

/-!
How refreshes end. A refresh gives way only to what has happened since it began: to an edit of its
document, or to what takes the last number of the address from it. Main statement: a refresh that
nothing follows hands on all that it found, and a consumer has just that from then on.
-/

namespace Swatch

open World

variable {η ρ : Type}

/-- What takes the last number of an address from the refresh that drew it. -/
def Event.Supersedes (e : Event ρ) (uri : String) : Prop :=
  match e with
  | .cancelled u | .forgotten u | .drawn _ _ u _ => u = uri
  | _ => False

theorem Event.Supersedes.voids {e : Event ρ} {uri : String} (he : e.Supersedes uri) (k : Nat) :
    e.Voids k uri := by
  cases e <;> simp_all [Supersedes, Voids]

/-- A refresh has handed on all that it found, and its last chunk is the last one at the address. -/
structure IsHandedOn (h : Host η ρ) (past : List (Event ρ)) (t : Nat) (uri : String)
    (records : List ρ) (y : Handover ρ) (since : List (Event ρ)) : Prop where
  latest : IsLatest y since past
  uri : y.uri = uri
  task : y.task = t
  records : y.delivery.records = records
  done : y.delivery.records.length ≤ (y.index + 1) * h.chunkSize
  taken : endingOf? t since = some (.finished ())

/-- The outcome of a refresh is the due one after what has happened. -/
structure Outcome.IsDue (h : Host η ρ) (past : List (Event ρ)) (t : Nat) (d? : Option Document)
    (o : Outcome ρ) : Prop where
  stale : o.status = .stale → ∃ before k d ticket after,
    past = before ++ .drawn t k d.uri ticket :: after ∧ d? = some d ∧ ticket.version = o.version ∧
      d.version ≠ o.version
  superseded : o.status = .superseded → ∃ before k uri ticket after,
    past = before ++ .drawn t k uri ticket :: after ∧ ticket.version = o.version ∧
      ∃ e ∈ after, e.Supersedes uri
  kept : ∀ before k uri ticket after, past = before ++ .drawn t k uri ticket :: after →
    (∀ e ∈ after, ¬e.Voids k uri) →
    o.status = .applied ∧ ticket.version = o.version ∧
      ∃ y since, IsHandedOn h past t uri o.records y since

def AllDue (h : Host η ρ) (history : List (Event ρ)) : Prop :=
  ∀ past t o d? future, history = past ++ .returned t (.finished o) d? :: future →
    o.IsDue h past t d?

variable {h : Host η ρ}

theorem AllDue.append {history es : List (Event ρ)} (hd : AllDue h history)
    (hes : ∀ t ending d?, .returned t ending d? ∉ es) : AllDue h (history ++ es) := by
  intro past t o d? future hpast
  obtain ⟨future', hpast', -⟩ := exists_split_of_append (hes t _ d?) hpast
  exact hd past t o d? future' hpast'

theorem AllDue.returned {history : List (Event ρ)} (hd : AllDue h history) {t : Nat}
    {ending : Ending (Outcome ρ)} {d? : Option Document}
    (hdue : ∀ o, ending = .finished o → o.IsDue h history t d?) :
    AllDue h (history ++ [.returned t ending d?]) := by
  intro past t' o d?' future hpast
  rcases exists_split_or_eq_of_concat hpast with ⟨future', hpast', -⟩ | ⟨rfl, heq⟩
  · exact hd past t' o d?' future' hpast'
  · simp only [Event.returned.injEq] at heq
    obtain ⟨rfl, rfl, rfl⟩ := heq
    exact hdue o rfl

namespace World

variable {w w' : World η ρ}

/-! ### What is in the way of a refresh has happened since it began -/

/-- A refresh of a document has begun, and if its number is not the last one any more or the version
is another one, that comes of what has happened since. -/
def Minds (w : World η ρ) (t k : Nat) (d : Document) (ticket : Ticket) : Prop :=
  ∃ before after, w.history = before ++ .drawn t k d.uri ticket :: after ∧
    (w.scheduler.isCurrent d.uri ticket.generation = false → ∃ e ∈ after, e.Supersedes d.uri) ∧
    (d.version ≠ ticket.version → .edited k ∈ after)

def AllMind (w : World η ρ) : Prop :=
  ∀ t k stage ticket, w.standing? t = some (k, stage) → stage.ticket? = some ticket →
    ∃ d, w.documents[k]? = some d ∧ w.Minds t k d ticket

theorem Minds.append {t k : Nat} {d d' : Document} {ticket : Ticket} {es : List (Event ρ)}
    (hm : w.Minds t k d ticket) (hhistory : w'.history = w.history ++ es)
    (hcurrent : (∀ e ∈ es, ¬e.Supersedes d.uri) →
      w'.scheduler.isCurrent d.uri ticket.generation =
        w.scheduler.isCurrent d.uri ticket.generation)
    (huri : d'.uri = d.uri) (hversion : .edited k ∉ es → d'.version = d.version) :
    w'.Minds t k d' ticket := by
  obtain ⟨before, after, hpast, hsuperseded, hedited⟩ := hm
  refine ⟨before, after ++ es, by simp [hhistory, hpast, huri], fun hc => ?_, fun hv => ?_⟩
  · by_cases hes : ∃ e ∈ es, e.Supersedes d.uri
    · obtain ⟨e, he, hsupersedes⟩ := hes
      exact ⟨e, List.mem_append_right after he, huri ▸ hsupersedes⟩
    · rw [huri, hcurrent fun e he hsupersedes => hes ⟨e, he, hsupersedes⟩] at hc
      obtain ⟨e, he, hsupersedes⟩ := hsuperseded hc
      exact ⟨e, List.mem_append_left es he, huri ▸ hsupersedes⟩
  · by_cases he : .edited k ∈ es
    · exact List.mem_append_right after he
    · exact List.mem_append_left es (hedited (hversion he ▸ hv))

theorem allMind_initial (host : η) : (initial host : World η ρ).AllMind := by
  simp [AllMind, initial, standing?]

theorem AllMind.quiet (hm : w.AllMind) (hq : w.Quiet w') : w'.AllMind := by
  intro t k stage ticket ht hk
  obtain ⟨es, hhistory, -⟩ := hq.history
  obtain ⟨stage', ht', hk'⟩ := hq.ticket t k stage ticket ht hk
  obtain ⟨d, hd, hminds⟩ := hm t k stage' ticket ht' hk'
  refine ⟨d, hq.documents ▸ hd, hminds.append hhistory (fun _ => ?_) rfl fun _ => rfl⟩
  rw [Scheduler.isCurrent, Scheduler.isCurrent, hq.generations]

/-- One more event that neither changes documents nor numbers. -/
theorem AllMind.remember (hm : w.AllMind) (e : Event ρ) : (w.remember e).AllMind := by
  intro t k stage ticket ht hk
  obtain ⟨d, hd, hminds⟩ := hm t k stage ticket ht hk
  exact ⟨d, hd, hminds.append rfl (fun _ => rfl) rfl fun _ => rfl⟩

theorem AllMind.openDocument (hm : w.AllMind) (d : Document) : (w.openDocument d).AllMind := by
  intro t k stage ticket ht hk
  obtain ⟨d', hd, hminds⟩ := hm t k stage ticket ht hk
  have hlt := (List.getElem?_eq_some_iff.mp hd).1
  exact ⟨d', by rw [World.openDocument, List.getElem?_append_left hlt, hd], hminds⟩

theorem AllMind.editAt (hm : w.AllMind) (k : Nat) (text : String) : (w.editAt k text).AllMind := by
  intro t k' stage ticket ht hk
  obtain ⟨d, hd, hminds⟩ := hm t k' stage ticket ht hk
  by_cases hkk : k = k'
  · refine ⟨d.edit text, by simp [World.editAt, World.remember, hkk, hd], ?_⟩
    exact hminds.append rfl (fun _ => rfl) rfl fun he => absurd (by simp [hkk]) he
  · refine ⟨d, by simp [World.editAt, World.remember, hkk, hd], ?_⟩
    exact hminds.append rfl (fun _ => rfl) rfl fun _ => rfl

/-- An event that concerns the number of one address, where documents and tasks stay. -/
theorem AllMind.renumber (hm : w.AllMind) {u : String} {e : Event ρ} (he : e.Supersedes u)
    (hstanding : ∀ t, w'.standing? t = w.standing? t) (hdocuments : w'.documents = w.documents)
    (hhistory : w'.history = w.history ++ [e])
    (hgenerations : ∀ uri, uri ≠ u →
      w'.scheduler.generations.get? uri = w.scheduler.generations.get? uri) : w'.AllMind := by
  intro t k stage ticket ht hk
  obtain ⟨d, hd, hminds⟩ := hm t k stage ticket (by rw [← hstanding, ht]) hk
  refine ⟨d, hdocuments ▸ hd, hminds.append hhistory (fun hes => ?_) rfl fun _ => rfl⟩
  have hne : d.uri ≠ u := fun heq => hes e (by simp) (heq ▸ he)
  rw [Scheduler.isCurrent, Scheduler.isCurrent, hgenerations _ hne]

theorem AllMind.obey (hm : w.AllMind) (c : Command) : (w.obey c).AllMind := by
  cases c with
  | edit uri text =>
      rw [World.obey, World.edit]
      split
      · exact hm.editAt _ text
      · exact hm
  | cancel u =>
      refine hm.renumber (u := u) (e := .cancelled u) rfl (fun _ => rfl) rfl rfl fun uri hne => ?_
      simp only [World.obey, World.cancel, World.remember, Scheduler.cancel]
      split
      · rw [Scheduler.draw, Keyed.get?_set, if_neg hne]
      · rfl
  | forget u =>
      refine hm.renumber (u := u) (e := .forgotten u) rfl (fun _ => rfl) rfl rfl fun uri hne => ?_
      rw [World.obey, (w.generations_forget u).1, Keyed.get?_erase, if_neg hne]
  | invalidate => exact hm

theorem AllMind.obeyAll (hm : w.AllMind) (cs : List Command) : (w.obeyAll cs).AllMind := by
  induction cs generalizing w with
  | nil => exact hm
  | cons c cs ih => exact ih (hm.obey c)

theorem AllMind.draw (hm : w.AllMind) {t k : Nat} {stage : Stage ρ} {d : Document}
    (ht : w.standing? t = some (k, stage)) (hd : w.documents[k]? = some d) :
    (({ w with scheduler := w.scheduler.draw d.uri }.wait t
      (.debouncing ⟨d.version, w.scheduler.next⟩)).remember
        (.drawn t k d.uri ⟨d.version, w.scheduler.next⟩)).AllMind := by
  intro i k' stage' ticket hi hk
  rw [standing?_remember, standing?_wait] at hi
  split at hi
  · rename_i hit
    subst hit
    obtain ⟨rfl, rfl⟩ : k = k' ∧ .debouncing ⟨d.version, w.scheduler.next⟩ = stage' := by
      simpa using (congrArg (Option.map _) ht).symm.trans hi
    obtain rfl : ⟨d.version, w.scheduler.next⟩ = ticket := by simpa [Stage.ticket?] using hk
    refine ⟨d, hd, w.history, [], rfl, fun hc => ?_, fun hv => absurd rfl hv⟩
    simp [World.remember, Scheduler.isCurrent, Scheduler.draw] at hc
  · obtain ⟨d', hd', hminds⟩ := hm i k' stage' ticket hi hk
    refine ⟨d', hd', hminds.append rfl (fun hes => ?_) rfl fun _ => rfl⟩
    have hne : d'.uri ≠ d.uri := fun heq => (hes _ (List.mem_singleton_self _)) heq.symm
    simp only [World.remember, scheduler_wait, Scheduler.isCurrent, Scheduler.draw, Keyed.get?_set, if_neg hne]

theorem AllMind.stirs (hm : w.AllMind) (hs : w.Stirs h w') : w'.AllMind := by
  cases hs with
  | openDocument d => exact hm.openDocument d
  | editAt k text => exact hm.editAt k text
  | obeyAll host commands =>
      have hm' : { w with host := host }.AllMind := hm
      exact hm'.obeyAll commands
  | draw ht hd hs => exact hm.draw (standing?_of_getElem? ht) hd
  | @hand t task d ticket l delivery ht hd hv hk =>
      have hq : w.Quiet (w.wait t (.applying ticket l delivery 0)) :=
        quiet_wait (standing?_of_getElem? ht) (.inr hk.symm)
      exact (hm.quiet hq).remember _

theorem AllMind.step (hm : w.AllMind) {free : Bool} (hs : Step h free w w') : w'.AllMind :=
  hs.quiet_or_stirs.elim hm.quiet hm.stirs

theorem AllMind.begin (hm : w.AllMind) (c : Nat) : (w.beginComputation h c).AllMind := by
  obtain ⟨host, commands, hsame⟩ := w.sameTasks_beginComputation h c
  have hm' : { w with host := host }.AllMind := hm
  exact (hm'.obeyAll commands).quiet hsame.quiet

theorem AllMind.settle (hm : w.AllMind) (c : Nat) : (w.settleComputation c).AllMind :=
  hm.quiet (w.sameTasks_settleComputation c).quiet

/-! ### How a refresh ends is due -/

theorem mem_and_eq_of_splits {α : Type} {xs ys xs' ys' : List α} {a a' : α}
    (heq : xs ++ a :: ys = xs' ++ a' :: ys') :
    a' ∈ ys ∨ a ∈ ys' ∨ xs = xs' ∧ a = a' ∧ ys = ys' := by
  rcases List.append_eq_append_iff.mp heq with ⟨as, rfl, has⟩ | ⟨as, rfl, has⟩
  · cases as with
    | nil => exact .inr (.inr (by simpa using has))
    | cons b as =>
        obtain ⟨rfl, rfl⟩ := List.cons.inj has
        exact .inl (by simp)
  · cases as with
    | nil => exact .inr (.inr (by simpa [eq_comm] using has))
    | cons b as =>
        obtain ⟨rfl, rfl⟩ := List.cons.inj has
        exact .inr (.inl (by simp))

def Drawers (history : List (Event ρ)) : Prop :=
  history.Pairwise fun e e' => ∀ t, e.drawer? = some t → e'.drawer? ≠ some t

theorem DrawnOnce.append (hd : w.DrawnOnce) {es : List (Event ρ)}
    (hes : ∀ e ∈ es, e.drawer? = none) : Drawers (w.history ++ es) := by
  refine List.pairwise_append.mpr ⟨hd.once, ?_, fun e _ e' he' i _ => by simp [hes e' he']⟩
  exact List.pairwise_of_forall_mem_list fun e he e' _ i => by simp [hes e he]

section Due

variable {t k : Nat} {d : Document} {ticket : Ticket} {es : List (Event ρ)}

/-- The draw of a refresh is the one that its ticket is from. -/
theorem Minds.of_split (hm : w.Minds t k d ticket) (honce : Drawers (w.history ++ es))
    {before after : List (Event ρ)} {k' : Nat} {uri : String} {ticket' : Ticket}
    (hsplit : w.history ++ es = before ++ .drawn t k' uri ticket' :: after) :
    (k' = k ∧ uri = d.uri ∧ ticket' = ticket) ∧
      (w.scheduler.isCurrent d.uri ticket.generation = false → ∃ e ∈ after, e.Supersedes d.uri) ∧
      (d.version ≠ ticket.version → .edited k ∈ after) := by
  obtain ⟨before', after', hhistory, hsuperseded, hedited⟩ := hm
  have hsplit' : before' ++ .drawn t k d.uri ticket :: (after' ++ es) =
      before ++ .drawn t k' uri ticket' :: after := by simpa [hhistory] using hsplit
  have honce' : Drawers (before' ++ .drawn t k d.uri ticket :: (after' ++ es)) := by
    simpa [hhistory] using honce
  obtain ⟨-, hdrawn, rfl⟩ := split_unique_of_pairwise honce' hsplit'
    (fun hne => hne t rfl rfl) fun hne => hne t rfl rfl
  simp only [Event.drawn.injEq, true_and] at hdrawn
  obtain ⟨rfl, rfl, rfl⟩ := hdrawn
  refine ⟨⟨rfl, rfl, rfl⟩, fun hc => ?_, fun hv => List.mem_append_left es (hedited hv)⟩
  obtain ⟨e, he, hsupersedes⟩ := hsuperseded hc
  exact ⟨e, List.mem_append_left es he, hsupersedes⟩

/-- A refresh that gives way does so as is due. -/
theorem Minds.isDue (hm : w.Minds t k d ticket) (hd : w.documents[k]? = some d)
    (honce : Drawers (w.history ++ es)) {o : Outcome ρ} (hversion : ticket.version = o.version)
    (hstatus : o.status = .stale ∧ d.version ≠ ticket.version ∨
      o.status = .superseded ∧ w.scheduler.isCurrent d.uri ticket.generation = false) :
    o.IsDue h (w.history ++ es) t w.documents[k]? := by
  obtain ⟨before, after, hhistory, hsuperseded, hedited⟩ := id hm
  have hsplit : w.history ++ es = before ++ .drawn t k d.uri ticket :: (after ++ es) := by
    simp [hhistory]
  refine ⟨fun hstale => ?_, fun hlate => ?_, fun before' k' uri ticket' after' hsplit' hvoid => ?_⟩
  · rcases hstatus with ⟨-, hne⟩ | ⟨heq, -⟩
    · exact ⟨before, k, d, ticket, after ++ es, hsplit, hd, hversion, hversion ▸ hne⟩
    · simp [heq] at hstale
  · rcases hstatus with ⟨heq, -⟩ | ⟨-, hc⟩
    · simp [heq] at hlate
    · obtain ⟨e, he, hsupersedes⟩ := hsuperseded hc
      exact ⟨before, k, d.uri, ticket, after ++ es, hsplit, hversion, e,
        List.mem_append_left es he, hsupersedes⟩
  · obtain ⟨⟨rfl, rfl, rfl⟩, hsuperseded', hedited'⟩ := hm.of_split honce hsplit'
    rcases hstatus with ⟨-, hne⟩ | ⟨-, hc⟩
    · exact absurd rfl (hvoid _ (hedited' hne))
    · obtain ⟨e, he, hsupersedes⟩ := hsuperseded' hc
      exact absurd (hsupersedes.voids k') (hvoid e he)

theorem verdict?_eq_some {status : Status} (hv : w.verdict? d ticket = some status) :
    status = .stale ∧ d.version ≠ ticket.version ∨
      status = .superseded ∧ w.scheduler.isCurrent d.uri ticket.generation = false := by
  simp only [verdict?] at hv
  split at hv
  · exact .inl ⟨by simpa using hv.symm, ‹_›⟩
  · split at hv
    · exact .inr ⟨by simpa using hv.symm, by simp_all⟩
    · simp at hv

/-- A refresh that comes to its end by itself ends as is due. If it is done with its last chunk, all
that it found has been handed on. -/
theorem Concludes.isDue {s : Stage ρ} {o : Outcome ρ} (hends : w.Concludes h k s (.finished o))
    (ht : w.standing? t = some (k, s)) (hm : w.AllMind) (hd : w.DrawnOnce)
    (hes : ∀ e ∈ es, e.drawer? = none)
    (happlying : ∀ ticket l delivery count, s = .applying ticket l delivery count →
      delivery.records.length ≤ (delivery.index + 1) * h.chunkSize → ∀ u, w.uri? k = some u →
        ∃ y since, IsHandedOn h (w.history ++ es) t u delivery.records y since) :
    o.IsDue h (w.history ++ es) t w.documents[k]? := by
  have honce := hd.append hes
  cases hends with
  | skipped hd' hskip =>
      -- One who has not begun has drawn nothing.
      refine ⟨by simp, by simp, fun before k' uri ticket after hsplit _ => ?_⟩
      have hmem : .drawn t k' uri ticket ∈ w.history ++ es := by simp [hsplit]
      rcases List.mem_append.mp hmem with hmem | hmem
      · exact absurd rfl (hd.fresh t (.inr ⟨k, ht⟩) _ hmem)
      · exact absurd (hes _ hmem) (by simp [Event.drawer?])
  | @superseded d ticket hd' hc =>
      obtain ⟨d', hd'', hminds⟩ := hm t k _ ticket ht rfl
      obtain rfl : d = d' := Option.some.inj (hd'.symm.trans hd'')
      exact hminds.isDue hd' honce rfl (.inr ⟨rfl, hc⟩)
  | @stopped d _ ticket status records applied hd' hs hv =>
      obtain ⟨d', hd'', hminds⟩ := hm t k _ ticket ht hs
      obtain rfl : d = d' := Option.some.inj (hd'.symm.trans hd'')
      exact hminds.isDue hd' honce rfl (verdict?_eq_some hv)
  | @applied delivery hdone ticket l count =>
      obtain ⟨d, hd', hminds⟩ := hm t k _ ticket ht rfl
      refine ⟨by simp, by simp, fun before k' uri ticket' after hsplit _ => ?_⟩
      obtain ⟨⟨rfl, rfl, rfl⟩, -⟩ := hminds.of_split honce hsplit
      exact ⟨rfl, rfl, happlying _ _ _ _ rfl hdone _ (by simp [World.uri?, hd'])⟩

end Due

theorem Course.allDue (hcourse : w.Course h w') (hdue : AllDue h w.history) (hm : w.AllMind)
    (hd : w.DrawnOnce) (hq : w.Sequenced h) : AllDue h w'.history := by
  cases hcourse with
  | aside hes hhistory hstanding =>
      exact hhistory ▸ hdue.append fun t ending d? he => by simpa [Event.isAside] using hes _ he
  | start k hhistory hstanding => exact hhistory ▸ hdue
  | @move t k s s' es ht hleads hhistory hstanding =>
      rw [hhistory]
      cases hleads with
      | close hs ending d? hd? hends =>
          refine hdue.returned fun o ho => ?_
          obtain rfl := ho
          have hnot : ∀ ticket l delivery count, s ≠ .applying ticket l delivery count := by
            rintro ticket l delivery count rfl
            simp [Stage.isApplying] at hs
          have hdone := hends.isDue ht hm hd (List.forall_mem_nil _)
            fun ticket l delivery count hs' => absurd hs' (hnot ticket l delivery count)
          simpa [hd?] using hdone
      | last ticket l delivery count ending ending' d? hd? hends hgood =>
          have htaken : AllDue h (w.history ++ [.taken t ending]) := hdue.append (by simp)
          have hdone : AllDue h (w.history ++ [.taken t ending] ++ [.returned t ending' d?]) := by
            refine htaken.returned fun o ho => ?_
            obtain rfl := ho
            obtain rfl := hgood o rfl
            rw [hd?]
            refine hends.isDue ht hm hd (by simp [Event.drawer?]) ?_
            rintro ticket' l' delivery' count' hs hdone u hu
            simp only [Stage.applying.injEq] at hs
            obtain ⟨rfl, rfl, rfl, rfl⟩ := hs
            obtain ⟨y, since, hy, hu', htask, -, hdelivery, hopen⟩ := hq.applying _ _ _ _ _ _ ht
            refine ⟨y, since ++ [.taken t (.finished ())], hy.append (by simp), ?_, htask,
              by rw [hdelivery], by rw [Handover.index, hdelivery]; exact hdone, ?_⟩
            · exact Option.some.inj (hu'.symm.trans hu)
            · rw [endingOf?_append, hopen, endingOf?_taken, if_pos rfl, Option.none_or]
          simpa using hdone
      | _ => exact hdue.append (by simp)

/-- What holds together of tasks and of what was put down, at any time. -/
structure Accounted (h : Host η ρ) (w : World η ρ) : Prop where
  ruled : w.Ruled
  sequenced : w.Sequenced h
  drawn : w.DrawnOnce
  mind : w.AllMind
  due : AllDue h w.history

theorem Accounted.act (hw : w.Accounted h) (a : Act ρ) : (w.act h a).Accounted h := by
  refine act_induction (fun free v v' hs hv => ?_) (fun v c hv => ?_) (fun v c hv => ?_) hw a
  · have hcourse := hs.course
    exact ⟨hv.ruled.step hs, hv.sequenced.course hv.ruled hcourse fun _ _ => hs.uri?,
      hv.drawn.course hcourse, hv.mind.step hs, hcourse.allDue hv.due hv.mind hv.drawn hv.sequenced⟩
  · have hcourse : v.Course h (v.beginComputation h c) := course_beginComputation c
    exact ⟨hv.ruled.begin c,
      hv.sequenced.course hv.ruled hcourse fun _ _ hu => (uri?_beginComputation c).trans hu,
      hv.drawn.course hcourse, hv.mind.begin c,
      hcourse.allDue hv.due hv.mind hv.drawn hv.sequenced⟩
  · have hcourse : v.Course h (v.settleComputation c) := course_settleComputation c
    exact ⟨hv.ruled.settle h c,
      hv.sequenced.course hv.ruled hcourse fun _ _ hu => (uri?_settleComputation c).trans hu,
      hv.drawn.course hcourse, hv.mind.settle c,
      hcourse.allDue hv.due hv.mind hv.drawn hv.sequenced⟩

theorem accounted_initial (h : Host η ρ) (host : η) : (initial host : World η ρ).Accounted h :=
  ⟨ruled_initial host, sequenced_initial h host, drawnOnce_initial host, allMind_initial host,
    by simp [AllDue, initial]⟩

theorem accounted_acts (h : Host η ρ) (host : η) (as : List (Act ρ)) :
    ((initial host).acts h as).Accounted h :=
  acts_induction (fun _ a hw => hw.act a) (accounted_initial h host) as

end World

/-! ### What has been handed on stays the last -/

theorem IsLatest.unique {past since since' : List (Event ρ)} {y y' : Handover ρ}
    (hy : IsLatest y since past) (hy' : IsLatest y' since' past) (huri : y.uri = y'.uri) :
    y = y' := by
  obtain ⟨before, hbefore⟩ := hy.split
  obtain ⟨before', hbefore'⟩ := hy'.split
  rcases mem_and_eq_of_splits (hbefore.symm.trans hbefore') with hmem | hmem | ⟨-, heq, -⟩
  · exact absurd huri.symm (hy.last y' hmem)
  · exact absurd huri (hy'.last y hmem)
  · exact Event.handed.inj heq

/-- As long as nothing puts a refresh out of date that has handed on all that it found, no other
chunk is offered at the address. -/
theorem IsHandedOn.append {past later : List (Event ρ)} {t : Nat} {uri : String} {records : List ρ}
    {y : Handover ρ} {since : List (Event ρ)} (hdone : IsHandedOn h past t uri records y since)
    (ho : Ordered h (past ++ later))
    (htimely : ∀ before x after, past ++ later = before ++ .handed x :: after → x.Timely before)
    {before after : List (Event ρ)} {k : Nat} {ticket : Ticket}
    (hdrawn : past = before ++ .drawn t k uri ticket :: after)
    (hvoid : ∀ e ∈ after ++ later, ¬e.Voids k uri) :
    IsHandedOn h (past ++ later) t uri records y (since ++ later) := by
  induction later using List.reverseRecOn with
  | nil => simpa using hdone
  | append_singleton later e ih =>
      have hassoc : past ++ (later ++ [e]) = past ++ later ++ [e] := by simp
      rw [hassoc] at ho htimely ⊢
      have hvoid' : ∀ e ∈ after ++ later, ¬e.Voids k uri := fun e' he' =>
        hvoid e' (List.append_assoc after later [e] ▸ List.mem_append_left [e] he')
      have hrest := ih ho.of_append
        (fun before' x after' heq => htimely before' x (after' ++ [e]) (by simp [heq])) hvoid'
      have hnew : ∀ x, e = .handed x → x.uri ≠ uri := by
        rintro x rfl rfl
        have hx := ho (past ++ later) x [] rfl
        obtain ⟨k', d, before', after', hsplit, -, -, -, hnone⟩ :=
          (htimely (past ++ later) x [] rfl).since
        have heq : before ++ .drawn t k x.uri ticket :: (after ++ later) =
            before' ++ .drawn x.task k' x.uri x.ticket :: after' := by
          rw [← hsplit, hdrawn]
          simp
        -- Of two draws at one address, the later one puts the refresh out of date that drew first.
        rcases mem_and_eq_of_splits heq with hmem | hmem | ⟨-, hsame, -⟩
        · exact hvoid' _ hmem rfl
        · exact hnone _ hmem rfl
        · obtain ⟨htask, -, -⟩ : t = x.task ∧ k = k' ∧ ticket = x.ticket := by simpa using hsame
          rcases hx.next with ⟨-, hnew⟩ | ⟨y', since', hy', huri, -, -, hrecords, hindex, -⟩
          · obtain ⟨early, hearly⟩ := hrest.latest.split
            exact hnew y (by simp [hearly]) (hrest.task.trans htask)
          · obtain rfl := hrest.latest.unique hy' (hrest.uri.trans huri.symm)
            have hmore := hx.part.2 (by omega)
            have := hrest.done
            rw [hindex, ← hrecords] at hmore
            omega
      rw [← List.append_assoc]
      refine ⟨hrest.latest.append fun z hz => ?_, hrest.uri, hrest.task, hrest.records, hrest.done,
        by rw [endingOf?_append, hrest.taken]; rfl⟩
      exact hrest.uri ▸ hnew z (List.mem_singleton.mp hz).symm

/-- Whatever order things happen in, no update is lost. A refresh that comes to its end by itself
says that it is stale only if the document has another version then than when the refresh began, and
that it is superseded only if its number was taken from it since. If nothing has put it out of date
it has handed on all that it found; and as long as nothing does, a consumer that starts anew with each
first chunk has just that, where it has every chunk whose call came to a good end and any others that
were offered. -/
theorem due_of_returned (h : Host η ρ) (host : η) (as : List (Act ρ)) (past later rest : List (Event ρ))
    (t : Nat) (o : Outcome ρ) (d? : Option Document)
    (hsplit : ((initial host).acts h as).history =
      past ++ .returned t (.finished o) d? :: later ++ rest) :
    (o.status = .stale → ∃ before k d ticket after,
      past = before ++ .drawn t k d.uri ticket :: after ∧ d? = some d ∧ ticket.version = o.version ∧
        d.version ≠ o.version) ∧
    (o.status = .superseded → ∃ before k uri ticket after,
      past = before ++ .drawn t k uri ticket :: after ∧ ticket.version = o.version ∧
        ∃ e ∈ after, e.Supersedes uri) ∧
    ∀ before k uri ticket after, past = before ++ .drawn t k uri ticket :: after →
      (∀ e ∈ after ++ later, ¬e.Voids k uri) →
      o.status = .applied ∧ ∀ keeps : Handover ρ → Bool,
        (∀ before x since, past ++ .returned t (.finished o) d? :: later =
          before ++ .handed x :: since →
          endingOf? x.task since = some (.finished ()) → keeps x = true) →
        shown ((handedAt uri (past ++ .returned t (.finished o) d? :: later)).filter keeps) =
          o.records := by
  have hall := accounted_acts h host as
  have hdue : o.IsDue h past t d? := hall.due past t o d? (later ++ rest) (by simp [hsplit])
  refine ⟨hdue.stale, hdue.superseded, fun before k uri ticket after hdrawn hvoid => ?_⟩
  obtain ⟨happlied, -, y, since, hdone⟩ := hdue.kept before k uri ticket after hdrawn
    fun e he => hvoid e (List.mem_append_left later he)
  refine ⟨happlied, fun keeps hkeeps => ?_⟩
  have ho : Ordered h (past ++ .returned t (.finished o) d? :: later) := by
    have hordered := hall.sequenced.ordered
    rw [hsplit] at hordered
    exact hordered.of_append
  have hlast := hdone.append ho
    (fun before' x after' heq => (numbered_acts h host as).timely before' x (after' ++ rest)
      (by rw [hsplit, heq]; simp)) hdrawn
    (fun e he => by
      rcases List.mem_append.mp he with he | he
      · exact hvoid e (List.mem_append_left later he)
      · rcases List.mem_cons.mp he with rfl | he
        · exact id
        · exact hvoid e (List.mem_append_right after he))
  have hkept : keeps y = true := by
    obtain ⟨early, hearly⟩ := hlast.latest.split
    exact hkeeps early y _ hearly (hlast.task ▸ hlast.taken)
  rw [(ho.shown uri hkeeps).2 y _ hlast.latest hlast.uri hkept, List.take_of_length_le hlast.done,
    hlast.records]

/-- A refresh waits for its records while another one of the document is begun. -/
def overtakenSpelling : List (Act Char) :=
  [.openDocument ⟨"a", 1, "css", "xy"⟩, .start .refresh 0, .turn 0, .start .refresh 0, .turn 1,
    .turn 0, .turn 0, .turn 0, .turn 0, .turn 0, .turn 0]

theorem due_of_returned_overtakenSpelling :
    let history := ((initial ()).acts (Host.spelling 0) overtakenSpelling).history
    let overtaken : Outcome Char := ⟨.superseded, 1, ['x', 'y'], 0⟩
    let last : Outcome Char := ⟨.applied, 1, ['x', 'y'], 2⟩
    let d : Document := ⟨"a", 1, "css", "xy"⟩
    history = history.take 2 ++ .returned 0 (.finished overtaken) (some d) :: history.drop 3 ++ [] ∧
      (∃ before k uri ticket after, history.take 2 = before ++ .drawn 0 k uri ticket :: after ∧
        ticket.version = overtaken.version ∧ ∃ e ∈ after, e.Supersedes uri) ∧
      history = history.take 7 ++ .returned 1 (.finished last) (some d) :: [] ++ [] ∧
      history.take 7 =
        history.take 1 ++ .drawn 1 0 "a" ⟨1, 2⟩ :: (history.take 7).drop 2 ∧
      (∀ e ∈ (history.take 7).drop 2 ++ [], ¬e.Voids 0 "a") ∧
      shown ((handedAt "a" (history.take 7 ++ .returned 1 (.finished last) (some d) :: [])).filter
        fun _ => true) = last.records := by
  intro history overtaken last d
  have hovertaken : history =
      history.take 2 ++ .returned 0 (.finished overtaken) (some d) :: history.drop 3 ++ [] := by
    decide
  have hlast : history = history.take 7 ++ .returned 1 (.finished last) (some d) :: [] ++ [] := by
    decide
  have hdrawn : history.take 7 =
      history.take 1 ++ .drawn 1 0 "a" ⟨1, 2⟩ :: (history.take 7).drop 2 := by decide
  have hvoid : ∀ e ∈ (history.take 7).drop 2 ++ [], ¬e.Voids 0 "a" := by decide
  obtain ⟨-, hsuperseded, -⟩ := due_of_returned (Host.spelling 0) () overtakenSpelling _ _ _ 0
    overtaken (some d) hovertaken
  obtain ⟨-, -, hkept⟩ := due_of_returned (Host.spelling 0) () overtakenSpelling _ _ _ 1 last
    (some d) hlast
  exact ⟨hovertaken, hsuperseded rfl, hlast, hdrawn, hvoid,
    (hkept _ _ _ _ _ hdrawn hvoid).2 (fun _ => true) fun _ _ _ _ _ => rfl⟩

end Swatch

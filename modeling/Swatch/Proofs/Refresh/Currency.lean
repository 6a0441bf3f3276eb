import Swatch.Proofs.Refresh.Course

/-!
A chunk is offered only for a document as the refresh found it. The number that a refresh draws for
an address stays the last one only as long as nobody draws another there, cancels it or forgets it,
and no number is drawn twice; the version of a document never comes back once it was edited. Main
statement: whenever a chunk is offered, none of this has happened since the refresh began.
-/

namespace Swatch

open World

variable {η ρ : Type}

/-- What puts a refresh of a document at an address out of date. -/
def Event.Voids (e : Event ρ) (document : Nat) (uri : String) : Prop :=
  match e with
  | .edited k => k = document
  | .cancelled u | .forgotten u | .drawn _ _ u _ => u = uri
  | _ => False

instance (e : Event ρ) (k : Nat) (uri : String) : Decidable (e.Voids k uri) :=
  match e with
  | .edited k' => inferInstanceAs (Decidable (k' = k))
  | .cancelled u | .forgotten u | .drawn _ _ u _ => inferInstanceAs (Decidable (u = uri))
  | .asked _ _ _ | .handed _ | .taken _ _ | .returned _ _ _ => inferInstanceAs (Decidable False)

def Event.isQuiet : Event ρ → Bool
  | .asked _ _ _ | .taken _ _ | .returned _ _ _ => true
  | _ => false

theorem Event.not_voids_of_isQuiet {e : Event ρ} (he : e.isQuiet = true) (k : Nat) (uri : String) :
    ¬e.Voids k uri := by
  cases e <;> simp_all [isQuiet, Voids]

/-- A chunk is offered in time: after all that has happened, the refresh began with its ticket, the
document has the version of the ticket still, the number of the ticket is the last one drawn for the
address, and nothing has put the refresh out of date. -/
structure Handover.Timely (past : List (Event ρ)) (x : Handover ρ) : Prop where
  current : x.generation? = some x.ticket.generation
  since : ∃ document d before after,
    past = before ++ .drawn x.task document x.uri x.ticket :: after ∧
      x.document? = some d ∧ d.uri = x.uri ∧ d.version = x.ticket.version ∧
      ∀ e ∈ after, ¬e.Voids document x.uri

def Event.drawer? : Event ρ → Option Nat
  | .drawn t _ _ _ => some t
  | _ => none

namespace World

variable {h : Host η ρ} {w w' : World η ρ}

/-- A refresh that has begun: its number was drawn when it did, and as long as it is the last one for
the address nothing but an edit has put the refresh out of date; an edit has raised the version. -/
def Begun (w : World η ρ) (t k : Nat) (d : Document) (ticket : Ticket) : Prop :=
  ∃ before after, w.history = before ++ .drawn t k d.uri ticket :: after ∧
    (w.scheduler.isCurrent d.uri ticket.generation = true →
      ∀ e ∈ after, e.Voids k d.uri → e = .edited k) ∧
    ticket.version ≤ d.version ∧ (.edited k ∈ after → ticket.version < d.version)

/-- What holds of numbers, tickets and chunks at any time. -/
structure Numbered (w : World η ρ) : Prop where
  drawn : ∀ uri g, w.scheduler.generations.get? uri = some g → g ≤ w.scheduler.drawn
  ticket : ∀ t k stage ticket, w.standing? t = some (k, stage) → stage.ticket? = some ticket →
    ticket.generation ≤ w.scheduler.drawn ∧
      ∃ d, w.documents[k]? = some d ∧ w.Begun t k d ticket
  timely : ∀ past x future, w.history = past ++ .handed x :: future → x.Timely past

theorem numbered_initial (host : η) : (initial host : World η ρ).Numbered where
  drawn _ _ hg := by simp [initial, EmptyCollection.emptyCollection, Scheduler.empty, Keyed.get?,
    Keyed.empty] at hg
  ticket _ _ _ _ ht := by simp [initial, standing?] at ht
  timely _ _ _ hx := by simp [initial] at hx

/-- A step that neither changes documents and numbers nor puts anything out of date. -/
structure Quiet (w w' : World η ρ) : Prop where
  documents : w'.documents = w.documents
  generations : w'.scheduler.generations = w.scheduler.generations
  drawn : w'.scheduler.drawn = w.scheduler.drawn
  history : ∃ es, w'.history = w.history ++ es ∧ ∀ e ∈ es, e.isQuiet = true
  ticket : ∀ t k stage ticket, w'.standing? t = some (k, stage) → stage.ticket? = some ticket →
    ∃ stage', w.standing? t = some (k, stage') ∧ stage'.ticket? = some ticket

theorem Quiet.trans {v : World η ρ} (hq : w.Quiet w') (hq' : w'.Quiet v) : w.Quiet v := by
  obtain ⟨es, hes, hquiet⟩ := hq.history
  obtain ⟨es', hes', hquiet'⟩ := hq'.history
  refine ⟨hq'.documents.trans hq.documents, hq'.generations.trans hq.generations,
    hq'.drawn.trans hq.drawn, ⟨es ++ es', by rw [hes', hes, List.append_assoc], ?_⟩, ?_⟩
  · intro e he
    exact (List.mem_append.mp he).elim (hquiet e) (hquiet' e)
  · intro t k stage ticket ht hk
    obtain ⟨stage', ht', hk'⟩ := hq'.ticket t k stage ticket ht hk
    exact hq.ticket t k stage' ticket ht' hk'

theorem quiet_of_same (htasks : ∀ t, w'.standing? t = w.standing? t)
    (hdocuments : w'.documents = w.documents)
    (hgenerations : w'.scheduler.generations = w.scheduler.generations)
    (hdrawn : w'.scheduler.drawn = w.scheduler.drawn) (hhistory : w'.history = w.history) :
    w.Quiet w' := by
  refine ⟨hdocuments, hgenerations, hdrawn, ⟨[], by simp [hhistory], by simp⟩, ?_⟩
  intro t k stage ticket ht hk
  exact ⟨stage, by rw [← htasks, ht], hk⟩

theorem SameBooks.quiet (hs : w.SameBooks w') : w.Quiet w' :=
  quiet_of_same hs.standing? hs.documents (by rw [hs.scheduler]) (by rw [hs.scheduler]) hs.history

theorem SameTasks.quiet (hs : w.SameTasks w') : w.Quiet w' :=
  quiet_of_same (fun _ => by rw [standing?, standing?, hs.tasks]) hs.documents
    (by rw [hs.scheduler]) (by rw [hs.scheduler]) hs.history

theorem quiet_locks (locks : List Lock) : w.Quiet { w with locks := locks } :=
  quiet_of_same (fun _ => rfl) rfl rfl rfl rfl

theorem quiet_start (errand : Errand) (k : Nat) : w.Quiet (w.start errand k) := by
  refine ⟨rfl, rfl, rfl, ⟨[], by simp [start], by simp⟩, fun t k' stage ticket ht hk => ?_⟩
  rw [standing?_start] at ht
  split at ht
  · grind [Stage.ticket?]
  · exact ⟨stage, ht, hk⟩

theorem Quiet.remember (hq : w.Quiet w') {e : Event ρ} (he : e.isQuiet = true) :
    w.Quiet (w'.remember e) := by
  refine hq.trans ⟨rfl, rfl, rfl, ⟨[e], rfl, by simpa using he⟩, ?_⟩
  intro t k stage ticket ht hk
  exact ⟨stage, ht, hk⟩

theorem quiet_wait {t k : Nat} {s stage : Stage ρ} (ht : w.standing? t = some (k, s))
    (hstage : stage.ticket? = none ∨ stage.ticket? = s.ticket?) : w.Quiet (w.wait t stage) := by
  refine ⟨rfl, rfl, rfl, ⟨[], by simp, by simp⟩, ?_⟩
  intro i k' stage' ticket hi hk
  rw [standing?_wait] at hi
  split at hi
  · rename_i hit
    subst hit
    simp only [ht, Option.map_some, Option.some.injEq, Prod.mk.injEq] at hi
    obtain ⟨rfl, rfl⟩ := hi
    exact ⟨s, ht, by grind⟩
  · exact ⟨stage', hi, hk⟩

theorem quiet_close {t k : Nat} {s : Stage ρ} (ht : w.standing? t = some (k, s))
    (ending : Ending (Outcome ρ)) : w.Quiet (w.close t ending) :=
  (quiet_wait ht (.inl rfl)).remember rfl

theorem exists_split_of_append {α : Type} {past future xs es : List α} {a : α} (ha : a ∉ es)
    (heq : xs ++ es = past ++ a :: future) :
    ∃ future', xs = past ++ a :: future' ∧ future = future' ++ es := by
  rcases List.append_eq_append_iff.mp heq with ⟨as, hpast, hes⟩ | ⟨cs, hxs, hcs⟩
  · exact absurd (hes ▸ by simp) ha
  · cases cs with
    | nil =>
        rw [List.nil_append] at hcs
        exact absurd (hcs ▸ by simp) ha
    | cons c cs =>
        obtain ⟨rfl, rfl⟩ := List.cons.inj hcs
        exact ⟨cs, hxs, rfl⟩

theorem exists_split_or_eq_of_concat {α : Type} {past future xs : List α} {a b : α}
    (heq : xs ++ [b] = past ++ a :: future) :
    (∃ future', xs = past ++ a :: future' ∧ future = future' ++ [b]) ∨ xs = past ∧ b = a := by
  rcases List.append_eq_append_iff.mp heq with ⟨as, hpast, has⟩ | ⟨cs, hxs, hcs⟩
  · cases as with
    | nil => exact .inr ⟨by simpa using hpast.symm, by simp_all⟩
    | cons a' as => simp at has
  · cases cs with
    | nil => exact .inr ⟨by simpa using hxs, by simp_all⟩
    | cons c cs =>
        obtain ⟨rfl, rfl⟩ := List.cons.inj hcs
        exact .inl ⟨cs, hxs, rfl⟩

theorem split_unique_of_pairwise {α : Type} {R : α → α → Prop} {xs ys xs' ys' : List α} {a a' : α}
    (hpairwise : (xs ++ a :: ys).Pairwise R) (heq : xs ++ a :: ys = xs' ++ a' :: ys')
    (hr : ¬R a a') (hr' : ¬R a' a) : xs = xs' ∧ a = a' ∧ ys = ys' := by
  have hpairwise' := heq ▸ hpairwise
  rcases List.append_eq_append_iff.mp heq with ⟨as, rfl, has⟩ | ⟨as, rfl, has⟩
  · cases as with
    | nil => simpa using has
    | cons b as =>
        obtain ⟨rfl, rfl⟩ := List.cons.inj has
        simp only [List.pairwise_append, List.mem_cons] at hpairwise'
        exact absurd (hpairwise'.2.2 a (by simp) a' (.inl rfl)) hr
  · cases as with
    | nil => simpa [eq_comm] using has
    | cons b as =>
        obtain ⟨rfl, rfl⟩ := List.cons.inj has
        simp only [List.pairwise_append, List.mem_cons] at hpairwise
        exact absurd (hpairwise.2.2 a' (by simp) a (.inl rfl)) hr'

theorem Begun.append {t k : Nat} {d d' : Document} {ticket : Ticket} {es : List (Event ρ)}
    (hb : w.Begun t k d ticket) (hhistory : w'.history = w.history ++ es)
    (hcurrent : w'.scheduler.isCurrent d.uri ticket.generation = true →
      w.scheduler.isCurrent d.uri ticket.generation = true ∧
        ∀ e ∈ es, e.Voids k d.uri → e = .edited k)
    (huri : d'.uri = d.uri) (hle : d.version ≤ d'.version)
    (hlt : .edited k ∈ es → d.version < d'.version) : w'.Begun t k d' ticket := by
  obtain ⟨before, after, hpast, hvoid, hversion, hedited⟩ := hb
  refine ⟨before, after ++ es, by simp [hhistory, hpast, huri], fun hc e he => ?_,
    by omega, fun he => ?_⟩
  · rw [huri] at hc ⊢
    obtain ⟨hc, hes⟩ := hcurrent hc
    rcases List.mem_append.mp he with he | he
    · exact hvoid hc e he
    · exact hes e he
  · rcases List.mem_append.mp he with he | he
    · have := hedited he
      omega
    · have := hlt he
      omega

theorem Numbered.timely_append (hn : w.Numbered) {es : List (Event ρ)}
    (hes : ∀ x, .handed x ∉ es) (past : List (Event ρ)) (x : Handover ρ) (future : List (Event ρ))
    (heq : w.history ++ es = past ++ .handed x :: future) : x.Timely past := by
  obtain ⟨future', hpast, -⟩ := exists_split_of_append (hes x) heq
  exact hn.timely past x future' hpast

theorem Numbered.quiet (hn : w.Numbered) (hq : w.Quiet w') : w'.Numbered := by
  obtain ⟨es, hhistory, hes⟩ := hq.history
  refine ⟨fun uri g hg => ?_, fun t k stage ticket ht hk => ?_, fun past x future hx => ?_⟩
  · rw [hq.generations] at hg
    exact hq.drawn ▸ hn.drawn uri g hg
  · obtain ⟨stage', ht', hk'⟩ := hq.ticket t k stage ticket ht hk
    obtain ⟨hle, d, hd, hb⟩ := hn.ticket t k stage' ticket ht' hk'
    refine ⟨hq.drawn ▸ hle, d, hq.documents ▸ hd, hb.append hhistory ?_ rfl (Int.le_refl _) ?_⟩
    · intro hc
      rw [Scheduler.isCurrent, hq.generations] at hc
      exact ⟨hc, fun e he hv => absurd hv (e.not_voids_of_isQuiet (hes e he) k d.uri)⟩
    · intro he
      simpa [Event.isQuiet] using hes _ he
  · rw [hhistory] at hx
    exact hn.timely_append (fun x he => by simpa [Event.isQuiet] using hes _ he) past x future hx

theorem Numbered.openDocument (hn : w.Numbered) (d : Document) : (w.openDocument d).Numbered := by
  refine ⟨hn.drawn, fun t k stage ticket ht hk => ?_, hn.timely⟩
  obtain ⟨hle, d', hd, hb⟩ := hn.ticket t k stage ticket ht hk
  refine ⟨hle, d', ?_, hb⟩
  have hlt := (List.getElem?_eq_some_iff.mp hd).1
  rw [World.openDocument, List.getElem?_append_left hlt, hd]

theorem Numbered.editAt (hn : w.Numbered) (k : Nat) (text : String) :
    (w.editAt k text).Numbered := by
  refine ⟨hn.drawn, fun t k' stage ticket ht hk => ?_, fun past x future hx => ?_⟩
  · obtain ⟨hle, d, hd, hb⟩ := hn.ticket t k' stage ticket ht hk
    have hvoid : ∀ e ∈ [.edited k], (e : Event ρ).Voids k' d.uri → e = .edited k' := by
      simp +contextual [Event.Voids]
    by_cases hkk : k = k'
    · refine ⟨hle, d.edit text, by simp [World.editAt, remember, hkk, hd], ?_⟩
      have hlt : d.version < (d.edit text).version := Int.lt_succ d.version
      exact hb.append rfl (fun hc => ⟨hc, hvoid⟩) rfl (Int.le_of_lt hlt) fun _ => hlt
    · refine ⟨hle, d, by simp [World.editAt, remember, hkk, hd], ?_⟩
      exact hb.append rfl (fun hc => ⟨hc, hvoid⟩) rfl (Int.le_refl _) fun he => absurd he (by simp; omega)
  · exact hn.timely_append (by simp) past x future hx

theorem Numbered.cancel (hn : w.Numbered) (u : String) : (w.cancel u).Numbered := by
  refine ⟨Scheduler.le_drawn_cancel hn.drawn u, fun t k stage ticket ht hk => ?_,
    fun past x future hx => hn.timely_append (by simp) past x future hx⟩
  obtain ⟨hle, d, hd, hb⟩ := hn.ticket t k stage ticket ht hk
  refine ⟨Nat.le_trans hle (Scheduler.drawn_le_cancel _ u), d, hd, ?_⟩
  refine hb.append rfl (fun hc => ?_) rfl (Int.le_refl _) (by simp)
  obtain ⟨hc, hu⟩ := Scheduler.isCurrent_cancel hle hc
  exact ⟨hc, by simpa [Event.Voids] using hu⟩

theorem generations_forget (w : World η ρ) (u : String) :
    (w.forget u).scheduler.generations = w.scheduler.generations.erase u ∧
      (w.forget u).scheduler.drawn = w.scheduler.drawn := by
  simp only [forget, remember]
  split <;> exact ⟨rfl, rfl⟩

theorem isCurrent_forget {u uri : String} {g : Nat}
    (hc : (w.forget u).scheduler.isCurrent uri g = true) :
    w.scheduler.isCurrent uri g = true ∧ u ≠ uri := by
  rw [Scheduler.isCurrent, (w.generations_forget u).1] at hc
  exact Scheduler.isCurrent_forget hc

theorem Numbered.forget (hn : w.Numbered) (u : String) : (w.forget u).Numbered := by
  obtain ⟨hgenerations, hdrawn⟩ := w.generations_forget u
  refine ⟨fun uri g hg => ?_, fun t k stage ticket ht hk => ?_,
    fun past x future hx => hn.timely_append (by simp) past x future hx⟩
  · rw [hgenerations, Keyed.get?_erase] at hg
    rw [hdrawn]
    exact hn.drawn uri g (by grind)
  · obtain ⟨hle, d, hd, hb⟩ := hn.ticket t k stage ticket ht hk
    refine ⟨hdrawn ▸ hle, d, hd, hb.append rfl (fun hc => ?_) rfl (Int.le_refl _) (by simp)⟩
    obtain ⟨hc', hu⟩ := isCurrent_forget hc
    exact ⟨hc', by simpa [Event.Voids] using hu⟩

theorem Numbered.obey (hn : w.Numbered) (c : Command) : (w.obey c).Numbered := by
  cases c with
  | edit uri text =>
      rw [World.obey, World.edit]
      split
      · exact hn.editAt _ text
      · exact hn
  | cancel uri => exact hn.cancel uri
  | forget uri => exact hn.forget uri
  | invalidate => exact ⟨hn.drawn, hn.ticket, hn.timely⟩

theorem Numbered.obeyAll (hn : w.Numbered) (cs : List Command) : (w.obeyAll cs).Numbered := by
  induction cs generalizing w with
  | nil => exact hn
  | cons c cs ih => exact ih (hn.obey c)

theorem Numbered.draw (hn : w.Numbered) {t k : Nat} {stage : Stage ρ} {d : Document}
    (ht : w.standing? t = some (k, stage)) (hd : w.documents[k]? = some d) :
    (({ w with scheduler := w.scheduler.draw d.uri }.wait t
      (.debouncing ⟨d.version, w.scheduler.next⟩)).remember
        (.drawn t k d.uri ⟨d.version, w.scheduler.next⟩)).Numbered := by
  refine ⟨Scheduler.le_drawn_draw hn.drawn d.uri, fun i k' stage' ticket hi hk => ?_,
    fun past x future hx => hn.timely_append (by simp) past x future hx⟩
  rw [standing?_remember, standing?_wait] at hi
  split at hi
  · -- The refresh that draws has a number that nobody had.
    rename_i hit
    subst hit
    obtain ⟨rfl, rfl⟩ : k = k' ∧ .debouncing ⟨d.version, w.scheduler.next⟩ = stage' := by
      simpa using (congrArg (Option.map _) ht).symm.trans hi
    obtain rfl : ⟨d.version, w.scheduler.next⟩ = ticket := by simpa [Stage.ticket?] using hk
    exact ⟨Nat.le_refl _, d, hd, w.history, [], rfl, by simp, Int.le_refl _, by simp⟩
  · obtain ⟨hle, d', hd', hb⟩ := hn.ticket i k' stage' ticket hi hk
    refine ⟨Nat.le_succ_of_le hle, d', hd', hb.append rfl (fun hc => ?_) rfl (Int.le_refl _)
      (by simp)⟩
    obtain ⟨hc, hu⟩ := Scheduler.isCurrent_draw hle hc
    exact ⟨hc, by simpa [Event.Voids] using hu⟩

theorem verdict?_eq_none {d : Document} {ticket : Ticket} :
    w.verdict? d ticket = none ↔
      d.version = ticket.version ∧ w.scheduler.isCurrent d.uri ticket.generation = true := by
  simp only [verdict?]
  split
  · simp_all
  · split <;> simp_all

theorem Numbered.hand (hn : w.Numbered) {t : Nat} {task : Task ρ} {d : Document} {ticket : Ticket}
    {delivery : Delivery ρ} {l : Nat} (ht : w.tasks[t]? = some task)
    (hd : w.documents[task.document]? = some d) (hk : task.stage.ticket? = some ticket)
    (hv : w.verdict? d ticket = none) :
    ((w.wait t (.applying ticket l delivery 0)).remember
      (.handed (w.offer h t d.uri ticket delivery))).Numbered := by
  have hstanding := standing?_of_getElem? ht
  refine ⟨hn.drawn, fun i k stage ticket' hi hk' => ?_, fun past x future hx => ?_⟩
  · -- The task keeps its ticket, and the chunk that is offered puts nothing out of date.
    have hbefore : ∃ stage', w.standing? i = some (k, stage') ∧ stage'.ticket? = some ticket' := by
      rw [standing?_remember, standing?_wait] at hi
      split at hi
      · simp only [hstanding, Option.map_some, Option.some.injEq, Prod.mk.injEq] at hi
        obtain ⟨rfl, rfl⟩ := hi
        exact ⟨task.stage, by grind, by simpa [Stage.ticket?] using hk.trans hk'⟩
      · exact ⟨stage, hi, hk'⟩
    obtain ⟨stage', hi', hk''⟩ := hbefore
    obtain ⟨hle, d', hd', hb⟩ := hn.ticket i k stage' ticket' hi' hk''
    exact ⟨hle, d', hd', hb.append rfl (fun hc => ⟨hc, by simp [Event.Voids]⟩) rfl (Int.le_refl _)
      (by simp)⟩
  · obtain ⟨hversion, hcurrent⟩ := verdict?_eq_none.mp hv
    obtain ⟨hle, d', hd', before, after, hpast, hvoid, hlow, hlt⟩ :=
      hn.ticket t task.document task.stage ticket hstanding hk
    obtain rfl : d = d' := Option.some.inj (hd.symm.trans hd')
    have hx : w.history ++ [.handed (w.offer h t d.uri ticket delivery)] =
        past ++ .handed x :: future := hx
    rcases exists_split_or_eq_of_concat hx with ⟨future', hsplit, -⟩ | ⟨hsplit, hx⟩
    · exact hn.timely past x future' hsplit
    · obtain rfl : w.offer h t d.uri ticket delivery = x := by simpa using hx
      subst hsplit
      refine ⟨by simpa [offer, Scheduler.isCurrent] using hcurrent, task.document, d, before, after,
        hpast, by simp [offer, documentOf?, ht, hd], rfl, hversion, fun e he hvoids => ?_⟩
      have := hvoid hcurrent e he hvoids
      subst this
      have := hlt he
      omega

/-- A step that changes documents or numbers, draws a ticket or offers a chunk. -/
inductive Stirs (h : Host η ρ) (w : World η ρ) : World η ρ → Prop where
  | openDocument (d : Document) : Stirs h w (w.openDocument d)
  | editAt (k : Nat) (text : String) : Stirs h w (w.editAt k text)
  | obeyAll (host : η) (commands : List Command) :
      Stirs h w ({ w with host := host }.obeyAll commands)
  | draw {t : Nat} {task : Task ρ} {d : Document} (ht : w.tasks[t]? = some task)
      (hd : w.documents[task.document]? = some d) (hs : task.stage = .starting) :
      Stirs h w
        (({ w with scheduler := w.scheduler.draw d.uri }.wait t
          (.debouncing ⟨d.version, w.scheduler.next⟩)).remember
            (.drawn t task.document d.uri ⟨d.version, w.scheduler.next⟩))
  | hand {t : Nat} {task : Task ρ} {d : Document} {ticket : Ticket} {l : Nat}
      {delivery : Delivery ρ} (ht : w.tasks[t]? = some task)
      (hd : w.documents[task.document]? = some d) (hv : w.verdict? d ticket = none)
      (hk : task.stage.ticket? = some ticket) :
      Stirs h w
        ((w.wait t (.applying ticket l delivery 0)).remember
          (.handed (w.offer h t d.uri ticket delivery)))

theorem Step.quiet_or_stirs {free : Bool} (hs : Step h free w w') : w.Quiet w' ∨ w.Stirs h w' := by
  cases hs with
  | openDocument d => exact .inr (.openDocument d)
  | editAt k text => exact .inr (.editAt k text)
  | obey c => exact .inr (.obeyAll w.host [c])
  | hosted hhost => exact .inr (.obeyAll ..)
  | draw ht hd hs => exact .inr (.draw ht hd hs)
  | hand ht hd hv hs =>
      refine .inr (.hand ht hd hv ?_)
      rcases hs with hs | ⟨hs, -⟩ <;> rw [hs] <;> rfl
  | pass turns timers clock ended hturns =>
      exact .inl (quiet_of_same (fun _ => rfl) rfl rfl rfl rfl)
  | start errand k => exact .inl (quiet_start errand k)
  | cancelTask t => exact .inl (w.sameBooks_cancelTask t).quiet
  | release c ending => exact .inl (w.sameTasks_release c ending).quiet
  | finish c => exact .inl (w.sameTasks_finishComputation c).quiet
  | tell hturn => exact .inl (w.sameBooks_tellTask _ _).quiet
  | nudge ht hs => exact .inl (quiet_of_same (fun _ => standing?_signal ..) rfl rfl rfl rfl)
  | close ht hs ending => exact .inl (quiet_close (standing?_of_getElem? ht) ending)
  | answer ht hs ending => exact .inl (quiet_wait (standing?_of_getElem? ht) (.inl rfl))
  | ask ht hd hs =>
      exact .inl (((quiet_wait (standing?_of_getElem? ht) (.inl rfl)).remember rfl).trans
        (sameTasks_lookUp ..).quiet)
  | makeLock uri hl => exact .inl (quiet_of_same (fun _ => rfl) rfl rfl rfl rfl)
  | acquire ht hd hs hc hl hlock hopen =>
      exact .inl ((quiet_locks _).trans
        (quiet_wait (standing?_of_getElem? ht) (.inr (by rw [hs]; rfl))))
  | queue ht hd hs hc hl =>
      exact .inl ((quiet_locks _).trans
        (quiet_wait (standing?_of_getElem? ht) (.inr (by rw [hs]; rfl))))
  | wake ht hs hsignal hending hasked =>
      exact .inl ((quiet_locks _).trans
        (quiet_wait (standing?_of_getElem? ht) (.inr (by rw [hs]; rfl))))
  | quit ht hs ending =>
      exact .inl ((quiet_close (standing?_of_getElem? ht) ending).trans
        (sameBooks_releaseLock ..).quiet)
  | @leave t task ticket l ht hs hasked =>
      have hbooks := w.sameBooks_leaveQueue t l
      have ht' := (hbooks.standing? t).trans (standing?_of_getElem? ht)
      exact .inl (hbooks.quiet.trans (quiet_close ht' _))
  | lookUp ht hd hs hv => exact .inl (w.sameTasks_lookUp ..).quiet
  | revisit ht hs =>
      exact .inl (quiet_wait (standing?_of_getElem? ht) (.inr (by rw [hs]; rfl)))
  | taken ht hs hmore =>
      exact .inl ((quiet_wait (standing?_of_getElem? ht) (.inr (by rw [hs]; rfl))).remember rfl)
  | @last t task ticket l delivery count ht hs ending ending' =>
      have hq : w.Quiet ((w.wait t (.pausing ticket l (afterChunk h delivery))).remember
          (.taken t ending)) :=
        (quiet_wait (standing?_of_getElem? ht) (.inr (by rw [hs]; rfl))).remember rfl
      have ht' := standing?_of_getElem? (getElem?_wait ht (.pausing ticket l (afterChunk h delivery)))
      exact .inl ((hq.trans (quiet_close (by exact ht') ending')).trans
        (sameBooks_releaseLock ..).quiet)

theorem Numbered.stirs (hn : w.Numbered) (hs : w.Stirs h w') : w'.Numbered := by
  cases hs with
  | openDocument d => exact hn.openDocument d
  | editAt k text => exact hn.editAt k text
  | obeyAll host commands =>
      have hn' : { w with host := host }.Numbered := ⟨hn.drawn, hn.ticket, hn.timely⟩
      exact hn'.obeyAll commands
  | draw ht hd hs => exact hn.draw (standing?_of_getElem? ht) hd
  | hand ht hd hv hk => exact hn.hand ht hd hk hv

theorem Numbered.step (hn : w.Numbered) {free : Bool} (hs : Step h free w w') : w'.Numbered :=
  hs.quiet_or_stirs.elim hn.quiet hn.stirs

theorem Numbered.begin (hn : w.Numbered) (c : Nat) : (w.beginComputation h c).Numbered := by
  obtain ⟨host, commands, hsame⟩ := w.sameTasks_beginComputation h c
  have hn' : { w with host := host }.Numbered := ⟨hn.drawn, hn.ticket, hn.timely⟩
  exact (hn'.obeyAll commands).quiet hsame.quiet

theorem Numbered.settle (hn : w.Numbered) (c : Nat) : (w.settleComputation c).Numbered :=
  hn.quiet (w.sameTasks_settleComputation c).quiet

theorem Numbered.act (hn : w.Numbered) (a : Act ρ) : (w.act h a).Numbered :=
  act_induction (fun _ _ _ hs hn => hn.step hs) (fun _ c hn => hn.begin c)
    (fun _ c hn => hn.settle c) hn a

/-- No task draws more than one ticket, and one that has not begun has none. -/
structure DrawnOnce (w : World η ρ) : Prop where
  fresh : ∀ t, (w.standing? t = none ∨ ∃ k, w.standing? t = some (k, .starting)) →
    ∀ e ∈ w.history, e.drawer? ≠ some t
  once : w.history.Pairwise fun e e' => ∀ t, e.drawer? = some t → e'.drawer? ≠ some t

theorem Leads.drawer {t k i : Nat} {s s' : Stage ρ} {es : List (Event ρ)} {e : Event ρ}
    (hleads : w.Leads h t k s es s') (he : e ∈ es) (hdrawer : e.drawer? = some i) :
    i = t ∧ s = .starting ∧ es = [e] := by
  cases hleads <;> simp_all [Event.drawer?]
  rcases he with rfl | rfl <;> simp at hdrawer

theorem Leads.ne_starting {t k : Nat} {s s' : Stage ρ} {es : List (Event ρ)}
    (hleads : w.Leads h t k s es s') : s' ≠ .starting := by
  cases hleads <;> simp

theorem Event.drawer?_of_isAside {e : Event ρ} (he : e.isAside = true) : e.drawer? = none := by
  cases e <;> simp_all [Event.isAside, Event.drawer?]

theorem drawnOnce_initial (host : η) : (initial host : World η ρ).DrawnOnce :=
  ⟨by simp [initial], by simp [initial]⟩

theorem DrawnOnce.course (hd : w.DrawnOnce) (hcourse : w.Course h w') : w'.DrawnOnce := by
  cases hcourse with
  | @aside es hes hhistory hstanding =>
      have hnone : ∀ e ∈ es, e.drawer? = none := fun e he => Event.drawer?_of_isAside (hes e he)
      refine ⟨fun t ht e he => ?_, ?_⟩
      · rw [hstanding] at ht
        rw [hhistory, List.mem_append] at he
        rcases he with he | he
        · exact hd.fresh t ht e he
        · simp [hnone e he]
      · rw [hhistory, List.pairwise_append]
        refine ⟨hd.once,
          List.pairwise_of_forall_mem_list fun e he e' he' t => by simp [hnone e he], ?_⟩
        intro e he e' he' t ht
        simp [hnone e' he']
  | start k hhistory hstanding =>
      refine ⟨fun t ht e he => ?_, by rw [hhistory]; exact hd.once⟩
      rw [hhistory] at he
      rw [hstanding] at ht
      refine hd.fresh t ?_ e he
      by_cases hlast : t = w.tasks.length
      · exact .inl (hlast ▸ standing?_length w)
      · simpa [hlast] using ht
  | @move t k s s' es ht hleads hhistory hstanding =>
      refine ⟨fun i hi e he => ?_, ?_⟩
      · have hit : i ≠ t := fun hit => by
          have := hleads.ne_starting
          simp_all
        rw [hstanding, if_neg hit] at hi
        rw [hhistory, List.mem_append] at he
        rcases he with he | he
        · exact hd.fresh i hi e he
        · exact fun hdrawer => hit (hleads.drawer he hdrawer).1
      · rw [hhistory, List.pairwise_append]
        refine ⟨hd.once, ?_, fun e he e' he' i hdrawer hdrawer' => ?_⟩
        · by_cases hdrawn : ∃ e ∈ es, ∃ i, e.drawer? = some i
          · obtain ⟨e, he, i, hdrawer⟩ := hdrawn
            rw [(hleads.drawer he hdrawer).2.2]
            exact List.pairwise_singleton _ _
          · refine List.pairwise_of_forall_mem_list fun e he e' he' i hdrawer => ?_
            exact absurd ⟨e, he, i, hdrawer⟩ hdrawn
        · obtain ⟨rfl, rfl, -⟩ := hleads.drawer he' hdrawer'
          exact hd.fresh i (.inr ⟨k, ht⟩) e he hdrawer

theorem numbered_acts (h : Host η ρ) (host : η) (as : List (Act ρ)) :
    ((initial host).acts h as).Numbered :=
  acts_induction (fun _ a hn => hn.act a) (numbered_initial host) as

end World

open World in
/-- Whatever order things happen in, every chunk is offered in time. Hence once a document is edited,
or its address is cancelled, forgotten or drawn for anew, no refresh of the document that began
before offers another chunk. -/
theorem timely_of_handed (h : Host η ρ) (host : η) (as : List (Act ρ)) :
    (∀ past x future, ((initial host).acts h as).history = past ++ .handed x :: future →
      x.Timely past) ∧
    ∀ past e future, ((initial host).acts h as).history = past ++ e :: future →
      ∀ t k uri ticket, .drawn t k uri ticket ∈ past → e.Voids k uri →
        ∀ x, .handed x ∈ future → x.task ≠ t := by
  have hnumbered := numbered_acts h host as
  have hdrawn : ((initial host).acts h as).DrawnOnce :=
    acts_induction (fun _ a hd => act_induction_course (fun _ _ hc hd => hd.course hc) hd a)
      (drawnOnce_initial host) as
  refine ⟨hnumbered.timely, fun past e future heq t k uri ticket hmem hvoids x hx hxt => ?_⟩
  obtain ⟨early, late, rfl⟩ := List.append_of_mem hx
  obtain ⟨before, after, rfl⟩ := List.append_of_mem hmem
  obtain ⟨document, d, before', after', hpast, -, -, -, hnone⟩ :=
    (hnumbered.timely (before ++ .drawn t k uri ticket :: after ++ e :: early) x late
      (by simp [heq])).since
  -- The ticket of the chunk is the one that the task drew before it was put out of date.
  have hlist : before ++ .drawn t k uri ticket :: (after ++ e :: early) =
      before' ++ .drawn x.task document x.uri x.ticket :: after' := by simpa using hpast
  have honce := hdrawn.once
  rw [heq, show (before ++ .drawn t k uri ticket :: after) ++ e :: (early ++ .handed x :: late) =
    before ++ .drawn t k uri ticket :: (after ++ e :: early) ++ .handed x :: late by simp,
    List.pairwise_append] at honce
  obtain ⟨-, hdrawn, rfl⟩ := split_unique_of_pairwise honce.1 hlist
    (fun hne => hne t rfl (congrArg some hxt)) (fun hne => hne t (congrArg some hxt) rfl)
  simp only [Event.drawn.injEq] at hdrawn
  obtain ⟨-, rfl, rfl, -⟩ := hdrawn
  exact hnone e (by simp) hvoids

/-- A refresh is cancelled after its first chunk, and another one follows. -/
def cancelledSpelling : List (Act Char) :=
  [.openDocument ⟨"a", 1, "css", "xy"⟩, .start .refresh 0, .turn 0, .turn 0, .turn 0, .turn 0,
    .turn 0, .obey (.cancel "a"), .start .refresh 0, .turn 0, .turn 0]

open World in
theorem timely_of_handed_cancelledSpelling :
    let history := ((initial ()).acts (Host.spelling 0) cancelledSpelling).history
    let x : Handover Char :=
      ⟨1, "a", ⟨1, 3⟩, ⟨['x', 'y'], 0, 0⟩, ['x'], some ⟨"a", 1, "css", "xy"⟩, some 3⟩
    history = history.take 6 ++ .handed x :: history.drop 7 ∧ x.Timely (history.take 6) ∧
      history = history.take 3 ++ .cancelled "a" :: history.drop 4 ∧
      .drawn 0 0 "a" ⟨1, 1⟩ ∈ history.take 3 ∧ (Event.cancelled "a" : Event Char).Voids 0 "a" ∧
      .handed x ∈ history.drop 4 ∧ x.task ≠ 0 := by
  intro history x
  have hhanded : history = history.take 6 ++ .handed x :: history.drop 7 := by decide
  have hcancelled : history = history.take 3 ++ .cancelled "a" :: history.drop 4 := by decide
  have hdrawn : .drawn 0 0 "a" ⟨1, 1⟩ ∈ history.take 3 := by decide
  have hvoids : (Event.cancelled "a" : Event Char).Voids 0 "a" := rfl
  have hlater : .handed x ∈ history.drop 4 := by decide
  obtain ⟨htimely, hvoid⟩ := timely_of_handed (Host.spelling 0) () cancelledSpelling
  exact ⟨hhanded, htimely _ _ _ hhanded, hcancelled, hdrawn, hvoids, hlater,
    hvoid _ _ _ hcancelled 0 0 "a" ⟨1, 1⟩ hdrawn hvoids x hlater⟩

end Swatch

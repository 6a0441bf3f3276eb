import Swatch.Proofs.Refresh.Frame

/-!
The course of a task. Whatever happens in a world, at most one task goes on to another stage, and
what is put down belongs to how it goes on.
-/

namespace Swatch

variable {η ρ : Type}

def Event.isAside : Event ρ → Bool
  | .edited _ | .cancelled _ | .forgotten _ => true
  | _ => false

namespace World

/-- How a task for a document goes on from one stage to another, and what is put down then. -/
inductive Leads (h : Host η ρ) (w : World η ρ) (t k : Nat) :
    Stage ρ → List (Event ρ) → Stage ρ → Prop where
  | draw {d : Document} (hd : w.documents[k]? = some d) :
      Leads h w t k .starting [.drawn t k d.uri ⟨d.version, w.scheduler.next⟩]
        (.debouncing ⟨d.version, w.scheduler.next⟩)
  | ask {d : Document} (hd : w.documents[k]? = some d) :
      Leads h w t k .starting [.asked t k d.uri] .detecting
  | answer {s : Stage ρ} (hs : s = .starting ∨ s = .detecting) (ending) :
      Leads h w t k s [] (.answered ending)
  | acquire {d : Document} {l : Nat} (hd : w.documents[k]? = some d)
      (hl : w.scheduler.locks.get? d.uri = some l) (ticket) :
      Leads h w t k (.debouncing ticket) [] (.computing ticket l)
  | queue {d : Document} {l : Nat} (hd : w.documents[k]? = some d)
      (hl : w.scheduler.locks.get? d.uri = some l) (ticket) :
      Leads h w t k (.debouncing ticket) [] (.queueing ticket l)
  | wake (ticket l) : Leads h w t k (.queueing ticket l) [] (.computing ticket l)
  | hand {d : Document} {s : Stage ρ} {ticket : Ticket} {l : Nat} {delivery : Delivery ρ}
      (hd : w.documents[k]? = some d) (hv : w.verdict? d ticket = none)
      (hs : s = .pausing ticket l delivery ∨
        s = .computing ticket l ∧ ∃ task records, w.tasks[t]? = some task ∧
          delivery = ⟨records, 0, 0⟩ ∧ w.Known task d records) :
      Leads h w t k s [.handed (w.offer h t d.uri ticket delivery)] (.applying ticket l delivery 0)
  | revisit (ticket l delivery count) :
      Leads h w t k (.applying ticket l delivery count) []
        (.applying ticket l delivery (count + 1))
  | taken {delivery : Delivery ρ}
      (hmore : (delivery.index + 1) * h.chunkSize < delivery.records.length) (ticket l count) :
      Leads h w t k (.applying ticket l delivery count) [.taken t (.finished ())]
        (.pausing ticket l (afterChunk h delivery))
  | last (ticket l delivery count ending ending' d?) (hd : d? = w.documents[k]?)
      (hends : w.Concludes h k (.applying ticket l delivery count) ending')
      (hgood : ∀ outcome, ending' = .finished outcome → ending = .finished ()) :
      Leads h w t k (.applying ticket l delivery count)
        [.taken t ending, .returned t ending' d?] (.ended ending')
  | close {s : Stage ρ} (hs : s.isApplying = false) (ending d?) (hd : d? = w.documents[k]?)
      (hends : w.Concludes h k s ending) :
      Leads h w t k s [.returned t ending d?] (.ended ending)

/-- What happened between two worlds, as far as it shows in the stages of tasks and in what was put
down. -/
inductive Course (h : Host η ρ) (w w' : World η ρ) : Prop where
  | aside {es : List (Event ρ)} (hes : ∀ e ∈ es, e.isAside = true)
      (hhistory : w'.history = w.history ++ es) (hstanding : ∀ i, w'.standing? i = w.standing? i)
  | start (k : Nat) (hhistory : w'.history = w.history)
      (hstanding : ∀ i, w'.standing? i =
        if i = w.tasks.length then some (k, .starting) else w.standing? i)
  | move {t k : Nat} {s s' : Stage ρ} {es : List (Event ρ)} (ht : w.standing? t = some (k, s))
      (hleads : w.Leads h t k s es s') (hhistory : w'.history = w.history ++ es)
      (hstanding : ∀ i, w'.standing? i = if i = t then some (k, s') else w.standing? i)

def uri? (w : World η ρ) (k : Nat) : Option String :=
  (w.documents[k]?).map (·.uri)

variable {h : Host η ρ} {w w' : World η ρ} {t k : Nat} {s : Stage ρ}

theorem standing?_length (w : World η ρ) : w.standing? w.tasks.length = none := by
  simp [standing?]

theorem Course.still (hstanding : ∀ i, w'.standing? i = w.standing? i)
    (hhistory : w'.history = w.history) : w.Course h w' :=
  .aside (show ∀ e ∈ ([] : List (Event ρ)), e.isAside = true by simp) (by simp [hhistory]) hstanding

theorem SameBooks.course (hs : w.SameBooks w') : w.Course h w' :=
  .still hs.standing? hs.history

theorem SameTasks.course (hs : w.SameTasks w') : w.Course h w' :=
  .still (fun _ => by rw [standing?, standing?, hs.tasks]) hs.history

theorem Course.of_wait {s' : Stage ρ} {es : List (Event ρ)} (ht : w.standing? t = some (k, s))
    (hleads : w.Leads h t k s es s') (hhistory : w'.history = w.history ++ es)
    (hstanding : ∀ i, w'.standing? i = (w.wait t s').standing? i) : w.Course h w' := by
  refine .move ht hleads hhistory fun i => ?_
  rw [hstanding, standing?_wait, ht]
  rfl

theorem Course.trans_sameBooks {v : World η ρ} (hcourse : w.Course h w') (hs : w'.SameBooks v) :
    w.Course h v := by
  cases hcourse with
  | aside hes hhistory hstanding =>
      exact .aside hes (hs.history.trans hhistory) fun i => (hs.standing? i).trans (hstanding i)
  | start k hhistory hstanding =>
      exact .start k (hs.history.trans hhistory) fun i => (hs.standing? i).trans (hstanding i)
  | move ht hleads hhistory hstanding =>
      exact .move ht hleads (hs.history.trans hhistory)
        fun i => (hs.standing? i).trans (hstanding i)

theorem course_obey (w : World η ρ) (c : Command) : ∃ es : List (Event ρ),
    (∀ e ∈ es, e.isAside = true) ∧ (w.obey c).history = w.history ++ es := by
  cases c with
  | edit uri text =>
      rw [obey, edit]
      split
      · exact ⟨_, by simp [Event.isAside], rfl⟩
      · exact ⟨[], by simp, by simp⟩
  | cancel uri => exact ⟨[.cancelled uri], by simp [Event.isAside], rfl⟩
  | forget uri => exact ⟨[.forgotten uri], by simp [Event.isAside], rfl⟩
  | invalidate => exact ⟨[], by simp, by simp [obey]⟩

theorem standing?_of_tasks (htasks : w'.tasks = w.tasks) (i : Nat) :
    w'.standing? i = w.standing? i := by
  rw [standing?, standing?, htasks]

theorem course_obeyAll (w : World η ρ) (cs : List Command) : ∃ es : List (Event ρ),
    (∀ e ∈ es, e.isAside = true) ∧ (w.obeyAll cs).history = w.history ++ es := by
  induction cs generalizing w with
  | nil => exact ⟨[], by simp, by simp [obeyAll]⟩
  | cons c cs ih =>
      obtain ⟨es, hes, hhistory⟩ := course_obey w c
      obtain ⟨es', hes', hhistory'⟩ := ih (w.obey c)
      refine ⟨es ++ es', fun e he => (List.mem_append.mp he).elim (hes e) (hes' e), ?_⟩
      rw [obeyAll_cons, hhistory', hhistory, List.append_assoc]

theorem documentOf?_of_getElem? {task : Task ρ} (ht : w.tasks[t]? = some task) :
    w.documentOf? t = w.documents[task.document]? := by
  rw [documentOf?, ht]
  rfl

theorem documentOf?_eq_standing? (w : World η ρ) (t : Nat) :
    w.documentOf? t = (w.standing? t).bind fun x => w.documents[x.1]? := by
  rw [documentOf?, standing?]
  cases w.tasks[t]? <;> rfl

/-- What a step does to the stages of tasks. -/
theorem Step.course {free : Bool} (hs : Step h free w w') : w.Course h w' := by
  cases hs with
  | pass => exact .still (fun _ => rfl) rfl
  | openDocument d => exact .still (fun _ => rfl) rfl
  | editAt k text => exact .aside (by simp [Event.isAside]) rfl fun _ => rfl
  | obey c =>
      obtain ⟨es, hes, hhistory⟩ := course_obey w c
      exact .aside hes hhistory (standing?_of_tasks (tasks_obey ..))
  | @hosted host commands hhost =>
      obtain ⟨es, hes, hhistory⟩ := course_obeyAll { w with host := host } commands
      exact .aside hes hhistory (standing?_of_tasks (tasks_obeyAll ..))
  | start errand k => exact .start k rfl fun _ => standing?_start ..
  | cancelTask t => exact (w.sameBooks_cancelTask t).course
  | release c ending => exact (w.sameTasks_release c ending).course
  | finish c => exact (w.sameTasks_finishComputation c).course
  | tell => exact (w.sameBooks_tellTask _ _).course
  | nudge => exact .still (fun _ => standing?_signal ..) rfl
  | close ht hs ending hends =>
      refine .of_wait (standing?_of_getElem? ht)
        (.close ?_ ending _ (documentOf?_of_getElem? ht) hends) rfl fun _ => rfl
      rcases hs with hs | ⟨ticket, hs⟩ <;> rw [hs] <;> rfl
  | answer ht hs ending =>
      exact .of_wait (standing?_of_getElem? ht) (.answer hs ending) (by simp)
        fun _ => rfl
  | @ask t task d ht hd hs =>
      have hsame := sameTasks_lookUp
        ((w.wait t .detecting).remember (.asked t task.document d.uri)) t .detection d
      exact .of_wait (hs ▸ standing?_of_getElem? ht) (.ask hd) hsame.history
        (standing?_of_tasks hsame.tasks)
  | draw ht hd hs =>
      exact .of_wait (hs ▸ standing?_of_getElem? ht) (.draw hd) rfl fun _ => rfl
  | makeLock => exact .still (fun _ => rfl) rfl
  | acquire ht hd hs hc hl =>
      exact .of_wait (hs ▸ standing?_of_getElem? ht) (.acquire hd hl _)
        (by simp) fun _ => rfl
  | queue ht hd hs hc hl =>
      exact .of_wait (hs ▸ standing?_of_getElem? ht) (.queue hd hl _)
        (by simp) fun _ => rfl
  | wake ht hs =>
      exact .of_wait (hs ▸ standing?_of_getElem? ht) (.wake ..) (by simp)
        fun _ => rfl
  | @quit t task l ht hs ending hends =>
      refine .trans_sameBooks ?_ (sameBooks_releaseLock (w.close t ending) l)
      refine .of_wait (standing?_of_getElem? ht)
        (.close ?_ ending _ (documentOf?_of_getElem? ht) hends) rfl fun _ => rfl
      cases hstage : task.stage <;> simp_all [Stage.idle?, Stage.isApplying]
  | @leave t task ticket l ht hs =>
      have hbooks := w.sameBooks_leaveQueue t l
      have hd : (w.leaveQueue t l).documentOf? t = w.documents[task.document]? := by
        rw [documentOf?_eq_standing?, hbooks.standing?, standing?_of_getElem? ht, hbooks.documents]
        rfl
      refine .of_wait (standing?_of_getElem? ht) (.close (by rw [hs]; rfl) .cancelled _ hd
        (.cancelled _)) (congrArg (· ++ [_]) hbooks.history) fun i => ?_
      simp [hbooks.standing?]
  | lookUp => exact (w.sameTasks_lookUp ..).course
  | hand ht hd hv hs =>
      refine .of_wait (standing?_of_getElem? ht) (.hand hd hv ?_) rfl fun _ => rfl
      refine hs.imp_right ?_
      rintro ⟨hcomputing, records, hdelivery, hknown⟩
      exact ⟨hcomputing, _, records, ht, hdelivery, hknown⟩
  | revisit ht hs =>
      exact .of_wait (hs ▸ standing?_of_getElem? ht) (.revisit ..) (by simp)
        fun _ => rfl
  | taken ht hs hmore =>
      exact .of_wait (hs ▸ standing?_of_getElem? ht) (.taken hmore ..) rfl fun _ => rfl
  | @last t task ticket l delivery count ht hs ending ending' hends hgood =>
      have hd : ((w.wait t (.pausing ticket l (afterChunk h delivery))).remember
          (.taken t ending)).documentOf? t = w.documents[task.document]? := by
        rw [documentOf?_eq_standing?, standing?_remember, standing?_wait, if_pos rfl,
          standing?_of_getElem? ht]
        rfl
      refine .trans_sameBooks ?_ (sameBooks_releaseLock ..)
      refine .of_wait (hs ▸ standing?_of_getElem? ht)
        (.last _ _ _ _ ending ending' _ hd (hs ▸ hends) hgood) (List.append_assoc ..) fun i => ?_
      simp only [standing?_close, standing?_remember, standing?_wait]
      split <;> simp [Function.comp_def]

/-! ### A document keeps its address -/

theorem uri?_editAt (w : World η ρ) (i k : Nat) (text : String) :
    (w.editAt i text).uri? k = w.uri? k := by
  simp only [uri?, World.editAt, remember, List.getElem?_modify]
  cases w.documents[k]? with
  | none => rfl
  | some d => by_cases hik : i = k <;> simp [hik, Document.edit]

theorem uri?_of_documents (hdocuments : w'.documents = w.documents) : w'.uri? k = w.uri? k := by
  rw [uri?, uri?, hdocuments]

theorem uri?_obeyAll (w : World η ρ) (cs : List Command) (k : Nat) :
    (w.obeyAll cs).uri? k = w.uri? k := by
  induction cs generalizing w with
  | nil => rfl
  | cons c cs ih =>
      rw [obeyAll_cons, ih]
      cases c with
      | edit uri text =>
          rw [obey, edit]
          split
          · exact uri?_editAt ..
          · rfl
      | cancel | forget | invalidate => rfl

theorem Step.uri? {free : Bool} (hs : Step h free w w') {u : String} (hu : w.uri? k = some u) :
    w'.uri? k = some u := by
  cases hs.works with
  | nothing hsame => rwa [uri?_of_documents hsame.documents]
  | openDocument d =>
      obtain ⟨d', hd', hu⟩ := Option.map_eq_some_iff.mp hu
      have hlt := (List.getElem?_eq_some_iff.mp hd').1
      rw [World.uri?, World.openDocument, List.getElem?_append_left hlt, hd', Option.map_some, hu]
  | editAt => rwa [uri?_editAt]
  | obeyAll => rwa [uri?_obeyAll]
  | release c ending => rwa [uri?_of_documents (w.sameTasks_release c ending).documents]
  | finish c => rwa [uri?_of_documents (w.sameTasks_finishComputation c).documents]
  | lookUp hsame =>
      rwa [uri?_of_documents (sameTasks_lookUp ..).documents, uri?_of_documents hsame.documents]

theorem uri?_beginComputation (c : Nat) : (w.beginComputation h c).uri? k = w.uri? k := by
  obtain ⟨host, commands, hsame⟩ := w.sameTasks_beginComputation h c
  exact (uri?_of_documents hsame.documents).trans (uri?_obeyAll ..)

theorem uri?_settleComputation (c : Nat) : (w.settleComputation c).uri? k = w.uri? k :=
  uri?_of_documents (w.sameTasks_settleComputation c).documents

theorem course_beginComputation (c : Nat) : w.Course h (w.beginComputation h c) := by
  obtain ⟨host, commands, hsame⟩ := w.sameTasks_beginComputation h c
  obtain ⟨es, hes, hhistory⟩ := course_obeyAll { w with host := host } commands
  exact .aside hes (hsame.history.trans hhistory)
    (standing?_of_tasks (hsame.tasks.trans (tasks_obeyAll ..)))

theorem course_settleComputation (c : Nat) : w.Course h (w.settleComputation c) :=
  (w.sameTasks_settleComputation c).course

/-- What is kept whatever course tasks take is kept by every act. -/
theorem act_induction_course {P : World η ρ → Prop}
    (hcourse : ∀ v v', v.Course h v' → P v → P v') (hw : P w) (a : Act ρ) : P (w.act h a) :=
  act_induction (fun _ _ _ hs => hcourse _ _ hs.course)
    (fun _ _ => hcourse _ _ (course_beginComputation _))
    (fun _ _ => hcourse _ _ (course_settleComputation _)) hw a

end World

end Swatch

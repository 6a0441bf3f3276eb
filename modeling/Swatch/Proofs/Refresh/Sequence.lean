import Mathlib.Data.List.Induction
import Swatch.Proofs.Refresh.Exclusion

/-!
In which order chunks are offered at one address. Before a chunk is offered, the one before it has
been taken; and it is either the first chunk of a refresh that has offered none, or the one after
the chunk that was offered last. So the chunks come in runs, each from one refresh and from its
beginning. Main statement: a consumer who starts anew with each first chunk has at all times what
one refresh found, from the beginning up to some point.
-/

namespace Swatch

open World

variable {η ρ : Type}

def Event.ending? (t : Nat) : Event ρ → Option (Ending Unit)
  | .taken t' ending => if t' = t then some ending else none
  | _ => none

/-- How the chunk that a task offered was taken, if it was since. -/
def endingOf? (t : Nat) (since : List (Event ρ)) : Option (Ending Unit) :=
  since.findSome? (·.ending? t)

def handedAt (uri : String) (history : List (Event ρ)) : List (Handover ρ) :=
  (history.filterMap Event.handover?).filter (·.uri = uri)

/-- What a consumer has that took some chunks in: a first chunk takes the place of what it had, any
other one is put behind it. -/
def shown (chunks : List (Handover ρ)) : List ρ :=
  chunks.foldl (fun held x => if x.index = 0 then x.chunk else held ++ x.chunk) []

/-- The first chunks of one refresh, in order. -/
structure IsRun (h : Host η ρ) (run : List (Handover ρ)) : Prop where
  ne_nil : run ≠ []
  one : ∃ t ticket records, ∀ (i : Nat) (x : Handover ρ), run[i]? = some x →
    x.task = t ∧ x.ticket = ticket ∧ x.delivery.records = records ∧ x.index = i ∧
      x.chunk = (records.drop (i * h.chunkSize)).take h.chunkSize ∧
      (0 < i → i * h.chunkSize < records.length)

/-- A chunk is the last one that was offered at its address, and other things happened since. -/
structure IsLatest (y : Handover ρ) (since past : List (Event ρ)) : Prop where
  split : ∃ before, past = before ++ .handed y :: since
  last : ∀ z, .handed z ∈ since → z.uri ≠ y.uri

/-- A chunk is offered in order: the chunks that were offered at its address are taken, and it goes
on from the last of them or begins a run. -/
structure Handover.InOrder (h : Host η ρ) (past : List (Event ρ)) (x : Handover ρ) : Prop where
  alone : ∀ before y since, past = before ++ .handed y :: since → y.uri = x.uri →
    (endingOf? y.task since).isSome = true
  part : x.chunk = (x.delivery.records.drop (x.index * h.chunkSize)).take h.chunkSize ∧
    (0 < x.index → x.index * h.chunkSize < x.delivery.records.length)
  next : (x.index = 0 ∧ ∀ y, .handed y ∈ past → y.task ≠ x.task) ∨
    ∃ y since, IsLatest y since past ∧ y.uri = x.uri ∧ y.task = x.task ∧ y.ticket = x.ticket ∧
      y.delivery.records = x.delivery.records ∧ x.index = y.index + 1 ∧
      endingOf? y.task since = some (.finished ())

def Ordered (h : Host η ρ) (history : List (Event ρ)) : Prop :=
  ∀ past x future, history = past ++ .handed x :: future → x.InOrder h past

variable {h : Host η ρ}

theorem Ordered.of_append {past future : List (Event ρ)} (ho : Ordered h (past ++ future)) :
    Ordered h past :=
  fun before x after hpast => ho before x (after ++ future) (by simp [hpast])

theorem handedAt_append (uri : String) (past future : List (Event ρ)) :
    handedAt uri (past ++ future) = handedAt uri past ++ handedAt uri future := by
  simp [handedAt]

theorem handedAt_singleton (uri : String) (e : Event ρ) :
    handedAt uri [e] = (e.handover?.toList).filter (·.uri = uri) := by
  cases e <;> rfl

theorem mem_handedAt {uri : String} {history : List (Event ρ)} {x : Handover ρ} :
    x ∈ handedAt uri history ↔ .handed x ∈ history ∧ x.uri = uri := by
  simp only [handedAt, List.mem_filter, List.mem_filterMap, decide_eq_true_eq]
  refine and_congr_left fun _ => ⟨?_, fun hx => ⟨.handed x, hx, rfl⟩⟩
  rintro ⟨e, he, hx⟩
  cases e <;> simp_all [Event.handover?]

theorem IsLatest.handedAt_eq {y : Handover ρ} {since past : List (Event ρ)}
    (hy : IsLatest y since past) : ∃ xs, handedAt y.uri past = xs ++ [y] := by
  obtain ⟨before, rfl⟩ := hy.split
  refine ⟨handedAt y.uri before, ?_⟩
  have hnone : handedAt y.uri since = [] := by
    refine List.eq_nil_iff_forall_not_mem.mpr fun z hz => ?_
    obtain ⟨hz, huri⟩ := mem_handedAt.mp hz
    exact hy.last z hz huri
  have hcons : (.handed y :: since : List (Event ρ)) = [.handed y] ++ since := rfl
  rw [hcons, handedAt_append, handedAt_append, hnone, handedAt_singleton]
  simp [Event.handover?]

theorem endingOf?_append (t : Nat) (since later : List (Event ρ)) :
    endingOf? t (since ++ later) = (endingOf? t since).or (endingOf? t later) := by
  simp [endingOf?]

theorem endingOf?_eq_none {t : Nat} {since : List (Event ρ)} :
    endingOf? t since = none ↔ ∀ e ∈ since, e.ending? t = none :=
  List.findSome?_eq_none_iff

theorem endingOf?_taken (i t : Nat) (ending : Ending Unit) (later : List (Event ρ)) :
    endingOf? i (.taken t ending :: later) = if t = i then some ending else endingOf? i later := by
  rw [endingOf?, List.findSome?_cons]
  by_cases hti : t = i <;> simp [Event.ending?, hti, endingOf?]

theorem Ordered.isRun_singleton {past : List (Event ρ)} {x : Handover ρ} (hx : x.InOrder h past)
    (hfirst : x.index = 0) : IsRun h [x] := by
  refine ⟨by simp, x.task, x.ticket, x.delivery.records, fun i y hy => ?_⟩
  obtain ⟨rfl, rfl⟩ : i = 0 ∧ x = y := by
    cases i <;> simp_all
  exact ⟨rfl, rfl, rfl, hfirst, hfirst ▸ hx.part.1, by simp⟩

theorem IsRun.concat {run : List (Handover ρ)} {past : List (Event ρ)} {x y : Handover ρ}
    (hr : IsRun h (run ++ [y])) (hx : x.InOrder h past) (htask : y.task = x.task)
    (hticket : y.ticket = x.ticket) (hrecords : y.delivery.records = x.delivery.records)
    (hindex : x.index = y.index + 1) : IsRun h (run ++ [y] ++ [x]) := by
  obtain ⟨t, ticket, records, hone⟩ := hr.one
  obtain ⟨rfl, rfl, rfl, hlast, -⟩ := hone run.length y (by simp)
  refine ⟨by simp, y.task, y.ticket, y.delivery.records, fun i z hz => ?_⟩
  rw [List.getElem?_append] at hz
  split at hz
  · exact hone i z hz
  · obtain ⟨hi, rfl⟩ : i = (run ++ [y]).length ∧ x = z := by
      have hlt := (List.getElem?_eq_some_iff.mp hz).1
      simp only [List.length_singleton] at hlt
      have hzero : i - (run ++ [y]).length = 0 := by omega
      simp only [hzero, List.getElem?_cons_zero, Option.some.injEq] at hz
      exact ⟨by omega, hz⟩
    have hlength : x.index = i := by
      rw [hi, hindex, hlast, List.length_append, List.length_singleton]
    obtain ⟨hpart, hmore⟩ := hx.part
    rw [hlength, ← hrecords] at hpart hmore
    exact ⟨htask.symm, hticket.symm, hrecords.symm, hlength, hpart, hmore⟩

/-- The chunks that are offered at an address come in runs of different refreshes. -/
theorem Ordered.runs {past : List (Event ρ)} (ho : Ordered h past) (uri : String) :
    ∃ runs : List (List (Handover ρ)), handedAt uri past = runs.flatten ∧
      (∀ run ∈ runs, IsRun h run) ∧
      runs.Pairwise fun run run' => ∀ x ∈ run, ∀ y ∈ run', x.task ≠ y.task := by
  induction past using List.reverseRecOn with
  | nil => exact ⟨[], rfl, by simp, .nil⟩
  | append_singleton past e ih =>
      obtain ⟨runs, hflatten, hruns, hpairwise⟩ := ih ho.of_append
      rw [handedAt_append, handedAt_singleton]
      by_cases hhanded : ∃ x, e = .handed x ∧ x.uri = uri
      · obtain ⟨x, rfl, rfl⟩ := hhanded
        have hx := ho past x [] rfl
        simp only [Event.handover?, Option.toList_some, decide_true, List.filter_cons_of_pos,
          List.filter_nil]
        rcases hx.next with ⟨hfirst, hnew⟩ | ⟨y, since, hy, huri, htask, hticket, hrecords, hindex, -⟩
        · refine ⟨runs ++ [[x]], by simp [hflatten], fun run hrun => ?_, ?_⟩
          · rcases List.mem_append.mp hrun with hrun | hrun
            · exact hruns run hrun
            · exact List.mem_singleton.mp hrun ▸ Ordered.isRun_singleton hx hfirst
          · refine List.pairwise_append.mpr ⟨hpairwise, List.pairwise_singleton .., ?_⟩
            intro run hrun run' hrun' y hy z hz
            obtain rfl := List.mem_singleton.mp hrun'
            obtain rfl := List.mem_singleton.mp hz
            have hmem : y ∈ handedAt z.uri past := by
              rw [hflatten]
              exact List.mem_flatten.mpr ⟨run, hrun, hy⟩
            exact hnew y (mem_handedAt.mp hmem).1
        · -- The last run ends with the chunk that was offered last.
          obtain ⟨xs, hxs⟩ := hy.handedAt_eq
          rw [huri, hflatten] at hxs
          rcases List.eq_nil_or_concat runs with rfl | ⟨init, run, rfl⟩
          · simp at hxs
          rw [List.concat_eq_append] at *
          have hrun := hruns run (by simp)
          rcases List.eq_nil_or_concat run with rfl | ⟨run, z, rfl⟩
          · exact absurd rfl hrun.ne_nil
          rw [List.concat_eq_append] at *
          obtain rfl : z = y := by
            rw [List.flatten_append, List.flatten_singleton, ← List.append_assoc] at hxs
            simpa using (List.append_inj_right' hxs rfl)
          refine ⟨init ++ [run ++ [z] ++ [x]], by simp [hflatten], fun run' hrun' => ?_, ?_⟩
          · rcases List.mem_append.mp hrun' with hrun' | hrun'
            · exact hruns run' (by simp [hrun'])
            · exact List.mem_singleton.mp hrun' ▸ hrun.concat hx htask hticket hrecords hindex
          · rw [List.pairwise_append] at hpairwise ⊢
            refine ⟨hpairwise.1, List.pairwise_singleton .., fun r hr r' hr' a ha b hb => ?_⟩
            obtain rfl := List.mem_singleton.mp hr'
            have hold := hpairwise.2.2 r hr (run ++ [z]) (by simp) a ha
            rcases List.mem_append.mp hb with hb | hb
            · exact hold b hb
            · rw [List.mem_singleton.mp hb, ← htask]
              exact hold z (by simp)
      · refine ⟨runs, ?_, hruns, hpairwise⟩
        rw [hflatten]
        cases e <;> simp_all [Event.handover?]

theorem shown_concat (chunks : List (Handover ρ)) (x : Handover ρ) :
    shown (chunks ++ [x]) = if x.index = 0 then x.chunk else shown chunks ++ x.chunk := by
  simp [shown]

theorem IsLatest.of_concat {past since : List (Event ρ)} {e : Event ρ} {y : Handover ρ}
    (hy : IsLatest y since (past ++ [e])) :
    (e = .handed y ∧ since = []) ∨
      ∃ since', since = since' ++ [e] ∧ IsLatest y since' past ∧ ∀ z, e = .handed z → z.uri ≠ y.uri := by
  obtain ⟨before, hbefore⟩ := hy.split
  rcases List.eq_nil_or_concat since with rfl | ⟨since', e', rfl⟩
  · exact .inl ⟨by simpa using List.append_inj_right' hbefore rfl, rfl⟩
  · rw [List.concat_eq_append] at *
    have heq : past ++ [e] = (before ++ .handed y :: since') ++ [e'] := by simpa using hbefore
    obtain rfl : e = e' := by simpa using List.append_inj_right' heq rfl
    exact .inr ⟨since', rfl, ⟨⟨before, List.append_inj_left' heq rfl⟩,
      fun z hz => hy.last z (by simp [hz])⟩, fun z hz => hy.last z (by simp [hz])⟩

/-- A consumer that takes in every chunk that is taken in the end, and maybe others, has the first
records of one refresh. -/
theorem Ordered.shown {past : List (Event ρ)} (ho : Ordered h past) (uri : String)
    {keeps : Handover ρ → Bool}
    (hkeeps : ∀ before x since, past = before ++ .handed x :: since →
      endingOf? x.task since = some (.finished ()) → keeps x = true) :
    (shown ((handedAt uri past).filter keeps) = [] ∨
      ∃ x ∈ handedAt uri past, shown ((handedAt uri past).filter keeps) <+: x.delivery.records) ∧
    ∀ y since, IsLatest y since past → y.uri = uri → keeps y = true →
      shown ((handedAt uri past).filter keeps) =
        y.delivery.records.take ((y.index + 1) * h.chunkSize) := by
  induction past using List.reverseRecOn with
  | nil => exact ⟨.inl rfl, fun y since hy => by simpa using hy.split⟩
  | append_singleton past e ih =>
      obtain ⟨hpre, hlatest⟩ := ih ho.of_append fun before x since hpast hending =>
        hkeeps before x (since ++ [e]) (by simp [hpast]) (by simp [endingOf?_append, hending])
      rw [handedAt_append, handedAt_singleton]
      by_cases hhanded : ∃ x, e = .handed x ∧ x.uri = uri
      · obtain ⟨x, rfl, rfl⟩ := hhanded
        have hx := ho past x [] rfl
        simp only [Event.handover?, Option.toList_some, decide_true, List.filter_cons_of_pos,
          List.filter_nil, List.filter_append]
        by_cases hkept : keeps x = true
        · -- With the new chunk, the consumer has all records up to its end.
          have hall : Swatch.shown ((handedAt x.uri past).filter keeps ++ [x]) =
              x.delivery.records.take ((x.index + 1) * h.chunkSize) := by
            rw [shown_concat, hx.part.1]
            rcases hx.next with ⟨hfirst, -⟩ | ⟨y, since, hy, huri, -, -, hrecords, hindex, hending⟩
            · simp [hfirst]
            · have hkept' : keeps y = true := by
                obtain ⟨before, hbefore⟩ := hy.split
                exact hkeeps before y (since ++ [.handed x]) (by simp [hbefore])
                  (by simp [endingOf?_append, hending])
              rw [hlatest y since hy huri hkept', hrecords, hindex, if_neg (Nat.succ_ne_zero _),
                Nat.succ_mul (y.index + 1), List.take_add]
          simp only [hkept, List.filter_cons_of_pos, List.filter_nil]
          refine ⟨.inr ⟨x, by simp, hall ▸ List.take_prefix ..⟩, fun y since hy huri _ => ?_⟩
          rcases hy.of_concat with ⟨heq, -⟩ | ⟨since', -, -, hne⟩
          · obtain rfl := Event.handed.inj heq
            exact hall
          · exact absurd huri.symm (hne x rfl)
        · simp only [hkept, Bool.false_eq_true, not_false_eq_true, List.filter_cons_of_neg,
            List.filter_nil, List.append_nil]
          refine ⟨hpre.imp_right ?_, ?_⟩
          · rintro ⟨y, hy, hle⟩
            exact ⟨y, by simp [hy], hle⟩
          · intro y since hy huri hkept'
            rcases hy.of_concat with ⟨heq, -⟩ | ⟨since', -, -, hne⟩
            · exact absurd (Event.handed.inj heq ▸ hkept') hkept
            · exact absurd huri.symm (hne x rfl)
      · have hnone : (e.handover?.toList).filter (·.uri = uri) = [] := by
          cases e <;> simp_all [Event.handover?]
        rw [hnone, List.append_nil]
        refine ⟨hpre, fun y since hy huri hkept => ?_⟩
        rcases hy.of_concat with ⟨heq, -⟩ | ⟨since', -, hy', -⟩
        · exact absurd ⟨y, heq, huri⟩ hhanded
        · exact hlatest y since' hy' huri hkept

theorem IsLatest.append {y : Handover ρ} {since past es : List (Event ρ)} (hy : IsLatest y since past)
    (hes : ∀ z, .handed z ∈ es → z.uri ≠ y.uri) : IsLatest y (since ++ es) (past ++ es) := by
  obtain ⟨before, rfl⟩ := hy.split
  refine ⟨⟨before, by simp⟩, fun z hz => ?_⟩
  exact (List.mem_append.mp hz).elim (hy.last z) (hes z)

theorem Ordered.append {past es : List (Event ρ)} (ho : Ordered h past) (hes : ∀ z, .handed z ∉ es) :
    Ordered h (past ++ es) := by
  intro before x after hpast
  obtain ⟨after', hafter, -⟩ := exists_split_of_append (hes x) hpast
  exact ho before x after' hafter

/-! ### Whatever happens, chunks are offered in order -/

def Stage.isNew : Stage ρ → Bool
  | .starting | .debouncing _ | .queueing _ _ | .computing _ _ => true
  | _ => false

namespace World

/-- What holds of chunks and of the tasks that offer them: a new task has offered none, a task whose
chunk is on its way has offered the last one at its address, and one that pauses has had that taken
and has more to offer. -/
structure Sequenced (h : Host η ρ) (w : World η ρ) : Prop where
  new : ∀ t, (w.standing? t = none ∨ ∃ k s, w.standing? t = some (k, s) ∧ s.isNew = true) →
    ∀ y, .handed y ∈ w.history → y.task ≠ t
  applying : ∀ t k ticket l delivery count,
    w.standing? t = some (k, .applying ticket l delivery count) →
    ∃ y since, IsLatest y since w.history ∧ w.uri? k = some y.uri ∧ y.task = t ∧
      y.ticket = ticket ∧ y.delivery = delivery ∧ endingOf? t since = none
  pausing : ∀ t k ticket l delivery, w.standing? t = some (k, .pausing ticket l delivery) →
    delivery.index * h.chunkSize < delivery.records.length ∧
    ∃ y since, IsLatest y since w.history ∧ w.uri? k = some y.uri ∧ y.task = t ∧
      y.ticket = ticket ∧ y.delivery.records = delivery.records ∧ delivery.index = y.index + 1 ∧
      endingOf? t since = some (.finished ())
  under_way : ∀ before y since, w.history = before ++ .handed y :: since →
    endingOf? y.task since = none →
    ∃ k ticket l delivery count, w.standing? y.task = some (k, .applying ticket l delivery count) ∧
      w.uri? k = some y.uri
  ordered : Ordered h w.history

theorem sequenced_initial (h : Host η ρ) (host : η) : (initial host : World η ρ).Sequenced h := by
  refine ⟨?_, ?_, ?_, ?_, ?_⟩ <;> simp [initial, standing?, Ordered]

variable {w w' : World η ρ} {es : List (Event ρ)}

theorem Sequenced.quiet (hq : w.Sequenced h) (hhistory : w'.history = w.history ++ es)
    (hes : ∀ e ∈ es, e.handover? = none ∧ ∀ t, e.ending? t = none)
    (huri : ∀ k u, w.uri? k = some u → w'.uri? k = some u)
    (hnew : ∀ t, (w'.standing? t = none ∨ ∃ k s, w'.standing? t = some (k, s) ∧ s.isNew = true) →
      w.standing? t = none ∨ ∃ k s, w.standing? t = some (k, s) ∧ s.isNew = true)
    (happlying : ∀ t k ticket l delivery count,
      w'.standing? t = some (k, .applying ticket l delivery count) →
      ∃ count', w.standing? t = some (k, .applying ticket l delivery count'))
    (hpausing : ∀ t k ticket l delivery, w'.standing? t = some (k, .pausing ticket l delivery) →
      w.standing? t = some (k, .pausing ticket l delivery))
    (hstays : ∀ t k ticket l delivery count,
      w.standing? t = some (k, .applying ticket l delivery count) →
      ∃ count', w'.standing? t = some (k, .applying ticket l delivery count')) :
    w'.Sequenced h := by
  have hnone : ∀ z, .handed z ∉ es := fun z hz => by simpa [Event.handover?] using (hes _ hz).1
  have hending : ∀ t (since : List (Event ρ)), endingOf? t (since ++ es) = endingOf? t since := by
    intro t since
    rw [endingOf?_append, endingOf?_eq_none.mpr fun e he => (hes e he).2 t, Option.or_none]
  refine ⟨fun t ht y hy => ?_, fun t k ticket l delivery count ht => ?_,
    fun t k ticket l delivery ht => ?_, fun before y since hsplit hy => ?_, ?_⟩
  · rw [hhistory, List.mem_append] at hy
    exact hq.new t (hnew t ht) y (hy.resolve_right (hnone y))
  · obtain ⟨count', ht'⟩ := happlying t k ticket l delivery count ht
    obtain ⟨y, since, hy, hu, htask, hticket, hdelivery, hopen⟩ :=
      hq.applying t k ticket l delivery count' ht'
    exact ⟨y, since ++ es, hhistory ▸ hy.append fun z hz => absurd hz (hnone z),
      huri k _ hu, htask, hticket, hdelivery, by rw [hending, hopen]⟩
  · obtain ⟨hmore, y, since, hy, hu, htask, hticket, hrecords, hindex, htaken⟩ :=
      hq.pausing t k ticket l delivery (hpausing t k ticket l delivery ht)
    exact ⟨hmore, y, since ++ es, hhistory ▸ hy.append fun z hz => absurd hz (hnone z),
      huri k _ hu, htask, hticket, hrecords, hindex, by rw [hending, htaken]⟩
  · rw [hhistory] at hsplit
    obtain ⟨since', hsplit', rfl⟩ := exists_split_of_append (hnone y) hsplit
    rw [hending] at hy
    obtain ⟨k, ticket, l, delivery, count, ht, hu⟩ := hq.under_way before y since' hsplit' hy
    obtain ⟨count', ht'⟩ := hstays _ k ticket l delivery count ht
    exact ⟨k, ticket, l, delivery, count', ht', huri k _ hu⟩
  · exact hhistory ▸ hq.ordered.append hnone

theorem exists_document_of_uri? {k : Nat} {u : String} (hu : w.uri? k = some u) :
    ∃ d, w.documents[k]? = some d ∧ d.uri = u := by
  simpa [World.uri?] using hu

theorem Ruled.ne_of_delivering (hr : w.Ruled) {t t' k k' l l' : Nat} {s s' : Stage ρ}
    {ticket ticket' : Ticket} {d : Document} {u : String} (ht : w.standing? t = some (k, s))
    (hs : s.claim? = some (ticket, l)) (hheld : s.held? = some l) (hd : w.documents[k]? = some d)
    (hv : w.verdict? d ticket = none) (hne : t' ≠ t) (ht' : w.standing? t' = some (k', s'))
    (hs' : s'.claim? = some (ticket', l')) (hdelivery' : s'.delivery?.isSome = true)
    (hu : w.uri? k' = some u) : u ≠ d.uri := by
  rintro rfl
  obtain ⟨d', hd', huri⟩ := exists_document_of_uri? hu
  exact hne (hr.eq_of_delivering ht hs hheld hd (.inr (verdict?_eq_none.mp hv).2) ht' hs' hdelivery'
    hd' huri.symm).symm

/-- A chunk that a task offers which has its lock and the last number is offered in order. -/
theorem Sequenced.inOrder (hq : w.Sequenced h) (hr : w.Ruled) {t k l : Nat} {s : Stage ρ}
    {ticket : Ticket} {delivery : Delivery ρ} {d : Document} (ht : w.standing? t = some (k, s))
    (hd : w.documents[k]? = some d) (hv : w.verdict? d ticket = none)
    (hs : s = .pausing ticket l delivery ∨
      s = .computing ticket l ∧ ∃ records, delivery = ⟨records, 0, 0⟩) :
    (w.offer h t d.uri ticket delivery).InOrder h w.history := by
  have hstage : s.claim? = some (ticket, l) ∧ s.held? = some l ∧ s.isApplying = false := by
    rcases hs with rfl | ⟨rfl, -⟩ <;> exact ⟨rfl, rfl, rfl⟩
  refine ⟨fun before y since hsplit huri => ?_, ⟨rfl, ?_⟩, ?_⟩
  · cases hending : endingOf? y.task since with
    | some ending => rfl
    | none =>
        obtain ⟨k', ticket', l', delivery', count, hy, hu⟩ := hq.under_way before y since hsplit hending
        have hne : y.task ≠ t := fun heq => by
          obtain ⟨-, rfl⟩ := Prod.mk.inj (Option.some.inj (ht.symm.trans (heq ▸ hy)))
          simp [Stage.isApplying] at hstage
        exact absurd huri (hr.ne_of_delivering ht hstage.1 hstage.2.1 hd hv hne hy rfl rfl hu)
  · rcases hs with rfl | ⟨rfl, records, rfl⟩
    · exact fun _ => (hq.pausing t k ticket l delivery ht).1
    · exact fun hpos => absurd hpos (Nat.lt_irrefl 0)
  · rcases hs with rfl | ⟨rfl, records, rfl⟩
    · obtain ⟨-, y, since, hy, hu, htask, hticket, hrecords, hindex, htaken⟩ :=
        hq.pausing t k ticket l delivery ht
      have huri : y.uri = d.uri := by simpa [World.uri?, hd, eq_comm] using hu
      exact .inr ⟨y, since, hy, huri, htask, hticket, hrecords, hindex, htask ▸ htaken⟩
    · exact .inl ⟨rfl, hq.new t (.inr ⟨k, _, ht, rfl⟩)⟩

theorem Sequenced.hand (hq : w.Sequenced h) (hr : w.Ruled) {t k l : Nat} {s : Stage ρ}
    {ticket : Ticket} {delivery : Delivery ρ} {d : Document} (ht : w.standing? t = some (k, s))
    (hd : w.documents[k]? = some d) (hv : w.verdict? d ticket = none)
    (hs : s = .pausing ticket l delivery ∨
      s = .computing ticket l ∧ ∃ records, delivery = ⟨records, 0, 0⟩)
    (hhistory : w'.history = w.history ++ [.handed (w.offer h t d.uri ticket delivery)])
    (hstanding : ∀ i, w'.standing? i =
      if i = t then some (k, .applying ticket l delivery 0) else w.standing? i)
    (huri : ∀ k u, w.uri? k = some u → w'.uri? k = some u) : w'.Sequenced h := by
  have hstage : s.claim? = some (ticket, l) ∧ s.held? = some l ∧ s.isApplying = false := by
    rcases hs with rfl | ⟨rfl, -⟩ <;> exact ⟨rfl, rfl, rfl⟩
  have hinOrder := hq.inOrder hr ht hd hv hs
  have hu : w.uri? k = some d.uri := by simp [World.uri?, hd]
  generalize hx : w.offer h t d.uri ticket delivery = x at hhistory hinOrder
  obtain ⟨hxt, hxu, hxticket, hxdelivery⟩ :
      x.task = t ∧ x.uri = d.uri ∧ x.ticket = ticket ∧ x.delivery = delivery := by
    subst hx
    exact ⟨rfl, rfl, rfl, rfl⟩
  have hending : ∀ i (since : List (Event ρ)),
      endingOf? i (since ++ [.handed x]) = endingOf? i since := by
    simp [endingOf?, Event.ending?]
  -- The chunks of others are at other addresses.
  have hothers : ∀ i k' s' ticket' l' y since, i ≠ t → w.standing? i = some (k', s') →
      s'.claim? = some (ticket', l') → s'.delivery?.isSome = true → w.uri? k' = some y.uri →
      IsLatest y since w.history → IsLatest y (since ++ [.handed x]) w'.history := by
    intro i k' s' ticket' l' y since hne hi hs' hdelivery' hu' hy
    have hyd := hr.ne_of_delivering ht hstage.1 hstage.2.1 hd hv hne hi hs' hdelivery' hu'
    refine hhistory ▸ hy.append fun z hz => ?_
    obtain rfl : z = x := by simpa using hz
    exact hxu ▸ hyd.symm
  refine ⟨fun i hi y hy => ?_, fun i k' ticket' l' delivery' count hi => ?_,
    fun i k' ticket' l' delivery' hi => ?_, fun before y since hsplit hy => ?_,
    fun past y future hpast => ?_⟩
  · have hne : i ≠ t := fun hit => by simp [hstanding, hit, Stage.isNew] at hi
    rw [hstanding, if_neg hne] at hi
    rw [hhistory, List.mem_append, List.mem_singleton] at hy
    rcases hy with hy | hy
    · exact hq.new i hi y hy
    · obtain rfl := Event.handed.inj hy
      exact hxt ▸ hne.symm
  · rw [hstanding] at hi
    split at hi
    · rename_i hit
      simp only [Option.some.injEq, Prod.mk.injEq, Stage.applying.injEq] at hi
      obtain ⟨rfl, rfl, rfl, rfl, -⟩ := hi
      refine ⟨x, [], ⟨⟨w.history, hhistory⟩, by simp⟩, ?_, hit ▸ hxt, hxticket, hxdelivery, rfl⟩
      exact hxu ▸ huri k d.uri hu
    · obtain ⟨y, since, hy, hu', htask, hticket, hdelivery, hopen⟩ :=
        hq.applying i k' ticket' l' delivery' count hi
      exact ⟨y, since ++ [.handed x], hothers i _ _ _ _ y since ‹_› hi rfl rfl hu' hy, huri _ _ hu',
        htask, hticket, hdelivery, by rw [hending, hopen]⟩
  · have hne : i ≠ t := fun hit => by simp [hstanding, hit] at hi
    rw [hstanding, if_neg hne] at hi
    obtain ⟨hmore, y, since, hy, hu', htask, hticket, hrecords, hindex, htaken⟩ :=
      hq.pausing i k' ticket' l' delivery' hi
    exact ⟨hmore, y, since ++ [.handed x], hothers i _ _ _ _ y since hne hi rfl rfl hu' hy,
      huri _ _ hu', htask, hticket, hrecords, hindex, by rw [hending, htaken]⟩
  · rw [hhistory] at hsplit
    rcases exists_split_or_eq_of_concat hsplit with ⟨since', hsplit', rfl⟩ | ⟨-, heq⟩
    · rw [hending] at hy
      obtain ⟨k', ticket', l', delivery', count, hi, hu'⟩ := hq.under_way before y since' hsplit' hy
      have hne : y.task ≠ t := fun hit => by
        obtain ⟨-, rfl⟩ := Prod.mk.inj (Option.some.inj (ht.symm.trans (hit ▸ hi)))
        simp [Stage.isApplying] at hstage
      exact ⟨k', ticket', l', delivery', count, by rw [hstanding, if_neg hne, hi], huri _ _ hu'⟩
    · obtain rfl := Event.handed.inj heq
      exact ⟨k, ticket, l, delivery, 0, by simp [hstanding, hxt], hxu ▸ huri k d.uri hu⟩
  · rw [hhistory] at hpast
    rcases exists_split_or_eq_of_concat hpast with ⟨future', hpast', -⟩ | ⟨rfl, heq⟩
    · exact hq.ordered past y future' hpast'
    · obtain rfl := Event.handed.inj heq
      exact hinOrder

theorem Sequenced.taken (hq : w.Sequenced h) {t k l count : Nat} {ticket : Ticket}
    {delivery : Delivery ρ} {s' : Stage ρ} {ending : Ending Unit}
    (ht : w.standing? t = some (k, .applying ticket l delivery count))
    (hs' : (∃ e, s' = .ended e) ∨ s' = .pausing ticket l (afterChunk h delivery) ∧
      ending = .finished () ∧ (delivery.index + 1) * h.chunkSize < delivery.records.length)
    (hes : ∀ e ∈ es, e.handover? = none ∧ ∀ t, e.ending? t = none)
    (hhistory : w'.history = w.history ++ .taken t ending :: es)
    (hstanding : ∀ i, w'.standing? i = if i = t then some (k, s') else w.standing? i)
    (huri : ∀ k u, w.uri? k = some u → w'.uri? k = some u) : w'.Sequenced h := by
  have hnone : ∀ z, .handed z ∉ .taken t ending :: es := fun z hz => by
    rcases List.mem_cons.mp hz with hz | hz
    · simp at hz
    · simpa [Event.handover?] using (hes _ hz).1
  have hending : ∀ i (since : List (Event ρ)), endingOf? i (since ++ .taken t ending :: es) =
      (endingOf? i since).or (if t = i then some ending else none) := by
    intro i since
    rw [endingOf?_append, endingOf?_taken, endingOf?_eq_none.mpr fun e he => (hes e he).2 i]
  have hkept : ∀ i k' s y since, i ≠ t → w'.standing? i = some (k', s) → IsLatest y since w.history →
      w.standing? i = some (k', s) ∧ IsLatest y (since ++ .taken t ending :: es) w'.history ∧
        endingOf? i (since ++ .taken t ending :: es) = endingOf? i since := by
    intro i k' s y since hne hi hy
    rw [hstanding, if_neg hne] at hi
    exact ⟨hi, hhistory ▸ hy.append fun z hz => absurd hz (hnone z), by simp [hending, hne.symm]⟩
  refine ⟨fun i hi y hy => ?_, fun i k' ticket' l' delivery' count hi => ?_,
    fun i k' ticket' l' delivery' hi => ?_, fun before y since hsplit hy => ?_, ?_⟩
  · have hne : i ≠ t := fun hit => by
      rcases hs' with ⟨e, rfl⟩ | ⟨rfl, -⟩ <;> simp [hstanding, hit, Stage.isNew] at hi
    rw [hstanding, if_neg hne] at hi
    rw [hhistory, List.mem_append] at hy
    exact hq.new i hi y (hy.resolve_right (hnone y))
  · have hne : i ≠ t := fun hit => by
      rcases hs' with ⟨e, rfl⟩ | ⟨rfl, -⟩ <;> simp [hstanding, hit] at hi
    have hi' := hi
    rw [hstanding, if_neg hne] at hi'
    obtain ⟨y, since, hy, hu, htask, hticket, hdelivery, hopen⟩ :=
      hq.applying i k' ticket' l' delivery' count hi'
    obtain ⟨-, hy', hsame⟩ := hkept i k' _ y since hne hi hy
    exact ⟨y, _, hy', huri _ _ hu, htask, hticket, hdelivery, hsame.trans hopen⟩
  · by_cases hit : i = t
    · subst hit
      rw [hstanding, if_pos rfl] at hi
      rcases hs' with ⟨e, rfl⟩ | ⟨rfl, rfl, hmore⟩
      · simp at hi
      · simp only [Option.some.injEq, Prod.mk.injEq, Stage.pausing.injEq] at hi
        obtain ⟨rfl, rfl, rfl, rfl⟩ := hi
        obtain ⟨y, since, hy, hu, htask, hticket, rfl, hopen⟩ :=
          hq.applying i k ticket l delivery count ht
        exact ⟨hmore, y, since ++ .taken i (.finished ()) :: es,
          hhistory ▸ hy.append fun z hz => absurd hz (hnone z), huri _ _ hu, htask, hticket, rfl,
          rfl, by simp [hending, hopen]⟩
    · have hi' := hi
      rw [hstanding, if_neg hit] at hi'
      obtain ⟨hmore, y, since, hy, hu, htask, hticket, hrecords, hindex, htaken⟩ :=
        hq.pausing i k' ticket' l' delivery' hi'
      obtain ⟨-, hy', hsame⟩ := hkept i k' _ y since hit hi hy
      exact ⟨hmore, y, _, hy', huri _ _ hu, htask, hticket, hrecords, hindex, hsame.trans htaken⟩
  · rw [hhistory] at hsplit
    obtain ⟨since', hsplit', rfl⟩ := exists_split_of_append (hnone y) hsplit
    rw [hending, Option.or_eq_none_iff] at hy
    have hne : y.task ≠ t := fun hit => by simp [hit] at hy
    obtain ⟨k', ticket', l', delivery', count', hi, hu⟩ :=
      hq.under_way before y since' hsplit' hy.1
    exact ⟨k', ticket', l', delivery', count', by rw [hstanding, if_neg hne, hi], huri _ _ hu⟩
  · exact hhistory ▸ hq.ordered.append hnone

theorem Event.aside_frame {e : Event ρ} (he : e.isAside = true) :
    e.handover? = none ∧ ∀ t, e.ending? t = none := by
  cases e <;> simp_all [Event.isAside, Event.handover?, Event.ending?]

theorem Sequenced.move (hq : w.Sequenced h) {t k : Nat} {s s' : Stage ρ}
    (ht : w.standing? t = some (k, s)) (hhistory : w'.history = w.history ++ es)
    (hstanding : ∀ i, w'.standing? i = if i = t then some (k, s') else w.standing? i)
    (huri : ∀ k u, w.uri? k = some u → w'.uri? k = some u)
    (hes : ∀ e ∈ es, e.handover? = none ∧ ∀ t, e.ending? t = none)
    (hnew : s'.isNew = true → s.isNew = true)
    (hs : s.isApplying = false) (hs' : s'.delivery? = none) : w'.Sequenced h := by
  refine hq.quiet hhistory hes huri (fun i hi => ?_) (fun i k' ticket l delivery count hi => ?_)
    (fun i k' ticket l delivery hi => ?_) (fun i k' ticket l delivery count hi => ?_)
  · by_cases hit : i = t
    · subst hit
      refine .inr ⟨k, s, ht, hnew ?_⟩
      simpa [hstanding] using hi
    · simpa [hstanding, hit] using hi
  · have hne : i ≠ t := fun hit => by
      simp only [hstanding, hit, if_true, Option.some.injEq, Prod.mk.injEq] at hi
      simp [hi.2, Stage.delivery?] at hs'
    exact ⟨count, by simpa [hstanding, hne] using hi⟩
  · have hne : i ≠ t := fun hit => by
      simp only [hstanding, hit, if_true, Option.some.injEq, Prod.mk.injEq] at hi
      simp [hi.2, Stage.delivery?] at hs'
    simpa [hstanding, hne] using hi
  · have hne : i ≠ t := fun hit => by
      obtain ⟨-, rfl⟩ := Prod.mk.inj (Option.some.inj (ht.symm.trans (hit ▸ hi)))
      simp [Stage.isApplying] at hs
    exact ⟨count, by simpa [hstanding, hne] using hi⟩

theorem Sequenced.revisit (hq : w.Sequenced h) {t k l count : Nat} {ticket : Ticket}
    {delivery : Delivery ρ} (ht : w.standing? t = some (k, .applying ticket l delivery count))
    (hhistory : w'.history = w.history)
    (hstanding : ∀ i, w'.standing? i =
      if i = t then some (k, .applying ticket l delivery (count + 1)) else w.standing? i)
    (huri : ∀ k u, w.uri? k = some u → w'.uri? k = some u) : w'.Sequenced h := by
  have hnothing : w'.history = w.history ++ [] := by simp [hhistory]
  refine hq.quiet hnothing (by simp) huri (fun i hi => ?_)
    (fun i k' ticket' l' delivery' count' hi => ?_) (fun i k' ticket' l' delivery' hi => ?_)
    (fun i k' ticket' l' delivery' count' hi => ?_)
  all_goals by_cases hit : i = t
  · subst hit
    simp [hstanding, Stage.isNew] at hi
  · simpa [hstanding, hit] using hi
  · subst hit
    simp only [hstanding, if_true, Option.some.injEq, Prod.mk.injEq,
      Stage.applying.injEq] at hi
    obtain ⟨rfl, rfl, rfl, rfl, -⟩ := hi
    exact ⟨count, ht⟩
  · exact ⟨count', by simpa [hstanding, hit] using hi⟩
  · simp [hstanding, hit] at hi
  · simpa [hstanding, hit] using hi
  · subst hit
    simp only [ht, Option.some.injEq, Prod.mk.injEq, Stage.applying.injEq] at hi
    obtain ⟨rfl, rfl, rfl, rfl, -⟩ := hi
    exact ⟨count + 1, by simp [hstanding]⟩
  · exact ⟨count', by simpa [hstanding, hit] using hi⟩

theorem Sequenced.course (hq : w.Sequenced h) (hr : w.Ruled) (hcourse : w.Course h w')
    (huri : ∀ k u, w.uri? k = some u → w'.uri? k = some u) : w'.Sequenced h := by
  cases hcourse with
  | aside hes hhistory hstanding =>
      refine hq.quiet hhistory (fun e he => Event.aside_frame (hes e he)) huri ?_ ?_ ?_ ?_
      all_goals simp only [hstanding]
      · exact fun _ => id
      · exact fun _ _ _ _ _ count ht => ⟨count, ht⟩
      · exact fun _ _ _ _ _ => id
      · exact fun _ _ _ _ _ count ht => ⟨count, ht⟩
  | start k hhistory hstanding =>
      have hlast := standing?_length w
      refine hq.quiet (show w'.history = w.history ++ [] by simp [hhistory]) (by simp) huri (fun t ht => ?_)
        (fun t k' ticket l delivery count ht => ?_) (fun t k' ticket l delivery ht => ?_)
        (fun t k' ticket l delivery count ht => ⟨count, ?_⟩)
      · by_cases hlt : t = w.tasks.length
        · exact .inl (hlt ▸ hlast)
        · simpa [hstanding, hlt] using ht
      · rw [hstanding] at ht
        split at ht
        · simp at ht
        · exact ⟨count, ht⟩
      · rw [hstanding] at ht
        split at ht
        · simp at ht
        · exact ht
      · have hne : t ≠ w.tasks.length := fun hlt => by simp [hlt, hlast] at ht
        rw [hstanding, if_neg hne, ht]
  | @move t k s s' es ht hleads hhistory hstanding =>
      cases hleads with
      | hand hd hv hs =>
          refine hq.hand hr ht hd hv ?_ hhistory hstanding huri
          refine hs.imp_right ?_
          rintro ⟨hs, -, records, -, hdelivery, -⟩
          exact ⟨hs, records, hdelivery⟩
      | taken hmore ticket l count =>
          exact hq.taken ht (.inr ⟨rfl, rfl, hmore⟩) (by simp) hhistory hstanding huri
      | last ticket l delivery count ending ending' d? =>
          refine hq.taken ht (.inl ⟨ending', rfl⟩) ?_ hhistory hstanding huri
          simp [Event.handover?, Event.ending?]
      | revisit ticket l delivery count =>
          exact hq.revisit ht (by simpa using hhistory) hstanding huri
      | draw hd =>
          exact hq.move ht hhistory hstanding huri (by simp [Event.handover?, Event.ending?])
            (fun _ => rfl) rfl rfl
      | ask hd =>
          exact hq.move ht hhistory hstanding huri (by simp [Event.handover?, Event.ending?])
            (by simp [Stage.isNew]) rfl rfl
      | answer hs ending =>
          refine hq.move ht hhistory hstanding huri (by simp) (by simp [Stage.isNew]) ?_ rfl
          rcases hs with rfl | rfl <;> rfl
      | acquire hd hl ticket =>
          exact hq.move ht hhistory hstanding huri (by simp) (fun _ => rfl) rfl rfl
      | queue hd hl ticket =>
          exact hq.move ht hhistory hstanding huri (by simp) (fun _ => rfl) rfl rfl
      | wake ticket l =>
          exact hq.move ht hhistory hstanding huri (by simp) (fun _ => rfl) rfl rfl
      | close hs ending d? =>
          exact hq.move ht hhistory hstanding huri (by simp [Event.handover?, Event.ending?])
            (by simp [Stage.isNew]) hs rfl

theorem ruled_sequenced_acts (h : Host η ρ) (host : η) (as : List (Act ρ)) :
    ((initial host).acts h as).Ruled ∧ ((initial host).acts h as).Sequenced h := by
  refine acts_induction (P := fun w => w.Ruled ∧ w.Sequenced h) (fun w a hw => ?_)
    ⟨ruled_initial host, sequenced_initial h host⟩ as
  refine act_induction (P := fun w => w.Ruled ∧ w.Sequenced h) ?_ ?_ ?_ hw a
  · rintro free v v' hs ⟨hr, hq⟩
    exact ⟨hr.step hs, hq.course hr hs.course fun _ _ => hs.uri?⟩
  · rintro v c ⟨hr, hq⟩
    exact ⟨hr.begin c, hq.course hr (course_beginComputation c)
      fun _ _ hu => (uri?_beginComputation c).trans hu⟩
  · rintro v c ⟨hr, hq⟩
    exact ⟨hr.settle h c, hq.course hr (course_settleComputation c)
      fun _ _ hu => (uri?_settleComputation c).trans hu⟩

end World

theorem taken_mem_of_endingOf? {t : Nat} {since : List (Event ρ)}
    (ht : (endingOf? t since).isSome = true) : ∃ ending, .taken t ending ∈ since := by
  obtain ⟨ending, hending⟩ := Option.isSome_iff_exists.mp ht
  obtain ⟨e, he, hsome⟩ := List.exists_of_findSome?_eq_some hending
  cases e <;> simp_all [Event.ending?]
  exact ⟨ending, hsome.1 ▸ he⟩

/-- Whatever order things happen in, at any moment of a run: no chunk is offered at an address
before the one that was offered there last is taken; the chunks of an address come in runs, each
from the beginning of another refresh; and a consumer that starts anew with each first chunk has the
first records of one refresh, where it has every chunk whose call came to a good end and any others
that were offered. -/
theorem runs_of_handed (h : Host η ρ) (host : η) (as : List (Act ρ)) (past : List (Event ρ))
    (hpast : past <+: ((initial host).acts h as).history) (uri : String) :
    (∀ before x between y after,
      past = before ++ .handed x :: between ++ .handed y :: after → x.uri = y.uri →
      ∃ ending, .taken x.task ending ∈ between) ∧
    (∃ runs : List (List (Handover ρ)), handedAt uri past = runs.flatten ∧
      (∀ run ∈ runs, IsRun h run) ∧
      runs.Pairwise fun run run' => ∀ x ∈ run, ∀ y ∈ run', x.task ≠ y.task) ∧
    ∀ keeps : Handover ρ → Bool,
      (∀ before x since, past = before ++ .handed x :: since →
        endingOf? x.task since = some (.finished ()) → keeps x = true) →
      shown ((handedAt uri past).filter keeps) = [] ∨
        ∃ x ∈ handedAt uri past, shown ((handedAt uri past).filter keeps) <+: x.delivery.records := by
  obtain ⟨future, hfuture⟩ := hpast
  have ho : Ordered h past := by
    have hall := (ruled_sequenced_acts h host as).2.ordered
    rw [← hfuture] at hall
    exact hall.of_append
  refine ⟨fun before x between y after hsplit huri => ?_, ho.runs uri,
    fun keeps hkeeps => (ho.shown uri hkeeps).1⟩
  exact taken_mem_of_endingOf? ((ho _ y after hsplit).alone before x between rfl huri)

/-- A document is forgotten while its first chunk is being taken, and refreshed anew. -/
def forgottenSpelling : List (Act Char) :=
  [.openDocument ⟨"a", 1, "css", "xy"⟩, .start .refresh 0, .turn 0, .turn 0, .turn 0, .turn 0,
    .turn 0, .obey (.forget "a"), .start .refresh 0, .turn 1, .turn 0, .turn 0, .turn 0, .turn 0,
    .turn 0, .turn 0, .turn 0]

open World in
theorem runs_of_handed_forgottenSpelling :
    let history := ((initial ()).acts (Host.spelling 1) forgottenSpelling).history
    let x : Handover Char :=
      ⟨0, "a", ⟨1, 1⟩, ⟨['x', 'y'], 0, 0⟩, ['x'], some ⟨"a", 1, "css", "xy"⟩, some 1⟩
    let y : Handover Char :=
      ⟨1, "a", ⟨1, 2⟩, ⟨['x', 'y'], 0, 0⟩, ['x'], some ⟨"a", 1, "css", "xy"⟩, some 2⟩
    let between : List (Event Char) := (history.drop 2).take 4
    history <+: history ∧
      history = history.take 1 ++ .handed x :: between ++ .handed y :: [] ∧ x.uri = y.uri ∧
      (∃ ending, .taken x.task ending ∈ between) ∧
      (∃ runs : List (List (Handover Char)), handedAt "a" history = runs.flatten ∧
        (∀ run ∈ runs, IsRun (Host.spelling 1) run) ∧
        runs.Pairwise fun run run' => ∀ x ∈ run, ∀ y ∈ run', x.task ≠ y.task) ∧
      (shown ((handedAt "a" history).filter fun _ => true) = [] ∨
        ∃ x ∈ handedAt "a" history,
          shown ((handedAt "a" history).filter fun _ => true) <+: x.delivery.records) := by
  intro history x y between
  have hsplit : history = history.take 1 ++ .handed x :: between ++ .handed y :: [] := by decide
  obtain ⟨hapart, hruns, hshown⟩ := runs_of_handed (Host.spelling 1) () forgottenSpelling history
    (List.prefix_refl _) "a"
  exact ⟨List.prefix_refl _, hsplit, rfl, hapart _ x between y [] hsplit rfl, hruns,
    hshown (fun _ => true) fun _ _ _ _ _ => rfl⟩

end Swatch

import Mathlib.Algebra.Order.Floor.Div
import Swatch.Proofs.Refresh.Return

/-!
What one refresh hands on. Its records are cut into pieces of one size, and it offers them one after
the other, from the first one on. Main statement: whenever a refresh is stopped, the chunks that it
has offered are the first pieces of what it found, as many records as its outcome counts; a refresh
that comes to its end has offered all of them, and a single empty chunk if it found nothing.
-/

namespace Swatch

open World

variable {η ρ : Type}

def handedBy (t : Nat) (history : List (Event ρ)) : List (Handover ρ) :=
  (history.filterMap Event.handover?).filter (·.task = t)

/-- The piece at a place of records that are cut into pieces of one size. -/
def piece (size : Nat) (records : List ρ) (i : Nat) : List ρ :=
  (records.drop (i * size)).take size

/-- Chunks are the first pieces of some records. Behind the first one there is none that is empty. -/
structure IsCut (size : Nat) (records : List ρ) (chunks : List (Handover ρ)) : Prop where
  source : ∀ x ∈ chunks, x.delivery.records = records
  pieces : chunks.map (fun x => (x.index, x.chunk)) =
    (List.range chunks.length).map fun i => (i, piece size records i)
  few : ∀ n, chunks.length = n + 2 → (n + 1) * size < records.length

/-- An outcome tells of the chunks that were offered how many records they have, and whether they
are all. -/
structure Outcome.Accounts (size : Nat) (o : Outcome ρ) (chunks : List (Handover ρ)) : Prop where
  isCut : IsCut size o.records chunks
  applied : o.applied = min (chunks.length * size) o.records.length
  all : o.status = .applied → chunks ≠ [] ∧ o.records.length ≤ chunks.length * size
  part : o.status ≠ .applied → chunks.length * size ≤ o.records.length

/-! ### Pieces -/

section Pieces

variable {size : Nat} {records : List ρ} {chunks : List (Handover ρ)} {x : Handover ρ}

theorem flatten_map_piece (size : Nat) (records : List ρ) (n : Nat) :
    ((List.range n).map (piece size records)).flatten = records.take (n * size) := by
  induction n with
  | zero => simp
  | succ n ih =>
      rw [List.range_succ, List.map_append, List.flatten_append, ih, Nat.succ_mul, List.take_add]
      simp [piece]

theorem length_piece_of_le {i : Nat} (hi : (i + 1) * size ≤ records.length) :
    (piece size records i).length = size := by
  rw [Nat.succ_mul] at hi
  simp only [piece, List.length_take, List.length_drop]
  omega

theorem length_piece_of_ge {i : Nat} (hi : records.length ≤ (i + 1) * size) :
    (piece size records i).length = records.length - i * size := by
  rw [Nat.succ_mul] at hi
  simp only [piece, List.length_take, List.length_drop]
  omega

theorem isCut_nil (size : Nat) (records : List ρ) : IsCut size records [] :=
  ⟨by simp, rfl, by simp⟩

theorem IsCut.concat (hc : IsCut size records chunks) (hsource : x.delivery.records = records)
    (hindex : x.index = chunks.length) (hchunk : x.chunk = piece size records chunks.length)
    (hmore : chunks = [] ∨ chunks.length * size < records.length) :
    IsCut size records (chunks ++ [x]) := by
  refine ⟨fun y hy => ?_, ?_, fun n hn => ?_⟩
  · rcases List.mem_append.mp hy with hy | hy
    · exact hc.source y hy
    · exact List.mem_singleton.mp hy ▸ hsource
  · rw [List.map_append, hc.pieces, List.length_append, List.length_singleton, List.range_succ,
      List.map_append, List.map_singleton, List.map_singleton, hindex, hchunk]
  · have hlength : chunks.length = n + 1 := by simpa using hn
    exact hlength ▸ hmore.resolve_left fun hnil => by simp [hnil] at hn

theorem IsCut.indexes (hc : IsCut size records chunks) :
    chunks.map Handover.index = List.range chunks.length := by
  simpa [Function.comp_def] using congrArg (List.map Prod.fst) hc.pieces

theorem IsCut.map_chunk (hc : IsCut size records chunks) :
    chunks.map Handover.chunk = (List.range chunks.length).map (piece size records) := by
  simpa [Function.comp_def] using congrArg (List.map Prod.snd) hc.pieces

theorem IsCut.flatten (hc : IsCut size records chunks) :
    (chunks.map Handover.chunk).flatten = records.take (chunks.length * size) := by
  rw [hc.map_chunk, flatten_map_piece]

/-- Only the last one of all pieces may be shorter than the others. -/
theorem IsCut.length_chunk (hc : IsCut size records chunks) (hsize : 0 < size) {i : Nat}
    (hx : chunks[i]? = some x) (hi : i + 1 < records.length ⌈/⌉ size) : x.chunk.length = size := by
  have hchunk : x.chunk = piece size records i := by
    have hget := congrArg (·[i]?) hc.map_chunk
    simpa [hx, List.getElem?_range (List.getElem?_eq_some_iff.mp hx).1] using hget
  rw [hchunk]
  refine length_piece_of_le (Nat.le_of_lt (Nat.lt_of_not_le fun hle => ?_))
  rw [Nat.mul_comm] at hle
  exact absurd hi (Nat.not_lt.mpr ((ceilDiv_le_iff_le_mul hsize).mpr hle))

/-- Whoever has offered all pieces has offered as many as there are, and one that is empty if there
are no records. -/
theorem IsCut.length_eq (hc : IsCut size records chunks) (hsize : 0 < size) (hne : chunks ≠ [])
    (hall : records.length ≤ chunks.length * size) :
    chunks.length = max 1 (records.length ⌈/⌉ size) := by
  have hpos := List.length_pos_of_ne_nil hne
  have hle : records.length ⌈/⌉ size ≤ chunks.length :=
    (ceilDiv_le_iff_le_mul hsize).mpr (Nat.mul_comm .. ▸ hall)
  obtain hone | ⟨n, hn⟩ : chunks.length = 1 ∨ ∃ n, chunks.length = n + 2 := by
    rcases hlength : chunks.length with _ | _ | n
    · omega
    · exact .inl rfl
    · exact .inr ⟨n, rfl⟩
  · omega
  · have hlt : ¬records.length ⌈/⌉ size ≤ n + 1 := fun hfew => by
      have hfew' := (ceilDiv_le_iff_le_mul hsize).mp hfew
      rw [Nat.mul_comm] at hfew'
      exact absurd (hc.few n hn) (Nat.not_lt.mpr hfew')
    omega

end Pieces

theorem handedBy_append (t : Nat) (past future : List (Event ρ)) :
    handedBy t (past ++ future) = handedBy t past ++ handedBy t future := by
  simp [handedBy]

theorem handedBy_eq_nil {t : Nat} {es : List (Event ρ)}
    (hes : ∀ x, .handed x ∈ es → x.task ≠ t) : handedBy t es = [] := by
  refine List.eq_nil_iff_forall_not_mem.mpr fun x hx => ?_
  simp only [handedBy, List.mem_filter, List.mem_filterMap, decide_eq_true_eq] at hx
  obtain ⟨⟨e, he, hhanded⟩, htask⟩ := hx
  cases e <;> simp only [Event.handover?, Option.some.injEq, reduceCtorEq] at hhanded
  exact hes x (hhanded ▸ he) htask

/-! ### Whatever happens, a refresh offers the pieces in order -/

/-- What the chunks are that a task at a stage has offered. -/
def Stage.Offered (size : Nat) (chunks : List (Handover ρ)) : Stage ρ → Prop
  | .applying _ _ delivery _ =>
      IsCut size delivery.records chunks ∧ chunks.length = delivery.index + 1 ∧
        delivery.applied = delivery.index * size
  | .pausing _ _ delivery =>
      IsCut size delivery.records chunks ∧ chunks.length = delivery.index ∧
        delivery.applied = delivery.index * size ∧
        delivery.index * size < delivery.records.length
  | .ended _ => ∃ records, IsCut size records chunks
  | _ => chunks = []

namespace World

/-- Every task has offered what it has come to, and a refresh that has returned says so. -/
structure Partitioned (h : Host η ρ) (w : World η ρ) : Prop where
  absent : ∀ t, w.standing? t = none → handedBy t w.history = []
  offered : ∀ t k s, w.standing? t = some (k, s) → s.Offered h.chunkSize (handedBy t w.history)
  returned : ∀ t o d?, .returned t (.finished o) d? ∈ w.history →
    o.Accounts h.chunkSize (handedBy t w.history) ∧ ∃ k e, w.standing? t = some (k, .ended e)

variable {h : Host η ρ} {w w' : World η ρ} {t k : Nat} {s s' : Stage ρ} {es : List (Event ρ)}

theorem partitioned_initial (h : Host η ρ) (host : η) : (initial host).Partitioned h := by
  refine ⟨?_, ?_, ?_⟩ <;> simp [initial, standing?, handedBy]

theorem Leads.task_of_handed (hleads : w.Leads h t k s es s') {x : Handover ρ}
    (hx : .handed x ∈ es) : x.task = t := by
  cases hleads with
  | hand =>
      obtain rfl := Event.handed.inj (List.mem_singleton.mp hx)
      rfl
  | _ => simp at hx

theorem Leads.task_of_returned (hleads : w.Leads h t k s es s') {i : Nat}
    {ending : Ending (Outcome ρ)} {d? : Option Document} (hi : .returned i ending d? ∈ es) :
    i = t ∧ s' = .ended ending := by
  cases hleads with
  | last | close => simp_all
  | _ => simp at hi

theorem Leads.ended_of_ended {ending : Ending (Outcome ρ)}
    (hleads : w.Leads h t k (.ended ending) es s') : ∃ ending', s' = .ended ending' := by
  cases hleads with
  | answer hs => simp at hs
  | hand _ _ hs => simp at hs
  | close _ ending' => exact ⟨ending', rfl⟩

/-- The only steps that offer a chunk are those that hand one on. -/
theorem Leads.handedBy_eq (hleads : w.Leads h t k s es s') :
    handedBy t es = [] ∨ ∃ d ticket l delivery, w.documents[k]? = some d ∧
      s' = .applying ticket l delivery 0 ∧ es = [.handed (w.offer h t d.uri ticket delivery)] ∧
      (s = .pausing ticket l delivery ∨ s = .computing ticket l ∧ ∃ records,
        delivery = ⟨records, 0, 0⟩) := by
  cases hleads with
  | @hand d s ticket l delivery hd hv hs =>
      refine .inr ⟨d, ticket, l, delivery, hd, rfl, rfl, hs.imp_right ?_⟩
      rintro ⟨hs, -, records, -, hdelivery, -⟩
      exact ⟨hs, records, hdelivery⟩
  | _ => exact .inl (handedBy_eq_nil (by simp))

/-- To offer one more chunk is to go on from what was offered before. -/
theorem Stage.Offered.hand {chunks : List (Handover ρ)} (ho : s.Offered h.chunkSize chunks)
    {ticket : Ticket} {l : Nat} {delivery : Delivery ρ} (uri : String)
    (hs : s = .pausing ticket l delivery ∨ s = .computing ticket l ∧ ∃ records,
      delivery = ⟨records, 0, 0⟩) :
    (Stage.applying ticket l delivery 0).Offered h.chunkSize
      (chunks ++ [w.offer h t uri ticket delivery]) := by
  rcases hs with rfl | ⟨rfl, records, rfl⟩
  · obtain ⟨hcut, hlength, happlied, hmore⟩ := ho
    refine ⟨hcut.concat rfl hlength.symm (hlength ▸ rfl) (.inr (hlength ▸ hmore)), by simp [hlength],
      happlied⟩
  · obtain rfl : chunks = [] := ho
    exact ⟨(isCut_nil ..).concat rfl rfl rfl (.inl rfl), rfl, (Nat.zero_mul _).symm⟩

/-- What a refresh says that comes to its end at a stage is what it has offered. -/
theorem Concludes.accounts {o : Outcome ρ} {chunks : List (Handover ρ)}
    (hends : w.Concludes h k s (.finished o)) (ho : s.Offered h.chunkSize chunks) :
    o.Accounts h.chunkSize chunks := by
  have hnone : ∀ (o : Outcome ρ), o.applied = 0 → o.status ≠ .applied →
      o.Accounts h.chunkSize [] := fun o happlied hstatus =>
    ⟨isCut_nil .., by simp [happlied], fun heq => absurd heq hstatus, by simp⟩
  cases hends with
  | skipped hd hskip =>
      obtain rfl : chunks = [] := ho
      exact hnone _ rfl (by simp)
  | superseded hd hc =>
      obtain rfl : chunks = [] := ho
      exact hnone _ rfl (by simp)
  | @stopped d _ ticket status records applied hd hs hv hreports =>
      have hstatus : status ≠ .applied := by
        rcases verdict?_eq_some hv with ⟨rfl, -⟩ | ⟨rfl, -⟩ <;> simp
      cases s with
      | pausing ticket' l delivery =>
          obtain ⟨rfl, rfl⟩ := hreports
          obtain ⟨hcut, hlength, happlied, hmore⟩ := ho
          rw [← hlength] at happlied hmore
          exact ⟨hcut, happlied.trans (Nat.min_eq_left hmore.le).symm,
            fun heq => absurd heq hstatus, fun _ => hmore.le⟩
      | applying => exact hreports.elim
      | debouncing | queueing | computing =>
          obtain rfl : chunks = [] := ho
          exact hnone _ hreports hstatus
      | starting | detecting | ended | answered => simp [Stage.ticket?] at hs
  | @applied delivery hdone ticket l count =>
      obtain ⟨hcut, hlength, happlied⟩ := ho
      have hle : delivery.index * h.chunkSize ≤ delivery.records.length := by
        rcases hindex : delivery.index with _ | n
        · simp
        · exact (hcut.few n (by rw [hlength, hindex])).le
      have hpiece : (nextChunk h delivery).length =
          delivery.records.length - delivery.index * h.chunkSize := length_piece_of_ge hdone
      refine ⟨hcut, ?_, fun _ => ⟨?_, hlength ▸ hdone⟩, by simp⟩
      · rw [hlength, Nat.min_eq_right hdone]
        simp only [afterChunk, happlied, hpiece]
        omega
      · rw [← List.length_pos_iff, hlength]
        exact Nat.succ_pos _

theorem Leads.offered (hleads : w.Leads h t k s es s')
    (ho : s.Offered h.chunkSize (handedBy t w.history)) :
    s'.Offered h.chunkSize (handedBy t (w.history ++ es)) := by
  rw [handedBy_append]
  obtain hnone | ⟨d, ticket, l, delivery, hd, rfl, rfl, hs⟩ := hleads.handedBy_eq
  · rw [hnone, List.append_nil]
    cases hleads with
    | draw | ask | acquire | queue | wake => exact ho
    | answer hs =>
        rcases hs with rfl | rfl
        · exact ho
        · exact ho
    | hand hd hv hs => simp [handedBy, Event.handover?, offer] at hnone
    | revisit => exact ho
    | @taken delivery hmore =>
        obtain ⟨hcut, hlength, happlied⟩ := ho
        have hpiece : (nextChunk h delivery).length = h.chunkSize :=
          length_piece_of_le hmore.le
        refine ⟨hcut, hlength, ?_, hmore⟩
        simp only [afterChunk, happlied, hpiece, Nat.succ_mul]
    | last ticket l delivery => exact ⟨delivery.records, ho.1⟩
    | close hs =>
        cases s with
        | applying => simp [Stage.isApplying] at hs
        | pausing ticket l delivery => exact ⟨delivery.records, ho.1⟩
        | ended => exact ho
        | _ => exact ⟨[], ho ▸ isCut_nil ..⟩
  · have hone : handedBy t [.handed (w.offer h t d.uri ticket delivery)] =
        [w.offer h t d.uri ticket delivery] := by simp [handedBy, Event.handover?, offer]
    rw [hone]
    exact Stage.Offered.hand ho d.uri hs

theorem Partitioned.still (hp : w.Partitioned h) (hhistory : w'.history = w.history ++ es)
    (hes : ∀ e ∈ es, e.isAside = true) (hstanding : ∀ i, w'.standing? i = w.standing? i) :
    w'.Partitioned h := by
  have hsame : ∀ t, handedBy t w'.history = handedBy t w.history := fun t => by
    have hnone : handedBy t es = [] :=
      handedBy_eq_nil fun x hx => absurd (hes _ hx) (by simp [Event.isAside])
    rw [hhistory, handedBy_append, hnone, List.append_nil]
  refine ⟨fun t ht => ?_, fun t k s ht => ?_, fun t o d? ho => ?_⟩
  · rw [hsame, hp.absent t (hstanding t ▸ ht)]
  · rw [hsame]
    exact hp.offered t k s (hstanding t ▸ ht)
  · rw [hsame, hstanding]
    refine hp.returned t o d? ((List.mem_append.mp (hhistory ▸ ho)).resolve_right fun hmem => ?_)
    exact absurd (hes _ hmem) (by simp [Event.isAside])

theorem Partitioned.move (hp : w.Partitioned h) (ht : w.standing? t = some (k, s))
    (hleads : w.Leads h t k s es s') (hhistory : w'.history = w.history ++ es)
    (hstanding : ∀ i, w'.standing? i = if i = t then some (k, s') else w.standing? i) :
    w'.Partitioned h := by
  have hothers : ∀ i, i ≠ t → handedBy i w'.history = handedBy i w.history := fun i hne => by
    have hnone : handedBy i es = [] :=
      handedBy_eq_nil fun x hx heq => hne (heq ▸ hleads.task_of_handed hx)
    rw [hhistory, handedBy_append, hnone, List.append_nil]
  refine ⟨fun i hi => ?_, fun i k' s'' hi => ?_, fun i o d? ho => ?_⟩
  · rw [hstanding] at hi
    split at hi
    · simp at hi
    · rename_i hne
      rw [hothers i hne, hp.absent i hi]
  · rw [hstanding] at hi
    split at hi
    · rename_i hit
      obtain ⟨rfl, rfl⟩ : k = k' ∧ s' = s'' := by simpa using hi
      rw [hit, hhistory]
      exact hleads.offered (hp.offered t k s ht)
    · rename_i hne
      rw [hothers i hne]
      exact hp.offered i k' s'' hi
  · rw [hhistory, List.mem_append] at ho
    rcases ho with ho | ho
    · -- One who has returned offers nothing more.
      obtain ⟨haccounts, k', ending, hi⟩ := hp.returned i o d? ho
      rw [hstanding]
      by_cases hit : i = t
      · subst hit
        obtain ⟨rfl, rfl⟩ : k = k' ∧ s = .ended ending := by simpa using ht.symm.trans hi
        obtain ⟨ending', rfl⟩ := hleads.ended_of_ended
        have hnone : handedBy i es = [] := by
          rcases hleads.handedBy_eq with hnone | ⟨d, ticket, l, delivery, -, hs, -⟩
          · exact hnone
          · simp at hs
        rw [hhistory, handedBy_append, hnone, List.append_nil, if_pos rfl]
        exact ⟨haccounts, k, ending', rfl⟩
      · rw [hothers i hit, if_neg hit]
        exact ⟨haccounts, k', ending, hi⟩
    · obtain ⟨rfl, rfl⟩ := hleads.task_of_returned ho
      refine ⟨?_, k, .finished o, by rw [hstanding, if_pos rfl]⟩
      have hnone : handedBy i es = [] := by
        rcases hleads.handedBy_eq with hnone | ⟨d, ticket, l, delivery, -, hs, -⟩
        · exact hnone
        · simp at hs
      rw [hhistory, handedBy_append, hnone, List.append_nil]
      have hoffered := hp.offered i k s ht
      cases hleads with
      | last ticket l delivery count ending ending' d? hd hends =>
          exact hends.accounts hoffered
      | close hs ending d? hd hends => exact hends.accounts hoffered

theorem Course.partitioned (hcourse : w.Course h w') (hp : w.Partitioned h) :
    w'.Partitioned h := by
  cases hcourse with
  | aside hes hhistory hstanding => exact hp.still hhistory hes hstanding
  | start k hhistory hstanding =>
      refine ⟨fun t ht => ?_, fun t k' s ht => ?_, fun t o d? ho => ?_⟩
      · rw [hstanding] at ht
        split at ht
        · simp at ht
        · rw [hhistory, hp.absent t ht]
      · rw [hstanding] at ht
        rw [hhistory]
        split at ht
        · rename_i hlast
          obtain ⟨-, rfl⟩ : k = k' ∧ .starting = s := by simpa using ht
          exact hp.absent t (hlast ▸ standing?_length w)
        · exact hp.offered t k' s ht
      · obtain ⟨haccounts, k', ending, ht⟩ := hp.returned t o d? (hhistory ▸ ho)
        have hne : t ≠ w.tasks.length := fun heq => by
          rw [heq, standing?_length] at ht
          simp at ht
        rw [hhistory, hstanding, if_neg hne]
        exact ⟨haccounts, k', ending, ht⟩
  | move ht hleads hhistory hstanding => exact hp.move ht hleads hhistory hstanding

theorem partitioned_acts (h : Host η ρ) (host : η) (as : List (Act ρ)) :
    ((initial host).acts h as).Partitioned h :=
  acts_induction (fun _ a => act_induction_course (fun _ _ hcourse => hcourse.partitioned) (a := a))
    (partitioned_initial h host) as

/-- At any time a task has offered the first pieces of some records. -/
theorem Partitioned.isCut (hp : w.Partitioned h) (t : Nat) :
    ∃ records, IsCut h.chunkSize records (handedBy t w.history) := by
  cases hstanding : w.standing? t with
  | none => exact ⟨[], hp.absent t hstanding ▸ isCut_nil ..⟩
  | some standing =>
      obtain ⟨k, s⟩ := standing
      have hoffered := hp.offered t k s hstanding
      cases s with
      | applying ticket l delivery => exact ⟨delivery.records, hoffered.1⟩
      | pausing ticket l delivery => exact ⟨delivery.records, hoffered.1⟩
      | ended => exact hoffered
      | _ => exact ⟨[], hoffered ▸ isCut_nil ..⟩

end World

/-- Chunks of the records that a refresh found are numbered from 0 on without a gap, each but the last
possible one is full, and together they are the beginning of the records. -/
structure Partitions (size : Nat) (records : List ρ) (chunks : List (Handover ρ)) : Prop where
  source : ∀ x ∈ chunks, x.delivery.records = records
  indexes : chunks.map Handover.index = List.range chunks.length
  full : ∀ (i : Nat) (x : Handover ρ), chunks[i]? = some x →
    i + 1 < records.length ⌈/⌉ size → x.chunk.length = size
  together : (chunks.map Handover.chunk).flatten <+: records

theorem IsCut.partitions {size : Nat} {records : List ρ} {chunks : List (Handover ρ)}
    (hc : IsCut size records chunks) (hsize : 0 < size) : Partitions size records chunks :=
  ⟨hc.source, hc.indexes, fun _ _ => hc.length_chunk hsize, hc.flatten ▸ List.take_prefix ..⟩

/-- Whatever order things happen in and wherever a refresh is stopped, the chunks that it has offered
are a beginning of the records that it found, in full chunks and in order. If it comes to its end by
itself, they are as many of the records that it found as it says. One that has not been stopped has
offered all of them, in as few chunks as can be, or one empty chunk if there are none; and one that
was stopped before its first chunk says that it has handed on nothing. -/
theorem partitions_of_handed (h : Host η ρ) (host : η) (as : List (Act ρ)) (t : Nat) :
    let history := ((initial host).acts h as).history
    let chunks := handedBy t history
    (∃ records, Partitions h.chunkSize records chunks) ∧
    ∀ o d?, .returned t (.finished o) d? ∈ history →
      Partitions h.chunkSize o.records chunks ∧
      (chunks.map Handover.chunk).flatten = o.records.take o.applied ∧
      o.applied ≤ o.records.length ∧
      (o.status = .applied → (chunks.map Handover.chunk).flatten = o.records ∧
        (o.records ≠ [] → chunks.length = o.records.length ⌈/⌉ h.chunkSize) ∧
        (o.records = [] → chunks.map (fun x => (x.index, x.chunk)) = [(0, [])])) ∧
      (o.status ≠ .applied → (chunks = [] ↔ o.applied = 0)) := by
  intro history chunks
  have hp := partitioned_acts h host as
  have hsize := h.chunkSize_pos
  refine ⟨(hp.isCut t).imp fun records hc => hc.partitions hsize, fun o d? ho => ?_⟩
  obtain ⟨⟨hc, happlied, hall, hpart⟩, -⟩ := hp.returned t o d? ho
  have hflatten : (chunks.map Handover.chunk).flatten = o.records.take o.applied := by
    rw [happlied, ← List.take_eq_take_min]
    exact hc.flatten
  refine ⟨hc.partitions hsize, hflatten, happlied ▸ Nat.min_le_right .., fun hstatus => ?_,
    fun hstatus => ?_⟩
  · obtain ⟨hne, hmany⟩ := hall hstatus
    have hlength := hc.length_eq hsize hne hmany
    refine ⟨hc.flatten.trans (List.take_of_length_le hmany), fun hrecords => ?_, fun hrecords => ?_⟩
    · have hpos : ¬o.records.length ⌈/⌉ h.chunkSize ≤ 0 := fun hzero => by
        have hnone := (ceilDiv_le_iff_le_mul hsize).mp hzero
        exact hrecords (List.length_eq_zero_iff.mp (by simpa using hnone))
      exact hlength.trans (Nat.max_eq_right (by omega))
    · have hone : chunks.length = 1 := by simpa [hrecords] using hlength
      have hpieces := hc.pieces
      rw [hrecords] at hpieces
      exact hpieces.trans (by rw [hone]; simp [piece])
  · rw [happlied, Nat.min_eq_left (hpart hstatus), Nat.mul_eq_zero, List.length_eq_zero_iff]
    exact ⟨.inl, fun hnone => hnone.resolve_right hsize.ne'⟩

/-- A host that hands on two characters at once. -/
def Host.pairing : Host Unit Char :=
  { Host.spelling 0 with chunkSize := 2, chunkSize_pos := Nat.two_pos }

/-- A document is edited when its first chunk has been taken. -/
def retypedSpelling : List (Act Char) :=
  [.openDocument ⟨"a", 1, "css", "xyz"⟩, .start .refresh 0, .turn 0, .turn 0, .turn 0, .turn 0,
    .turn 0, .edit 0 "xyz!", .turn 0]

theorem partitions_of_handed_retypedSpelling :
    let history := ((initial ()).acts Host.pairing retypedSpelling).history
    let o : Outcome Char := ⟨.stale, 1, ['x', 'y', 'z'], 2⟩
    .returned 0 (.finished o) (some ⟨"a", 2, "css", "xyz!"⟩) ∈ history ∧
      (handedBy 0 history).map (fun x => (x.index, x.chunk)) = [(0, ['x', 'y'])] ∧
      Partitions 2 o.records (handedBy 0 history) ∧
      ((handedBy 0 history).map Handover.chunk).flatten = o.records.take o.applied := by
  intro history o
  have ho : .returned 0 (.finished o) (some ⟨"a", 2, "css", "xyz!"⟩) ∈ history := by decide
  obtain ⟨-, hreturned⟩ := partitions_of_handed Host.pairing () retypedSpelling 0
  obtain ⟨hpartitions, hflatten, -⟩ := hreturned o _ ho
  exact ⟨ho, by decide, hpartitions, hflatten⟩

end Swatch

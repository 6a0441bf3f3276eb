import Swatch.Proofs.Refresh.Sequence

/-!
What a world never loses. Tasks keep their documents, the version of a document only rises, and a
computation keeps the document that it was begun with and the records that it ended with.
-/

namespace Swatch

variable {η ρ : Type}

structure Document.Becomes (d d' : Document) : Prop where
  uri : d.uri = d'.uri
  le : d.version ≤ d'.version
  eq_of_version : d.version = d'.version → d = d'

theorem Document.becomes_refl (d : Document) : d.Becomes d :=
  ⟨rfl, Int.le_refl _, fun _ => rfl⟩

theorem Document.Becomes.trans {d d' d'' : Document} (hd : d.Becomes d') (hd' : d'.Becomes d'') :
    d.Becomes d'' := by
  refine ⟨hd.uri.trans hd'.uri, Int.le_trans hd.le hd'.le, ?_⟩
  intro hversion
  have hle := hd.le
  have hle' := hd'.le
  rw [hd.eq_of_version (by omega), hd'.eq_of_version (by omega)]

theorem Document.becomes_edit (d : Document) (text : String) : d.Becomes (d.edit text) := by
  refine ⟨rfl, ?_, ?_⟩
  · show d.version ≤ d.version + 1
    omega
  · intro hversion
    have : d.version = d.version + 1 := hversion
    omega

structure Computation.Becomes (y y' : Computation ρ) : Prop where
  document : y'.document = y.document
  starter : y'.starter = y.starter
  callers : ∀ t ∈ y.callers, t ∈ y'.callers
  ended : ∀ ending, y.state = .ended ending → y'.state = .ended ending

theorem Computation.becomes_refl (y : Computation ρ) : y.Becomes y :=
  ⟨rfl, rfl, fun _ => id, fun _ => id⟩

theorem Computation.Becomes.trans {y y' y'' : Computation ρ} (hy : y.Becomes y')
    (hy' : y'.Becomes y'') : y.Becomes y'' := by
  refine ⟨hy'.document.trans hy.document, hy'.starter.trans hy.starter, ?_, ?_⟩
  · intro t ht
    exact hy'.callers t (hy.callers t ht)
  · intro ending hending
    exact hy'.ended ending (hy.ended ending hending)

namespace World

/-- A world keeps what another one has. -/
structure Grows (w w' : World η ρ) : Prop where
  tasks : ∀ t k s, w.standing? t = some (k, s) → ∃ s', w'.standing? t = some (k, s')
  documents : ∀ (k : Nat) (d : Document), w.documents[k]? = some d →
    ∃ d' : Document, w'.documents[k]? = some d' ∧ d.Becomes d'
  computations : ∀ (c : Nat) (y : Computation ρ), w.computations[c]? = some y →
    ∃ y' : Computation ρ, w'.computations[c]? = some y' ∧ y.Becomes y'

variable {h : Host η ρ} {w w' v : World η ρ}

theorem grows_refl (w : World η ρ) : w.Grows w := by
  refine ⟨fun t k s ht => ⟨s, ht⟩, fun k d hd => ⟨d, hd, d.becomes_refl⟩, ?_⟩
  intro c y hy
  exact ⟨y, hy, y.becomes_refl⟩

theorem Grows.trans (hg : w.Grows w') (hg' : w'.Grows v) : w.Grows v := by
  refine ⟨?_, ?_, ?_⟩
  · intro t k s ht
    obtain ⟨s', ht'⟩ := hg.tasks t k s ht
    exact hg'.tasks t k s' ht'
  · intro k d hd
    obtain ⟨d', hd', hbecomes⟩ := hg.documents k d hd
    obtain ⟨d'', hd'', hbecomes'⟩ := hg'.documents k d' hd'
    exact ⟨d'', hd'', hbecomes.trans hbecomes'⟩
  · intro c y hy
    obtain ⟨y', hy', hbecomes⟩ := hg.computations c y hy
    obtain ⟨y'', hy'', hbecomes'⟩ := hg'.computations c y' hy'
    exact ⟨y'', hy'', hbecomes.trans hbecomes'⟩

theorem Course.standing?_of_some (hcourse : w.Course h w') (t k : Nat) (s : Stage ρ)
    (ht : w.standing? t = some (k, s)) : ∃ s', w'.standing? t = some (k, s') := by
  cases hcourse with
  | aside hes hhistory hstanding => exact ⟨s, by rw [hstanding, ht]⟩
  | start k' hhistory hstanding =>
      refine ⟨s, ?_⟩
      rw [hstanding, if_neg, ht]
      rintro rfl
      simp [standing?_length] at ht
  | @move i k' s₁ s₂ es hi hleads hhistory hstanding =>
      rw [hstanding]
      split
      · rename_i hti
        obtain ⟨rfl, rfl⟩ := Prod.mk.inj (Option.some.inj (ht.symm.trans (hti ▸ hi)))
        exact ⟨s₂, rfl⟩
      · exact ⟨s, ht⟩

theorem Course.grows (hcourse : w.Course h w')
    (hdocuments : ∀ (k : Nat) (d : Document), w.documents[k]? = some d →
      ∃ d', w'.documents[k]? = some d' ∧ d.Becomes d')
    (hcomputations : w'.computations = w.computations) : w.Grows w' := by
  refine ⟨hcourse.standing?_of_some, hdocuments, ?_⟩
  intro c y hy
  rw [hcomputations]
  exact ⟨y, hy, y.becomes_refl⟩

theorem Course.grows_of_eq (hcourse : w.Course h w') (hdocuments : w'.documents = w.documents)
    (hcomputations : w'.computations = w.computations) : w.Grows w' := by
  refine hcourse.grows ?_ hcomputations
  intro k d hd
  exact ⟨d, by rw [hdocuments, hd], d.becomes_refl⟩

theorem documents_editAt (w : World η ρ) (i k : Nat) (text : String) {d : Document}
    (hd : w.documents[k]? = some d) :
    ∃ d', (w.editAt i text).documents[k]? = some d' ∧ d.Becomes d' := by
  by_cases hik : i = k
  · exact ⟨d.edit text, by simp [World.editAt, remember, hik, hd], d.becomes_edit text⟩
  · exact ⟨d, by simp [World.editAt, remember, hik, hd], d.becomes_refl⟩

theorem grows_obey (w : World η ρ) (c : Command) : w.Grows (w.obey c) := by
  refine ⟨?_, ?_, ?_⟩
  · intro t k s ht
    exact ⟨s, (standing?_of_tasks (tasks_obey ..) t).trans ht⟩
  · intro k d hd
    cases c with
    | edit uri text =>
        rw [obey, edit]
        split
        · exact documents_editAt w _ k text hd
        · exact ⟨d, hd, d.becomes_refl⟩
    | cancel | forget | invalidate => exact ⟨d, hd, d.becomes_refl⟩
  · intro i y hy
    rw [(obey_frame w c).2.2]
    exact ⟨y, hy, y.becomes_refl⟩

theorem grows_obeyAll (w : World η ρ) (cs : List Command) : w.Grows (w.obeyAll cs) := by
  induction cs generalizing w with
  | nil => exact w.grows_refl
  | cons c cs ih => exact (w.grows_obey c).trans (ih _)

theorem grows_hosted (w : World η ρ) (host : η) (cs : List Command) :
    w.Grows ({ w with host := host }.obeyAll cs) := by
  have hgrows := grows_obeyAll { w with host := host } cs
  exact ⟨hgrows.tasks, hgrows.documents, hgrows.computations⟩

theorem grows_modify (w : World η ρ) (c : Nat) (f : Computation ρ → Computation ρ)
    (turns : List Turn)
    (hf : ∀ y, w.computations[c]? = some y → y.Becomes (f y)) :
    w.Grows { w with computations := w.computations.modify c f, turns := turns } := by
  refine ⟨fun t k s ht => ⟨s, ht⟩, fun k d hd => ⟨d, hd, d.becomes_refl⟩, ?_⟩
  intro i y hy
  by_cases hci : c = i
  · subst hci
    exact ⟨f y, by simp [hy], hf y hy⟩
  · exact ⟨y, by simp [hci, hy], y.becomes_refl⟩

theorem grows_lookUp (w : World η ρ) (t : Nat) (errand : Errand) (d : Document) :
    w.Grows (w.lookUp t errand d).2 := by
  obtain ⟨cache, -, ⟨-, heq⟩ | ⟨-, c, -, heq⟩ | ⟨-, heq⟩⟩ := w.lookUp_cases t errand d
  · rw [heq]
    exact ⟨w.grows_refl.tasks, w.grows_refl.documents, w.grows_refl.computations⟩
  · rw [heq]
    have hgrows := w.grows_modify c (fun x => { x with callers := x.callers ++ [t] }) w.turns
      fun y _ => ⟨rfl, rfl, fun i hi => List.mem_append_left [t] hi, fun _ => id⟩
    exact ⟨hgrows.tasks, hgrows.documents, hgrows.computations⟩
  · rw [heq]
    refine ⟨w.grows_refl.tasks, w.grows_refl.documents, ?_⟩
    intro i y hy
    refine ⟨y, ?_, y.becomes_refl⟩
    rw [List.getElem?_append_left (List.getElem?_eq_some_iff.mp hy).1, hy]

theorem grows_release (w : World η ρ) (c : Nat) (ending : Ending (List ρ)) :
    w.Grows (w.release c ending).2 := by
  obtain ⟨records, hheld, heq⟩ | heq := w.release_cases c ending
  · rw [heq]
    refine w.grows_modify c _ _ fun y hy => ⟨rfl, rfl, fun _ => id, ?_⟩
    simp_all [state?]
  · rw [heq]
    exact w.grows_refl

theorem grows_finishComputation (w : World η ρ) (c : Nat) : w.Grows (w.finishComputation c) := by
  obtain ⟨x, ending, hx, hreleased, heq⟩ | ⟨heq, -⟩ := w.finishComputation_cases c
  · rw [heq]
    refine w.grows_modify c _ _ fun y hy => ⟨rfl, rfl, fun _ => id, ?_⟩
    obtain rfl := Option.some.inj (hx.symm.trans hy)
    simp [hreleased]
  · rw [heq]
    exact w.grows_refl

/-- A computation that is begun changes nothing but its state once the host has done what it does. -/
theorem beginComputation_grows (w : World η ρ) (c : Nat) : ∃ host commands,
    ({ w with host := host }.obeyAll commands).Grows (w.beginComputation h c) ∧
      (w.beginComputation h c).cache = ({ w with host := host }.obeyAll commands).cache ∧
      (w.beginComputation h c).history = ({ w with host := host }.obeyAll commands).history := by
  obtain heq | ⟨x, host, commands, hx, hqueued, hcases⟩ := w.beginComputation_cases h c
  · refine ⟨w.host, [], ?_, ?_⟩ <;> rw [heq]
    · exact w.grows_refl
    · exact ⟨rfl, rfl⟩
  have hx' : ({ w with host := host }.obeyAll commands).computations[c]? = some x := by
    rwa [(obeyAll_frame ..).2.2]
  refine ⟨host, commands, ?_⟩
  obtain ⟨ending, -, heq⟩ | ⟨records, -, heq⟩ := hcases
  all_goals
    rw [heq]
    refine ⟨grows_modify _ c _ _ fun y hy => ⟨rfl, rfl, fun _ => id, ?_⟩, rfl, rfl⟩
    obtain rfl : x = y := Option.some.inj (hx'.symm.trans hy)
    simp [hqueued]

theorem grows_beginComputation (w : World η ρ) (c : Nat) : w.Grows (w.beginComputation h c) := by
  obtain ⟨host, commands, hgrows, -, -⟩ := w.beginComputation_grows (h := h) c
  exact (w.grows_hosted host commands).trans hgrows

theorem grows_settleComputation (w : World η ρ) (c : Nat) : w.Grows (w.settleComputation c) := by
  obtain ⟨x, ending, -, -, heq⟩ | ⟨heq, -⟩ := w.settleComputation_cases c <;> rw [heq]
  all_goals exact ⟨w.grows_refl.tasks, w.grows_refl.documents, w.grows_refl.computations⟩

theorem Step.grows {free : Bool} (hs : Step h free w w') : w.Grows w' := by
  have hcourse := hs.course
  cases hs.works with
  | nothing hsame => exact hcourse.grows_of_eq hsame.documents hsame.computations
  | openDocument d =>
      refine hcourse.grows ?_ rfl
      intro k d' hd
      refine ⟨d', ?_, d'.becomes_refl⟩
      rw [World.openDocument, List.getElem?_append_left (List.getElem?_eq_some_iff.mp hd).1, hd]
  | editAt i text => exact hcourse.grows (fun k d => documents_editAt w i k text) rfl
  | obeyAll => exact w.grows_hosted ..
  | release c ending => exact w.grows_release c ending
  | finish c => exact w.grows_finishComputation c
  | @lookUp v d hsame hd t errand =>
      obtain ⟨-, hdocuments, hcomputations⟩ := v.grows_lookUp t errand d
      rw [hsame.documents] at hdocuments
      rw [hsame.computations] at hcomputations
      exact ⟨hcourse.standing?_of_some, hdocuments, hcomputations⟩

end World

end Swatch

import Swatch.Proofs.Refresh.Return

/-!
What the end of a refresh leaves behind. The number of an address stays as it is, whoever comes to an
end, unless a number is drawn for the address or taken from it. A refresh that is over has put down
how it ended; one whose consumer has failed it has come to nothing.
-/

namespace Swatch

variable {η ρ : Type}

namespace World

variable {h : Host η ρ} {w w' v : World η ρ}

/-! ### The numbers of addresses -/

/-- The number of an address has stayed, unless something has happened that takes it away. -/
def KeepsNumbers (w w' : World η ρ) : Prop :=
  ∃ es, w'.history = w.history ++ es ∧ ∀ uri, (∀ e ∈ es, ¬e.Supersedes uri) →
    w'.scheduler.generations.get? uri = w.scheduler.generations.get? uri

theorem keepsNumbers_of_eq {es : List (Event ρ)} (hhistory : w'.history = w.history ++ es)
    (hgenerations : w'.scheduler.generations = w.scheduler.generations) : w.KeepsNumbers w' :=
  ⟨es, hhistory, fun _ _ => by rw [hgenerations]⟩

theorem keepsNumbers_refl (w : World η ρ) : w.KeepsNumbers w :=
  keepsNumbers_of_eq (List.append_nil _).symm rfl

theorem KeepsNumbers.trans (hk : w.KeepsNumbers w') (hk' : w'.KeepsNumbers v) :
    w.KeepsNumbers v := by
  obtain ⟨es, hhistory, hkept⟩ := hk
  obtain ⟨es', hhistory', hkept'⟩ := hk'
  refine ⟨es ++ es', by rw [hhistory', hhistory, List.append_assoc], fun uri hes => ?_⟩
  rw [hkept' uri fun e he => hes e (List.mem_append_right es he),
    hkept uri fun e he => hes e (List.mem_append_left es' he)]

/-- One event that takes the number of an address leaves the others. -/
theorem keepsNumbers_of_supersedes {e : Event ρ} {u : String} (he : e.Supersedes u)
    (hhistory : w'.history = w.history ++ [e])
    (hgenerations : ∀ uri, uri ≠ u →
      w'.scheduler.generations.get? uri = w.scheduler.generations.get? uri) : w.KeepsNumbers w' := by
  refine ⟨[e], hhistory, fun uri hes => hgenerations uri ?_⟩
  rintro rfl
  exact hes e (List.mem_singleton_self e) he

theorem get?_draw_of_ne {s : Scheduler} {u uri : String} (hne : uri ≠ u) :
    (s.draw u).generations.get? uri = s.generations.get? uri := by
  rw [Scheduler.draw, Keyed.get?_set, if_neg hne]

theorem keepsNumbers_obey (w : World η ρ) (c : Command) : w.KeepsNumbers (w.obey c) := by
  cases c with
  | edit uri text =>
      rw [obey, edit]
      split
      · exact keepsNumbers_of_eq rfl rfl
      · exact w.keepsNumbers_refl
  | cancel u =>
      refine keepsNumbers_of_supersedes (e := .cancelled u) (u := u) rfl rfl fun uri hne => ?_
      simp only [obey, cancel, remember, Scheduler.cancel]
      split
      · exact get?_draw_of_ne hne
      · rfl
  | forget u =>
      refine keepsNumbers_of_supersedes (e := .forgotten u) (u := u) rfl rfl fun uri hne => ?_
      rw [obey, (w.generations_forget u).1, Keyed.get?_erase, if_neg hne]
  | invalidate => exact keepsNumbers_of_eq (List.append_nil _).symm rfl

theorem keepsNumbers_obeyAll (w : World η ρ) (host : η) (cs : List Command) :
    w.KeepsNumbers ({ w with host := host }.obeyAll cs) := by
  have hk : w.KeepsNumbers { w with host := host } := keepsNumbers_of_eq (List.append_nil _).symm rfl
  generalize { w with host := host } = v at hk
  induction cs generalizing v with
  | nil => exact hk
  | cons c cs ih => exact ih (v.obey c) (hk.trans (v.keepsNumbers_obey c))

theorem Quiet.keepsNumbers (hq : w.Quiet w') : w.KeepsNumbers w' := by
  obtain ⟨es, hhistory, -⟩ := hq.history
  exact keepsNumbers_of_eq hhistory hq.generations

theorem Step.keepsNumbers {free : Bool} (hs : Step h free w w') : w.KeepsNumbers w' := by
  rcases hs.quiet_or_stirs with hquiet | hstirs
  · exact hquiet.keepsNumbers
  cases hstirs with
  | openDocument d => exact keepsNumbers_of_eq (List.append_nil _).symm rfl
  | editAt k text => exact keepsNumbers_of_eq rfl rfl
  | obeyAll host commands => exact w.keepsNumbers_obeyAll host commands
  | @draw t task d ht hd hs =>
      exact keepsNumbers_of_supersedes (u := d.uri)
        (e := .drawn t task.document d.uri ⟨d.version, w.scheduler.next⟩) rfl rfl
        fun uri hne => get?_draw_of_ne hne
  | hand => exact keepsNumbers_of_eq rfl rfl

/-- Whatever is done next, the number of an address stays, unless something takes it away. -/
theorem keepsNumbers_act (w : World η ρ) (a : Act ρ) : w.KeepsNumbers (w.act h a) := by
  refine act_induction (fun _ _ _ hs hk => hk.trans hs.keepsNumbers) (fun v c hk => hk.trans ?_)
    (fun v c hk => hk.trans ?_) w.keepsNumbers_refl a
  · obtain ⟨host, commands, hsame⟩ := v.sameTasks_beginComputation h c
    exact (v.keepsNumbers_obeyAll host commands).trans hsame.quiet.keepsNumbers
  · exact (v.sameTasks_settleComputation c).quiet.keepsNumbers

/-! ### What is put down of a refresh that is over -/

/-- How a refresh ended that is over has been put down, and it has drawn no number since; who has
drawn one gives no answer; and one whose consumer has failed it has come to nothing. -/
structure Concluded (w : World η ρ) : Prop where
  returned : ∀ t k ending, w.standing? t = some (k, .ended ending) →
    ∃ past d? future, w.history = past ++ .returned t ending d? :: future ∧
      ∀ e ∈ future, e.drawer? ≠ some t
  drawn : ∀ t, ∀ e ∈ w.history, e.drawer? = some t → ∀ k s, w.standing? t = some (k, s) →
    s ≠ .detecting ∧ ∀ ending, s ≠ .answered ending
  taken : ∀ t f, .taken t f ∈ w.history → f ≠ .finished () →
    ∃ k ending, w.standing? t = some (k, .ended ending) ∧ ∀ outcome, ending ≠ .finished outcome

theorem concluded_initial (host : η) : (initial host : World η ρ).Concluded := by
  refine ⟨?_, ?_, ?_⟩ <;> simp [initial, standing?]

theorem Concluded.of_history (hc : w.Concluded) {es : List (Event ρ)}
    (hhistory : w'.history = w.history ++ es) (hstanding : ∀ i, w'.standing? i = w.standing? i)
    (hdrawer : ∀ e ∈ es, e.drawer? = none) (htaken : ∀ t f, .taken t f ∉ es) : w'.Concluded := by
  refine ⟨fun t k ending ht => ?_, fun t e he hdraws k s ht => ?_, fun t f hf hne => ?_⟩
  · obtain ⟨past, d?, future, hsplit, hfuture⟩ := hc.returned t k ending (hstanding t ▸ ht)
    refine ⟨past, d?, future ++ es, by rw [hhistory, hsplit]; simp, fun e he => ?_⟩
    rcases List.mem_append.mp he with he | he
    · exact hfuture e he
    · simp [hdrawer e he]
  · rcases List.mem_append.mp (hhistory ▸ he) with he | he
    · exact hc.drawn t e he hdraws k s (hstanding t ▸ ht)
    · simp [hdrawer e he] at hdraws
  · rcases List.mem_append.mp (hhistory ▸ hf) with hf | hf
    · rw [hstanding]
      exact hc.taken t f hf hne
    · exact absurd hf (htaken t f)

/-- A refresh that is over does not end anew with an outcome. -/
theorem Concludes.ne_finished {k : Nat} {ending ending' : Ending (Outcome ρ)}
    (hends : w.Concludes h k (.ended ending) ending') (outcome : Outcome ρ) :
    ending' ≠ .finished outcome := by
  rintro rfl
  cases hends with
  | stopped hd hs => simp [Stage.ticket?] at hs

theorem Leads.ended_of_taken {t k i : Nat} {s s' : Stage ρ} {es : List (Event ρ)} {f : Ending Unit}
    (hleads : w.Leads h t k s es s') (hf : .taken i f ∈ es) (hne : f ≠ .finished ()) :
    i = t ∧ ∃ ending, s' = .ended ending ∧ ∀ outcome, ending ≠ .finished outcome := by
  cases hleads with
  | taken => simp_all
  | last ticket l delivery count ending ending' d? hd hends hgood =>
      obtain ⟨rfl, rfl⟩ : i = t ∧ f = ending := by simpa using hf
      exact ⟨rfl, ending', rfl, fun outcome heq => hne (hgood outcome heq)⟩
  | _ => simp at hf

theorem Leads.returned_of_ended {t k : Nat} {s : Stage ρ} {es : List (Event ρ)}
    {ending : Ending (Outcome ρ)} (hleads : w.Leads h t k s es (.ended ending)) :
    ∃ before d?, es = before ++ [.returned t ending d?] := by
  cases hleads with
  | last ticket l delivery count ending' _ d? => exact ⟨[.taken t ending'], d?, rfl⟩
  | close hs _ d? => exact ⟨[], d?, rfl⟩

/-- A refresh that has drawn its number does not become a detection. -/
theorem Leads.not_detection {t k : Nat} {s s' : Stage ρ} {es : List (Event ρ)}
    (hleads : w.Leads h t k s es s') (hstarting : s = .starting → ∃ e ∈ es, e.drawer? = some t)
    (hdetecting : s ≠ .detecting) : s' ≠ .detecting ∧ ∀ ending, s' ≠ .answered ending := by
  cases hleads with
  | ask =>
      obtain ⟨e, he, hdrawer⟩ := hstarting rfl
      simp [List.mem_singleton.mp he, Event.drawer?] at hdrawer
  | answer hs =>
      rcases hs with hs | hs
      · simpa using hstarting hs
      · exact absurd hs hdetecting
  | _ => simp

theorem Concluded.move (hc : w.Concluded) (hd : w.DrawnOnce) {t k : Nat} {s s' : Stage ρ}
    {es : List (Event ρ)} (ht : w.standing? t = some (k, s)) (hleads : w.Leads h t k s es s')
    (hhistory : w'.history = w.history ++ es)
    (hstanding : ∀ i, w'.standing? i = if i = t then some (k, s') else w.standing? i) :
    w'.Concluded := by
  refine ⟨fun i k' ending hi => ?_, fun i e he hdraws k' s'' hi => ?_, fun i f hf hne => ?_⟩
  · rw [hstanding] at hi
    split at hi
    · rename_i hit
      subst hit
      obtain ⟨-, rfl⟩ := Prod.mk.inj (Option.some.inj hi)
      obtain ⟨before, d?, rfl⟩ := hleads.returned_of_ended
      exact ⟨w.history ++ before, d?, [], by simp [hhistory], by simp⟩
    · rename_i hit
      obtain ⟨past, d?, future, hsplit, hfuture⟩ := hc.returned i k' ending hi
      refine ⟨past, d?, future ++ es, by rw [hhistory, hsplit]; simp, fun e he hdraws => ?_⟩
      rcases List.mem_append.mp he with he | he
      · exact hfuture e he hdraws
      · exact hit (hleads.drawer he hdraws).1
  · rw [hstanding] at hi
    rw [hhistory, List.mem_append] at he
    split at hi
    · rename_i hit
      subst hit
      obtain ⟨-, rfl⟩ := Prod.mk.inj (Option.some.inj hi)
      refine hleads.not_detection (fun hstarting => ?_) fun hdetecting => ?_
      · rcases he with he | he
        · exact absurd hdraws (hd.fresh i (.inr ⟨k, hstarting ▸ ht⟩) e he)
        · exact ⟨e, he, hdraws⟩
      · rcases he with he | he
        · exact (hc.drawn i e he hdraws k s ht).1 hdetecting
        · have hstarting := (hleads.drawer he hdraws).2.1
          simp [hdetecting] at hstarting
    · rename_i hit
      rcases he with he | he
      · exact hc.drawn i e he hdraws k' s'' hi
      · exact absurd (hleads.drawer he hdraws).1 hit
  · rw [hstanding]
    rcases List.mem_append.mp (hhistory ▸ hf) with hf | hf
    · obtain ⟨k', ending, hi, hfails⟩ := hc.taken i f hf hne
      split
      · rename_i hit
        subst hit
        obtain ⟨rfl, rfl⟩ := Prod.mk.inj (Option.some.inj (ht.symm.trans hi))
        cases hleads with
        | answer hs => simp at hs
        | hand hd hv hs => simp at hs
        | close hs ending' d? hd? hends => exact ⟨k, ending', rfl, hends.ne_finished⟩
      · exact ⟨k', ending, hi, hfails⟩
    · obtain ⟨rfl, ending, rfl, hfails⟩ := hleads.ended_of_taken hf hne
      exact ⟨k, ending, if_pos rfl, hfails⟩

theorem Concluded.course (hc : w.Concluded) (hd : w.DrawnOnce) (hcourse : w.Course h w') :
    w'.Concluded := by
  cases hcourse with
  | aside hes hhistory hstanding =>
      refine hc.of_history hhistory hstanding
        (fun e he => Event.drawer?_of_isAside (hes e he)) fun t f hf => ?_
      simpa [Event.isAside] using hes _ hf
  | start k hhistory hstanding =>
      have hstands : ∀ t k' s, w'.standing? t = some (k', s) →
          w.standing? t = some (k', s) ∨ s = .starting := by
        intro t k' s ht
        rw [hstanding] at ht
        split at ht
        · exact .inr (Prod.mk.inj (Option.some.inj ht)).2.symm
        · exact .inl ht
      refine ⟨fun t k' ending ht => ?_, fun t e he hdraws k' s ht => ?_, fun t f hf hne => ?_⟩
      · rw [hhistory]
        rcases hstands t k' _ ht with ht | hstarting
        · exact hc.returned t k' ending ht
        · simp at hstarting
      · rcases hstands t k' s ht with ht | rfl
        · exact hc.drawn t e (hhistory ▸ he) hdraws k' s ht
        · simp
      · obtain ⟨k', ending, ht, hfails⟩ := hc.taken t f (hhistory ▸ hf) hne
        refine ⟨k', ending, ?_, hfails⟩
        rw [hstanding, if_neg, ht]
        rintro rfl
        simp [standing?_length] at ht
  | move ht hleads hhistory hstanding => exact hc.move hd ht hleads hhistory hstanding

theorem Accounted.of_sameTasks (hw : w.Accounted h) (hsame : w.SameTasks w') (hl : w'.Locked) :
    w'.Accounted h := by
  have hcourse : w.Course h w' := hsame.course
  have huri : ∀ k u, w.uri? k = some u → w'.uri? k = some u := fun k u hu =>
    (uri?_of_documents hsame.documents).trans hu
  have hregistered := hw.ruled.registered.of_scheduler (h := h) hw.ruled.numbered hcourse
    hsame.documents hsame.scheduler
  exact ⟨⟨hw.ruled.numbered.quiet hsame.quiet, hl, hregistered⟩,
    hw.sequenced.course hw.ruled hcourse huri, hw.drawn.course hcourse, hw.mind.quiet hsame.quiet,
    hcourse.allDue hw.due hw.mind hw.drawn hw.sequenced⟩

/-- A refresh that is over, and has not come to nothing, has been applied, unless something has put it
out of date since it began. -/
theorem Concluded.applied (hc : w.Concluded) (hw : w.Accounted h) {before after : List (Event ρ)}
    {t k k' : Nat} {uri : String} {ticket : Ticket} {s : Stage ρ}
    (hsplit : w.history = before ++ .drawn t k uri ticket :: after)
    (hvoid : ∀ e ∈ after, ¬e.Voids k uri) (ht : w.standing? t = some (k', s))
    (hover : s.isOver = true) (hends : ∀ ending, s = .ended ending → ∃ o, ending = .finished o) :
    ∃ o, s = .ended (.finished o) ∧ o.status = .applied ∧ o.version = ticket.version := by
  have hdraws : .drawn t k uri ticket ∈ w.history := by simp [hsplit]
  have hrefresh := (hc.drawn t _ hdraws rfl k' s ht).2
  cases s with
  | ended ending =>
      obtain ⟨o, rfl⟩ := hends ending rfl
      obtain ⟨past, d?, future, hreturned, hfuture⟩ := hc.returned t k' _ ht
      refine ⟨o, rfl, ?_⟩
      have heq : before ++ .drawn t k uri ticket :: after =
          past ++ .returned t (.finished o) d? :: future := hsplit.symm.trans hreturned
      rcases List.append_eq_append_iff.mp heq with ⟨between, hpast, hrest⟩ | ⟨between, -, hrest⟩
      · cases between with
        | nil => simp at hrest
        | cons e between =>
            obtain ⟨rfl, rfl⟩ := List.cons.inj hrest
            obtain ⟨happlied, hversion, -⟩ := (hw.due past t o d? future hreturned).kept before k uri
              ticket between hpast fun e he => hvoid e (List.mem_append_left _ he)
            exact ⟨happlied, hversion.symm⟩
      · cases between with
        | nil => simp at hrest
        | cons e between =>
            obtain ⟨-, rfl⟩ := List.cons.inj hrest
            have hlate := hfuture (.drawn t k uri ticket)
              (List.mem_append_right between (List.mem_cons_self ..))
            exact absurd rfl hlate
  | answered ending => exact absurd rfl (hrefresh ending)
  | _ => simp [Stage.isOver] at hover

end World

end Swatch

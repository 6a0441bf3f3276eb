import Swatch.Proofs.Cache.Flight
import Swatch.Proofs.Refresh.Rest

/-!
What is due is done. No turn is lost before it is taken, so that every computation that has been begun
is run or is about to be, and every one that has ended is settled or is about to be.
-/

namespace Swatch.World

variable {η ρ : Type} {h : Host η ρ} {w : World η ρ} {us : List (Use ρ)} {u : Use ρ} {c n : Nat}
  {turn done : Turn}

/-! ### Turns -/

theorem mem_turns_begin (w : World η ρ) (c : Nat) (hturn : turn ∈ w.turns) :
    turn ∈ (w.beginComputation h c).turns := by
  obtain heq | ⟨x, host, commands, -, -, ⟨ending, -, heq⟩ | ⟨records, -, heq⟩⟩ :=
    w.beginComputation_cases h c
  · rwa [heq]
  · rw [heq]
    refine List.mem_append_left _ ?_
    rwa [(obeyAll_frame { w with host := host } commands).2.1]
  · rw [heq]
    dsimp only
    rwa [(obeyAll_frame { w with host := host } commands).2.1]

theorem mem_turns_resume {t : Nat} (hr : w.Rooted t) (hb : w.Backed) (hturn : turn ∈ w.turns) :
    turn ∈ (w.resume h t).turns := by
  obtain ⟨heq, -⟩ | ⟨heq, -⟩ | ⟨begun, task, told, task', d, -, -, -, -, hc⟩ :=
    resume_cases (h := h) hr hb
  · rwa [heq]
  · rwa [heq]
  · exact hc.passes.turns turn hturn

/-- A turn that is taken leaves the others to come. -/
theorem mem_turns_perform (hr : ∀ t, w.Rooted t) (hb : w.Backed) (hturn : turn ∈ w.turns)
    (done : Turn) : turn ∈ (w.perform h done).turns := by
  cases done with
  | resume t => exact mem_turns_resume (hr t) hb hturn
  | begin c => exact mem_turns_begin w c hturn
  | finish c =>
      obtain ⟨x, ending, -, -, heq⟩ | ⟨heq, -⟩ := w.finishComputation_cases c <;>
        simp [perform, heq, endComputation, hturn]
  | settle c => rwa [perform, (settleComputation_frame w c).2.1]
  | tell c t =>
      rcases w.turns_tellTask c t with heq | heq <;> simp [perform, heq, hturn]
  | ring t =>
      rcases w.turns_ring t with heq | heq <;> simp [perform, heq, hturn]

/-- A turn stays to come until it is taken. -/
theorem mem_turns_use (hs : w.Steady) (hturn : turn ∈ w.turns) (u : Use ρ) :
    turn ∈ (w.use h u).turns ∨ ∃ n, u = .act (.turn n) ∧ w.turns[n]? = some turn := by
  cases u with
  | cache op => exact .inl hturn
  | act a =>
      cases a with
      | openDocument | edit | setClock => exact .inl hturn
      | start | moveTo => exact .inl (List.mem_append_left _ hturn)
      | obey command =>
          rw [use, act, (w.obey_frame command).2.1]
          exact .inl hturn
      | cancelTask t =>
          refine .inl ?_
          rcases w.turns_cancelTask t with heq | heq <;> simp [use, act, heq, hturn]
      | release c ending =>
          refine .inl ?_
          rcases w.turns_release c ending with heq | heq <;> simp [use, act, heq, hturn]
      | turn n =>
          cases hdone : w.turns[n]? with
          | none => exact .inl (by simpa [use, act, hdone] using hturn)
          | some done =>
              by_cases heq : done = turn
              · exact .inr ⟨n, rfl, by rw [hdone, heq]⟩
              · rw [use_turn w hdone]
                have hturn' : turn ∈ { w with turns := w.turns.eraseIdx n }.turns :=
                  mem_eraseIdx_of_ne hdone hturn heq
                exact .inl (mem_turns_perform (by exact hs.rooted) (by exact hs.backed) hturn' done)

/-! ### Computations that are run, and those that end -/

/-- What becomes of the state of a computation in a use of the world. -/
inductive Advances (h : Host η ρ) (w : World η ρ) (u : Use ρ) (c : Nat) :
    Computation.State ρ → Computation.State ρ → Prop where
  | same {s : Computation.State ρ} : Advances h w u c s s
  | run {x : Computation ρ} {ending : Ending (List ρ)} (hruns : w.Runs c u)
      (hx : w.computations[c]? = some x)
      (hcompute : (h.compute x.errand x.document w.host).2.2 = .ended ending)
      (hsettle : .settle c ∈ (w.use h u).turns) : Advances h w u c .queued (.ended ending)
  | withheld {x : Computation ρ} {records : List ρ} (hruns : w.Runs c u)
      (hx : w.computations[c]? = some x)
      (hcompute : (h.compute x.errand x.document w.host).2.2 = .held records) :
      Advances h w u c .queued (.held records)
  | released {records : List ρ} {ending : Ending (List ρ)} (hu : u = .act (.release c ending)) :
      Advances h w u c (.held records) (.released ending)
  | finished {ending : Ending (List ρ)} (hsettle : .settle c ∈ (w.use h u).turns) :
      Advances h w u c (.released ending) (.ended ending)

theorem state?_resume {t : Nat} {s : Computation.State ρ} (hr : w.Rooted t) (hb : w.Backed)
    (hstate : w.state? c = some s) : (w.resume h t).state? c = some s := by
  obtain ⟨heq, -⟩ | ⟨heq, -⟩ | ⟨begun, task, told, task', d, -, -, -, -, hc⟩ :=
    resume_cases (h := h) hr hb
  · rwa [heq]
  · rwa [heq]
  · have hlt : c < (w.computations.map (·.state)).length := by
      rw [state?, Option.map_eq_some_iff] at hstate
      obtain ⟨x, hx, -⟩ := hstate
      simpa using (List.getElem?_eq_some_iff.mp hx).1
    rw [state?, ← List.getElem?_map, hc.passes.states, List.getElem?_append_left (by simpa using hlt),
      List.getElem?_map]
    exact hstate

theorem exists_advances_begin {c' : Nat} {s : Computation.State ρ}
    (hdone : w.turns[n]? = some (.begin c')) (hstate : w.state? c = some s) :
    ∃ s', (w.use h (.act (.turn n))).state? c = some s' ∧ Advances h w (.act (.turn n)) c s s' := by
  have huse := w.use_turn (h := h) hdone
  rw [perform] at huse
  obtain heq | ⟨x, host, commands, hx, hqueued, hcases⟩ :=
    beginComputation_cases { w with turns := w.turns.eraseIdx n } h c'
  · exact ⟨s, by rw [huse, heq]; exact hstate, .same⟩
  have hobeyed : ({ w with turns := w.turns.eraseIdx n, host := host }.obeyAll commands).state? c =
      some s := by
    rw [state?, (obeyAll_frame ..).2.2]
    exact hstate
  by_cases hcc : c' = c
  · subst hcc
    have hx' : w.computations[c']? = some x := hx
    obtain rfl : s = .queued := by simpa [state?, hx', hqueued] using hstate.symm
    have hruns : w.Runs c' (.act (.turn n)) := ⟨hdone, hstate⟩
    rcases hcases with ⟨ending, hcompute, heq⟩ | ⟨records, hcompute, heq⟩
    · refine ⟨.ended ending, ?_, .run hruns hx' (by rw [hcompute]) ?_⟩
      · rw [huse, heq, endComputation, state?_modify, if_pos rfl, hobeyed, Option.map_some]
      · rw [huse, heq, endComputation]
        simp
    · refine ⟨.held records, ?_, .withheld hruns hx' (by rw [hcompute])⟩
      rw [huse, heq]
      dsimp only
      rw [state?_modify, if_pos rfl, hobeyed, Option.map_some]
  · refine ⟨s, ?_, .same⟩
    rcases hcases with ⟨ending, -, heq⟩ | ⟨records, -, heq⟩
    · rw [huse, heq, endComputation, state?_modify, if_neg hcc, hobeyed]
    · rw [huse, heq]
      dsimp only
      rw [state?_modify, if_neg hcc, hobeyed]

theorem exists_advances_finish {c' : Nat} {s : Computation.State ρ}
    (hdone : w.turns[n]? = some (.finish c')) (hstate : w.state? c = some s) :
    ∃ s', (w.use h (.act (.turn n))).state? c = some s' ∧ Advances h w (.act (.turn n)) c s s' := by
  have huse := w.use_turn (h := h) hdone
  obtain ⟨x, ending, hx, hreleased, heq⟩ | ⟨heq, -⟩ :=
    finishComputation_cases { w with turns := w.turns.eraseIdx n } c' <;> rw [perform, heq] at huse
  · by_cases hcc : c' = c
    · subst hcc
      have hx' : w.computations[c']? = some x := hx
      obtain rfl : s = .released ending := by simpa [state?, hx', hreleased] using hstate.symm
      refine ⟨.ended ending, ?_, .finished ?_⟩
      · rw [huse, endComputation, state?_modify, if_pos rfl]
        exact congrArg (Option.map fun _ => _) hstate
      · rw [huse, endComputation]
        simp
    · refine ⟨s, ?_, .same⟩
      rw [huse, endComputation, state?_modify, if_neg hcc]
      exact hstate
  · exact ⟨s, by rw [huse]; exact hstate, .same⟩

theorem exists_advances (hs : w.Steady) {s : Computation.State ρ} (hstate : w.state? c = some s)
    (u : Use ρ) : ∃ s', (w.use h u).state? c = some s' ∧ Advances h w u c s s' := by
  have hsame : (w.use h u).computations = w.computations →
      ∃ s', (w.use h u).state? c = some s' ∧ Advances h w u c s s' :=
    fun heq => ⟨s, by rw [state?, heq]; exact hstate, .same⟩
  cases u with
  | cache op => exact hsame rfl
  | act a =>
      cases a with
      | openDocument | edit | setClock | start | moveTo => exact hsame rfl
      | obey command => exact hsame (w.obey_frame command).2.2
      | cancelTask t => exact hsame (w.sameBooks_cancelTask t).computations
      | release c' ending =>
          simp only [use, act, World.release] at hsame ⊢
          split
          · rename_i records hheld
            dsimp only
            rw [state?_modify]
            by_cases hcc : c' = c
            · subst hcc
              obtain rfl := Option.some.inj (hstate.symm.trans hheld)
              exact ⟨.released ending, by rw [if_pos rfl, hstate, Option.map_some], .released rfl⟩
            · exact ⟨s, by rw [if_neg hcc, hstate], .same⟩
          · exact ⟨s, hstate, .same⟩
      | turn n =>
          cases hdone : w.turns[n]? with
          | none => exact hsame (by simp [use, act, hdone])
          | some done =>
              cases done with
              | begin c' => exact exists_advances_begin hdone hstate
              | finish c' => exact exists_advances_finish hdone hstate
              | settle c' =>
                  refine hsame ?_
                  rw [use_turn w hdone]
                  exact (settleComputation_frame ..).1
              | tell c' t =>
                  refine hsame ?_
                  rw [use_turn w hdone]
                  exact (sameBooks_tellTask ..).computations
              | ring t =>
                  refine hsame ?_
                  rw [use_turn w hdone]
                  exact (sameBooks_ring ..).computations
              | resume t =>
                  refine ⟨s, ?_, .same⟩
                  rw [use_turn w hdone]
                  exact state?_resume (hs.rooted t) hs.backed hstate

theorem queued_of_new {x : Computation ρ} (hnew : w.computations.length ≤ c)
    (hx : (w.use h u).computations[c]? = some x) : x.state = .queued := by
  obtain ⟨v, t, errand, d, -, -, -, rfl, -⟩ := exists_call_of_new hnew hx
  rfl

/-- A computation that has been begun has been run, or is about to be. -/
theorem run_or_due (h : Host η ρ) (host : η) (us : List (Use ρ))
    (hlt : c < ((initial host).uses h us).computations.length) :
    (Occurs us fun before u => ((initial host).uses h before).Runs c u) ∨
      ((initial host).uses h us).state? c = some .queued ∧
        .begin c ∈ ((initial host).uses h us).turns := by
  have hsteady := steady_uses h host us
  suffices hrun : (Occurs us fun before u => ((initial host).uses h before).Runs c u) ∨
      ((initial host).uses h us).state? c = some .queued from
    hrun.imp_right fun hqueued => ⟨hqueued, (hsteady.promised c).queued hqueued⟩
  induction us using List.reverseRecOn with
  | nil => simp [initial] at hlt
  | append_singleton us u ih =>
      rw [uses_concat] at hlt ⊢
      by_cases hbefore : c < ((initial host).uses h us).computations.length
      · rcases ih hbefore (steady_uses h host us) with hruns | hqueued
        · exact .inl (hruns.append [u])
        · obtain ⟨s', hstate, hadvances⟩ := exists_advances (h := h) (steady_uses h host us) hqueued u
          cases hadvances with
          | same => exact .inr hstate
          | run hruns | withheld hruns => exact .inl (occurs_concat.mpr (.inr hruns))
      · have hx := List.getElem?_eq_getElem hlt
        rw [state?, hx, Option.map_some, queued_of_new (Nat.le_of_not_lt hbefore) hx]
        exact .inr rfl

/-- A computation that has ended has been settled, or is about to be. -/
theorem settled_or_due (h : Host η ρ) (host : η) (us : List (Use ρ)) {ending : Ending (List ρ)}
    (hended : ((initial host).uses h us).state? c = some (.ended ending)) :
    (initial host).Settled h us c ∨ .settle c ∈ ((initial host).uses h us).turns := by
  induction us using List.reverseRecOn with
  | nil => simp [initial, state?] at hended
  | append_singleton us u ih =>
      have hs := steady_uses h host us
      rw [uses_concat] at hended ⊢
      cases hbefore : ((initial host).uses h us).state? c with
      | none =>
          obtain ⟨x, hx, hstate⟩ := Option.map_eq_some_iff.mp hended
          have hnew : ((initial host).uses h us).computations.length ≤ c := by
            simpa [state?] using hbefore
          simp [queued_of_new hnew hx] at hstate
      | some s =>
          obtain ⟨s', hstate, hadvances⟩ := exists_advances (h := h) hs hbefore u
          obtain rfl := Option.some.inj (hstate.symm.trans hended)
          cases hadvances with
          | run _ _ _ hsettle | finished hsettle => exact .inr hsettle
          | same =>
              rcases ih hbefore with hsettled | hturn
              · exact .inl (settled_concat.mpr (.inl hsettled))
              · refine (mem_turns_use hs hturn u).symm.imp_left ?_
                rintro ⟨n, hu, hturn'⟩
                exact settled_concat.mpr (.inr (hu ▸ ⟨hturn', ending, hbefore⟩))

end Swatch.World

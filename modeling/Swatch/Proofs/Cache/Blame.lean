import Swatch.Proofs.Cache.Fare
import Swatch.Proofs.Refresh.Conclusion

/-!
Why tasks come to nothing. One that has joined a computation comes to nothing with it, or because it
was asked to end while it waited; and whatever a task comes to nothing with is one of these, what has
ended already that it called for, or what its own consumer has failed with.
-/

namespace Swatch

open World

variable {η ρ : Type} {h : Host η ρ} {w : World η ρ} {us : List (Use ρ)} {u : Use ρ} {c t : Nat}
  {task task' : Task ρ} {f : Ending Unit}

theorem Ending.fault?_cases {α : Type} (ending : Ending α) :
    (∃ value, ending = .finished value) ∨ ∃ f, ending.fault? = some f := by
  cases ending with
  | finished value => exact .inl ⟨value, rfl⟩
  | failed message => exact .inr ⟨_, rfl⟩
  | cancelled => exact .inr ⟨_, rfl⟩

namespace World

/-- A task has been asked to end while it waited for a computation. -/
def Spurned (h : Host η ρ) (w : World η ρ) (us : List (Use ρ)) (c t : Nat) : Prop :=
  Occurs us fun before u => u = .act (.cancelTask t) ∧ (w.uses h before).IsCaller c t ∧
    ∃ task, (w.uses h before).tasks[t]? = some task ∧ task.stage.awaits = true

/-- What becomes of a task that has joined a computation: it waits, and is told how the computation
ends, unless it is asked to end itself; then it has come to nothing, or the computation has not. -/
inductive Fate (h : Host η ρ) (w : World η ρ) (us : List (Use ρ)) (c t : Nat) (task : Task ρ) :
    Prop where
  | waits (hawaits : task.stage.awaits = true)
      (hspurned : w.Spurned h us c t → ∃ told, task.signal = some told ∧
        (task.cancelRequested = true ∨ told = .cancelled))
      (hfair : ¬w.Spurned h us c t → task.cancelRequested = false ∧
        ∀ told, task.signal = some told → (w.uses h us).state? c = some (.ended told))
  | spurned (hspurned : w.Spurned h us c t) (hfault : task.stage.fault? = some .cancelled)
  | failed {ending : Ending (List ρ)} {f : Ending Unit} (hspurned : ¬w.Spurned h us c t)
      (hended : (w.uses h us).state? c = some (.ended ending)) (hf : ending.fault? = some f)
      (hfault : task.stage.fault? = some f)
  | supplied {records : List ρ}
      (hended : (w.uses h us).state? c = some (.ended (.finished records)))

theorem spurned_concat :
    w.Spurned h (us ++ [u]) c t ↔ w.Spurned h us c t ∨ u = .act (.cancelTask t) ∧
      (w.uses h us).IsCaller c t ∧
        ∃ task, (w.uses h us).tasks[t]? = some task ∧ task.stage.awaits = true :=
  occurs_concat

/-- Nobody is spurned but by being asked to end, and by that only while waiting. -/
theorem spurned_concat_of_not (ht : (w.uses h us).tasks[t]? = some task)
    (hnot : u ≠ .act (.cancelTask t) ∨ task.stage.awaits = false) :
    w.Spurned h (us ++ [u]) c t ↔ w.Spurned h us c t := by
  rw [spurned_concat, or_iff_left]
  rintro ⟨hu, -, task', ht', hawaits⟩
  obtain rfl := Option.some.inj (ht.symm.trans ht')
  rcases hnot with hne | hnot
  · exact hne hu
  · simp [hawaits] at hnot

/-- A task that waits goes on with what it has been told, or leaves if it was asked to end. -/
theorem Fate.resume {n : Nat} {told : Ending (List ρ)} {d : Document}
    (hturn : (w.uses h us).turns[n]? = some (.resume t))
    (ht : (w.uses h us).tasks[t]? = some task) (hsignal : task.signal = some told)
    (hd : (w.uses h us).documents[task.document]? = some d) (hawaits : task.stage.awaits = true)
    (hspurned : w.Spurned h us c t → ∃ told, task.signal = some told ∧
      (task.cancelRequested = true ∨ told = .cancelled))
    (hfair : ¬w.Spurned h us c t → task.cancelRequested = false ∧
      ∀ told, task.signal = some told → (w.uses h us).state? c = some (.ended told))
    (ht' : (w.uses h (us ++ [.act (.turn n)])).tasks[t]? = some task') :
    w.Fate h (us ++ [.act (.turn n)]) c t task' := by
  have hsame : w.Spurned h (us ++ [.act (.turn n)]) c t ↔ w.Spurned h us c t := by
    rw [spurned_concat]
    simp
  have hfault : (w.uses h (us ++ [.act (.turn n)])).fault? t = task'.stage.fault? :=
    fault?_of_getElem? ht'
  rw [uses_concat] at hfault
  by_cases hs : w.Spurned h us c t
  · obtain ⟨told', htold, hasked⟩ := hspurned hs
    refine .spurned (hsame.mpr hs) (hfault.symm.trans ?_)
    refine fault?_use_of_asked hturn ht htold hd hasked (Stage.isOver_of_awaits hawaits) ?_
    cases hstage : task.stage <;> simp_all [Stage.awaits, Stage.isApplying]
  · obtain ⟨hunasked, htold⟩ := hfair hs
    have hended : (w.uses h (us ++ [.act (.turn n)])).state? c = some (.ended told) := by
      rw [uses_concat]
      exact (grows_use _ _).state? (htold told hsignal)
    rcases told.fault?_cases with ⟨records, rfl⟩ | ⟨f, hf⟩
    · exact .supplied hended
    · refine .failed (hsame.not.mpr hs) hended hf (hfault.symm.trans ?_)
      exact fault?_use_of_told hturn ht hsignal hd hunasked hawaits hf

theorem Fate.concat (hfate : w.Fate h us c t task) (hcaller : (w.uses h us).IsCaller c t)
    (htells : ∀ c', .tell c' t ∈ (w.uses h us).turns → c' = c)
    (ht : (w.uses h us).tasks[t]? = some task) (hfares : Fares h (w.uses h us) u t task task')
    (ht' : (w.uses h (us ++ [u])).tasks[t]? = some task') : w.Fate h (us ++ [u]) c t task' := by
  have hg := (w.uses h us).grows_use (h := h) u
  have hstays : ∀ {state}, (w.uses h us).state? c = some (.ended state) →
      (w.uses h (us ++ [u])).state? c = some (.ended state) := fun hended => by
    rw [uses_concat]
    exact hg.state? hended
  have hsame : u ≠ .act (.cancelTask t) ∨ task.stage.awaits = false →
      (w.Spurned h (us ++ [u]) c t ↔ w.Spurned h us c t) := spurned_concat_of_not ht
  have hover : ∀ {f}, task.stage.fault? = some f → task' = task ∧
      (w.Spurned h (us ++ [u]) c t ↔ w.Spurned h us c t) := by
    intro f hf
    refine ⟨hfares.eq_of_isOver (isOver_of_fault? hf), hsame (.inr ?_)⟩
    cases hs : task.stage <;> simp_all [Stage.fault?, Stage.awaits]
  cases hfate with
  | spurned hspurned hfault =>
      obtain ⟨rfl, hstill⟩ := hover hfault
      exact .spurned (hstill.mpr hspurned) hfault
  | failed hspurned hended hf hfault =>
      obtain ⟨rfl, hstill⟩ := hover hfault
      exact .failed (hstill.not.mpr hspurned) (hstays hended) hf hfault
  | supplied hended => exact .supplied (hstays hended)
  | waits hawaits hspurned hfair =>
      cases hfares with
      | same hasked =>
          have hne : u ≠ .act (.cancelTask t) := fun hu => by
            simpa [Stage.isOver_of_awaits hawaits] using hasked hu
          refine .waits hawaits (fun hs => hspurned ((hsame (.inl hne)).mp hs)) fun hs => ?_
          obtain ⟨hunasked, htold⟩ := hfair ((hsame (.inl hne)).not.mp hs)
          exact ⟨hunasked, fun told hsignal => hstays (htold told hsignal)⟩
      | woken hu hsignal hwaits =>
          cases hs : task.stage <;> simp_all [Stage.awaits, Stage.queued?, Stage.isAsleep]
      | @told n c' ending hu hturn hended hsignal hnot =>
          -- A task is told of the computation only that it has joined.
          obtain rfl := htells c' hturn
          have hfresh : ¬w.Spurned h us c' t := fun hs => by
            obtain ⟨told, htold, -⟩ := hspurned hs
            simp [hsignal] at htold
          have hne : u ≠ .act (.cancelTask t) := by simp [hu]
          refine .waits hawaits (fun hs => absurd ((hsame (.inl hne)).mp hs) hfresh) fun _ => ?_
          refine ⟨(hfair hfresh).1, fun told hsignal' => ?_⟩
          obtain rfl := Option.some.inj hsignal'
          exact hstays hended
      | requested hu hnot hsignal =>
          have hs : w.Spurned h (us ++ [u]) c t :=
            spurned_concat.mpr (.inr ⟨hu, hcaller, task, ht, hawaits⟩)
          obtain ⟨told, htold⟩ := Option.isSome_iff_exists.mp hsignal
          exact .waits hawaits (fun _ => ⟨told, htold, .inl rfl⟩) fun hnot => absurd hs hnot
      | cancelled hu hnot hsignal =>
          have hs : w.Spurned h (us ++ [u]) c t :=
            spurned_concat.mpr (.inr ⟨hu, hcaller, task, ht, hawaits⟩)
          exact .waits hawaits (fun _ => ⟨.cancelled, rfl, .inr rfl⟩) fun hnot => absurd hs hnot
      | resumed hu hturn hnot hsignal hd hcomes =>
          subst hu
          exact Fate.resume hturn ht hsignal hd hawaits hspurned hfair ht'

/-- Whoever joins a computation waits for it at first, and has not been asked to end. -/
theorem fate_of_joined (hbefore : ¬(w.uses h us).IsCaller c t)
    (hwaits : (w.uses h (us ++ [u])).Waits False c t task) : w.Fate h (us ++ [u]) c t task := by
  have hspurned : ¬w.Spurned h (us ++ [u]) c t := by
    rw [spurned_concat]
    rintro (⟨before, u', after, rfl, -, hcaller, -⟩ | ⟨-, hcaller, -⟩)
    · rw [uses_append] at hbefore
      exact hbefore (hcaller.grows (grows_uses ..))
    · exact hbefore hcaller
  refine .waits hwaits.awaits (fun hs => absurd hs hspurned) fun _ => ⟨?_, fun told hsignal => ?_⟩
  · rw [← Bool.not_eq_true]
    exact hwaits.asked
  · exact (hwaits.told told hsignal).2.resolve_right fun ⟨_, hfalse⟩ => hfalse

theorem exists_fate (h : Host η ρ) (host : η) (us : List (Use ρ)) {c t : Nat}
    (hc : ((initial host).uses h us).IsCaller c t) :
    ∃ task, ((initial host).uses h us).tasks[t]? = some task ∧
      (initial host).Fate h us c t task := by
  induction us using List.reverseRecOn with
  | nil =>
      obtain ⟨x, hx, -⟩ := hc
      simp [initial] at hx
  | append_singleton us u ih =>
      have hheard := heard_uses h host us
      by_cases hbefore : ((initial host).uses h us).IsCaller c t
      · obtain ⟨task, ht, hfate⟩ := ih hbefore
        obtain ⟨task', ht', hfares⟩ :=
          exists_fares (steady_uses h host us) (unblocked_uses h host us) ht u
        rw [← uses_concat] at ht'
        refine ⟨task', ht', hfate.concat hbefore (fun c' hturn => ?_) ht hfares ht'⟩
        exact hheard.single c' c t (hheard.tells c' t hturn) hbefore
      · rw [uses_concat] at hc
        obtain ⟨-, -, task, hwaits⟩ := (joins_of_isCaller hc).resolve_left hbefore
        rw [← uses_concat] at hwaits
        exact ⟨task, hwaits.stands, fate_of_joined hbefore hwaits⟩

/-- A task that has joined a computation which came to nothing has come to nothing with it once it is
over, or because it was asked to end while it waited. -/
theorem fault?_of_isCaller (h : Host η ρ) (host : η) (us : List (Use ρ)) {c t : Nat} {task : Task ρ}
    {ending : Ending (List ρ)} {f : Ending Unit} (hc : ((initial host).uses h us).IsCaller c t)
    (hended : ((initial host).uses h us).state? c = some (.ended ending))
    (hf : ending.fault? = some f) (ht : ((initial host).uses h us).tasks[t]? = some task)
    (hover : task.stage.isOver = true) :
    (initial host).Spurned h us c t ∧ task.stage.fault? = some .cancelled ∨
      ¬(initial host).Spurned h us c t ∧ task.stage.fault? = some f := by
  obtain ⟨task₁, ht₁, hfate⟩ := exists_fate h host us hc
  obtain rfl := Option.some.inj (ht.symm.trans ht₁)
  cases hfate with
  | waits hawaits => simp [Stage.isOver_of_awaits hawaits] at hover
  | spurned hspurned hfault => exact .inl ⟨hspurned, hfault⟩
  | failed hspurned hended' hf' hfault =>
      obtain rfl := Computation.State.ended.inj (Option.some.inj (hended.symm.trans hended'))
      exact .inr ⟨hspurned, by rw [hfault, ← hf', hf]⟩
  | supplied hended' =>
      obtain rfl := Computation.State.ended.inj (Option.some.inj (hended.symm.trans hended'))
      simp at hf

/-! ### What a task may come to nothing with -/

/-- A task goes on in a use that calls for records whose computation has come to nothing already. -/
def Meets (w : World η ρ) (u : Use ρ) (t : Nat) (f : Ending Unit) : Prop :=
  ∃ n task d, u = .act (.turn n) ∧ w.turns[n]? = some (.resume t) ∧ w.tasks[t]? = some task ∧
    w.documents[task.document]? = some d ∧ w.Encounters d.uri f

theorem Stage.ne_finished_of_fault? {s : Stage ρ} (hf : s.fault? = some f) : f ≠ .finished () := by
  rintro rfl
  cases s with
  | ended ending | answered ending => cases ending <;> simp [Stage.fault?] at hf
  | _ => simp [Stage.fault?] at hf

/-- What a task may come to nothing with: it has been asked to end, its consumer has failed it, or a
computation has come to nothing that it had joined, or that it found when it called for records. -/
inductive Spoiled (h : Host η ρ) (w : World η ρ) (us : List (Use ρ)) (t : Nat) (f : Ending Unit) :
    Prop where
  | asked (hf : f = .cancelled) (hasked : .act (.cancelTask t) ∈ us)
  | taken (hf : f ≠ .finished ()) (htaken : .taken t f ∈ (w.uses h us).history)
  | joined {c : Nat} {ending : Ending (List ρ)} (hcaller : (w.uses h us).IsCaller c t)
      (hended : (w.uses h us).state? c = some (.ended ending)) (hf : ending.fault? = some f)
  | met (hmeets : Occurs us fun before u => (w.uses h before).Meets u t f)

theorem history_use (w : World η ρ) (u : Use ρ) : ∃ es, (w.use h u).history = w.history ++ es := by
  cases u with
  | cache op => exact ⟨[], (List.append_nil _).symm⟩
  | act a =>
      obtain ⟨es, hhistory, -⟩ := w.keepsNumbers_act (h := h) a
      exact ⟨es, hhistory⟩

theorem Spoiled.concat (hs : w.Spoiled h us t f) (u : Use ρ) : w.Spoiled h (us ++ [u]) t f := by
  have hg := (w.uses h us).grows_use (h := h) u
  cases hs with
  | asked hf hasked => exact .asked hf (List.mem_append_left _ hasked)
  | taken hf htaken =>
      obtain ⟨es, hhistory⟩ := (w.uses h us).history_use (h := h) u
      refine .taken hf ?_
      rw [uses_concat, hhistory]
      exact List.mem_append_left _ htaken
  | @joined c ending hcaller hended hf =>
      have hstays := hcaller.grows hg
      have hstill := hg.state? hended
      rw [← uses_concat] at hstays hstill
      exact .joined hstays hstill hf
  | met hmeets => exact .met (hmeets.append [u])

/-- What a task has come to nothing with, or is about to, is something that has spoiled it. -/
structure Excused (h : Host η ρ) (w : World η ρ) (us : List (Use ρ)) (t : Nat) (task : Task ρ) :
    Prop where
  requested : task.stage.isOver = false → task.cancelRequested = true → .act (.cancelTask t) ∈ us
  told : task.stage.isOver = false → ∀ told f, task.signal = some told → told.fault? = some f →
    w.Spoiled h us t f
  fault : ∀ f, task.stage.fault? = some f → w.Spoiled h us t f

theorem Excused.resume (he : w.Excused h us t task) {n begun : Nat} {told : Ending (List ρ)}
    (hturn : (w.uses h us).turns[n]? = some (.resume t)) (ht : (w.uses h us).tasks[t]? = some task)
    (hover : task.stage.isOver = false) (hsignal : task.signal = some told) {v v' : World η ρ}
    (hhistory : v'.history = (w.uses h (us ++ [.act (.turn n)])).history)
    (hc : Comes h t task.stage ((w.uses h us).Blames task told) begun v v' task') :
    w.Excused h (us ++ [.act (.turn n)]) t task' := by
  refine ⟨fun hnot hrequested => ?_, fun hnot told' f htold hf => ?_, fun f hf => ?_⟩
  · simp [(hc.fresh hnot).1] at hrequested
  · simp [(hc.fresh hnot).2 told' htold] at hf
  · rcases hc.fault f hf with htaken | ⟨rfl, hrequested | rfl⟩ | ⟨d, hd, hmeets⟩ | ⟨-, htold⟩
    · exact .taken (Stage.ne_finished_of_fault? hf) (hhistory ▸ htaken)
    · exact .asked rfl (List.mem_append_left _ (he.requested hover hrequested))
    · exact (he.told hover _ _ hsignal rfl).concat _
    · exact .met (occurs_concat.mpr (.inr ⟨n, task, d, rfl, hturn, ht, hd, hmeets⟩))
    · exact (he.told hover _ _ hsignal htold).concat _

theorem Excused.concat (he : w.Excused h us t task)
    (htells : ∀ c, .tell c t ∈ (w.uses h us).turns → (w.uses h us).IsCaller c t)
    (ht : (w.uses h us).tasks[t]? = some task)
    (hfares : Fares h (w.uses h us) u t task task') : w.Excused h (us ++ [u]) t task' := by
  have hrequested := fun hover hasked => List.mem_append_left [u] (he.requested hover hasked)
  have htold := fun hover told f hsignal hf => (he.told hover told f hsignal hf).concat u
  have hfault := fun f hf => (he.fault f hf).concat u
  cases hfares with
  | same => exact ⟨hrequested, htold, hfault⟩
  | woken =>
      refine ⟨hrequested, fun _ told f hsignal hf => ?_, hfault⟩
      simp [← Option.some.inj hsignal] at hf
  | told hu hturn hended =>
      refine ⟨hrequested, fun _ told f hsignal hf => ?_, hfault⟩
      obtain rfl := Option.some.inj hsignal
      exact (Spoiled.joined (htells _ hturn) hended hf).concat u
  | requested hu => exact ⟨fun _ _ => by simp [hu], htold, hfault⟩
  | cancelled hu =>
      refine ⟨hrequested, fun _ told f hsignal hf => ?_, hfault⟩
      obtain rfl := Option.some.inj hsignal
      exact .asked (Option.some.inj hf).symm (by simp [hu])
  | resumed hu hturn hover hsignal hd hcomes =>
      subst hu
      exact he.resume hturn ht hover hsignal (by rw [uses_concat]) hcomes

theorem excused_uses (h : Host η ρ) (host : η) (us : List (Use ρ)) {t : Nat} {task : Task ρ}
    (ht : ((initial host).uses h us).tasks[t]? = some task) : (initial host).Excused h us t task := by
  induction us using List.reverseRecOn generalizing task with
  | nil => simp [initial] at ht
  | append_singleton us u ih =>
      have hs := steady_uses h host us
      rw [uses_concat] at ht
      cases hbefore : ((initial host).uses h us).tasks[t]? with
      | none =>
          obtain ⟨errand, k, rfl⟩ := started_of_use hs hbefore ht
          refine ⟨by simp, fun _ told f htold hf => ?_, by simp [Stage.fault?]⟩
          simp [← Option.some.inj htold] at hf
      | some task₀ =>
          obtain ⟨task', ht', hfares⟩ := exists_fares (h := h) hs (unblocked_uses h host us) hbefore u
          obtain rfl := Option.some.inj (ht.symm.trans ht')
          exact (ih hbefore).concat (fun c => (heard_uses h host us).tells c t) hbefore hfares

end World

end Swatch

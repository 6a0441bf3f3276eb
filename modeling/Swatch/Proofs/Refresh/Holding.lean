import Swatch.Proofs.Refresh.Growth

/-!
What a step does to what is held and to the computations. Only commands change the host or void what
is held, and as long as nobody holds computations back, they end as soon as they begin.
-/

namespace Swatch

open World

variable {η ρ : Type}

namespace World

variable {h : Host η ρ} {free : Bool} {w w' v : World η ρ}

/-- A step leaves the host and what is held alone, unless it carries out commands. -/
theorem Step.held_cases (hs : Step h free w w') :
    (w'.host = w.host ∧ ∀ uri v, w'.cache.held? uri v = w.cache.held? uri v) ∨
      ∃ host commands, w' = { w with host := host }.obeyAll commands ∧
        (host = w.host ∨ h.Yields w.host host commands) := by
  cases hs.works with
  | nothing hsame => exact .inl ⟨hsame.host, fun _ _ => by rw [hsame.cache]⟩
  | openDocument | editAt => exact .inl ⟨rfl, fun _ _ => rfl⟩
  | obeyAll hhost => exact .inr ⟨_, _, rfl, hhost.imp_left And.left⟩
  | release c ending =>
      obtain ⟨hcache, hhost⟩ := w.release_frame c ending
      exact .inl ⟨hhost, fun _ _ => by rw [hcache]⟩
  | finish c =>
      obtain ⟨hcache, hhost⟩ := w.finishComputation_frame c
      exact .inl ⟨hhost, fun _ _ => by rw [hcache]⟩
  | @lookUp v d hsame hd t errand =>
      obtain ⟨cache, hheld, ⟨-, heq⟩ | ⟨-, c, -, heq⟩ | ⟨-, heq⟩⟩ := v.lookUp_cases t errand d
      all_goals
        rw [heq, ← hsame.host, ← hsame.cache]
        exact .inl ⟨rfl, hheld⟩

end World

namespace Computation

/-- A computation that nobody holds back: it has not begun, or has ended. -/
def IsPlain (y : Computation ρ) : Prop :=
  y.state = .queued ∨ ∃ ending, y.state = .ended ending

end Computation

namespace World

variable {h : Host η ρ} {free : Bool} {w w' v : World η ρ}

theorem Step.computation_cases (hs : Step h free w w') (hplain : ∀ y ∈ w.computations, y.IsPlain)
    {c : Nat} {y' : Computation ρ} (hy' : w'.computations[c]? = some y') :
    (∃ y : Computation ρ, w.computations[c]? = some y ∧ y'.state = y.state ∧
      y'.document = y.document) ∨ y'.state = .queued ∧ y'.document ∈ w.documents := by
  have hsame : w'.computations = w.computations → ∃ y : Computation ρ,
      w.computations[c]? = some y ∧ y'.state = y.state ∧ y'.document = y.document :=
    fun heq => ⟨y', heq ▸ hy', rfl, rfl⟩
  cases hs.works with
  | nothing hwork => exact .inl (hsame hwork.computations)
  | openDocument | editAt => exact .inl (hsame rfl)
  | @obeyAll host commands hhost => exact .inl (hsame (obeyAll_frame _ commands).2.2)
  | release i ending =>
      obtain ⟨records, hheld, -⟩ | heq := w.release_cases i ending
      · obtain ⟨y, hy, hstate⟩ := Option.map_eq_some_iff.mp hheld
        have := hplain y (List.mem_of_getElem? hy)
        simp [Computation.IsPlain, hstate] at this
      · exact .inl (hsame (by rw [heq]))
  | finish i =>
      obtain ⟨y, ending, hy, hstate, -⟩ | ⟨heq, -⟩ := w.finishComputation_cases i
      · have := hplain y (List.mem_of_getElem? hy)
        simp [Computation.IsPlain, hstate] at this
      · exact .inl (hsame (by rw [heq]))
  | @lookUp v d hwork hd t errand =>
      obtain ⟨cache, -, ⟨-, heq⟩ | ⟨-, i, -, heq⟩ | ⟨-, heq⟩⟩ := v.lookUp_cases t errand d
      · rw [heq] at hy'
        exact .inl ⟨y', hwork.computations ▸ hy', rfl, rfl⟩
      · rw [heq] at hy'
        simp only [List.getElem?_modify, hwork.computations] at hy'
        obtain ⟨y, hy, rfl⟩ := Option.map_eq_some_iff.mp hy'
        refine .inl ⟨y, hy, ?_⟩
        split <;> exact ⟨rfl, rfl⟩
      · rw [heq] at hy'
        simp only [List.getElem?_append, hwork.computations] at hy'
        split at hy'
        · exact .inl ⟨y', hy', rfl, rfl⟩
        · obtain rfl := List.mem_singleton.mp (List.mem_of_getElem? hy')
          exact .inr ⟨rfl, hd⟩

theorem Step.documents (hs : Step h false w w')
    (hedits : ∀ host host' commands, h.Yields host host' commands →
      ∀ uri text, .edit uri text ∉ commands) : w'.documents = w.documents := by
  cases hs.works with
  | nothing hsame => exact hsame.documents
  | openDocument _ hfree | editAt _ _ hfree | release _ _ hfree => cases hfree
  | obeyAll hhost =>
      rcases hhost with ⟨-, hfree⟩ | hyields
      · cases hfree
      · exact documents_obeyAll (hedits _ _ _ hyields)
  | finish c => exact (w.sameTasks_finishComputation c).documents
  | lookUp hsame => exact (sameTasks_lookUp ..).documents.trans hsame.documents

end World

end Swatch

import Swatch.Refresh.Run

/-!
The orders in which a world may run. Those who use a world may do something at any moment, the clock
may move on at any moment, and of the turns that wait any may be the next one. The order in which
worlds are run is one of these.
-/

namespace Swatch

/-- What may come next in a world. -/
inductive Act (ρ : Type) where
  | openDocument (d : Document)
  | edit (document : Nat) (text : String)
  | start (errand : Errand) (document : Nat)
  | obey (command : Command)
  | cancelTask (task : Nat)
  | release (computation : Nat) (ending : Ending (List ρ))
  /-- The clock moves on, and those who sleep until then at most are to be woken. -/
  | moveTo (instant : Float)
  /-- The clock moves on, and nobody is woken yet. -/
  | setClock (instant : Float)
  /-- The turn at this place among those that wait is taken. -/
  | turn (place : Nat)

namespace World

variable {η ρ : Type} (h : Host η ρ)

def act (w : World η ρ) : Act ρ → World η ρ
  | .openDocument d => w.openDocument d
  | .edit document text => w.editAt document text
  | .start errand document => w.start errand document
  | .obey command => w.obey command
  | .cancelTask t => (w.cancelTask t).2
  | .release c ending => (w.release c ending).2
  | .moveTo instant => w.moveTo instant
  | .setClock instant => { w with clock := instant }
  | .turn n =>
      match w.turns[n]? with
      | some turn => { w with turns := w.turns.eraseIdx n }.perform h turn
      | none => w

def acts (w : World η ρ) (as : List (Act ρ)) : World η ρ :=
  as.foldl (act h) w

@[simp] theorem acts_nil (w : World η ρ) : w.acts h [] = w :=
  rfl

@[simp] theorem acts_cons (w : World η ρ) (a : Act ρ) (as : List (Act ρ)) :
    w.acts h (a :: as) = (w.act h a).acts h as :=
  rfl

theorem acts_append (w : World η ρ) (as bs : List (Act ρ)) :
    w.acts h (as ++ bs) = (w.acts h as).acts h bs :=
  List.foldl_append

theorem exists_acts_runFor (fuel : Nat) (w : World η ρ) :
    ∃ as, w.runFor h fuel = w.acts h as := by
  induction fuel generalizing w with
  | zero => exact ⟨[], rfl⟩
  | succ fuel ih =>
      rw [runFor, nextTurn?]
      cases hturns : w.turns with
      | nil => exact ⟨[], rfl⟩
      | cons turn rest =>
          obtain ⟨as, has⟩ := ih ({ w with turns := rest }.perform h turn)
          exact ⟨.turn 0 :: as, by simpa [act, hturns] using has⟩

theorem exists_acts_moveTo (due : Float) (w v : World η ρ)
    (hv : ∃ as, v = ((w.moveTo due).rest h).acts h as) : ∃ as, v = w.acts h as := by
  obtain ⟨as, has⟩ := exists_acts_runFor h patience (w.moveTo due)
  obtain ⟨bs, hbs⟩ := hv
  refine ⟨.moveTo due :: as ++ bs, ?_⟩
  rw [hbs, acts_append, acts_cons, rest, has]
  rfl

theorem exists_acts_advanceTo (instant : Float) (fuel : Nat) (w : World η ρ) :
    ∃ as, w.advanceTo h instant fuel = w.acts h as := by
  induction fuel generalizing w with
  | zero => exact ⟨[], rfl⟩
  | succ fuel ih =>
      rw [advanceTo]
      split
      · split
        · exact exists_acts_moveTo h _ w _ (ih _)
        · exact ⟨[.setClock instant], rfl⟩
      · exact ⟨[.setClock instant], rfl⟩

theorem exists_acts_awaitFor (ts : List Nat) (fuel : Nat) (w : World η ρ) :
    ∃ as, awaitFor h ts fuel w = w.acts h as := by
  induction fuel generalizing w with
  | zero => exact ⟨[], rfl⟩
  | succ fuel ih =>
      rw [awaitFor]
      split
      · exact ⟨[], rfl⟩
      · split
        · exact exists_acts_moveTo h _ w _ (ih _)
        · exact ⟨[], rfl⟩

/-- Moving the clock on takes nothing but acts. -/
theorem exists_acts_advance (w : World η ρ) (seconds : Float) :
    ∃ as, w.advance h seconds = w.acts h as := by
  obtain ⟨as, has⟩ := exists_acts_runFor h patience w
  obtain ⟨bs, hbs⟩ := exists_acts_advanceTo h (w.clock + seconds) patience (w.rest h)
  exact ⟨as ++ bs, by rw [acts_append, ← has]; exact hbs⟩

/-- Letting tasks come to their end takes nothing but acts. -/
theorem exists_acts_await (w : World η ρ) (ts : List Nat) :
    ∃ as, w.await h ts = w.acts h as := by
  obtain ⟨as, has⟩ := exists_acts_runFor h patience w
  obtain ⟨bs, hbs⟩ := exists_acts_awaitFor h ts patience (w.rest h)
  exact ⟨as ++ bs, by rw [acts_append, ← has]; exact hbs⟩

end World

/-- A host that finds the characters of a document, and hands them on one by one. The one who takes
them steps aside `n` times at each. -/
def Host.spelling (n : Nat) : Host Unit Char where
  debounce := 0.0
  chunkSize := 1
  pause := 0.0
  chunkSize_pos := Nat.one_pos
  eligible _ := true
  prepare _ host := some (host, [])
  compute _ d host := (host, [], .ended (.finished d.text.toList))
  apply visit host :=
    (host, [], if visit.cancelled then some .cancelled
      else if visit.count < n then none else some (.finished ()))

end Swatch

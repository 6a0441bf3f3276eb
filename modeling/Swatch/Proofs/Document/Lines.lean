import Mathlib.Data.List.TakeWhile
import Swatch.Document.LineIndex

/-!
Positions and offsets of one text belong together: an offset in the text is the offset of its
position.
-/

namespace Swatch.LineIndex

/-- The last of the entries up to a bound is the entry at the place of their number. -/
theorem getElem?_takeWhile {p : Nat → Bool} {xs : List Nat} (hne : xs.takeWhile p ≠ []) :
    xs[(xs.takeWhile p).length - 1]? = some ((xs.takeWhile p).getLastD 0) := by
  have hlength := List.length_pos_iff.mpr hne
  have hfirst : xs[(xs.takeWhile p).length - 1]? =
      (xs.takeWhile p)[(xs.takeWhile p).length - 1]? := by
    obtain ⟨rest, hrest⟩ := List.takeWhile_prefix p (l := xs)
    have happend : (xs.takeWhile p ++ rest)[(xs.takeWhile p).length - 1]? =
        (xs.takeWhile p)[(xs.takeWhile p).length - 1]? := List.getElem?_append_left (by omega)
    rwa [hrest] at happend
  rw [hfirst, ← List.getLast?_eq_getElem?, List.getLastD_eq_getLast?,
    List.getLast?_eq_some_getLast hne, Option.getD_some]

/-- The line of an offset starts at or before it. -/
theorem getLastD_takeWhile_le (xs : List Nat) (offset : Nat) :
    (xs.takeWhile (· ≤ offset)).getLastD 0 ≤ offset := by
  cases hlast : (xs.takeWhile (· ≤ offset)).getLast? with
  | none => simp [List.getLastD_eq_getLast?, hlast]
  | some start =>
    have hmem := List.mem_of_getLast? hlast
    rw [List.getLastD_eq_getLast?, hlast]
    simpa using List.mem_takeWhile_imp hmem

theorem offsetAt_positionAt (cs : List Char) {offset : Nat} (hle : offset ≤ cs.length) :
    (ofChars cs).offsetAt ((ofChars cs).positionAt offset) = offset := by
  have hmin : min offset cs.length = offset := Nat.min_eq_left hle
  have hne : (ofChars cs).starts.takeWhile (· ≤ offset) ≠ [] := by
    simp [ofChars]
  have hstart := getElem?_takeWhile hne
  have hbound := getLastD_takeWhile_le (ofChars cs).starts offset
  have hlength : (ofChars cs).length = cs.length := rfl
  have hline : ((((ofChars cs).starts.takeWhile (· ≤ offset)).length : Int) - 1).toNat =
      ((ofChars cs).starts.takeWhile (· ≤ offset)).length - 1 := by omega
  simp only [offsetAt, positionAt, Int.toNat_natCast, hlength, hmin, hline, hstart]
  omega

end Swatch.LineIndex

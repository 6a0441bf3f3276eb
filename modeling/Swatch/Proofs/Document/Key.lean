import Mathlib.Data.List.Basic
import Swatch.Document.Position
import Swatch.Proofs.Text.Scanning

/-!
The keys of ranges. A range is known again by its key: the key is its four numbers, and between any
two of them stands a character that is no digit.
-/

namespace Swatch.Range

open Text

theorem toList_toString_nonneg (n : Nat) : (toString (n : Int)).toList = Nat.toDigits 10 n :=
  Nat.toList_repr

theorem toList_toString_negSucc (n : Nat) :
    (toString (Int.negSucc n)).toList = '-' :: Nat.toDigits 10 (n + 1) := by
  have hshown : toString (Int.negSucc n) = "-" ++ (n + 1).repr := rfl
  rw [hshown, String.toList_append, Nat.toList_repr]
  rfl

theorem toDigits_inj {m n : Nat} (h : Nat.toDigits 10 m = Nat.toDigits 10 n) : m = n := by
  have hvalue := congrArg (fun cs => Nat.ofDigitChars 10 cs 0) h
  simpa using hvalue

section Separated

variable {c : Char} {rest rest' : List Char}

/-- Digits end where something else begins. -/
theorem toDigits_append_inj {m n : Nat} (hc : c.isDigit = false)
    (h : Nat.toDigits 10 m ++ c :: rest = Nat.toDigits 10 n ++ c :: rest') : m = n ∧ rest = rest' := by
  have hspan (k : Nat) (more : List Char) :
      (Nat.toDigits 10 k ++ c :: more).span Char.isDigit = (Nat.toDigits 10 k, c :: more) :=
    span_append (fun d hd => Nat.isDigit_of_mem_toDigits (by decide) (by decide) hd) (by simp [hc])
  have hparts := (hspan m rest).symm.trans ((congrArg (List.span Char.isDigit) h).trans (hspan n rest'))
  obtain ⟨hdigits, hrest⟩ := Prod.mk.inj hparts
  exact ⟨toDigits_inj hdigits, (List.cons.inj hrest).2⟩

/-- What begins with a digit does not begin with a sign. -/
theorem toDigits_append_ne (n : Nat) : Nat.toDigits 10 n ++ rest ≠ '-' :: rest' := by
  intro h
  obtain ⟨d, more, hdigits⟩ := List.exists_cons_of_ne_nil (@Nat.toDigits_ne_nil n 10)
  have hd : d.isDigit = true :=
    Nat.isDigit_of_mem_toDigits (by decide) (by decide) (hdigits ▸ List.mem_cons_self)
  rw [hdigits] at h
  rw [(List.cons.inj h).1] at hd
  cases hd

theorem toString_append_inj {i j : Int} (hc : c.isDigit = false)
    (h : (toString i).toList ++ c :: rest = (toString j).toList ++ c :: rest') : i = j ∧ rest = rest' := by
  cases i with
  | ofNat m =>
    cases j with
    | ofNat n =>
      obtain ⟨rfl, hrest⟩ := toDigits_append_inj hc (by
        simpa only [Int.ofNat_eq_natCast, toList_toString_nonneg] using h)
      exact ⟨rfl, hrest⟩
    | negSucc n =>
      rw [toList_toString_negSucc] at h
      exact absurd h (toList_toString_nonneg m ▸ toDigits_append_ne m)
  | negSucc m =>
    cases j with
    | ofNat n =>
      rw [toList_toString_negSucc] at h
      exact absurd h.symm (toList_toString_nonneg n ▸ toDigits_append_ne n)
    | negSucc n =>
      rw [toList_toString_negSucc, toList_toString_negSucc] at h
      obtain ⟨hsucc, hrest⟩ := toDigits_append_inj hc (List.cons.inj h).2
      obtain rfl : m = n := Nat.succ.inj hsucc
      exact ⟨rfl, hrest⟩

end Separated

/-- Ranges of one key are one. -/
theorem key_inj {r r' : Range} (h : r.key = r'.key) : r = r' := by
  have hlist : ∀ x : Range, x.key.toList ++ ['\n'] = (toString x.start.line).toList ++ ':' ::
      ((toString x.start.character).toList ++ '-' :: ((toString x.stop.line).toList ++ ':' ::
        ((toString x.stop.character).toList ++ ['\n']))) := by
    simp [key]
  have hkeys := congrArg (fun key : String => key.toList ++ ['\n']) h
  simp only [hlist] at hkeys
  obtain ⟨hstart, hkeys⟩ := toString_append_inj (by decide) hkeys
  obtain ⟨hstart', hkeys⟩ := toString_append_inj (by decide) hkeys
  obtain ⟨hstop, hkeys⟩ := toString_append_inj (by decide) hkeys
  obtain ⟨hstop', -⟩ := toString_append_inj (by decide) hkeys
  cases r with
  | mk p q =>
    cases r' with
    | mk p' q' =>
      cases p; cases q; cases p'; cases q'
      simp_all

end Swatch.Range

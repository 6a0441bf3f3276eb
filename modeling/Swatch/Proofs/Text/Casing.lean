import Swatch.Proofs.Text.Trimming
import Swatch.Text.Case
import Swatch.Text.Digit

/-!
Small and capital letters of ASCII. What is asked of a character other than which letter it is has the
same answer for a capital and its small letter.
Main statements: to put a text of ASCII characters and white space into small letters or into capitals
changes its characters one by one, and none but its letters.
-/

namespace Swatch.Text

def capitals : List Char :=
  "ABCDEFGHIJKLMNOPQRSTUVWXYZ".toList

/-- A text in small letters; only those of ASCII have any. -/
def small (cs : List Char) : List Char :=
  cs.map Char.toLower

theorem toLower_eq_or_mem_capitals (c : Char) : c.toLower = c ∨ c ∈ capitals := by
  by_cases hc : 'A'.toNat ≤ c.toNat ∧ c.toNat ≤ 'Z'.toNat
  · have hall : ∀ n : Fin 26, Char.ofNat (n + 65) ∈ capitals := by decide
    have hfirst : 'A'.toNat = 65 := rfl
    have hlast : 'Z'.toNat = 90 := rfl
    have hmem := hall ⟨c.toNat - 65, by omega⟩
    have hcode : c.toNat - 65 + 65 = c.toNat := by omega
    simp only [hcode, Char.ofNat_toNat] at hmem
    exact .inr hmem
  · exact .inl (dif_neg hc)

theorem lt_of_toLower_lt {c : Char} (hc : c.toLower.toNat < 128) : c.toNat < 128 := by
  have hall : capitals.all (fun c => c.toNat < 128) = true := by decide
  rcases toLower_eq_or_mem_capitals c with hsame | hcapital
  · rwa [hsame] at hc
  · exact of_decide_eq_true (List.all_eq_true.mp hall c hcapital)

/-- What does not tell the capitals from their small letters tells no case. -/
theorem apply_toLower {β : Type} (p : Char → β) (h : (small capitals).map p = capitals.map p) (c : Char) :
    p c.toLower = p c := by
  rcases toLower_eq_or_mem_capitals c with hc | hc
  · rw [hc]
  · rw [small, List.map_map, List.map_inj_left] at h
    exact h c hc

theorem isBlank_toLower : ∀ c : Char, isBlank c.toLower = isBlank c :=
  apply_toLower isBlank (by decide)

theorem digitValue?_toLower : ∀ c : Char, digitValue? c.toLower = digitValue? c :=
  apply_toLower digitValue? (by decide)

theorem isDigit_toLower (c : Char) : isDigit c.toLower = isDigit c := by
  rw [isDigit, digitValue?_toLower, isDigit]

/-- A character that is no letter is itself in small letters, and nothing else is. -/
theorem beq_toLower (d : Char) (hd : (small capitals).map (· == d) = capitals.map (· == d)) (c : Char) :
    (c.toLower == d) = (c == d) :=
  apply_toLower (· == d) hd c

theorem digitsValue_small (cs : List Char) : digitsValue (small cs) = digitsValue cs := by
  simp only [digitsValue, small, List.foldl_map, digitValue?_toLower]

section Classes

variable {p : Char → Bool}

theorem dropWhile_small (hp : ∀ c : Char, p c.toLower = p c) (cs : List Char) :
    (small cs).dropWhile p = small (cs.dropWhile p) := by
  have hsame : p ∘ Char.toLower = p := funext hp
  rw [small, List.dropWhile_map, hsame, small]

theorem span_small (hp : ∀ c : Char, p c.toLower = p c) (cs : List Char) :
    (small cs).span p = (small (cs.span p).1, small (cs.span p).2) := by
  have hsame : p ∘ Char.toLower = p := funext hp
  rw [List.span_eq_takeWhile_dropWhile, List.span_eq_takeWhile_dropWhile, dropWhile_small hp, small,
    List.takeWhile_map, hsame]
  rfl

end Classes

theorem trimStart_small (cs : List Char) : trimStart (small cs) = small (trimStart cs) :=
  dropWhile_small isBlank_toLower cs

theorem small_reverse (cs : List Char) : small cs.reverse = (small cs).reverse :=
  List.map_reverse

theorem trim_small (cs : List Char) : trim (small cs) = small (trim cs) := by
  rw [trim, trimStart_small, trimEnd, ← small_reverse, dropWhile_small isBlank_toLower, ← small_reverse]
  rfl

/-! ### Changing the case of a text -/

/-- A character of ASCII, or white space of whatever script. -/
def IsPlain (c : Char) : Prop :=
  c.toNat < 128 ∨ isBlank c = true

theorem forall_of_ascii {P : Char → Prop} (hascii : ∀ n : Fin 128, P (Char.ofNat n)) {c : Char}
    (hc : c.toNat < 128) : P c := by
  simpa using hascii ⟨c.toNat, hc⟩

theorem forall_of_isPlain {P : Char → Prop} (hascii : ∀ n : Fin 128, P (Char.ofNat n))
    (hblank : ∀ n ∈ blankCodes, P (Char.ofNat n)) {c : Char} (hc : IsPlain c) : P c := by
  rcases hc with hc | hc
  · exact forall_of_ascii hascii hc
  · exact forall_of_blankCodes hblank hc

theorem lowerChar_eq {c : Char} (hc : IsPlain c) : lowerChar c = [c.toLower] :=
  forall_of_isPlain (P := fun c => lowerChar c = [c.toLower]) (by decide +kernel) (by decide +kernel) hc

theorem upperChar_eq {c : Char} (hc : IsPlain c) : upperChar c = [c.toUpper] :=
  forall_of_isPlain (P := fun c => upperChar c = [c.toUpper]) (by decide +kernel) (by decide +kernel) hc

theorem lowerAfter_eq_small {before cs : List Char} (hcs : ∀ c ∈ cs, IsPlain c) :
    lowerAfter before cs = small cs := by
  induction cs generalizing before with
  | nil => rfl
  | cons c rest ih =>
    obtain ⟨hc, hrest⟩ := List.forall_mem_cons.mp hcs
    have hsigma : (c == 'Σ') = false :=
      forall_of_isPlain (P := fun c => (c == 'Σ') = false) (by decide) (by decide) hc
    rw [lowerAfter, hsigma, ih hrest]
    simp only [Bool.false_eq_true, if_false, lowerChar_eq hc]
    rfl

/-- Putting a text into small letters. -/
theorem toList_lower {s : String} (hs : ∀ c ∈ s.toList, IsPlain c) :
    (lower s).toList = s.toList.map Char.toLower := by
  rw [lower, String.toList_ofList, lowerAfter_eq_small hs, small]

/-- Putting a text into capitals. -/
theorem toList_upper {s : String} (hs : ∀ c ∈ s.toList, IsPlain c) :
    (upper s).toList = s.toList.map Char.toUpper := by
  rw [upper, String.toList_ofList, List.map_eq_flatMap]
  exact List.flatMap_congr fun c hc => upperChar_eq (hs c hc)

theorem toLower_toLower : ∀ c : Char, c.toLower.toLower = c.toLower :=
  apply_toLower Char.toLower (by decide)

theorem toLower_toUpper (c : Char) : c.toUpper.toLower = c.toLower := by
  by_cases hc : c.toNat < 128
  · exact forall_of_ascii (P := fun c => c.toUpper.toLower = c.toLower) (by decide) hc
  · have hz : ¬(c.val ≥ 'a'.val ∧ c.val ≤ 'z'.val) := by
      rintro ⟨-, hle⟩
      exact hc (Nat.lt_of_le_of_lt (UInt32.le_iff_toNat_le.mp hle) (by decide))
    have hsame : c.toUpper = c := dif_neg hz
    rw [hsame]

end Swatch.Text

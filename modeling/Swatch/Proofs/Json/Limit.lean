import Mathlib.Data.List.Basic
import Mathlib.Data.List.TakeDrop
import Mathlib.Data.List.TakeWhile
import Swatch.Json.Reader

/-!
The limits of the reader. It refuses a text for its own sake, and not for a fault, only where a run
of digits in the text is too long for a whole number, or where more containers are opened in it than
may be nested.
-/

namespace Swatch.Json

variable {α β : Type} {cs rest : List Char} {depth : Nat}

/-- Whether a text is refused for what the reader cannot take in. -/
def Refusal.isLimit : Refusal → Bool
  | .fault _ _ => false
  | .tooManyDigits _ | .tooDeep _ => true

def isOpening (c : Char) : Bool :=
  c == '[' || c == '\x7b'

/-- What a text has to have for a refusal while so many containers more may be opened. -/
def Refusal.Grounded (depth : Nat) (cs : List Char) : Refusal → Prop
  | .fault _ _ => True
  | .tooManyDigits count =>
    maxDigits < count ∧ ∃ run, run <:+: cs ∧ run.length = count ∧ ∀ c ∈ run, c.isDigit
  | .tooDeep _ => depth < cs.countP isOpening

theorem Refusal.Grounded.of_suffix {r : Refusal} (h : r.Grounded depth rest) (hs : rest <:+ cs) :
    r.Grounded depth cs := by
  cases r with
  | fault => exact h
  | tooManyDigits count =>
    obtain ⟨hcount, run, hrun, hdigits⟩ := h
    exact ⟨hcount, run, hrun.trans hs.isInfix, hdigits⟩
  | tooDeep => exact Nat.lt_of_lt_of_le h (hs.sublist.countP_le)

/-- A reading leaves a part of the text at its end, or refuses with reason. -/
def Grounded (depth : Nat) (cs : List Char) : Except Refusal (α × List Char) → Prop
  | .ok (_, rest) => rest <:+ cs
  | .error r => r.Grounded depth cs

theorem Grounded.of_suffix {x : Except Refusal (α × List Char)} (h : Grounded depth rest x)
    (hs : rest <:+ cs) : Grounded depth cs x := by
  cases x with
  | ok found => exact List.IsSuffix.trans h hs
  | error r => exact Refusal.Grounded.of_suffix h hs

theorem Grounded.ok (a : α) (cs : List Char) : Grounded depth cs (.ok (a, cs)) :=
  List.suffix_rfl

theorem Grounded.bind {x : Except Refusal (α × List Char)}
    {f : α × List Char → Except Refusal (β × List Char)} (h : Grounded depth cs x)
    (hf : ∀ a rest, Grounded depth rest (f (a, rest))) : Grounded depth cs (x >>= f) := by
  cases x with
  | ok found => exact (hf found.1 found.2).of_suffix h
  | error r => exact h

/-- Behind an opening bracket one container less may be opened. -/
theorem Grounded.opening {x : Except Refusal (α × List Char)} (h : Grounded depth rest x) {c : Char}
    (hc : isOpening c) : Grounded (depth + 1) (c :: rest) x := by
  cases x with
  | ok found => exact List.IsSuffix.trans h (List.suffix_cons _ _)
  | error r =>
    cases r with
    | fault => trivial
    | tooManyDigits count =>
      have hr : Refusal.Grounded depth rest (.tooManyDigits count) := h
      exact (hr.of_suffix (List.suffix_cons _ _) :)
    | tooDeep =>
      have hlt : depth < rest.countP isOpening := h
      change depth + 1 < (c :: rest).countP isOpening
      rw [List.countP_cons_of_pos hc]
      omega

theorem skip_suffix (cs : List Char) : skip cs <:+ cs :=
  List.dropWhile_suffix _

theorem Grounded.of_skip {x : Except Refusal (α × List Char)} (h : Grounded depth (skip cs) x) :
    Grounded depth cs x :=
  h.of_suffix (skip_suffix cs)

theorem suffix_of_skip_eq_cons {c : Char} (h : skip cs = c :: rest) : rest <:+ cs :=
  (List.suffix_cons c rest).trans (h ▸ skip_suffix cs)

/-! ### Texts and numbers -/

theorem codeUnit?_suffix {unit : Nat} (h : codeUnit? cs = some (unit, rest)) : rest <:+ cs := by
  unfold codeUnit? at h
  split at h
  · next a b c d next more =>
    simp only [Option.bind_eq_bind, Option.bind_eq_some_iff] at h
    obtain ⟨_, -, _, -, _, -, _, -, h⟩ := h
    cases h
    exact ⟨[a, b, c, d], rfl⟩
  · simp at h

theorem lowUnit?_suffix {unit : Nat} (h : lowUnit? cs = some (unit, rest)) : rest <:+ cs := by
  unfold lowUnit? at h
  split at h
  · split at h
    · next hu =>
      split at h
      · cases h
        exact (codeUnit?_suffix hu).trans ⟨['\\', 'u'], rfl⟩
      · simp at h
    · simp at h
  · simp at h

theorem grounded_characters (depth start fuel : Nat) (cs : List Char) :
    Grounded depth cs (characters start fuel cs) := by
  fun_induction characters start fuel cs with
  | case1 | case2 | case4 | case5 | case7 | case9 => trivial
  | case3 => exact List.suffix_cons _ _
  | case6 fuel rest unit after hu code after' hafter ih =>
    have hs : after' <:+ rest := by
      refine List.IsSuffix.trans ?_ (codeUnit?_suffix hu)
      split at hafter
      · split at hafter
        · next hlow =>
          obtain ⟨-, rfl⟩ := Prod.mk.inj hafter
          exact lowUnit?_suffix hlow
        · obtain ⟨-, rfl⟩ := Prod.mk.inj hafter
          exact List.suffix_rfl
      · split at hafter <;> obtain ⟨-, rfl⟩ := Prod.mk.inj hafter <;> exact List.suffix_rfl
    refine (ih.bind ?_).of_suffix (hs.trans ((List.suffix_cons _ _).trans (List.suffix_cons _ _)))
    exact fun more rest => .ok _ rest
  | case8 fuel letter rest _ _ _ ih =>
    refine (ih.bind ?_).of_suffix ((List.suffix_cons _ _).trans (List.suffix_cons _ _))
    exact fun more rest => .ok _ rest
  | case10 fuel c rest _ _ _ _ _ ih =>
    refine (ih.bind ?_).of_suffix (List.suffix_cons _ _)
    exact fun more rest => .ok _ rest

theorem grounded_string (depth : Nat) (cs : List Char) : Grounded depth cs (string cs) := by
  refine (grounded_characters depth _ _ cs).bind ?_
  exact fun chars rest => .ok _ rest

theorem suffix_span (p : Char → Bool) (cs : List Char) : (cs.span p).2 <:+ cs := by
  rw [List.span_eq_takeWhile_dropWhile]
  exact List.dropWhile_suffix p

theorem suffix_fractionPart (cs : List Char) : (fractionPart cs).2 <:+ cs := by
  unfold fractionPart
  split
  · next rest =>
    simp only []
    split
    · exact List.suffix_rfl
    · exact (suffix_span _ rest).trans (List.suffix_cons _ _)
  · exact List.suffix_rfl

theorem suffix_sign (cs : List Char) : (Decimal.sign cs).2 <:+ cs := by
  unfold Decimal.sign
  split
  · exact List.suffix_cons _ _
  · exact List.suffix_cons _ _
  · exact List.suffix_rfl

theorem suffix_exponentPart (cs : List Char) :
    (Decimal.exponentPart (·.span Char.isDigit) cs).2 <:+ cs := by
  unfold Decimal.exponentPart
  split
  · next mark rest =>
    split
    · have hs := (suffix_span Char.isDigit (Decimal.sign rest).2).trans (suffix_sign rest)
      simp only []
      split
      · exact List.suffix_rfl
      · next hread =>
        rw [hread] at hs
        exact hs.trans (List.suffix_cons _ _)
    · exact List.suffix_rfl
  · exact List.suffix_rfl

/-- The digits before a point are a run of digits in front of what is left. -/
theorem wholePart?_eq_some {whole : List Char} (h : wholePart? cs = some (whole, rest)) :
    cs = whole ++ rest ∧ ∀ c ∈ whole, c.isDigit := by
  unfold wholePart? at h
  split at h
  · cases h
    exact ⟨rfl, List.forall_mem_singleton.mpr rfl⟩
  · next c more _ =>
    split at h
    · rw [List.span_eq_takeWhile_dropWhile, Option.some.injEq, Prod.mk.injEq] at h
      obtain ⟨rfl, rfl⟩ := h
      exact ⟨(List.takeWhile_append_dropWhile).symm, fun c hc => List.mem_takeWhile_imp hc⟩
    · simp at h
  · simp at h

theorem grounded_number (depth : Nat) (cs : List Char) : Grounded depth cs (number cs) := by
  unfold number
  split
  next negative unsigned hsign =>
  have hunsigned : unsigned <:+ cs := by
    split at hsign <;> obtain ⟨-, rfl⟩ := Prod.mk.inj hsign
    · exact List.suffix_cons _ _
    · exact List.suffix_rfl
  split
  · trivial
  next whole afterWhole hwhole =>
  obtain ⟨hsplit, hdigits⟩ := wholePart?_eq_some hwhole
  have hafter : afterWhole <:+ cs := List.IsSuffix.trans ⟨whole, hsplit.symm⟩ hunsigned
  have hrest : (Decimal.exponentPart (·.span Char.isDigit) (fractionPart afterWhole).2).2 <:+ cs :=
    (suffix_exponentPart _).trans ((suffix_fractionPart _).trans hafter)
  simp only []
  split
  · split
    · next hlong =>
      refine ⟨hlong, whole, ?_, rfl, hdigits⟩
      exact List.IsInfix.trans ⟨[], afterWhole, by rw [List.nil_append, hsplit]⟩ hunsigned.isInfix
    · exact hrest
  · exact hrest

theorem grounded_scalar (depth : Nat) (cs : List Char) : Grounded depth cs (scalar cs) := by
  unfold scalar
  simp only []
  split
  · next found h =>
    obtain ⟨⟨word, v⟩, -, hword⟩ := List.exists_of_findSome?_eq_some h
    simp only [Option.map_eq_some_iff] at hword
    obtain ⟨rest, hrest, rfl⟩ := hword
    exact ⟨word.toList, List.isPrefixOf?_eq_some_iff_append_eq.mp hrest⟩
  · exact grounded_number depth cs

/-! ### Values -/

/-- What is read from an opening bracket on: nothing if no container more may be opened, and else
what is inside while one less may be. -/
theorem grounded_container {x : Except Refusal (α × List Char)} {c : Char} (hc : isOpening c)
    (hnone : depth = 0 → ∃ container, x = .error (.tooDeep container))
    (hsome : ∀ fewer, depth = fewer + 1 → Grounded fewer rest x) : Grounded depth (c :: rest) x := by
  cases depth with
  | zero =>
    obtain ⟨container, rfl⟩ := hnone rfl
    change 0 < (c :: rest).countP isOpening
    rw [List.countP_cons_of_pos hc]
    omega
  | succ fewer => exact (hsome fewer rfl).opening hc

theorem grounded_value_elements_members (fuel : Nat) :
    (∀ depth cs, Grounded depth cs (value fuel depth cs)) ∧
      (∀ depth cs, Grounded depth cs (elements fuel depth cs)) ∧
      ∀ depth cs, Grounded depth cs (members fuel depth cs) := by
  induction fuel with
  | zero => exact ⟨fun _ _ => trivial, fun _ _ => trivial, fun _ _ => trivial⟩
  | succ fuel ih =>
    obtain ⟨ihValue, ihElements, ihMembers⟩ := ih
    refine ⟨fun depth cs => ?_, fun depth cs => ?_, fun depth cs => ?_⟩
    · unfold value
      split
      · contradiction
      · next rest _ =>
        refine ((grounded_string _ rest).bind ?_).of_suffix (List.suffix_cons _ _)
        exact fun s rest => .ok _ rest
      · next depth _ fuel' rest hfuel =>
        obtain rfl : fuel = fuel' := Nat.succ.inj hfuel
        refine grounded_container rfl (fun h => ⟨.array, by rw [h]⟩) fun fewer h => ?_
        subst h
        simp only []
        split
        · next hskip => exact suffix_of_skip_eq_cons hskip
        · refine (Grounded.bind (ihElements fewer _) ?_).of_skip
          exact fun items rest => .ok _ rest
      · next depth _ fuel' rest hfuel =>
        obtain rfl : fuel = fuel' := Nat.succ.inj hfuel
        refine grounded_container rfl (fun h => ⟨.object, by rw [h]⟩) fun fewer h => ?_
        subst h
        simp only []
        split
        · next hskip => exact suffix_of_skip_eq_cons hskip
        · refine (Grounded.bind (ihMembers fewer _) ?_).of_skip
          exact fun pairs rest => .ok _ rest
      · exact grounded_scalar _ _
    · unfold elements
      refine (ihValue depth cs).bind fun item rest => ?_
      simp only []
      split
      · next hskip => exact suffix_of_skip_eq_cons hskip
      · next hskip =>
        refine Grounded.of_suffix (Grounded.bind (ihElements depth _).of_skip ?_)
          (suffix_of_skip_eq_cons hskip)
        exact fun items rest => .ok _ rest
      · trivial
    · unfold members
      split
      · refine ((grounded_string depth _).bind fun name rest => ?_).of_suffix (List.suffix_cons _ _)
        simp only []
        split
        · next hcolon =>
          refine Grounded.of_suffix ?_ (suffix_of_skip_eq_cons hcolon)
          refine (ihValue depth _).of_skip.bind fun item rest => ?_
          simp only []
          split
          · next hskip => exact suffix_of_skip_eq_cons hskip
          · next hskip =>
            refine Grounded.of_suffix (Grounded.bind (ihMembers depth _).of_skip ?_)
              (suffix_of_skip_eq_cons hskip)
            exact fun more rest => .ok _ rest
          · trivial
        · trivial
      · trivial

/-- A text is refused with reason. -/
theorem grounded_of_ofChars {r : Refusal} (h : ofChars cs = .error r) : r.Grounded maxDepth cs := by
  unfold ofChars at h
  split at h
  · cases h
    trivial
  · dsimp only at h
    have hv := (grounded_value_elements_members (2 * (skip cs).length + 1)).1 maxDepth (skip cs)
    cases hvalue : value (2 * (skip cs).length + 1) maxDepth (skip cs) with
    | error r' =>
      rw [hvalue] at h hv
      cases h
      exact Refusal.Grounded.of_suffix hv (skip_suffix cs)
    | ok found =>
      rw [hvalue] at h
      -- The value was read, so what is wrong is that something stands behind it.
      cases hrest : skip found.2 with
      | nil =>
        simp only [bind, Except.bind, hrest] at h
        cases h
      | cons c rest =>
        simp only [bind, Except.bind, hrest] at h
        cases h
        trivial

/-! ### Texts beyond the limits -/

theorem skip_cons {c : Char} (h : isSpace c = false) (cs : List Char) : skip (c :: cs) = c :: cs := by
  rw [skip, List.dropWhile_cons_of_neg (by simp [h])]

theorem elements_of_value {fuel : Nat} {r : Refusal} (h : value fuel depth cs = .error r) :
    elements (fuel + 1) depth cs = .error r := by
  rw [elements, h]
  rfl

theorem ofChars_of_value {c : Char} {r : Refusal} (hc : isSpace c = false) (hmark : c ≠ '\uFEFF')
    (h : value (2 * (c :: cs).length + 1) maxDepth (c :: cs) = .error r) :
    ofChars (c :: cs) = .error r := by
  unfold ofChars
  split
  · next heq => exact absurd (List.cons.inj heq).1 hmark
  · simp only [skip_cons hc, h]
    rfl

theorem value_brackets {fuel n : Nat} (hfuel : 2 * depth < fuel) (hn : depth < n) (rest : List Char) :
    value fuel depth (List.replicate n '[' ++ rest) = .error (.tooDeep .array) := by
  obtain ⟨n, rfl⟩ : ∃ m, n = m + 1 := ⟨n - 1, by omega⟩
  obtain ⟨fuel, rfl⟩ : ∃ m, fuel = m + 1 := ⟨fuel - 1, by omega⟩
  rw [List.replicate_succ, List.cons_append]
  induction depth generalizing fuel n with
  | zero => rfl
  | succ depth ih =>
    obtain ⟨n, rfl⟩ : ∃ m, n = m + 1 := ⟨n - 1, by omega⟩
    obtain ⟨fuel, rfl⟩ : ∃ m, fuel = m + 2 := ⟨fuel - 2, by omega⟩
    have hinner : value (fuel + 1) depth ('[' :: (List.replicate n '[' ++ rest)) =
        .error (.tooDeep .array) := ih n (by omega) fuel (by omega)
    have hinside := elements_of_value hinner
    rw [value, List.replicate_succ, List.cons_append, skip_cons rfl]
    split
    · next heq => exact absurd (List.cons.inj heq).1 (by decide)
    · rw [hinside]
      rfl

/-- More containers inside each other than may be nested are refused. -/
theorem ofChars_brackets {n : Nat} (hn : maxDepth < n) (rest : List Char) :
    ofChars (List.replicate n '[' ++ rest) = .error (.tooDeep .array) := by
  obtain ⟨n, rfl⟩ : ∃ m, n = m + 1 := ⟨n - 1, by omega⟩
  have hvalue : value (2 * (List.replicate (n + 1) '[' ++ rest).length + 1) maxDepth
      (List.replicate (n + 1) '[' ++ rest) = .error (.tooDeep .array) :=
    value_brackets (by rw [List.length_append, List.length_replicate]; omega) hn rest
  exact ofChars_of_value rfl (by decide) hvalue

theorem keywords_head : ∀ keyword ∈ keywords, ∃ first word,
    keyword.1.toList = first :: word ∧ first.isDigit = false := by
  rw [keywords]
  simp only [List.forall_mem_cons]
  exact ⟨⟨_, _, rfl, rfl⟩, ⟨_, _, rfl, rfl⟩, ⟨_, _, rfl, rfl⟩, ⟨_, _, rfl, rfl⟩, ⟨_, _, rfl, rfl⟩,
    ⟨_, _, rfl, rfl⟩, by simp⟩

theorem scalar_of_isDigit {c : Char} (hc : c.isDigit) (cs : List Char) :
    scalar (c :: cs) = number (c :: cs) := by
  have hnone : (keywords.findSome? fun keyword =>
      (keyword.1.toList.isPrefixOf? (c :: cs)).map fun rest => (keyword.2, rest)) = none := by
    rw [List.findSome?_eq_none_iff]
    intro keyword hk
    obtain ⟨first, word, hword, hfirst⟩ := keywords_head keyword hk
    have hne : (first == c) = false := by
      rw [beq_eq_false_iff_ne]
      rintro rfl
      rw [hc] at hfirst
      contradiction
    rw [hword, List.isPrefixOf?, hne]
    rfl
  unfold scalar
  extract_lets keyword?
  have hkeyword : keyword? = none := hnone
  rw [hkeyword]

theorem value_of_isDigit {c : Char} (hc : c.isDigit) (fuel depth : Nat) (cs : List Char) :
    value (fuel + 1) depth (c :: cs) = number (c :: cs) := by
  unfold value
  split
  · contradiction
  · next heq => exact absurd ((List.cons.inj heq).1 ▸ hc) (by decide)
  · next heq => exact absurd ((List.cons.inj heq).1 ▸ hc) (by decide)
  · next heq => exact absurd ((List.cons.inj heq).1 ▸ hc) (by decide)
  · exact scalar_of_isDigit hc cs

theorem wholePart?_digits {first : Char} {digits : List Char} (hzero : first ≠ '0')
    (hall : ∀ c ∈ first :: digits, c.isDigit) :
    wholePart? (first :: digits) = some (first :: digits, []) := by
  have hspan : (first :: digits).span Char.isDigit = (first :: digits, []) := by
    rw [List.span_eq_takeWhile_dropWhile, List.takeWhile_eq_self_iff.mpr hall,
      List.dropWhile_eq_nil_iff.mpr hall]
  unfold wholePart?
  split
  · next heq => exact absurd (List.cons.inj heq).1 hzero
  · next heq =>
    obtain ⟨rfl, rfl⟩ := List.cons.inj heq
    rw [if_pos (hall first List.mem_cons_self), hspan]
  · contradiction

/-- A whole number of more digits than are read is refused. -/
theorem ofChars_digits {first : Char} {digits : List Char} (hzero : first ≠ '0')
    (hall : ∀ c ∈ first :: digits, c.isDigit) (hlong : maxDigits ≤ digits.length) :
    ofChars (first :: digits) = .error (.tooManyDigits (digits.length + 1)) := by
  have hfirst : first.isDigit := hall first List.mem_cons_self
  have hne {c : Char} (hc : c.isDigit = false) : first ≠ c := fun h => by simp [← h, hfirst] at hc
  have hspace : isSpace first = false := by
    simp [isSpace, hne (c := ' ') rfl, hne (c := '\t') rfl, hne (c := '\n') rfl, hne (c := '\r') rfl]
  refine ofChars_of_value hspace (hne rfl) ?_
  rw [value_of_isDigit hfirst, number]
  · simp only [wholePart?_digits hzero hall]
    exact if_pos (Nat.lt_succ_of_le hlong)
  · rintro rest heq
    exact hne rfl (List.cons.inj heq).1

end Swatch.Json

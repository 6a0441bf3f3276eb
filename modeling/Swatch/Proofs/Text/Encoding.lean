import Swatch.Text.Utf8

/-!
Octets are read as a text exactly if they are how the text is written as UTF-8.
-/

namespace Swatch.Text.Utf8

variable {first : UInt8} {continuing rest octets : List UInt8} {payloads : List Nat} {c : Char}
  {cs : List Char}

def encode (cs : List Char) : List UInt8 :=
  cs.flatMap String.utf8EncodeChar

@[simp] theorem encode_cons (c : Char) (cs : List Char) :
    encode (c :: cs) = String.utf8EncodeChar c ++ encode cs := rfl

/-- What follows the first octet of a sequence: as many octets as it asks for, all of which continue
a sequence, and the first of which may come second. -/
structure Continues (first : UInt8) (continuing : List UInt8) : Prop where
  length : sequenceLength? first = some (continuing.length + 1)
  all : ∀ b ∈ continuing, isContinuation b
  second : ∀ b ∈ continuing.head?, isSecond first b

theorem isContinuation_of_isSecond {b : UInt8} (h : isSecond first b) : isContinuation b := by
  rw [isSecond, Bool.and_eq_true] at h
  exact h.1

theorem go_append {seen : Nat} (hall : ∀ b ∈ continuing, isContinuation b)
    (hsecond : seen = 0 → ∀ b ∈ continuing.head?, isSecond first b) (after : List UInt8) :
    continuation.go first continuing.length seen (continuing ++ after) =
      .ok (continuing.map payload) := by
  induction continuing generalizing seen with
  | nil => rfl
  | cons b continuing ih =>
    have hb : (if seen = 0 then isSecond first b else isContinuation b) = true := by
      split
      · next h => exact hsecond h b rfl
      · exact hall b List.mem_cons_self
    rw [List.length_cons, List.cons_append, continuation.go, if_pos hb,
      ih (fun x hx => hall x (List.mem_cons_of_mem b hx)) (by simp)]
    rfl

theorem exists_of_go {needed seen : Nat} (h : continuation.go first needed seen rest = .ok payloads) :
    ∃ continuing after, rest = continuing ++ after ∧ continuing.length = needed ∧
      payloads = continuing.map payload ∧ (∀ b ∈ continuing, isContinuation b) ∧
      (seen = 0 → ∀ b ∈ continuing.head?, isSecond first b) := by
  induction needed generalizing seen rest payloads with
  | zero =>
    cases h
    exact ⟨[], rest, rfl, rfl, rfl, by simp, by simp⟩
  | succ needed ih =>
    cases rest with
    | nil => cases h
    | cons b rest =>
      rw [continuation.go] at h
      by_cases hb : (if seen = 0 then isSecond first b else isContinuation b) = true
      · rw [if_pos hb] at h
        cases hgo : continuation.go first needed (seen + 1) rest with
        | error e => rw [hgo] at h; cases h
        | ok more =>
          rw [hgo] at h
          cases h
          obtain ⟨continuing, after, rfl, hl, rfl, hall, -⟩ := ih hgo
          refine ⟨b :: continuing, after, rfl, by rw [List.length_cons, hl], rfl, ?_, ?_⟩
          · have : isContinuation b := by
              split at hb
              · exact isContinuation_of_isSecond hb
              · exact hb
            simpa [this] using hall
          · intro h0
            simpa [h0] using hb
      · rw [if_neg hb] at h
        cases h

/-- A sequence is one that continues as it should. -/
theorem continuation_eq_ok_iff {length : Nat} (hl : sequenceLength? first = some (length + 1)) :
    continuation first length rest = .ok payloads ↔
      ∃ continuing after, rest = continuing ++ after ∧ continuing.length = length ∧
        Continues first continuing ∧ payloads = continuing.map payload := by
  constructor
  · intro h
    obtain ⟨continuing, after, rfl, hlen, rfl, hall, hsecond⟩ := exists_of_go h
    exact ⟨continuing, after, rfl, hlen, ⟨by rw [hl, hlen], hall, hsecond rfl⟩, rfl⟩
  · rintro ⟨continuing, after, rfl, rfl, hc, rfl⟩
    exact go_append hc.all (fun _ => hc.second) after

/-! ### One character -/

theorem isContinuation_iff {b : UInt8} : isContinuation b ↔ 0x80 ≤ b.toNat ∧ b.toNat < 0xC0 := by
  simp [isContinuation, UInt8.le_iff_toNat_le, UInt8.lt_iff_toNat_lt]

theorem isSecond_iff {b : UInt8} :
    isSecond first b ↔ 0x80 ≤ b.toNat ∧ b.toNat < 0xC0 ∧
      (first.toNat = 0xE0 → 0xA0 ≤ b.toNat) ∧ (first.toNat = 0xED → b.toNat < 0xA0) ∧
      (first.toNat = 0xF0 → 0x90 ≤ b.toNat) ∧ (first.toNat = 0xF4 → b.toNat < 0x90) := by
  rw [isSecond, Bool.and_eq_true, isContinuation_iff]
  simp only [beq_iff_eq, UInt8.le_iff_toNat_le, UInt8.lt_iff_toNat_lt, ← UInt8.toNat_inj]
  grind

theorem sequenceLength?_eq_some_iff {n : Nat} :
    sequenceLength? first = some n ↔
      (n = 1 ∧ first.toNat < 0x80) ∨ (n = 2 ∧ 0xC2 ≤ first.toNat ∧ first.toNat < 0xE0) ∨
      (n = 3 ∧ 0xE0 ≤ first.toNat ∧ first.toNat < 0xF0) ∨
      (n = 4 ∧ 0xF0 ≤ first.toNat ∧ first.toNat < 0xF5) := by
  rw [sequenceLength?]
  simp only [UInt8.lt_iff_toNat_lt]
  grind

theorem continues_iff : Continues first continuing ↔
    sequenceLength? first = some (continuing.length + 1) ∧
      (∀ b ∈ continuing, isContinuation b) ∧ ∀ b ∈ continuing.head?, isSecond first b :=
  ⟨fun h => ⟨h.length, h.all, h.second⟩, fun h => ⟨h.1, h.2.1, h.2.2⟩⟩

theorem continues_nil : Continues first [] ↔ first.toNat < 0x80 := by
  rw [continues_iff, sequenceLength?_eq_some_iff]
  simp

theorem continues_one {a : UInt8} : Continues first [a] ↔
    0xC2 ≤ first.toNat ∧ first.toNat < 0xE0 ∧ 0x80 ≤ a.toNat ∧ a.toNat < 0xC0 := by
  simp only [continues_iff, sequenceLength?_eq_some_iff, isContinuation_iff, isSecond_iff]
  simp
  grind

theorem continues_two {a b : UInt8} : Continues first [a, b] ↔
    0xE0 ≤ first.toNat ∧ first.toNat < 0xF0 ∧ 0x80 ≤ a.toNat ∧ a.toNat < 0xC0 ∧
      (first.toNat = 0xE0 → 0xA0 ≤ a.toNat) ∧ (first.toNat = 0xED → a.toNat < 0xA0) ∧
      0x80 ≤ b.toNat ∧ b.toNat < 0xC0 := by
  simp only [continues_iff, sequenceLength?_eq_some_iff, isContinuation_iff, isSecond_iff]
  simp
  grind

theorem continues_three {a b d : UInt8} : Continues first [a, b, d] ↔
    0xF0 ≤ first.toNat ∧ first.toNat < 0xF5 ∧ 0x80 ≤ a.toNat ∧ a.toNat < 0xC0 ∧
      (first.toNat = 0xF0 → 0x90 ≤ a.toNat) ∧ (first.toNat = 0xF4 → a.toNat < 0x90) ∧
      0x80 ≤ b.toNat ∧ b.toNat < 0xC0 ∧ 0x80 ≤ d.toNat ∧ d.toNat < 0xC0 := by
  simp only [continues_iff, sequenceLength?_eq_some_iff, isContinuation_iff, isSecond_iff]
  simp
  grind

theorem Continues.length_lt (h : Continues first continuing) : continuing.length < 4 := by
  have := sequenceLength?_eq_some_iff.mp h.length
  omega

def sequenceOf (code : Nat) : List UInt8 :=
  if code ≤ 0x7F then [.ofNat code]
  else if code ≤ 0x7FF then [.ofNat (code / 0x40 % 0x20 + 0xC0), .ofNat (code % 0x40 + 0x80)]
  else if code ≤ 0xFFFF then
    [.ofNat (code / 0x1000 % 0x10 + 0xE0), .ofNat (code / 0x40 % 0x40 + 0x80),
      .ofNat (code % 0x40 + 0x80)]
  else
    [.ofNat (code / 0x40000 % 0x08 + 0xF0), .ofNat (code / 0x1000 % 0x40 + 0x80),
      .ofNat (code / 0x40 % 0x40 + 0x80), .ofNat (code % 0x40 + 0x80)]

theorem utf8EncodeChar_eq (c : Char) : String.utf8EncodeChar c = sequenceOf c.toNat := rfl

theorem eq_ofNat_of_toNat {b : UInt8} {n : Nat} (h : b.toNat = n) : UInt8.ofNat n = b := by
  rw [← h, UInt8.ofNat_toNat]

/-- The code of a sequence is one of a character, and the sequence is the one that is written for
it. -/
theorem isValidChar_codePoint (h : Continues first continuing) :
    (codePoint (continuing.length + 1) first (continuing.map payload)).isValidChar ∧
      sequenceOf (codePoint (continuing.length + 1) first (continuing.map payload)) =
        first :: continuing := by
  match continuing with
  | [] =>
    have hcode : codePoint 1 first [] = first.toNat := rfl
    rw [continues_nil] at h
    rw [List.length_nil, List.map_nil, hcode]
    refine ⟨by omega, ?_⟩
    rw [sequenceOf, if_pos (by omega), UInt8.ofNat_toNat]
  | [a] =>
    have hcode : codePoint 2 first [payload a] =
        64 * (first.toNat - 0xC0) + (a.toNat - 0x80) := rfl
    rw [continues_one] at h
    rw [List.length_singleton, List.map_singleton, hcode]
    refine ⟨by omega, ?_⟩
    rw [sequenceOf, if_neg (by omega), if_pos (by omega),
      eq_ofNat_of_toNat (b := first) (by omega), eq_ofNat_of_toNat (b := a) (by omega)]
  | [a, b] =>
    have hcode : codePoint 3 first [payload a, payload b] =
        64 * (64 * (first.toNat - 0xE0) + (a.toNat - 0x80)) + (b.toNat - 0x80) := rfl
    rw [continues_two] at h
    change (codePoint 3 first [payload a, payload b]).isValidChar ∧
      sequenceOf (codePoint 3 first [payload a, payload b]) = _
    rw [hcode]
    refine ⟨by omega, ?_⟩
    rw [sequenceOf, if_neg (by omega), if_neg (by omega), if_pos (by omega),
      eq_ofNat_of_toNat (b := first) (by omega), eq_ofNat_of_toNat (b := a) (by omega),
      eq_ofNat_of_toNat (b := b) (by omega)]
  | [a, b, d] =>
    have hcode : codePoint 4 first [payload a, payload b, payload d] =
        64 * (64 * (64 * (first.toNat - 0xF0) + (a.toNat - 0x80)) + (b.toNat - 0x80)) +
          (d.toNat - 0x80) := rfl
    rw [continues_three] at h
    change (codePoint 4 first [payload a, payload b, payload d]).isValidChar ∧
      sequenceOf (codePoint 4 first [payload a, payload b, payload d]) = _
    rw [hcode]
    refine ⟨by omega, ?_⟩
    rw [sequenceOf, if_neg (by omega), if_neg (by omega), if_neg (by omega),
      eq_ofNat_of_toNat (b := first) (by omega), eq_ofNat_of_toNat (b := a) (by omega),
      eq_ofNat_of_toNat (b := b) (by omega), eq_ofNat_of_toNat (b := d) (by omega)]
  | _ :: _ :: _ :: _ :: _ =>
    have := h.length_lt
    simp only [List.length_cons] at this
    omega

theorem exists_octet {n : Nat} (h : n < 0x100) : ∃ b : UInt8, UInt8.ofNat n = b ∧ b.toNat = n :=
  ⟨_, rfl, UInt8.toNat_ofNat_of_lt' h⟩

/-- The sequence that is written for a character continues as it should and has its code. -/
theorem exists_continues {code : Nat} (hv : code.isValidChar) :
    ∃ first continuing, sequenceOf code = first :: continuing ∧ Continues first continuing ∧
      codePoint (continuing.length + 1) first (continuing.map payload) = code := by
  rw [sequenceOf]
  split
  · obtain ⟨first, hf, hfirst⟩ := exists_octet (n := code) (by omega)
    exact ⟨first, [], by rw [hf], continues_nil.mpr (by omega), hfirst⟩
  split
  · obtain ⟨first, hf, hfirst⟩ := exists_octet (n := code / 0x40 % 0x20 + 0xC0) (by omega)
    obtain ⟨a, ha, haN⟩ := exists_octet (n := code % 0x40 + 0x80) (by omega)
    refine ⟨first, [a], by rw [hf, ha], continues_one.mpr (by omega), ?_⟩
    change 64 * (first.toNat - 0xC0) + (a.toNat - 0x80) = code
    omega
  split
  · obtain ⟨first, hf, hfirst⟩ := exists_octet (n := code / 0x1000 % 0x10 + 0xE0) (by omega)
    obtain ⟨a, ha, haN⟩ := exists_octet (n := code / 0x40 % 0x40 + 0x80) (by omega)
    obtain ⟨b, hb, hbN⟩ := exists_octet (n := code % 0x40 + 0x80) (by omega)
    refine ⟨first, [a, b], by rw [hf, ha, hb], continues_two.mpr (by omega), ?_⟩
    change 64 * (64 * (first.toNat - 0xE0) + (a.toNat - 0x80)) + (b.toNat - 0x80) = code
    omega
  · obtain ⟨first, hf, hfirst⟩ := exists_octet (n := code / 0x40000 % 0x08 + 0xF0) (by omega)
    obtain ⟨a, ha, haN⟩ := exists_octet (n := code / 0x1000 % 0x40 + 0x80) (by omega)
    obtain ⟨b, hb, hbN⟩ := exists_octet (n := code / 0x40 % 0x40 + 0x80) (by omega)
    obtain ⟨d, hd, hdN⟩ := exists_octet (n := code % 0x40 + 0x80) (by omega)
    refine ⟨first, [a, b, d], by rw [hf, ha, hb, hd], continues_three.mpr (by omega), ?_⟩
    change 64 * (64 * (64 * (first.toNat - 0xF0) + (a.toNat - 0x80)) + (b.toNat - 0x80)) +
      (d.toNat - 0x80) = code
    omega

/-! ### A text -/

theorem decodeFrom_append_length (offset : Nat) (skipped rest : List UInt8) :
    decodeFrom offset skipped.length (skipped ++ rest) =
      decodeFrom (offset + skipped.length) 0 rest := by
  induction skipped generalizing offset with
  | nil => rfl
  | cons b skipped ih =>
    rw [List.cons_append, List.length_cons, decodeFrom, ih, Nat.add_assoc, Nat.add_comm 1]

/-- A sequence that continues as it should is read as one character. -/
theorem decodeFrom_sequence (h : Continues first continuing) (offset : Nat) (rest : List UInt8) :
    decodeFrom offset 0 (first :: (continuing ++ rest)) =
      (Char.ofNat (codePoint (continuing.length + 1) first (continuing.map payload)) :: ·) <$>
        decodeFrom (offset + (continuing.length + 1)) 0 rest := by
  have hgo : continuation first continuing.length (continuing ++ rest) =
      .ok (continuing.map payload) :=
    go_append h.all (fun _ => h.second) rest
  rw [decodeFrom, h.length]
  simp only [Nat.add_sub_cancel, hgo, decodeFrom_append_length]
  rw [Nat.add_assoc, Nat.add_comm 1]

theorem exists_continues_of_char (c : Char) :
    ∃ first continuing, String.utf8EncodeChar c = first :: continuing ∧
      Continues first continuing ∧
      Char.ofNat (codePoint (continuing.length + 1) first (continuing.map payload)) = c := by
  obtain ⟨first, continuing, hs, hc, hcode⟩ := exists_continues c.valid
  exact ⟨first, continuing, hs, hc, by rw [hcode]; exact Char.ofNat_toNat c⟩

/-- What is written for a text is read as the text. -/
theorem decodeFrom_encode (offset : Nat) (cs : List Char) :
    decodeFrom offset 0 (encode cs) = .ok cs := by
  induction cs generalizing offset with
  | nil => rfl
  | cons c cs ih =>
    obtain ⟨first, continuing, hs, hc, hchar⟩ := exists_continues_of_char c
    rw [encode_cons, hs, List.cons_append, decodeFrom_sequence hc, ih, hchar]
    rfl

theorem utf8EncodeChar_codePoint (h : Continues first continuing) :
    String.utf8EncodeChar
      (Char.ofNat (codePoint (continuing.length + 1) first (continuing.map payload))) =
      first :: continuing := by
  obtain ⟨hv, hs⟩ := isValidChar_codePoint h
  rw [utf8EncodeChar_eq, Char.ofNat, dif_pos hv]
  exact hs

theorem exists_continues_of_decodeFrom {offset : Nat}
    (h : decodeFrom offset 0 (first :: rest) = .ok cs) :
    ∃ continuing after, rest = continuing ++ after ∧ Continues first continuing := by
  rw [decodeFrom] at h
  cases hl : sequenceLength? first with
  | none => simp only [hl, reduceCtorEq] at h
  | some length =>
    obtain ⟨length, rfl⟩ : ∃ l, length = l + 1 := by
      rw [sequenceLength?_eq_some_iff] at hl
      exact ⟨length - 1, by omega⟩
    simp only [hl, Nat.add_sub_cancel] at h
    cases hp : continuation first length rest with
    | error e => simp only [hp, reduceCtorEq] at h
    | ok payloads =>
      obtain ⟨continuing, after, hrest, -, hc, -⟩ := (continuation_eq_ok_iff hl).mp hp
      exact ⟨continuing, after, hrest, hc⟩

/-- What is read as a text is what is written for it. -/
theorem eq_encode_of_decodeFrom {offset : Nat} (h : decodeFrom offset 0 octets = .ok cs) :
    octets = encode cs := by
  induction hn : octets.length using Nat.strongRecOn generalizing octets offset cs with
  | ind n ih =>
    cases octets with
    | nil =>
      cases h
      rfl
    | cons first rest =>
      obtain ⟨continuing, after, rfl, hc⟩ := exists_continues_of_decodeFrom h
      rw [decodeFrom_sequence hc] at h
      cases hafter : decodeFrom (offset + (continuing.length + 1)) 0 after with
      | error e => rw [hafter] at h; cases h
      | ok cs' =>
        rw [hafter] at h
        cases h
        have hlt : after.length < n := by
          simp only [List.length_cons, List.length_append] at hn
          omega
        rw [encode_cons, utf8EncodeChar_codePoint hc, ← ih _ hlt hafter rfl, List.cons_append]

theorem decode_eq_ok_iff : decode octets = .ok cs ↔ octets = encode cs :=
  ⟨eq_encode_of_decodeFrom, fun h => by rw [h]; exact decodeFrom_encode 0 cs⟩

end Swatch.Text.Utf8

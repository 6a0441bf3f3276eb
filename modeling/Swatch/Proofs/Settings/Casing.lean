import Swatch.Proofs.Settings.Precedence
import Swatch.Proofs.Text.Casing

/-!
The keys of settings, as words. A name is written with underscores between its words; a key may also mark
where a word begins by a capital. Main statement: whatever the words are, down to single letters, both
keys are read as the name, so that two names are never taken for one another; and a key that has been
read, of whatever ASCII characters, is read as it stands.
-/

namespace Swatch

open Text

namespace Settings

/-- A small letter, with small letters and digits behind it. -/
def IsWord : List Char → Prop
  | [] => False
  | first :: rest => first.isLower = true ∧ (rest.all fun c => c.isLower || c.isDigit) = true

instance : DecidablePred IsWord
  | [] => isFalse id
  | first :: rest => inferInstanceAs
      (Decidable (first.isLower = true ∧ (rest.all fun c => c.isLower || c.isDigit) = true))

abbrev Word : Type :=
  { letters : List Char // IsWord letters }

def capitalized : List Char → List Char
  | [] => []
  | first :: rest => first.toUpper :: rest

/-- Words one after the other, each but the first one with a capital. -/
def camelCase : List Word → String
  | [] => ""
  | word :: words => String.ofList (word.val ++ words.flatMap fun word => capitalized word.val)

/-- Words with underscores between them. -/
def underscored (words : List Word) : String :=
  "_".intercalate (words.map fun word => String.ofList word.val)

/-- The ways to write a name in a file. -/
def spellings (words : List Word) : List String :=
  [camelCase words, underscored words]

/-- The words that a name consists of. -/
def wordsOf (name : String) : List Word :=
  (name.toList.splitOn '_').filterMap fun letters =>
    if h : IsWord letters then some ⟨letters, h⟩ else none

variable {c : Char} {rest letters : List Char} {key : String} {words : List Word}

/-! ### Characters -/

/-- A character of ASCII that is no capital. -/
def IsSmall (c : Char) : Prop :=
  c.toNat < 128 ∧ c.isUpper = false

/-- What becomes of a character inside of a key. -/
def marked (c : Char) : List Char :=
  if c.isUpper then ['_', c.toLower] else [c.toLower]

theorem isSmall_toLower (hc : c.toNat < 128) : IsSmall c.toLower :=
  ⟨forall_of_ascii (P := fun c => c.toLower.toNat < 128) (by decide) hc, Char.isUpper_toLower_eq_false c⟩

theorem isSmall_underscore : IsSmall '_' :=
  ⟨by decide, by decide⟩

theorem IsSmall.toLower_eq (hc : IsSmall c) : c.toLower = c :=
  Char.toLower_eq_of_not_isUpper (by simp [hc.2])

theorem IsSmall.marked_eq (hc : IsSmall c) : marked c = [c] := by
  rw [marked, if_neg (by simp [hc.2]), hc.toLower_eq]

theorem isSmall_of_mem_marked (hc : c.toNat < 128) : ∀ d ∈ marked c, IsSmall d := by
  rw [marked]
  split
  · simpa using ⟨isSmall_underscore, isSmall_toLower hc⟩
  · simpa using isSmall_toLower hc

theorem isSmall_of_isLower (hc : c.isLower = true) : IsSmall c := by
  refine ⟨?_, by simpa using Char.not_isUpper_of_isLower hc⟩
  simp only [Char.isLower, Bool.and_eq_true, decide_eq_true_eq, ge_iff_le, UInt32.le_iff_toNat_le] at hc
  exact Nat.lt_of_le_of_lt hc.2 (by decide)

theorem isSmall_of_isDigit (hc : c.isDigit = true) : IsSmall c := by
  simp only [Char.isDigit, Bool.and_eq_true, decide_eq_true_eq, ge_iff_le, UInt32.le_iff_toNat_le] at hc
  have hupper : c.val.toNat ≤ 57 := hc.2
  refine ⟨Nat.lt_of_le_of_lt hupper (by decide), ?_⟩
  simp only [Char.isUpper, decide_eq_false_iff_not, ge_iff_le, UInt32.le_iff_toNat_le]
  rintro ⟨hcapital, -⟩
  exact absurd (hcapital.trans hupper) (by decide)

theorem marked_toUpper (hc : c.isLower = true) : marked c.toUpper = ['_', c] := by
  rw [marked, if_pos (by simp [Char.isAlpha, hc]), Char.toLower_toUpper_eq_toLower,
    (isSmall_of_isLower hc).toLower_eq]

/-! ### Reading a key -/

/-- Among ASCII characters, a key is read character by character. -/
theorem snakeCase_ofList (hc : c.toNat < 128) (hrest : ∀ d ∈ rest, d.toNat < 128) :
    snakeCase (String.ofList (c :: rest)) = String.ofList (c.toLower :: rest.flatMap marked) := by
  have hplain : ∀ d ∈ c :: rest.flatMap fun d => if d.isUpper then ['_', d] else [d], IsPlain d := by
    simp only [List.forall_mem_cons, List.mem_flatMap]
    refine ⟨.inl hc, ?_⟩
    rintro d ⟨e, he, hd⟩
    split at hd
    · rcases List.mem_cons.mp hd with rfl | hd
      · exact .inl isSmall_underscore.1
      · exact .inl (List.mem_singleton.mp hd ▸ hrest e he)
    · exact .inl (List.mem_singleton.mp hd ▸ hrest e he)
  -- Underscores are put in before the letters are made small, and are no letters themselves.
  have hlower : (rest.flatMap fun d => if d.isUpper then ['_', d] else [d]).map Char.toLower =
      rest.flatMap marked := by
    rw [List.map_flatMap]
    refine List.flatMap_congr fun d _ => ?_
    rw [marked]
    split <;> rfl
  rw [snakeCase, String.toList_ofList]
  dsimp only
  rw [lower, String.toList_ofList, lowerAfter_eq_small hplain, small, List.map_cons, hlower]

theorem flatMap_marked_eq_self (hrest : ∀ d ∈ rest, IsSmall d) : rest.flatMap marked = rest := by
  rw [List.flatMap_congr fun d hd => (hrest d hd).marked_eq]
  exact List.flatMap_singleton' rest

/-- A key without capitals is read as it stands. -/
theorem snakeCase_eq_self (hkey : ∀ d ∈ key.toList, IsSmall d) : snakeCase key = key := by
  rw [← @String.ofList_toList key]
  cases hletters : key.toList with
  | nil => rfl
  | cons c rest =>
    rw [hletters] at hkey
    obtain ⟨hc, hrest⟩ := List.forall_mem_cons.mp hkey
    rw [snakeCase_ofList hc.1 fun d hd => (hrest d hd).1, hc.toLower_eq, flatMap_marked_eq_self hrest]

theorem isSmall_of_mem_snakeCase (hkey : ∀ d ∈ key.toList, d.toNat < 128) :
    ∀ d ∈ (snakeCase key).toList, IsSmall d := by
  rw [← @String.ofList_toList key]
  cases hletters : key.toList with
  | nil => simp [snakeCase]
  | cons c rest =>
    rw [hletters] at hkey
    obtain ⟨hc, hrest⟩ := List.forall_mem_cons.mp hkey
    rw [snakeCase_ofList hc hrest, String.toList_ofList, List.forall_mem_cons]
    refine ⟨isSmall_toLower hc, fun d hd => ?_⟩
    obtain ⟨e, he, hd⟩ := List.mem_flatMap.mp hd
    exact isSmall_of_mem_marked (hrest e he) d hd

theorem snakeCase_snakeCase (hkey : ∀ d ∈ key.toList, d.toNat < 128) :
    snakeCase (snakeCase key) = snakeCase key :=
  snakeCase_eq_self (isSmall_of_mem_snakeCase hkey)

/-! ### Words -/

theorem IsWord.isSmall (h : IsWord letters) : ∀ d ∈ letters, IsSmall d := by
  cases letters with
  | nil => simp
  | cons c rest =>
    refine List.forall_mem_cons.mpr ⟨isSmall_of_isLower h.1, fun d hd => ?_⟩
    have hsmall := List.all_eq_true.mp h.2 d hd
    exact (Bool.or_eq_true_iff.mp hsmall).elim isSmall_of_isLower isSmall_of_isDigit

theorem IsWord.underscore_notMem (h : IsWord letters) : '_' ∉ letters := by
  cases letters with
  | nil => simp
  | cons c rest =>
    rw [List.mem_cons]
    rintro (rfl | hmem)
    · exact absurd h.1 (by decide)
    · exact absurd (List.all_eq_true.mp h.2 '_' hmem) (by decide)

/-- The capital of a word is read as an underscore and its small letter. -/
theorem IsWord.flatMap_marked_capitalized (h : IsWord letters) :
    (capitalized letters).flatMap marked = '_' :: letters := by
  cases letters with
  | nil => cases h
  | cons c rest =>
    have hrest : ∀ d ∈ rest, IsSmall d := (List.forall_mem_cons.mp h.isSmall).2
    rw [capitalized, List.flatMap_cons, marked_toUpper h.1, flatMap_marked_eq_self hrest]
    rfl

theorem IsWord.ascii_capitalized (h : IsWord letters) : ∀ d ∈ capitalized letters, d.toNat < 128 := by
  cases letters with
  | nil => simp [capitalized]
  | cons c rest =>
    obtain ⟨hc, hrest⟩ := List.forall_mem_cons.mp h.isSmall
    have hupper : c.toUpper.toNat < 128 :=
      forall_of_ascii (P := fun c => c.toUpper.toNat < 128) (by decide) hc.1
    exact List.forall_mem_cons.mpr ⟨hupper, fun d hd => (hrest d hd).1⟩

theorem toList_underscored (word : Word) (words : List Word) :
    (underscored (word :: words)).toList = word.val ++ words.flatMap fun word => '_' :: word.val := by
  rw [underscored, String.toList_intercalate]
  induction words generalizing word with
  | nil => simp
  | cons next words ih =>
    have hrest := ih next
    simp only [List.map_cons, String.toList_ofList, List.intercalate_cons_cons] at hrest ⊢
    rw [hrest]
    simp

theorem snakeCase_underscored (words : List Word) : snakeCase (underscored words) = underscored words := by
  refine snakeCase_eq_self ?_
  cases words with
  | nil => simp [underscored]
  | cons word words =>
    rw [toList_underscored]
    simp only [List.mem_append, List.mem_flatMap, List.mem_cons]
    rintro d (hd | ⟨next, -, rfl | hd⟩)
    · exact word.property.isSmall d hd
    · exact isSmall_underscore
    · exact next.property.isSmall d hd

theorem snakeCase_camelCase (words : List Word) : snakeCase (camelCase words) = underscored words := by
  cases words with
  | nil => rfl
  | cons word words =>
    obtain ⟨letters, hword⟩ := word
    cases letters with
    | nil => cases hword
    | cons c rest =>
      obtain ⟨hc, hrest⟩ := List.forall_mem_cons.mp hword.isSmall
      have hascii : ∀ d ∈ rest ++ words.flatMap fun word => capitalized word.val, d.toNat < 128 := by
        simp only [List.mem_append, List.mem_flatMap]
        rintro d (hd | ⟨next, -, hd⟩)
        · exact (hrest d hd).1
        · exact next.property.ascii_capitalized d hd
      apply String.toList_injective
      calc
        _ = (snakeCase (String.ofList
              (c :: (rest ++ words.flatMap fun word => capitalized word.val)))).toList := rfl
        _ = c.toLower :: (rest ++ words.flatMap fun word => capitalized word.val).flatMap marked := by
          rw [snakeCase_ofList hc.1 hascii, String.toList_ofList]
        _ = c :: (rest ++ words.flatMap fun word => '_' :: word.val) := by
          rw [hc.toLower_eq, List.flatMap_append, flatMap_marked_eq_self hrest, List.flatMap_assoc,
            List.flatMap_congr fun (word : Word) _ => word.property.flatMap_marked_capitalized]
        _ = (underscored (⟨c :: rest, hword⟩ :: words)).toList := (toList_underscored ⟨c :: rest, hword⟩ words).symm

/-- A name has the words that it is put together from. -/
theorem wordsOf_underscored (words : List Word) : wordsOf (underscored words) = words := by
  cases words with
  | nil => decide
  | cons word words =>
    have hparts : ∀ letters ∈ (word :: words).map Subtype.val, '_' ∉ letters := by
      rintro _ hmem
      obtain ⟨next, -, rfl⟩ := List.mem_map.mp hmem
      exact next.property.underscore_notMem
    have hjoined : (underscored (word :: words)).toList =
        ['_'].intercalate ((word :: words).map Subtype.val) := by
      rw [underscored, String.toList_intercalate, List.map_map]
      simp [Function.comp_def]
    rw [wordsOf, hjoined, List.splitOn_intercalate '_' hparts (List.cons_ne_nil _ _), List.filterMap_map]
    simp [Subtype.property]

/-- Whichever way a name is written, it is read as its words with underscores between them. -/
theorem snakeCase_of_mem_spellings (hkey : key ∈ spellings words) : snakeCase key = underscored words := by
  rcases List.mem_cons.mp hkey with rfl | hkey
  · exact snakeCase_camelCase words
  · rw [List.mem_singleton.mp hkey, snakeCase_underscored]

/-- A setting's name is made of words, and it is found under either spelling of them. -/
theorem ofName?_of_mem_spellings (k : Setting) : underscored (wordsOf k.name) = k.name ∧
    ∀ key ∈ spellings (wordsOf k.name), Setting.ofName? (snakeCase key) = some k := by
  have hname : underscored (wordsOf k.name) = k.name := by
    cases k <;> decide +kernel
  refine ⟨hname, fun key hkey => ?_⟩
  rw [snakeCase_of_mem_spellings hkey, hname, Setting.ofName?_name]

/-- Both spellings of a name are read as the name, a key of ASCII characters that has been read is read as
it stands, and keys that are read alike spell the same words. So every setting is found under its own
spellings. -/
theorem snakeCase_inverts_camelCase :
    (∀ words, snakeCase (camelCase words) = underscored words ∧
      snakeCase (underscored words) = underscored words) ∧
    (∀ key : String, (∀ c ∈ key.toList, c.toNat < 128) → snakeCase (snakeCase key) = snakeCase key) ∧
    (∀ words words', ∀ key ∈ spellings words, ∀ key' ∈ spellings words',
      snakeCase key = snakeCase key' → words = words') ∧
    ∀ k : Setting, underscored (wordsOf k.name) = k.name ∧
      ∀ key ∈ spellings (wordsOf k.name), Setting.ofName? (snakeCase key) = some k := by
  refine ⟨fun words => ⟨snakeCase_camelCase words, snakeCase_underscored words⟩,
    fun key hkey => snakeCase_snakeCase hkey, fun words words' key hkey key' hkey' hsame => ?_,
    ofName?_of_mem_spellings⟩
  rw [snakeCase_of_mem_spellings hkey, snakeCase_of_mem_spellings hkey'] at hsame
  rw [← wordsOf_underscored words, hsame, wordsOf_underscored]

/-- Words of a single letter, which put capitals side by side. -/
def initials : List Word :=
  [⟨['x'], by decide⟩, ⟨['y'], by decide⟩, ⟨['z', '2'], by decide⟩]

theorem snakeCase_inverts_camelCase_initials :
    snakeCase "xYZ2" = "x_y_z2" ∧
      (∀ c ∈ "HTTPProxy".toList, c.toNat < 128) ∧
      snakeCase (snakeCase "HTTPProxy") = snakeCase "HTTPProxy" ∧
      "xYZ2" ∈ spellings initials ∧ "x_y_z2" ∈ spellings (wordsOf "x_y_z2") ∧
      snakeCase "xYZ2" = snakeCase "x_y_z2" ∧ initials = wordsOf "x_y_z2" := by
  obtain ⟨hread, hagain, hapart, -⟩ := snakeCase_inverts_camelCase
  have hcamel : camelCase initials = "xYZ2" := by decide +kernel
  have hunderscored : underscored initials = "x_y_z2" := by decide +kernel
  have hwords : underscored (wordsOf "x_y_z2") = "x_y_z2" := by decide +kernel
  have hkey : "xYZ2" ∈ spellings initials := hcamel ▸ List.mem_cons_self
  have hkey' : "x_y_z2" ∈ spellings (wordsOf "x_y_z2") :=
    List.mem_cons_of_mem _ (List.mem_singleton.mpr hwords.symm)
  have hfirst : snakeCase "xYZ2" = "x_y_z2" := by
    rw [← hcamel, (hread initials).1, hunderscored]
  have hsecond : snakeCase "x_y_z2" = "x_y_z2" := by
    rw [← hunderscored, (hread initials).2]
  have hascii : ∀ c ∈ "HTTPProxy".toList, c.toNat < 128 := by simp
  have hsame : snakeCase "xYZ2" = snakeCase "x_y_z2" := hfirst.trans hsecond.symm
  exact ⟨hfirst, hascii, hagain _ hascii, hkey, hkey', hsame, hapart _ _ _ hkey _ hkey' hsame⟩

end Settings

end Swatch

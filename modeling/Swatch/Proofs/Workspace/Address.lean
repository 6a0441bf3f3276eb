import Mathlib.Data.String.Basic
import Swatch.Files.Path

/-!
What tells paths apart. Main statements: paths below one folder differ in their texts and in their
addresses if they differ in the names on the way.
-/

namespace Swatch.Path

/-! ### Texts -/

/-- Names without slashes can be told from what they are joined to. -/
theorem names_eq_of_joined_eq {a b : List String} (ha : ∀ name ∈ a, '/' ∉ name.toList)
    (hb : ∀ name ∈ b, '/' ∉ name.toList) (hane : a ≠ []) (hbne : b ≠ [])
    (h : "/".intercalate a = "/".intercalate b) : a = b := by
  have hread : ∀ {names : List String}, (∀ name ∈ names, '/' ∉ name.toList) → names ≠ [] →
      ("/".intercalate names).toList.splitOn '/' = names.map String.toList := by
    intro names hnames hne
    rw [String.toList_intercalate]
    exact List.splitOn_intercalate '/' (by simpa using hnames) (by simpa using hne)
  have hlists : a.map String.toList = b.map String.toList := by
    rw [← hread ha hane, h, hread hb hbne]
  exact List.map_injective_iff.mpr (fun _ _ => String.toList_inj.mp) hlists

section Below

variable {folder : Path} {a b : List String}

/-- A path that leads on from a folder. -/
def below (folder : Path) (names : List String) : Path :=
  { folder with names := folder.names ++ names }

theorem text_below (hfolder : folder.isAbsolute = true) (hane : a ≠ []) :
    (folder.below a).text = folder.anchor ++
      (if folder.names = [] then "" else "/".intercalate folder.names ++ "/") ++
        "/".intercalate a := by
  have hanchor : folder.anchor.isEmpty = false := by simpa [isAbsolute] using hfolder
  rw [text, below, if_neg (by simp [hanchor])]
  split
  · rename_i hnil
    simp [hnil]
  · rename_i hne
    rw [String.intercalate_append_of_ne_nil hne hane]
    simp [String.append_assoc]

theorem names_eq_of_text_eq (hfolder : folder.isAbsolute = true)
    (ha : ∀ name ∈ a, '/' ∉ name.toList) (hb : ∀ name ∈ b, '/' ∉ name.toList) (hane : a ≠ [])
    (hbne : b ≠ []) (h : (folder.below a).text = (folder.below b).text) : a = b := by
  rw [text_below hfolder hane, text_below hfolder hbne] at h
  exact names_eq_of_joined_eq ha hb hane hbne ((String.append_right_inj _).mp h)

end Below

/-! ### Octets -/

/-- Whether a text is what an octet is spelled as in an address. -/
def spells : List Char → UInt8 → Bool
  | [c], octet => c ≠ '%' && c.toNat == octet.toNat
  | ['%', high, low], octet =>
    ("0123456789ABCDEF".toList.idxOf high * 16 + "0123456789ABCDEF".toList.idxOf low) == octet.toNat
  | _, _ => false

theorem spells_addressOctet (octet : UInt8) : spells (addressOctet octet) octet = true := by
  have hall : ∀ n : Fin 256, spells (addressOctet (.ofNat n)) (.ofNat n) = true := by
    decide +kernel
  simpa using hall ⟨octet.toNat, octet.toNat_lt⟩

theorem spells_append_inj {u v rest rest' : List Char} {octet octet' : UInt8}
    (hu : spells u octet = true) (hv : spells v octet' = true) (h : u ++ rest = v ++ rest') :
    octet = octet' ∧ rest = rest' := by
  fun_cases spells u octet <;> fun_cases spells v octet' <;> grind [spells, UInt8.toNat_inj]

theorem addressOctets_injective :
    Function.Injective fun octets : List UInt8 => octets.flatMap addressOctet := by
  have hne : ∀ octet, addressOctet octet ≠ [] := by
    intro octet hnil
    have := spells_addressOctet octet
    simp [hnil, spells] at this
  intro a b h
  induction a generalizing b with
  | nil =>
      cases b with
      | nil => rfl
      | cons octet b => simp [hne] at h
  | cons octet a ih =>
      cases b with
      | nil => simp [hne] at h
      | cons octet' b =>
          simp only [List.flatMap_cons] at h
          obtain ⟨rfl, hrest⟩ :=
            spells_append_inj (spells_addressOctet octet) (spells_addressOctet octet') h
          rw [ih hrest]

/-! ### Addresses -/

theorem text_normal_eq_of_address_eq {p q : Path} (h : p.address = q.address) :
    p.normal.text = q.normal.text := by
  have hoctets := addressOctets_injective
    (String.ofList_inj.mp ((String.append_right_inj _).mp h))
  rw [Array.toList_inj] at hoctets
  exact String.toByteArray_inj.mp (ByteArray.ext hoctets)

theorem foldl_normal {names above : List String} (hnames : ".." ∉ names) :
    names.foldl (fun names name => if name = ".." then names.dropLast else names ++ [name]) above =
      above ++ names := by
  induction names generalizing above with
  | nil => simp
  | cons name names ih =>
      simp only [List.mem_cons, not_or] at hnames
      simp [Ne.symm hnames.1, ih hnames.2]

theorem normal_eq_self {p : Path} (hp : ".." ∉ p.names) : p.normal = p := by
  rw [normal, foldl_normal hp]
  rfl

theorem not_mem_names_normal (p : Path) : ".." ∉ p.normal.names := by
  have hfold : ∀ above : List String, ".." ∉ above → ".." ∉ p.names.foldl
      (fun names name => if name = ".." then names.dropLast else names ++ [name]) above := by
    induction p.names with
    | nil => simp
    | cons name names ih =>
        intro above habove
        refine ih _ (?_ : ".." ∉ if name = ".." then above.dropLast else above ++ [name])
        split
        · exact fun hmem => habove (List.dropLast_subset _ hmem)
        · rename_i hname
          simp [habove, Ne.symm hname]
  exact hfold [] (by simp)

theorem names_eq_of_address_eq {folder : Path} {a b : List String}
    (hfolder : folder.isAbsolute = true) (hpoints : ".." ∉ folder.names)
    (ha : ∀ name ∈ a, '/' ∉ name.toList) (hb : ∀ name ∈ b, '/' ∉ name.toList) (hane : a ≠ [])
    (hbne : b ≠ []) (hapoints : ".." ∉ a) (hbpoints : ".." ∉ b)
    (h : (folder.below a).address = (folder.below b).address) : a = b := by
  have htext := text_normal_eq_of_address_eq h
  rw [normal_eq_self (by simp [below, hpoints, hapoints]),
    normal_eq_self (by simp [below, hpoints, hbpoints])] at htext
  exact names_eq_of_text_eq hfolder ha hb hane hbne htext

end Swatch.Path

import Swatch.Proofs.Stylesheet.Path

/-!
When resolution comes to rest. A reference that is left in a result although its name has a declaration
is one back to itself, and another resolution expands it once more. Main statement: to resolve a result
again leaves it as it is exactly if each such reference expands to nothing but itself. Where a circle has
anything else on it, every further resolution adds that again.
-/

namespace Swatch

open Reference (referred outside segments)

/-! ### Lists whose elements are replaced by lists -/

section Growth

variable {α β : Type} {xs : List α} {f : α → List β}

theorem length_le_length_flatMap (hne : ∀ x ∈ xs, f x ≠ []) : xs.length ≤ (xs.flatMap f).length := by
  induction xs with
  | nil => simp
  | cons x xs ih =>
    have hhead := List.length_pos_iff.mpr (hne x List.mem_cons_self)
    have htail := ih fun y hy => hne y (List.mem_cons_of_mem x hy)
    simp only [List.flatMap_cons, List.length_append, List.length_cons]
    omega

theorem length_eq_one_of_length_flatMap (hne : ∀ x ∈ xs, f x ≠ [])
    (hlength : (xs.flatMap f).length = xs.length) : ∀ x ∈ xs, (f x).length = 1 := by
  induction xs with
  | nil => simp
  | cons x xs ih =>
    have hhead := List.length_pos_iff.mpr (hne x List.mem_cons_self)
    have hne' := fun y hy => hne y (List.mem_cons_of_mem x hy)
    have htail := length_le_length_flatMap hne'
    simp only [List.flatMap_cons, List.length_append, List.length_cons] at hlength
    rw [List.forall_mem_cons]
    exact ⟨by omega, ih hne' (by omega)⟩

theorem eq_singleton_of_flatMap_eq {f : α → List α} (hone : ∀ x ∈ xs, (f x).length = 1)
    (hsame : xs.flatMap f = xs) : ∀ x ∈ xs, f x = [x] := by
  induction xs with
  | nil => simp
  | cons x xs ih =>
    obtain ⟨y, hy⟩ := List.length_eq_one_iff.mp (hone x List.mem_cons_self)
    rw [List.flatMap_cons, hy, List.singleton_append] at hsame
    obtain ⟨rfl, hrest⟩ := List.cons.inj hsame
    rw [List.forall_mem_cons]
    exact ⟨hy, ih (fun z hz => hone z (List.mem_cons_of_mem y hz)) hrest⟩

end Growth

namespace Resolution

variable {s : Scope} {visited path : List String} {value met target : List Char} {name written : String}

/-! ### What a circle leaves -/

theorem mem_referred_pass_iff (hvalue : s.Unhyphenated value) (hmet : s.Within value met) :
    name ∈ referred (pass (expand s visited) met).value ↔
      ∃ segment ∈ segments met, name ∈ referred (replacement (expand s visited) segment).value :=
  mem_referred_pass fun _ hmem => (leaves_replacement hvalue hmet hmem).outside

/-- A reference to a name that is being expanded stays. -/
theorem mem_referred_pass_of_visited (hvalue : s.Unhyphenated value) (hmet : s.Within value met)
    (hvisited : name ∈ visited) (hname : name ∈ referred met) :
    name ∈ referred (pass (expand s visited) met).value := by
  obtain ⟨letters, spelling, hmem, rfl⟩ := Reference.mem_referred_iff.mp hname
  refine (mem_referred_pass_iff hvalue hmet).mpr ⟨_, hmem, ?_⟩
  rw [replacement, expand_of_mem hvisited, referred_of_spells (Reference.spells_of_mem hmem)]
  exact List.mem_singleton_self _

theorem mem_referred_resolve_of_visited (hvalue : s.Unhyphenated value) (hvisited : name ∈ visited)
    (hname : name ∈ referred (pass (expand s visited) value).value) :
    name ∈ referred (resolve s visited value).value := by
  have hleaves : s.Leaves visited value (pass (expand s visited) value).value :=
    leaves_pass hvalue hvalue.within
  have hsettled : name ∈ referred (settle (expand s visited) (14 + 1)
      (pass (expand s visited) value).value).value := by
    refine (settle_induction (P := fun met => s.Within value met ∧ name ∈ referred met)
      (Q := fun met => s.Within value met ∧ name ∈ referred met) (fun met hmet => ⟨?_, ?_⟩)
      (fun met hmet => hmet) ⟨hleaves.toWithin, hname⟩ 14).2
    · exact (leaves_pass hvalue hmet.1).toWithin
    · exact mem_referred_pass_of_visited hvalue hmet.1 hvisited hmet.2
  rw [resolve_eq, maxPasses, settle]
  dsimp only
  split
  · exact hname
  · exact hsettled

/-- A path to a name that is being expanded ends at a reference that is left. -/
theorem mem_referred_resolve_of_path (hpath : s.Path value path target) (hname : name ∈ referred target)
    (hvalue : s.Unhyphenated value) (hvisited : name ∈ visited) (hnodup : path.Nodup)
    (hnew : ∀ name' ∈ path, name' ∉ visited) : name ∈ referred (resolve s visited value).value := by
  induction hpath generalizing visited with
  | nil value =>
    refine mem_referred_resolve_of_visited hvalue hvisited ?_
    exact mem_referred_pass_of_visited hvalue hvalue.within hvisited hname
  | @cons value target name' written path hname' hwritten _ ih =>
    obtain ⟨letters, spelling, hmem, rfl⟩ := Reference.mem_referred_iff.mp hname'
    rw [List.nodup_cons] at hnodup
    rw [List.forall_mem_cons] at hnew
    have hinner := ih hname (hvalue.of_leadsTo (Scope.leadsTo_of_mem hname') hwritten)
      (List.mem_cons_of_mem _ hvisited) hnodup.2 fun name'' hmem'' hvisited'' => by
        rcases List.mem_cons.mp hvisited'' with rfl | hvisited''
        · exact hnodup.1 hmem''
        · exact hnew.2 name'' hmem'' hvisited''
    refine mem_referred_resolve_of_visited hvalue hvisited ?_
    refine (mem_referred_pass_iff hvalue hvalue.within).mpr ⟨_, hmem, ?_⟩
    rwa [replacement, expand_of_some hnew.1 hwritten]

/-- A name that leads back to itself is left when it is expanded. -/
theorem mem_referred_of_leadsBack (hvalue : s.Unhyphenated written.toList)
    (hwritten : s.valueOf? name = some written) (hback : s.LeadsBack name) :
    name ∈ referred (resolve s [name] written.toList).value := by
  obtain ⟨written', hwritten', hleads⟩ := hback
  obtain rfl := Option.some.inj (hwritten.symm.trans hwritten')
  obtain ⟨path, target, hpath, hname, hnodup⟩ := hleads.exists_nodup
  rw [List.nodup_cons] at hnodup
  refine mem_referred_resolve_of_path hpath hname hvalue (List.mem_singleton_self name) hnodup.2 ?_
  rintro name' hmem hname'
  exact hnodup.1 (List.mem_singleton.mp hname' ▸ hmem)

/-! ### Growth -/

/-- What is left never vanishes: a part is replaced by itself, or it is a reference to a name that
leads back to itself, and is replaced by what has such a reference again. -/
theorem replacement_cases (hvalue : s.Unhyphenated value) (hmet : s.Leaves [] value met)
    {segment : Segment} (hmem : segment ∈ segments met) :
    segments (replacement (expand s []) segment).value = [segment] ∨
      ∃ letters spelling written, segment = .reference letters spelling ∧
        s.valueOf? (String.ofList letters) = some written ∧
        String.ofList letters ∈ referred (resolve s [String.ofList letters] written.toList).value := by
  cases segment with
  | literal c => exact .inl (segments_singleton c)
  | reference letters spelling =>
    have hname := Reference.mem_referred_iff.mpr ⟨letters, spelling, hmem, rfl⟩
    cases hwritten : s.valueOf? (String.ofList letters) with
    | none =>
      left
      rw [replacement, expand_of_none List.not_mem_nil hwritten]
      exact segments_of_spells (Reference.spells_of_mem hmem)
    | some written =>
      have hback := (hmet.left _ hname written hwritten).resolve_left List.not_mem_nil
      have hinner := hvalue.of_leadsTo (hmet.leadsTo _ hname) hwritten
      exact .inr ⟨letters, spelling, written, rfl, hwritten, mem_referred_of_leadsBack hinner hwritten hback⟩

theorem segments_replacement_ne_nil (hvalue : s.Unhyphenated value) (hmet : s.Leaves [] value met) :
    ∀ segment ∈ segments met, segments (replacement (expand s []) segment).value ≠ [] := by
  intro segment hmem hnil
  rcases replacement_cases hvalue hmet hmem with hsame | ⟨letters, spelling, written, rfl, hwritten, hname⟩
  · rw [hnil] at hsame
    cases hsame
  · rw [replacement, expand_of_some List.not_mem_nil hwritten] at hnil
    rw [referred, hnil] at hname
    cases hname

theorem length_segments_le_pass (hvalue : s.Unhyphenated value) (hmet : s.Leaves [] value met) :
    (segments met).length ≤ (segments (pass (expand s []) met).value).length := by
  rw [segments_pass hvalue hmet.toWithin]
  exact length_le_length_flatMap (segments_replacement_ne_nil hvalue hmet)

theorem length_segments_le_settle (hvalue : s.Unhyphenated value) (hmet : s.Leaves [] value met)
    (passes : Nat) : (segments met).length ≤ (segments (settle (expand s []) passes met).value).length := by
  induction passes generalizing met with
  | zero => exact Nat.le_refl _
  | succ passes ih =>
    rw [settle]
    dsimp only
    split
    · exact length_segments_le_pass hvalue hmet
    · exact (length_segments_le_pass hvalue hmet).trans (ih (leaves_pass hvalue hmet.toWithin))

theorem value_pass_eq_self {expand : List Char → List Char → Traced (List Char)}
    (hsame : ∀ segment ∈ segments met, (replacement expand segment).value = segment.text) :
    (pass expand met).value = met := by
  rw [value_pass_eq, List.flatMap_congr hsame]
  exact Reference.flatMap_text_segments met

/-- A pass that adds no part replaces each reference by one to the same name, as its written value
spells it. So does the next pass, which changes nothing. -/
theorem pass_pass_of_length_eq (hvalue : s.Unhyphenated value) (hmet : s.Leaves [] value met)
    (hlength : (segments (pass (expand s []) met).value).length = (segments met).length) :
    (pass (expand s []) (pass (expand s []) met).value).value = (pass (expand s []) met).value := by
  rw [segments_pass hvalue hmet.toWithin] at hlength
  have hone := length_eq_one_of_length_flatMap (segments_replacement_ne_nil hvalue hmet) hlength
  refine value_pass_eq_self fun segment' hmem' => ?_
  rw [segments_pass hvalue hmet.toWithin, List.mem_flatMap] at hmem'
  obtain ⟨segment, hmem, hmem'⟩ := hmem'
  obtain ⟨only, honly⟩ := List.length_eq_one_iff.mp (hone segment hmem)
  have htext : (replacement (expand s []) segment).value = only.text := by
    rw [← Reference.flatMap_text_segments (replacement (expand s []) segment).value, honly]
    simp
  rw [honly, List.mem_singleton] at hmem'
  subst hmem'
  rcases replacement_cases hvalue hmet hmem with hsame | ⟨letters, spelling, written, rfl, hwritten, hname⟩
  · obtain rfl := List.head_eq_of_cons_eq (honly.symm.trans hsame)
    exact htext
  · rw [replacement, expand_of_some List.not_mem_nil hwritten] at honly htext
    obtain ⟨letters', spelling', hsegment, hletters⟩ := Reference.mem_referred_iff.mp hname
    rw [honly, List.mem_singleton] at hsegment
    obtain rfl := String.ofList_injective hletters
    rw [← hsegment] at htext ⊢
    rw [replacement, expand_of_some List.not_mem_nil hwritten, htext]

theorem pass_eq_of_resolve_eq (hvalue : s.Unhyphenated value) (hmet : s.Leaves [] value met)
    (hsame : (resolve s [] met).value = met) : (pass (expand s []) met).value = met := by
  by_contra hne
  rw [resolve_eq, maxPasses, settle, if_neg hne] at hsame
  have hnext : s.Leaves [] value (pass (expand s []) met).value := leaves_pass hvalue hmet.toWithin
  have hle := length_segments_le_settle hvalue hnext 15
  rw [hsame] at hle
  have hlength := Nat.le_antisymm hle (length_segments_le_pass hvalue hmet)
  rw [settle, if_pos (pass_pass_of_length_eq hvalue hmet hlength)] at hsame
  exact hne ((pass_pass_of_length_eq hvalue hmet hlength).symm.trans hsame)

theorem pass_eq_iff (hvalue : s.Unhyphenated value) (hmet : s.Leaves [] value met) :
    (pass (expand s []) met).value = met ↔
      ∀ segment ∈ segments met, (replacement (expand s []) segment).value = segment.text := by
  refine ⟨fun hsame segment hmem => ?_, value_pass_eq_self⟩
  have hflat : segments (pass (expand s []) met).value =
      (segments met).flatMap fun p => segments (replacement (expand s []) p).value :=
    segments_pass hvalue hmet.toWithin
  rw [hsame] at hflat
  have hone := length_eq_one_of_length_flatMap (segments_replacement_ne_nil hvalue hmet)
    (congrArg List.length hflat).symm
  have honly := eq_singleton_of_flatMap_eq hone hflat.symm segment hmem
  rw [← Reference.flatMap_text_segments (replacement (expand s []) segment).value, honly]
  simp

theorem resolve_eq_iff (hvalue : s.Unhyphenated value) (hmet : s.Leaves [] value met) :
    (resolve s [] met).value = met ↔ (pass (expand s []) met).value = met := by
  refine ⟨pass_eq_of_resolve_eq hvalue hmet, fun hsame => ?_⟩
  rw [resolve_eq, maxPasses, settle, if_pos hsame, hsame]

/-- A reference that is left in a result leads back to itself if its name has a declaration, and the
result is a fixed point exactly if every such reference expands to itself alone. -/
theorem resolve_resolve_iff (hvalue : s.Unhyphenated value) :
    (∀ letters spelling, .reference letters spelling ∈ segments (resolve s [] value).value →
      ∀ written, s.valueOf? (String.ofList letters) = some written → s.LeadsBack (String.ofList letters)) ∧
    ((resolve s [] (resolve s [] value).value).value = (resolve s [] value).value ↔
      ∀ letters spelling, .reference letters spelling ∈ segments (resolve s [] value).value →
        ∀ written, s.valueOf? (String.ofList letters) = some written →
          (resolve s [String.ofList letters] written.toList).value = spelling) := by
  have hleaves := leaves_resolve hvalue []
  refine ⟨fun letters spelling hmem written hwritten => ?_, ?_⟩
  · have hname := Reference.mem_referred_iff.mpr ⟨letters, spelling, hmem, rfl⟩
    exact (hleaves.left _ hname written hwritten).resolve_left List.not_mem_nil
  rw [resolve_eq_iff hvalue hleaves, pass_eq_iff hvalue hleaves]
  refine ⟨fun hsame letters spelling hmem written hwritten => ?_, fun hsame segment hmem => ?_⟩
  · rw [← expand_of_some List.not_mem_nil hwritten spelling]
    exact hsame _ hmem
  · cases segment with
    | literal c => rfl
    | reference letters spelling =>
      cases hwritten : s.valueOf? (String.ofList letters) with
      | none => rw [replacement, expand_of_none List.not_mem_nil hwritten, Traced.value_pure, Segment.text]
      | some written =>
        rw [replacement, expand_of_some List.not_mem_nil hwritten, Segment.text]
        exact hsame letters spelling hmem written hwritten

/-- Two names that stand for each other and for nothing else. -/
def bareCircle : Scope :=
  .ofValues [] [("--ink", "var(--text)"), ("--text", "var( --ink )")]

theorem resolve_resolve_iff_bareCircle :
    bareCircle.Unhyphenated "1px var(--ink)".toList ∧
      (resolve bareCircle [] (resolve bareCircle [] "1px var(--ink)".toList).value).value =
        (resolve bareCircle [] "1px var(--ink)".toList).value := by
  have hvalue : bareCircle.Unhyphenated "1px var(--ink)".toList :=
    Scope.unhyphenated_of_names (by decide +kernel) (by decide +kernel)
  have hresult : segments (resolve bareCircle [] "1px var(--ink)".toList).value = "1px ".toList.map .literal ++
      [.reference "--ink".toList "var( --ink )".toList] := by decide +kernel
  refine ⟨hvalue, (resolve_resolve_iff hvalue).2.mpr fun letters spelling hmem written hwritten => ?_⟩
  have hleft : Segment.reference letters spelling =
      .reference "--ink".toList "var( --ink )".toList := by
    rw [hresult] at hmem
    simpa using hmem
  obtain ⟨rfl, rfl⟩ := Segment.reference.inj hleft
  have hink : bareCircle.valueOf? "--ink" = some "var(--text)" := by decide +kernel
  obtain rfl := Option.some.inj (hink.symm.trans hwritten)
  decide +kernel

/-- With anything else on the circle, every further resolution adds it again. -/
theorem not_resolve_resolve_of_growingCircle : ¬∀ (s : Scope) (value : List Char), s.Unhyphenated value →
    (resolve s [] (resolve s [] value).value).value = (resolve s [] value).value := by
  intro hfixed
  have hvalue : (Scope.ofValues [] [("--a", "x var(--a)")]).Unhyphenated "var(--a)".toList :=
    Scope.unhyphenated_of_names (by decide +kernel) (by decide +kernel)
  exact absurd (hfixed _ _ hvalue) (by decide +kernel)

end Resolution

end Swatch

import Mathlib.Data.List.Basic
import Swatch.Proofs.Detection.Placement
import Swatch.Proofs.Document.Key

/-!
Records of several passes put together. Main statement: what is kept are the entries whose range no entry
before them has, each in its place, so that every range is kept once, and to put together again what is
kept, alone or with some of the passes, changes nothing.
-/

namespace Swatch.Record

variable {α : Type}

/-- The entry at a place, unless an entry before it has the same range. -/
def firstAt? (entries : List (Range × α)) (place : Nat) : Option (Range × α) :=
  entries[place]?.filter fun entry => entry.1 ∉ (entries.take place).map (·.1)

def firsts (entries : List (Range × α)) : List (Range × α) :=
  (List.range entries.length).filterMap (firstAt? entries)

section Entries

variable {seen seen' : List String} {entries front back : List (Range × α)} {r : Range}

theorem key_mem_map {ranges : List Range} : r.key ∈ ranges.map Range.key ↔ r ∈ ranges :=
  List.mem_map_of_injective fun _ _ => Range.key_inj

theorem firstOfEach_congr (hseen : ∀ key, key ∈ seen ↔ key ∈ seen') :
    firstOfEach seen entries = firstOfEach seen' entries := by
  induction entries generalizing seen seen' with
  | nil => rfl
  | cons entry rest ih =>
    have hcontains : seen.contains entry.1.key = seen'.contains entry.1.key := by
      rw [Bool.eq_iff_iff, List.contains_iff_mem, List.contains_iff_mem, hseen]
    simp only [firstOfEach, hcontains]
    rw [ih hseen, @ih (entry.1.key :: seen) (entry.1.key :: seen') (by simp [hseen])]

/-- Going on behind some entries, their ranges are known. -/
theorem firstOfEach_append : firstOfEach seen (front ++ back) =
    firstOfEach seen front ++ firstOfEach ((front.map (·.1)).map Range.key ++ seen) back := by
  induction front generalizing seen with
  | nil => rfl
  | cons entry front ih =>
    have hmem (key : String) : key ∈ ((entry :: front).map (·.1)).map Range.key ++ seen ↔
        key ∈ (front.map (·.1)).map Range.key ++ entry.1.key :: seen := by
      simp only [List.map_cons, List.cons_append, List.mem_cons, List.mem_append]
      tauto
    rw [firstOfEach_congr hmem]
    simp only [List.cons_append, firstOfEach]
    split
    · rename_i hold
      have hknown : entry.1.key ∈ seen := List.contains_iff_mem.mp hold
      rw [ih]
      congr 1
      refine firstOfEach_congr fun key => ?_
      simp only [List.mem_append, List.mem_cons]
      exact ⟨Or.imp_right .inr, Or.imp_right fun h => h.elim (fun heq => heq ▸ hknown) id⟩
    · rw [ih, List.cons_append]

theorem firstOfEach_singleton (entry : Range × α) :
    firstOfEach seen [entry] = if entry.1.key ∈ seen then [] else [entry] := by
  simp [firstOfEach]

theorem firstOfEach_eq_nil (hold : ∀ entry ∈ entries, entry.1.key ∈ seen) :
    firstOfEach seen entries = [] := by
  induction entries with
  | nil => rfl
  | cons entry rest ih =>
    rw [List.forall_mem_cons] at hold
    rw [firstOfEach, List.contains_iff_mem.mpr hold.1]
    exact ih hold.2

theorem mem_ranges_firstOfEach : r ∈ (firstOfEach seen entries).map (·.1) ↔
    r ∈ entries.map (·.1) ∧ r.key ∉ seen := by
  induction entries generalizing seen with
  | nil => simp [firstOfEach]
  | cons entry rest ih =>
    rw [firstOfEach]
    split
    · rename_i hold
      have hknown : entry.1.key ∈ seen := List.contains_iff_mem.mp hold
      rw [ih, List.map_cons, List.mem_cons]
      exact ⟨And.imp_left .inr, fun h => ⟨h.1.resolve_left fun heq => h.2 (heq ▸ hknown), h.2⟩⟩
    · rename_i hnew
      have hunknown : entry.1.key ∉ seen := fun hmem => hnew (List.contains_iff_mem.mpr hmem)
      rw [List.map_cons, List.mem_cons, ih, List.map_cons, List.mem_cons, List.mem_cons, not_or]
      by_cases heq : r = entry.1
      · simp [heq, hunknown]
      · have hkey : r.key ≠ entry.1.key := fun h => heq (Range.key_inj h)
        simp [heq, hkey]

/-- Entries of different ranges that are all new are kept. -/
theorem firstOfEach_eq_self (hnodup : (entries.map (·.1)).Nodup)
    (hnew : ∀ entry ∈ entries, entry.1.key ∉ seen) : firstOfEach seen entries = entries := by
  induction entries generalizing seen with
  | nil => rfl
  | cons entry rest ih =>
    rw [List.map_cons, List.nodup_cons] at hnodup
    rw [List.forall_mem_cons] at hnew
    rw [firstOfEach, if_neg (by simpa using hnew.1), ih hnodup.2]
    intro entry' hmem hkey
    rcases List.mem_cons.mp hkey with heq | hseen
    · exact hnodup.1 (Range.key_inj heq ▸ List.mem_map_of_mem hmem)
    · exact hnew.2 entry' hmem hseen

/-- Entries of different ranges are kept together behind others that have none of these. -/
theorem exists_firstOfEach_append (front back : List (Range × α)) {middle : List (Range × α)}
    (hnodup : (middle.map (·.1)).Nodup) (hnew : ∀ entry ∈ middle, entry.1 ∉ front.map (·.1)) :
    ∃ rest, rest.Sublist back ∧
      firstOfEach [] (front ++ (middle ++ back)) = firstOfEach [] front ++ (middle ++ rest) := by
  have hmiddle : firstOfEach ((front.map (·.1)).map Range.key ++ []) middle = middle := by
    refine firstOfEach_eq_self hnodup fun entry hmem hkey => ?_
    rw [List.append_nil, key_mem_map] at hkey
    exact hnew entry hmem hkey
  rw [firstOfEach_append, firstOfEach_append, hmiddle]
  exact ⟨_, firstOfEach_sublist _ back, rfl⟩

theorem firstAt?_length (entry : Range × α) : firstAt? (front ++ [entry]) front.length =
    if entry.1 ∈ front.map (·.1) then none else some entry := by
  rw [firstAt?, List.getElem?_concat_length, List.take_left, Option.filter_some]
  by_cases hmem : entry.1 ∈ front.map (·.1) <;> simp only [hmem] <;> rfl

theorem firsts_concat (entry : Range × α) : firsts (front ++ [entry]) =
    firsts front ++ if entry.1 ∈ front.map (·.1) then [] else [entry] := by
  rw [firsts, List.length_append, List.length_singleton, List.range_succ, List.filterMap_append, firsts]
  congr 1
  · refine List.filterMap_congr fun place hplace => ?_
    have hlt := List.mem_range.mp hplace
    rw [firstAt?, List.getElem?_append_left hlt, List.take_append_of_le_length hlt.le, firstAt?]
  · have hlast := @firstAt?_length _ front entry
    by_cases hmem : entry.1 ∈ front.map (·.1)
    · rw [if_pos hmem] at hlast ⊢
      rw [List.filterMap_cons_none hlast, List.filterMap_nil]
    · rw [if_neg hmem] at hlast ⊢
      rw [List.filterMap_cons_some hlast, List.filterMap_nil]

theorem firstOfEach_eq_firsts (entries : List (Range × α)) : firstOfEach [] entries = firsts entries := by
  induction entries using List.reverseRecOn with
  | nil => rfl
  | append_singleton front entry ih =>
    rw [firstOfEach_append, ih, firsts_concat, firstOfEach_singleton, List.append_nil]
    simp only [key_mem_map]

end Entries

/-- Of every range the first record is kept, in its place, and no other; what is kept stays when records are
put together again. -/
theorem merge_eq_firsts (passes : List (List (Range × α))) :
    Function.Injective Range.key ∧
      merge passes = firsts passes.flatten ∧
      (merge passes).Sublist passes.flatten ∧
      ((merge passes).map (·.1)).Nodup ∧
      (∀ r, r ∈ (merge passes).map (·.1) ↔ ∃ pass ∈ passes, ∃ entry ∈ pass, entry.1 = r) ∧
      ∀ again, again ⊆ passes → merge (merge passes :: again) = merge passes := by
  have hmem (r : Range) : r ∈ (merge passes).map (·.1) ↔ ∃ pass ∈ passes, ∃ entry ∈ pass, entry.1 = r := by
    rw [merge, mem_ranges_firstOfEach]
    simp
  refine ⟨fun _ _ => Range.key_inj, firstOfEach_eq_firsts _, firstOfEach_sublist _ _, nodup_firstOfEach _ _,
    hmem, fun again hagain => ?_⟩
  have hkept : firstOfEach [] (merge passes) = merge passes :=
    firstOfEach_eq_self (nodup_firstOfEach _ _) fun _ _ => List.not_mem_nil
  have hknown : ∀ entry ∈ again.flatten,
      entry.1.key ∈ ((merge passes).map (·.1)).map Range.key ++ [] := by
    intro entry hentry
    obtain ⟨pass, hpass, hentry⟩ := List.mem_flatten.mp hentry
    rw [List.append_nil, key_mem_map, hmem]
    exact ⟨pass, hagain hpass, entry, hentry, rfl⟩
  calc merge (merge passes :: again)
      = firstOfEach [] (merge passes ++ again.flatten) := by rw [merge, List.flatten_cons]
    _ = merge passes ++ [] := by rw [firstOfEach_append, hkept, firstOfEach_eq_nil hknown]
    _ = merge passes := List.append_nil _

/-- Two passes whose ranges run forth and back between the same numbers, some of them negative. -/
def forthAndBack : List (List (Range × String)) :=
  [[(⟨⟨0, -1⟩, ⟨1, 0⟩⟩, "forth"), (⟨⟨1, 0⟩, ⟨0, -1⟩⟩, "back"), (⟨⟨0, -1⟩, ⟨1, 0⟩⟩, "forth again")],
   [(⟨⟨1, 0⟩, ⟨0, -1⟩⟩, "back again"), (⟨⟨0, 1⟩, ⟨-1, 0⟩⟩, "aside")]]

theorem merge_eq_firsts_forthAndBack :
    (merge forthAndBack).map (·.2) = ["forth", "back", "aside"] ∧
      forthAndBack.drop 1 ⊆ forthAndBack ∧
      merge (merge forthAndBack :: forthAndBack.drop 1) = merge forthAndBack := by
  have hagain : forthAndBack.drop 1 ⊆ forthAndBack := List.drop_subset 1 forthAndBack
  obtain ⟨-, hfirsts, -, -, -, hmerge⟩ := merge_eq_firsts forthAndBack
  exact ⟨hfirsts ▸ by decide, hagain, hmerge _ hagain⟩

end Swatch.Record

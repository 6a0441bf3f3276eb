import Mathlib.Data.List.Basic
import Swatch.Registry

/-!
The order of the declarations of a name. They are ordered by their specificity, and those of one
specificity in the order in which they came; there is only one such order. So to insert a
declaration where the search by halves finds its place is to order all of them anew, and to leave
some out does not depend on whether it is done before or after.
-/

namespace Swatch.Registry

variable {α : Type} {key : α → Int}

/-- Two lists in ascending order of a key are equal if they have the same elements of each key in the
same order. -/
theorem eq_of_filter_eq {xs ys : List α} (hxs : xs.Pairwise fun a b => key a ≤ key b)
    (hys : ys.Pairwise fun a b => key a ≤ key b)
    (hfilter : ∀ k, xs.filter (key · = k) = ys.filter (key · = k)) : xs = ys := by
  have hmem : ∀ a, a ∈ xs ↔ a ∈ ys := by
    intro a
    simpa using congrArg (a ∈ ·) (hfilter (key a))
  induction xs generalizing ys with
  | nil => exact (List.eq_nil_iff_forall_not_mem.mpr fun a ha => by simpa using (hmem a).mpr ha).symm
  | cons a xs ih =>
    cases ys with
    | nil => simpa using (hmem a).mp List.mem_cons_self
    | cons b ys =>
      have hle : key a ≤ key b := by
        rcases List.mem_cons.mp ((hmem b).mpr List.mem_cons_self) with rfl | hb
        · exact Int.le_refl _
        · exact List.rel_of_pairwise_cons hxs hb
      have hge : key b ≤ key a := by
        rcases List.mem_cons.mp ((hmem a).mp List.mem_cons_self) with rfl | ha
        · exact Int.le_refl _
        · exact List.rel_of_pairwise_cons hys ha
      have hkey : key a = key b := Int.le_antisymm hle hge
      obtain rfl : a = b := by
        have hheads := hfilter (key a)
        rw [List.filter_cons_of_pos (by simp), List.filter_cons_of_pos (by simp [hkey])] at hheads
        exact (List.cons.inj hheads).1
      have hrest : ∀ k, xs.filter (key · = k) = ys.filter (key · = k) := by
        intro k
        have hk := hfilter k
        by_cases hak : key a = k
        · simpa [hak] using hk
        · simpa [hak] using hk
      refine congrArg (a :: ·) (ih hxs.of_cons hys.of_cons hrest ?_)
      intro x
      simpa using congrArg (x ∈ ·) (hrest (key x))

def inOrder (key : α → Int) (xs : List α) : List α :=
  xs.mergeSort fun a b => key a ≤ key b

theorem pairwise_inOrder (key : α → Int) (xs : List α) :
    (inOrder key xs).Pairwise fun a b => key a ≤ key b := by
  have hsorted : (inOrder key xs).Pairwise fun a b => decide (key a ≤ key b) = true :=
    List.pairwise_mergeSort (fun a b c hab hbc => by simp at *; omega) (fun a b => by simp; omega) xs
  simpa only [decide_eq_true_eq] using hsorted

/-- Elements of one key stay in the order in which they came. -/
theorem filter_key_inOrder (key : α → Int) (xs : List α) (k : Int) :
    (inOrder key xs).filter (key · = k) = xs.filter (key · = k) := by
  have hsame : (xs.filter (key · = k)).Pairwise fun a b => decide (key a ≤ key b) = true := by
    refine List.pairwise_of_forall_mem_list fun a ha b hb => ?_
    simp only [List.mem_filter, decide_eq_true_eq] at ha hb ⊢
    omega
  have hsublist : (xs.filter (key · = k)).Sublist (inOrder key xs) :=
    List.sublist_mergeSort (fun a b c hab hbc => by simp at *; omega) (fun a b => by simp; omega)
      hsame List.filter_sublist
  have hkept := hsublist.filter (key · = k)
  simp only [List.filter_filter, Bool.and_self] at hkept
  refine (hkept.eq_of_length ?_).symm
  exact ((List.mergeSort_perm xs _).filter _).length_eq.symm

theorem eq_inOrder {xs ys : List α} (hys : ys.Pairwise fun a b => key a ≤ key b)
    (hfilter : ∀ k, ys.filter (key · = k) = xs.filter (key · = k)) : ys = inOrder key xs :=
  eq_of_filter_eq hys (pairwise_inOrder key xs) fun k =>
    (hfilter k).trans (filter_key_inOrder key xs k).symm

theorem filter_inOrder (p : α → Bool) (xs : List α) :
    (inOrder key xs).filter p = inOrder key (xs.filter p) := by
  refine eq_inOrder ((pairwise_inOrder key xs).filter p) fun k => ?_
  rw [List.filter_comm, filter_key_inOrder, List.filter_comm]

theorem inOrder_inOrder (xs : List α) : inOrder key (inOrder key xs) = inOrder key xs :=
  (eq_inOrder (pairwise_inOrder key xs) fun _ => rfl).symm

theorem isEmpty_inOrder (xs : List α) : (inOrder key xs).isEmpty = xs.isEmpty := by
  rw [Bool.eq_iff_iff, List.isEmpty_iff_length_eq_zero, List.isEmpty_iff_length_eq_zero, inOrder,
    List.length_mergeSort]

theorem map_inOrder {β : Type} {key' : β → Int} {f : α → β} (hkey : ∀ a, key' (f a) = key a)
    (xs : List α) : (inOrder key xs).map f = inOrder key' (xs.map f) :=
  List.map_mergeSort fun a _ b _ => by simp only [hkey]

/-- To put an element between those whose key is not greater and those whose key is greater is to
order all anew. -/
theorem insert_inOrder {xs front rest : List α} {a : α} (hsplit : front ++ rest = inOrder key xs)
    (hfront : ∀ b ∈ front, key b ≤ key a) (hrest : ∀ b ∈ rest, key a < key b) :
    front ++ a :: rest = inOrder key (xs ++ [a]) := by
  have hsorted := pairwise_inOrder key xs
  rw [← hsplit, List.pairwise_append] at hsorted
  refine eq_inOrder ?_ fun k => ?_
  · refine List.pairwise_append.mpr ⟨hsorted.1, List.pairwise_cons.mpr ⟨?_, hsorted.2.1⟩, ?_⟩
    · exact fun b hb => Int.le_of_lt (hrest b hb)
    · intro b hb c hc
      rcases List.mem_cons.mp hc with rfl | hc
      · exact hfront b hb
      · exact hsorted.2.2 b hb c hc
  · have hall : front.filter (key · = k) ++ rest.filter (key · = k) = xs.filter (key · = k) := by
      rw [← List.filter_append, hsplit, filter_key_inOrder]
    rw [List.filter_append, List.filter_append, List.filter_cons, List.filter_cons, List.filter_nil,
      ← hall]
    by_cases hk : key a = k
    · -- None of those behind has the key of the new one.
      have hnone : rest.filter (key · = k) = [] := by
        refine List.filter_eq_nil_iff.mpr fun b hb => ?_
        have := hrest b hb
        simp only [decide_eq_true_eq]
        omega
      rw [hnone, if_pos (by simpa using hk), List.append_nil]
    · rw [if_neg (by simpa using hk), if_neg (by simpa using hk), List.append_nil]

/-! ### The place of a new element -/

theorem bisect_parts {keys : List Int} {k : Int} (hsorted : keys.Pairwise (· ≤ ·)) {steps low high : Nat}
    (hlow : low ≤ high) (hhigh : high ≤ keys.length) (hsteps : high - low ≤ steps)
    (hfront : ∀ b ∈ keys.take low, b ≤ k) (hrest : ∀ b ∈ keys.drop high, k < b) :
    (∀ b ∈ keys.take (bisect keys k steps low high), b ≤ k) ∧
      ∀ b ∈ keys.drop (bisect keys k steps low high), k < b := by
  induction steps generalizing low high with
  | zero =>
    obtain rfl : low = high := by omega
    exact ⟨hfront, hrest⟩
  | succ steps ih =>
    rw [bisect]
    split
    · obtain rfl : low = high := by omega
      exact ⟨hfront, hrest⟩
    · have hmiddle : (low + high) / 2 < keys.length := by omega
      have hle := List.pairwise_iff_getElem.mp hsorted
      rw [← List.getElem_eq_getD (h := hmiddle) 0]
      split
      · next hk =>
        refine ih (by omega) (by omega) (by omega) hfront fun b hb => ?_
        obtain ⟨j, hj, rfl⟩ := List.mem_drop_iff_getElem.mp hb
        rcases Nat.eq_zero_or_pos j with rfl | hpos
        · exact hk
        · exact Int.lt_of_lt_of_le hk (hle _ _ hmiddle (by omega) (by omega))
      · next hk =>
        refine ih (by omega) (by omega) (by omega) (fun b hb => ?_) hrest
        obtain ⟨j, hj, rfl⟩ := List.mem_take_iff_getElem.mp hb
        rcases Nat.lt_or_ge j ((low + high) / 2) with hlt | hge
        · have := hle _ _ (by omega) hmiddle hlt
          omega
        · obtain rfl : j = (low + high) / 2 := by omega
          omega

def specificity (d : Declaration) : Int :=
  d.context.specificity

theorem insertBySpecificity_inOrder (ds : List Declaration) (d : Declaration) :
    insertBySpecificity d (inOrder specificity ds) = inOrder specificity (ds ++ [d]) := by
  have hsorted : ((inOrder specificity ds).map specificity).Pairwise (· ≤ ·) :=
    List.pairwise_map.mpr (pairwise_inOrder specificity ds)
  have hnone : ((inOrder specificity ds).map specificity).drop
      ((inOrder specificity ds).map specificity).length = [] := List.drop_length
  obtain ⟨hfront, hrest⟩ := bisect_parts hsorted (Nat.zero_le _) (Nat.le_refl _) (Nat.sub_le _ 0)
    (k := specificity d) (by simp) (by rw [hnone]; simp)
  refine insert_inOrder (List.take_append_drop _ _) (fun b hb => ?_) fun b hb => ?_
  · exact hfront _ (by rw [← List.map_take]; exact List.mem_map_of_mem hb)
  · exact hrest _ (by rw [← List.map_drop]; exact List.mem_map_of_mem hb)

end Swatch.Registry

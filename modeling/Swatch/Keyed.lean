/-!
Tables in the order of first insertion. Setting a key that is there keeps its place, a new key goes
to the end, and no key occurs twice.
-/

namespace Swatch

structure Keyed (κ : Type) (ν : Type) where
  entries : List (κ × ν)
  nodup : (entries.map (·.1)).Nodup

namespace Keyed

variable {κ ν μ : Type} [DecidableEq κ]

def empty : Keyed κ ν := ⟨[], by simp⟩

instance : EmptyCollection (Keyed κ ν) := ⟨empty⟩

instance : Inhabited (Keyed κ ν) := ⟨empty⟩

def keys (t : Keyed κ ν) : List κ :=
  t.entries.map (·.1)

def values (t : Keyed κ ν) : List ν :=
  t.entries.map (·.2)

def size (t : Keyed κ ν) : Nat :=
  t.entries.length

def get? (t : Keyed κ ν) (key : κ) : Option ν :=
  (t.entries.find? fun e => e.1 = key).map (·.2)

def contains (t : Keyed κ ν) (key : κ) : Bool :=
  t.entries.any fun e => e.1 = key

def setEntry (key : κ) (value : ν) : List (κ × ν) → List (κ × ν)
  | [] => [(key, value)]
  | e :: rest => if e.1 = key then (key, value) :: rest else e :: setEntry key value rest

omit [DecidableEq κ] in
theorem mem_map_fst {entries : List (κ × ν)} {key : κ} :
    key ∈ entries.map (·.1) ↔ ∃ value, (key, value) ∈ entries := by
  simp

theorem mem_keys_setEntry {key k : κ} {value : ν} {entries : List (κ × ν)} :
    k ∈ (setEntry key value entries).map (·.1) ↔ k = key ∨ k ∈ entries.map (·.1) := by
  induction entries with
  | nil => simp [setEntry]
  | cons e rest ih =>
    unfold setEntry
    split
    · next h => simp [h]
    · rw [List.map_cons, List.mem_cons, ih, List.map_cons, List.mem_cons]
      grind

theorem nodup_setEntry {key : κ} {value : ν} {entries : List (κ × ν)}
    (h : (entries.map (·.1)).Nodup) : ((setEntry key value entries).map (·.1)).Nodup := by
  induction entries with
  | nil => simp [setEntry]
  | cons e rest ih =>
    rw [List.map_cons, List.nodup_cons] at h
    unfold setEntry
    split
    · next hk => simpa [List.nodup_cons, hk] using h
    · next hk =>
      rw [List.map_cons, List.nodup_cons, mem_keys_setEntry]
      exact ⟨by grind, ih h.2⟩

def set (t : Keyed κ ν) (key : κ) (value : ν) : Keyed κ ν :=
  ⟨setEntry key value t.entries, nodup_setEntry t.nodup⟩

def update (t : Keyed κ ν) (key : κ) (f : Option ν → ν) : Keyed κ ν :=
  t.set key (f (t.get? key))

def filter (t : Keyed κ ν) (p : κ → ν → Bool) : Keyed κ ν :=
  ⟨t.entries.filter fun e => p e.1 e.2, by
    exact t.nodup.sublist (List.filter_sublist.map _)⟩

def erase (t : Keyed κ ν) (key : κ) : Keyed κ ν :=
  t.filter fun k _ => k ≠ key

def map (t : Keyed κ ν) (f : ν → μ) : Keyed κ μ :=
  ⟨t.entries.map fun e => (e.1, f e.2), by
    have h := t.nodup
    simpa [Function.comp_def] using h⟩

/-- The table of a list of entries, later ones overriding earlier ones in their place. -/
def ofList (entries : List (κ × ν)) : Keyed κ ν :=
  entries.foldl (fun t e => t.set e.1 e.2) empty

@[simp] theorem get?_empty (key : κ) : (∅ : Keyed κ ν).get? key = none :=
  rfl

theorem find?_setEntry {key k : κ} {value : ν} {entries : List (κ × ν)} :
    ((setEntry key value entries).find? fun e => e.1 = k) =
      if k = key then some (key, value) else entries.find? fun e => e.1 = k := by
  induction entries with
  | nil => grind [setEntry]
  | cons e rest ih => grind [setEntry]

@[simp, grind =] theorem get?_set (t : Keyed κ ν) (key k : κ) (value : ν) :
    (t.set key value).get? k = if k = key then some value else t.get? k := by
  simp only [get?, set, find?_setEntry]
  split <;> rfl

theorem get?_filter_key (t : Keyed κ ν) (p : κ → Bool) (k : κ) :
    (t.filter fun key _ => p key).get? k = if p k then t.get? k else none := by
  simp only [get?, filter]
  induction t.entries with
  | nil => simp
  | cons e rest ih => grind

@[simp, grind =] theorem get?_erase (t : Keyed κ ν) (key k : κ) :
    (t.erase key).get? k = if k = key then none else t.get? k := by
  rw [erase, get?_filter_key t (fun key' => decide (key' ≠ key))]
  by_cases h : k = key <;> simp [h]

theorem get?_eq_some_iff {t : Keyed κ ν} {key : κ} {value : ν} :
    t.get? key = some value ↔ (key, value) ∈ t.entries := by
  obtain ⟨entries, hnodup⟩ := t
  simp only [get?]
  induction entries with
  | nil => simp
  | cons e rest ih =>
    rw [List.map_cons, List.nodup_cons] at hnodup
    have hrest := ih hnodup.2
    have hkey : (key, value) ∈ rest → e.1 ≠ key := by
      rintro hmem rfl
      exact hnodup.1 (List.mem_map.2 ⟨_, hmem, rfl⟩)
    grind

theorem get?_filter (t : Keyed κ ν) (p : κ → ν → Bool) (k : κ) :
    (t.filter p).get? k = (t.get? k).filter (p k) := by
  ext value
  rw [get?_eq_some_iff, Option.filter_eq_some_iff, get?_eq_some_iff]
  simp [filter]

@[simp] theorem get?_map (t : Keyed κ ν) (f : ν → μ) (k : κ) :
    (t.map f).get? k = (t.get? k).map f := by
  simp only [get?, map, List.find?_map, Option.map_map]
  rfl

theorem contains_eq_isSome (t : Keyed κ ν) (key : κ) : t.contains key = (t.get? key).isSome := by
  simp only [contains, get?, Option.isSome_map]
  induction t.entries with
  | nil => rfl
  | cons e rest ih => grind

theorem contains_iff {t : Keyed κ ν} {key : κ} : t.contains key = true ↔ key ∈ t.keys := by
  simp [contains, keys]

theorem mem_values_iff {t : Keyed κ ν} {value : ν} :
    value ∈ t.values ↔ ∃ key, t.get? key = some value := by
  simp [values, get?_eq_some_iff]

theorem nodup_values {t : Keyed κ ν} (hinj : ∀ key key' value, t.get? key = some value →
    t.get? key' = some value → key = key') : t.values.Nodup := by
  rw [values, List.Nodup, List.pairwise_map]
  refine (List.pairwise_map.mp t.nodup).imp_of_mem fun {e e'} he he' hne heq => ?_
  exact hne (hinj _ _ _ (get?_eq_some_iff.mpr he) (get?_eq_some_iff.mpr (heq ▸ he')))

theorem mem_keys_of_get? {t : Keyed κ ν} {key : κ} {value : ν} (h : t.get? key = some value) :
    key ∈ t.keys := by
  simp only [get?, Option.map_eq_some_iff] at h
  obtain ⟨e, he, _⟩ := h
  have hk : e.1 = key := by simpa using List.find?_some he
  exact List.mem_map.2 ⟨e, List.mem_of_find?_eq_some he, hk⟩

end Keyed

end Swatch

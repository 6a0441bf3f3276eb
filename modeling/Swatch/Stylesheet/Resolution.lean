import Swatch.Registry
import Swatch.Stylesheet.Reference

/-!
Resolution of references: every `var(--name)` in a value is replaced by what the name stands for,
over and over, until the value no longer changes.

A name stands for a declaration of its own stylesheet first, else for one of the registry; among
several, for the least specific. Names without a declaration stay as they are written. So does a
reference back to a name that is being expanded already, and the name is noted; the names that can
still be expanded get fewer with every step inwards, so resolution ends.
-/

namespace Swatch

/-- A result, together with the names whose circular references were met on the way to it. -/
structure Traced (α : Type) where
  value : α
  cycles : List String
  deriving Repr

namespace Traced

instance : Monad Traced where
  pure value := ⟨value, []⟩
  bind x f :=
    let y := f x.value
    ⟨y.value, x.cycles ++ y.cycles⟩

variable {α β : Type}

theorem ext {t t' : Traced α} (hvalue : t.value = t'.value) (hcycles : t.cycles = t'.cycles) :
    t = t' := by
  cases t
  cases t'
  simp_all

@[simp] theorem value_pure (x : α) : (pure x : Traced α).value = x :=
  rfl

@[simp] theorem cycles_pure (x : α) : (pure x : Traced α).cycles = [] :=
  rfl

@[simp] theorem value_bind (x : Traced α) (f : α → Traced β) :
    (x >>= f).value = (f x.value).value :=
  rfl

@[simp] theorem cycles_bind (x : Traced α) (f : α → Traced β) :
    (x >>= f).cycles = x.cycles ++ (f x.value).cycles :=
  rfl

@[simp] theorem value_map (f : α → β) (x : Traced α) : (f <$> x).value = f x.value :=
  rfl

instance : LawfulMonad Traced :=
  LawfulMonad.mk' Traced
    (fun x => ext rfl (List.append_nil x.cycles))
    (fun x f => ext rfl (List.nil_append (f x).cycles))
    (fun x f g => ext rfl (List.append_assoc x.cycles (f x.value).cycles _))

@[simp] theorem value_mapM (f : α → Traced β) (xs : List α) :
    (xs.mapM f).value = xs.map fun x => (f x).value := by
  induction xs with
  | nil => rfl
  | cons x xs ih => rw [List.mapM_cons, List.map_cons, ← ih]; rfl

end Traced

/-- What names can stand for: the declarations of a stylesheet by name, the least specific first,
and a registry. -/
structure Scope where
  locals : Keyed String (List Declaration)
  registry : Registry

namespace Scope

def ofRegistry (r : Registry) : Scope := ⟨∅, r⟩

def preferred? (s : Scope) (name : String) : Option Declaration :=
  match s.locals.get? name with
  | some (d :: _) => some d
  | _ => (s.registry.variablesSorted name).head?

def names (s : Scope) : List String :=
  s.locals.keys ++ s.registry.declarations.keys

theorem mem_names_of_preferred? {s : Scope} {name : String} {d : Declaration}
    (h : s.preferred? name = some d) : name ∈ s.names := by
  unfold preferred? at h
  unfold names
  split at h
  · next hl => exact List.mem_append_left _ (Keyed.mem_keys_of_get? hl)
  · refine List.mem_append_right _ ?_
    unfold Registry.variablesSorted at h
    cases hr : s.registry.declarations.get? name with
    | none => simp [hr] at h
    | some ds => exact Keyed.mem_keys_of_get? hr

def remaining (s : Scope) (visited : List String) : Nat :=
  (s.names.filter (· ∉ visited)).length

theorem remaining_cons_lt {s : Scope} {visited : List String} {name : String} {d : Declaration}
    (h : name ∉ visited) (hd : s.preferred? name = some d) :
    s.remaining (name :: visited) < s.remaining visited := by
  have hmem := mem_names_of_preferred? hd
  unfold remaining
  generalize s.names = names at hmem
  have hle (l : List String) :
      (l.filter (· ∉ name :: visited)).length ≤ (l.filter (· ∉ visited)).length := by
    rw [← List.countP_eq_length_filter, ← List.countP_eq_length_filter]
    exact List.countP_mono_left fun x _ hx => by simp_all
  induction names with
  | nil => simp at hmem
  | cons n rest ih =>
    by_cases hn : n = name
    · subst hn
      simpa [List.filter_cons, h] using Nat.lt_succ_of_le (hle rest)
    · have hr : name ∈ rest := by
        rcases List.mem_cons.1 hmem with e | e
        · exact absurd e.symm hn
        · exact e
      by_cases hv : n ∈ visited
      · simpa [List.filter_cons, hv, hn] using ih hr
      · simpa [List.filter_cons, hv, hn] using ih hr

end Scope

namespace Resolution

def maxPasses : Nat := 16

/-- Goes through a value once, replacing each reference by what `expand` makes of it. -/
def pass (expand : List Char → List Char → Traced (List Char)) (value : List Char) :
    Traced (List Char) :=
  (Reference.segments value).foldr (fun segment rest =>
    let head : Traced (List Char) :=
      match segment with
      | .literal c => pure [c]
      | .reference name spelling => expand name spelling
    ⟨head.value ++ rest.value, head.cycles ++ rest.cycles⟩) (pure [])

def settle (expand : List Char → List Char → Traced (List Char)) :
    (passes : Nat) → List Char → Traced (List Char)
  | 0, value => pure value
  | passes + 1, value =>
    let next := pass expand value
    if next.value = value then next
    else
      let rest := settle expand passes next.value
      ⟨rest.value, next.cycles ++ rest.cycles⟩

def resolve (s : Scope) (visited : List String) (value : List Char) : Traced (List Char) :=
  settle (fun name spelling =>
    let name := String.ofList name
    if _h : name ∈ visited then ⟨spelling, [name]⟩
    else
      match _hd : s.preferred? name with
      | none => pure spelling
      | some d => resolve s (name :: visited) d.value.toList) maxPasses value
termination_by s.remaining visited
decreasing_by exact Scope.remaining_cons_lt ‹_› ‹_›

def resolveText (s : Scope) (visited : List String) (value : String) : Traced String :=
  let resolved := resolve s visited value.toList
  ⟨String.ofList resolved.value, resolved.cycles⟩

def resolveDeclaration (s : Scope) (d : Declaration) : Traced String :=
  match d.resolved with
  | some value => pure value
  | none => resolveText s [d.name] d.value

end Resolution

end Swatch

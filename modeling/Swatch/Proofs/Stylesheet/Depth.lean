import Mathlib.Data.Finset.Card
import Swatch.Proofs.Stylesheet.Path

/-!
How deep resolution goes. To expand a name is to resolve its written value, and the names in that are
expanded in turn, in every pass over it; the names that are being expanded at one time are a nesting.
Main statement: no name occurs twice in a nesting, nor is there one in it that was being expanded before,
so it has at most as many names as there are other names with a declaration. An account of resolution
that gives up beyond this depth is never at a loss, and its result is that of resolution, however the
declarations are entangled and however long the values become.
-/

namespace Swatch

open Reference (referred segments)

namespace Scope

variable {s : Scope} {name written : String}

/-- The names that are declared in the stylesheet or in the registry. -/
def declared (s : Scope) : Finset String :=
  s.names.toFinset.filter fun name =>
    (s.locals.get? name).getD [] ≠ [] ∨ (s.registry.declarations.get? name).getD [] ≠ []

theorem mem_declared_of_valueOf? (hwritten : s.valueOf? name = some written) : name ∈ s.declared := by
  rw [declared, Finset.mem_filter, List.mem_toFinset]
  refine ⟨mem_names_of_valueOf? hwritten, ?_⟩
  obtain ⟨d, hd, -⟩ := Option.map_eq_some_iff.mp hwritten
  unfold preferred? at hd
  split at hd
  · rename_i hlocal
    exact .inl (by simp [hlocal])
  · refine .inr fun hnil => ?_
    rw [Registry.variablesSorted, hnil] at hd
    simp at hd

end Scope

namespace Resolution

variable {s : Scope} {visited path : List String} {value : List Char} {result : Traced (List Char)}

/-! ### Nestings -/

/-- The values that passes go over, one after the other: the first one, and what a pass makes of a value
that it changes. -/
def passed (expand : List Char → List Char → Traced (List Char)) : (passes : Nat) → List Char →
    List (List Char)
  | 0, _ => []
  | passes + 1, value =>
    let next := (pass expand value).value
    value :: if next = value then [] else passed expand passes next

/-- A name that is expanded while a value is resolved, and its written value. -/
structure Expands (s : Scope) (visited : List String) (value : List Char) (name written : String) : Prop where
  met : ∃ met ∈ passed (expand s visited) maxPasses value, name ∈ referred met
  new : name ∉ visited
  valueOf : s.valueOf? name = some written

/-- The names that are being expanded within each other, the outermost first, at some time while a value
is resolved. -/
inductive Nests (s : Scope) : (visited : List String) → List Char → (path : List String) → Prop where
  | nil (visited : List String) (value : List Char) : Nests s visited value []
  | cons {visited path : List String} {value : List Char} {name written : String}
      (hname : Expands s visited value name written) (hinner : Nests s (name :: visited) written.toList path) :
      Nests s visited value (name :: path)

theorem Nests.nodup_and_mem (h : Nests s visited value path) :
    path.Nodup ∧ ∀ name ∈ path, name ∈ s.declared ∧ name ∉ visited := by
  induction h with
  | nil => simp
  | @cons visited path value name written hname _ ih =>
    obtain ⟨hnodup, hinner⟩ := ih
    -- The name is being expanded while the others are, so none of them is the name again.
    have hapart : name ∉ path := fun hmem => (hinner name hmem).2 List.mem_cons_self
    refine ⟨List.nodup_cons.mpr ⟨hapart, hnodup⟩, List.forall_mem_cons.mpr ⟨?_, fun name' hmem => ?_⟩⟩
    · exact ⟨Scope.mem_declared_of_valueOf? hname.valueOf, hname.new⟩
    · obtain ⟨hdeclared, hnew⟩ := hinner name' hmem
      exact ⟨hdeclared, fun hvisited => hnew (List.mem_cons_of_mem name hvisited)⟩

theorem Nests.length_le (h : Nests s visited value path) :
    path.length ≤ (s.declared \ visited.toFinset).card := by
  obtain ⟨hnodup, hmem⟩ := h.nodup_and_mem
  calc path.length = path.toFinset.card := (List.toFinset_card_of_nodup hnodup).symm
    _ ≤ (s.declared \ visited.toFinset).card :=
      Finset.card_le_card fun name hname => by simpa using hmem name (List.mem_toFinset.mp hname)

/-! ### Resolution to a limited depth -/

section Limited

variable {expand? : List Char → List Char → Option (Traced (List Char))}
  {expand : List Char → List Char → Traced (List Char)} {P : String → Prop}

def replacement? (expand? : List Char → List Char → Option (Traced (List Char))) :
    Segment → Option (Traced (List Char))
  | .literal c => some (pure [c])
  | .reference letters spelling => expand? letters spelling

def pass? (expand? : List Char → List Char → Option (Traced (List Char))) (value : List Char) :
    Option (Traced (List Char)) := do
  let parts ← (segments value).mapM (replacement? expand?)
  return ⟨parts.flatMap (·.value), parts.flatMap (·.cycles)⟩

def settle? (expand? : List Char → List Char → Option (Traced (List Char))) :
    (passes : Nat) → List Char → Option (Traced (List Char))
  | 0, value => some (pure value)
  | passes + 1, value => do
    let next ← pass? expand? value
    if next.value = value then return next
    else
      let rest ← settle? expand? passes next.value
      return ⟨rest.value, next.cycles ++ rest.cycles⟩

/-- What becomes of a reference, where written values are resolved by something that may fail. -/
def expandWith (inner : List String → List Char → Option (Traced (List Char))) (s : Scope)
    (visited : List String) (letters spelling : List Char) : Option (Traced (List Char)) :=
  let name := String.ofList letters
  if name ∈ visited then some ⟨spelling, [name]⟩
  else
    match s.valueOf? name with
    | none => some (pure spelling)
    | some written => inner (name :: visited) written.toList

/-- Resolution that gives up where more than `depth` calls of it would be within each other. -/
def resolveWithin (s : Scope) : (depth : Nat) → (visited : List String) → List Char →
    Option (Traced (List Char))
  | 0, _, _ => none
  | depth + 1, visited, value => settle? (expandWith (resolveWithin s depth) s visited) maxPasses value

theorem mapM_eq_some_iff {α β : Type} {f? : α → Option β} {f : α → β} {Q : α → Prop}
    (hf : ∀ x y, f? x = some y ↔ y = f x ∧ Q x) {xs : List α} {ys : List β} :
    xs.mapM f? = some ys ↔ ys = xs.map f ∧ ∀ x ∈ xs, Q x := by
  induction xs generalizing ys with
  | nil => simp [eq_comm]
  | cons x xs ih =>
    simp only [List.mapM_cons, Option.bind_eq_bind, Option.bind_eq_some_iff, Option.pure_def,
      Option.some.injEq, hf, ih, List.map_cons, List.forall_mem_cons]
    constructor
    · rintro ⟨_, ⟨rfl, hx⟩, _, ⟨rfl, hxs⟩, rfl⟩
      exact ⟨rfl, hx, hxs⟩
    · rintro ⟨rfl, hx, hxs⟩
      exact ⟨_, ⟨rfl, hx⟩, _, ⟨rfl, hxs⟩, rfl⟩

theorem pass_eq (expand : List Char → List Char → Traced (List Char)) (value : List Char) :
    pass expand value = ⟨((segments value).map (replacement expand)).flatMap (·.value),
      ((segments value).map (replacement expand)).flatMap (·.cycles)⟩ := by
  refine Traced.ext ?_ ?_
  · rw [value_pass_eq, List.flatMap_map]
  · rw [cycles_pass_eq, List.flatMap_map (replacement expand) (·.cycles)]

/-- The names that a value refers to are those of its references. -/
theorem forall_referred_iff : (∀ name ∈ referred value, P name) ↔
    ∀ segment ∈ segments value, ∀ letters spelling, segment = .reference letters spelling →
      P (String.ofList letters) := by
  constructor
  · rintro h _ hmem letters spelling rfl
    exact h _ (Reference.mem_referred_iff.mpr ⟨letters, spelling, hmem, rfl⟩)
  · intro h name hname
    obtain ⟨letters, spelling, hmem, rfl⟩ := Reference.mem_referred_iff.mp hname
    exact h _ hmem letters spelling rfl

variable (hexpand : ∀ letters spelling replaced,
  expand? letters spelling = some replaced ↔ replaced = expand letters spelling ∧ P (String.ofList letters))

include hexpand

theorem replacement?_eq_some_iff (segment : Segment) (replaced : Traced (List Char)) :
    replacement? expand? segment = some replaced ↔ replaced = replacement expand segment ∧
      ∀ letters spelling, segment = .reference letters spelling → P (String.ofList letters) := by
  cases segment with
  | literal c => simp [replacement?, replacement, eq_comm]
  | reference letters spelling => simp [replacement?, replacement, hexpand]

/-- A pass succeeds if every name in the value can be expanded. -/
theorem pass?_eq_some_iff : pass? expand? value = some result ↔
    result = pass expand value ∧ ∀ name ∈ referred value, P name := by
  simp only [pass?, Option.bind_eq_bind, Option.bind_eq_some_iff, Option.pure_def, Option.some.injEq,
    mapM_eq_some_iff (replacement?_eq_some_iff hexpand), pass_eq, forall_referred_iff]
  constructor
  · rintro ⟨_, ⟨rfl, h⟩, rfl⟩
    exact ⟨rfl, h⟩
  · rintro ⟨rfl, h⟩
    exact ⟨_, ⟨rfl, h⟩, rfl⟩

/-- The passes succeed if every name in a value that they go over can be expanded. -/
theorem settle?_eq_some_iff (passes : Nat) : settle? expand? passes value = some result ↔
    result = settle expand passes value ∧
      ∀ met ∈ passed expand passes value, ∀ name ∈ referred met, P name := by
  induction passes generalizing value result with
  | zero => simp [settle?, settle, passed, eq_comm]
  | succ passes ih =>
    simp only [settle?, settle, passed, Option.bind_eq_bind, Option.bind_eq_some_iff,
      pass?_eq_some_iff hexpand, List.forall_mem_cons]
    by_cases hsettled : (pass expand value).value = value
    · simp only [hsettled, if_true]
      constructor
      · rintro ⟨_, ⟨rfl, h⟩, hresult⟩
        rw [if_pos hsettled] at hresult
        exact ⟨(Option.some.inj hresult).symm, h, by simp⟩
      · rintro ⟨rfl, h, -⟩
        exact ⟨_, ⟨rfl, h⟩, if_pos hsettled⟩
    · simp only [hsettled, if_false]
      constructor
      · rintro ⟨_, ⟨rfl, h⟩, hresult⟩
        simp only [hsettled, if_false, Option.bind_eq_some_iff, ih] at hresult
        obtain ⟨_, ⟨rfl, hrest⟩, hresult⟩ := hresult
        exact ⟨(Option.some.inj hresult).symm, h, hrest⟩
      · rintro ⟨rfl, h, hrest⟩
        refine ⟨_, ⟨rfl, h⟩, ?_⟩
        simp only [hsettled, if_false, Option.bind_eq_some_iff, ih]
        exact ⟨_, ⟨rfl, hrest⟩, rfl⟩

end Limited

/-- Something that is asked of the written value of a name if that is expanded. -/
def OfInner (Q : List String → List Char → Prop) (s : Scope) (visited : List String) (name : String) : Prop :=
  name ∉ visited → ∀ written, s.valueOf? name = some written → Q (name :: visited) written.toList

/-- A name is expanded if the resolution of its written value succeeds. -/
theorem expandWith_eq_some_iff {inner : List String → List Char → Option (Traced (List Char))}
    {Q : List String → List Char → Prop}
    (hinner : ∀ visited value result, inner visited value = some result ↔
      result = resolve s visited value ∧ Q visited value)
    (letters spelling : List Char) (replaced : Traced (List Char)) :
    expandWith inner s visited letters spelling = some replaced ↔
      replaced = expand s visited letters spelling ∧ OfInner Q s visited (String.ofList letters) := by
  rw [expandWith, OfInner]
  by_cases hvisited : String.ofList letters ∈ visited
  · simp [expand_of_mem hvisited, hvisited, eq_comm]
  · cases hwritten : s.valueOf? (String.ofList letters) with
    | none => simp [expand_of_none hvisited hwritten, hvisited, eq_comm]
    | some written => simp [expand_of_some hvisited hwritten, hvisited, hinner]

/-- The limit is kept exactly if every nesting has fewer names than there may be calls. -/
theorem resolveWithin_eq_some_iff {depth : Nat} : resolveWithin s depth visited value = some result ↔
    result = resolve s visited value ∧ ∀ path, Nests s visited value path → path.length < depth := by
  induction depth generalizing visited value result with
  | zero =>
    refine iff_of_false (by simp [resolveWithin]) fun ⟨_, hnests⟩ => ?_
    exact Nat.not_lt_zero _ (hnests [] (.nil visited value))
  | succ depth ih =>
    have hexpand := @expandWith_eq_some_iff s visited _ _ fun _ _ _ => ih
    rw [resolveWithin, settle?_eq_some_iff hexpand, resolve_eq]
    -- A nesting is a name that is expanded, and a nesting for its written value with one call less to go.
    refine and_congr_right' ⟨fun hinner path hpath => ?_, fun hshort met hmet name hname hnew written
      hwritten path hinner => ?_⟩
    · cases hpath with
      | nil => exact Nat.succ_pos depth
      | cons hname hpath =>
        obtain ⟨⟨met, hmet, hreferred⟩, hnew, hwritten⟩ := hname
        exact Nat.succ_lt_succ (hinner met hmet _ hreferred hnew _ hwritten _ hpath)
    · exact Nat.lt_of_succ_lt_succ (hshort _ (.cons ⟨⟨met, hmet, hname⟩, hnew, hwritten⟩ hinner))

/-- Nestings repeat no name and have only names with a declaration that were not being expanded before.
So resolution is never deeper than one call for the value and one for each such name, and it comes to
its end within this depth. -/
theorem resolveWithin_declared (s : Scope) (visited : List String) (value : List Char) :
    (∀ path, Nests s visited value path →
      path.Nodup ∧ (∀ name ∈ path, name ∈ s.declared ∧ name ∉ visited) ∧
        path.length + 1 ≤ 1 + (s.declared \ visited.toFinset).card) ∧
    (∀ depth result, resolveWithin s depth visited value = some result ↔
      result = resolve s visited value ∧ ∀ path, Nests s visited value path → path.length + 1 ≤ depth) ∧
    resolveWithin s (1 + (s.declared \ visited.toFinset).card) visited value =
      some (resolve s visited value) := by
  refine ⟨fun path hpath => ?_, fun depth result => resolveWithin_eq_some_iff, ?_⟩
  · obtain ⟨hnodup, hmem⟩ := hpath.nodup_and_mem
    have hle := hpath.length_le
    exact ⟨hnodup, hmem, by omega⟩
  · refine resolveWithin_eq_some_iff.mpr ⟨rfl, fun path hpath => ?_⟩
    have hle := hpath.length_le
    omega

/-- Two names that stand for each other need the whole depth. -/
example : (resolveWithin (.ofValues [("--ink", "1px var(--text)")] [("--text", "var(--ink) var( --ink )")])
    2 [] "var(--text)".toList).isNone = true := by
  decide +kernel

end Resolution

end Swatch

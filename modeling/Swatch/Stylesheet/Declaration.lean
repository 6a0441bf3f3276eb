/-!
What stylesheets declare: custom properties, and the colours of classes.
-/

namespace Swatch

/-- The kind of selector a custom property is declared under. -/
inductive ContextKind where
  | root
  | classes
  | media
  | other
  deriving DecidableEq, Repr

def ContextKind.name : ContextKind → String
  | .root => "root"
  | .classes => "class"
  | .media => "media"
  | .other => "other"

def ContextKind.all : List ContextKind :=
  [.root, .classes, .media, .other]

inductive Theme where
  | light
  | dark
  deriving DecidableEq, Repr

def Theme.name : Theme → String
  | .light => "light"
  | .dark => "dark"

def Theme.all : List Theme :=
  [.light, .dark]

/-- What a selector says about the declarations under it. -/
structure SelectorContext where
  kind : ContextKind
  specificity : Int
  theme : Option Theme
  media : Option String
  deriving DecidableEq, Repr

/-- A custom property as it is declared; the name includes the two hyphens. -/
structure Declaration where
  name : String
  value : String
  source : String
  line : Int
  selector : String
  context : SelectorContext
  resolved : Option String
  deriving DecidableEq, Repr

/-- A colour that a rule for a class sets; the name has no point. -/
structure ClassColor where
  name : String
  property : String
  value : String
  source : String
  line : Int
  selector : String
  resolved : Option String
  deriving DecidableEq, Repr

end Swatch

import Swatch.Json.Value
import Swatch.Stylesheet.Sheet

/-!
What stylesheets declare as values of the interchange format.
-/

namespace Swatch

def SelectorContext.toJson (c : SelectorContext) : Json :=
  .obj
    [("type", .str c.kind.name), ("specificity", .int c.specificity),
     ("theme_hint", Json.ofText? (c.theme.map Theme.name)),
     ("media_query", Json.ofText? c.media)]

def Declaration.toJson (d : Declaration) : Json :=
  .obj
    [("name", .str d.name), ("value", .str d.value), ("resolved_value", Json.ofText? d.resolved),
     ("source_id", .str d.source), ("line", .int d.line), ("selector", .str d.selector),
     ("context", d.context.toJson)]

def ClassColor.toJson (c : ClassColor) : Json :=
  .obj
    [("class_name", .str c.name), ("property", .str c.property), ("value", .str c.value),
     ("resolved_value", Json.ofText? c.resolved), ("source_id", .str c.source),
     ("line", .int c.line), ("selector", .str c.selector)]

def Sheet.toJson (s : Sheet) : Json :=
  .obj
    [("variables", .arr (s.declarations.map Declaration.toJson)),
     ("classes", .arr (s.classes.map ClassColor.toJson))]

end Swatch

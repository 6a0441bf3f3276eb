import Swatch.Detection.Record
import Swatch.Json.Value

/-!
Records of colours as values of the interchange format.
-/

namespace Swatch

def Position.toJson (p : Position) : Json :=
  .obj [("line", .int p.line), ("character", .int p.character)]

def Range.toJson (r : Range) : Json :=
  .obj [("start", r.start.toJson), ("end", r.stop.toJson)]

def Record.toJson (r : Record) : Json :=
  .obj
    [("range", r.range.toJson), ("original_text", .str r.text), ("normalized_color", .str r.css),
     ("format", .str r.format.name), ("is_css_variable", .bool r.mark.property.isSome),
     ("variable_name", Json.ofText? r.mark.property),
     ("is_wrapped_in_function", .bool r.mark.isWrapped),
     ("is_tailwind_class", .bool r.mark.utilityClass.isSome),
     ("tailwind_class", Json.ofText? r.mark.utilityClass),
     ("is_css_class", .bool r.mark.className.isSome),
     ("css_class_name", Json.ofText? r.mark.className),
     ("is_css_variable_declaration", .bool r.mark.isDeclaration)]

end Swatch

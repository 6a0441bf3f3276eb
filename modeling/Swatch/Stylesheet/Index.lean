import Swatch.Log.Telling
import Swatch.Stylesheet.Sheet

/-!
Indexing stylesheets and resolving references, with what is worth telling of it.
-/

namespace Swatch

def Traced.told {α : Type} (t : Traced α) : Log.Telling α :=
  ⟨t.value, t.cycles.map .circularReference⟩

namespace Registry

/-- Replaces what a source declares by what its text declares, and tells how much that is. -/
def indexTold (r : Registry) (source text : String) : Log.Telling (Sheet × Registry) := do
  let (sheet, r) ← (r.index source text).told
  Log.tell (.stylesheetIndexed source sheet.declarations.length sheet.classes.length)
  return (sheet, r)

end Registry

end Swatch

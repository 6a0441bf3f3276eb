import Swatch.Document.Basic

/-!
Documents that are asked for positions. The index of the lines is made when it is first needed, and an
edit throws it away.
-/

namespace Swatch

/-- A document with the index of its lines, once that was needed. -/
structure IndexedDocument extends Document where
  index? : Option LineIndex
  deriving Repr

namespace IndexedDocument

def create (uri text : String) (version : Int) (language : Option String) : IndexedDocument :=
  ⟨Document.create uri text version language, none⟩

def edit (d : IndexedDocument) (text : String) : IndexedDocument :=
  ⟨d.toDocument.edit text, none⟩

/-- The index of the lines, and the document that keeps it. -/
def lines (d : IndexedDocument) : LineIndex × IndexedDocument :=
  match d.index? with
  | some lines => (lines, d)
  | none =>
    let lines := LineIndex.ofChars d.text.toList
    (lines, { d with index? := some lines })

def positionAt (d : IndexedDocument) (offset : Int) : Position × IndexedDocument :=
  let (lines, d) := d.lines
  (lines.positionAt offset, d)

def offsetAt (d : IndexedDocument) (p : Position) : Int × IndexedDocument :=
  let (lines, d) := d.lines
  (lines.offsetAt p, d)

end IndexedDocument

end Swatch

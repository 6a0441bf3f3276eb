import Swatch.Document.LineIndex
import Swatch.Document.Language
import Swatch.Text.Quoted

/-!
Documents: a text at an address, with a language and a version that every edit raises.
-/

namespace Swatch

structure Document where
  uri : String
  version : Int
  language : String
  text : String
  deriving DecidableEq, Repr

namespace Document

def create (uri text : String) (version : Int) (language : Option String) : Document where
  uri := uri
  version := version
  language :=
    match language with
    | some name => if name.isEmpty then Language.guess uri else name
    | none => Language.guess uri
  text := text

def edit (d : Document) (text : String) : Document :=
  { d with text := text, version := d.version + 1 }

def isStylesheet (d : Document) : Bool :=
  Language.isStylesheet d.language d.uri

def label (kind : String) (d : Document) : String :=
  kind ++ "(uri=" ++ Text.quoted d.uri ++ ", version=" ++ toString d.version ++ ")"

end Document

end Swatch

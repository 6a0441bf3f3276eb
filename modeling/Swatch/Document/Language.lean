import Swatch.Text.Case

/-!
The languages of documents, as far as their names tell.
-/

namespace Swatch.Language

/-- The name that a path ends in: its last component that is not empty and not a single point. -/
def lastName (path : List Char) : List Char :=
  let components := path.splitOn '/'
  ((components.filter fun c => !c.isEmpty && c ≠ ['.']).getLast?).getD []

/-- The extension of a name, from its last point on. A point that begins or ends the name starts
no extension. -/
def extension (name : List Char) : List Char :=
  let afterPoint := (name.reverse.takeWhile (· ≠ '.')).reverse
  let base := name.take (name.length - afterPoint.length)
  if afterPoint.isEmpty || base.length < 2 then [] else '.' :: afterPoint

def extensionOf (uri : String) : String :=
  let path := uri.toList.takeWhile (· ≠ '?')
  Text.lower (String.ofList (extension (lastName path)))

def byExtension : List (String × String) :=
  [(".css", "css"), (".scss", "scss"), (".sass", "sass"), (".less", "less"), (".styl", "stylus"),
   (".stylus", "stylus"), (".pcss", "postcss"), (".postcss", "postcss"), (".html", "html"),
   (".htm", "html"), (".vue", "vue"), (".svelte", "svelte"), (".astro", "astro"),
   (".js", "javascript"), (".jsx", "javascriptreact"), (".ts", "typescript"),
   (".tsx", "typescriptreact"), (".json", "json"), (".md", "markdown"), (".py", "python")]

def guess (uri : String) : String :=
  (byExtension.lookup (extensionOf uri)).getD "plaintext"

def stylesheets : List String :=
  ["css", "scss", "sass", "less", "stylus"]

def stylesheetExtensions : List String :=
  [".css", ".scss", ".sass", ".less", ".styl", ".stylus", ".pcss", ".postcss"]

def isStylesheet (language uri : String) : Bool :=
  stylesheets.contains language || stylesheetExtensions.contains (extensionOf uri)

end Swatch.Language

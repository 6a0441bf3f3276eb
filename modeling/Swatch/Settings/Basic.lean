import Swatch.Log.Notice

/-!
The settings that the work depends on, and what they are unless somebody says otherwise.
-/

namespace Swatch

inductive Setting where
  | languages
  | stylesheetPatterns
  | excludePatterns
  | maxStylesheets
  | debounce
  | chunkSize
  | pause
  | logLevel
  | logFormat
  deriving DecidableEq, Repr

namespace Setting

def name : Setting → String
  | .languages => "languages"
  | .stylesheetPatterns => "stylesheet_patterns"
  | .excludePatterns => "exclude_patterns"
  | .maxStylesheets => "max_stylesheet_files"
  | .debounce => "refresh_debounce_seconds"
  | .chunkSize => "apply_chunk_size"
  | .pause => "apply_yield_seconds"
  | .logLevel => "log_level"
  | .logFormat => "log_format"

def all : List Setting :=
  [.languages, .stylesheetPatterns, .excludePatterns, .maxStylesheets, .debounce, .chunkSize,
   .pause, .logLevel, .logFormat]

def ofName? (s : String) : Option Setting :=
  all.find? (·.name = s)

end Setting

/-- The settings. At least one stylesheet may be indexed, and a chunk has at least one record. -/
structure Settings where
  languages : List String
  stylesheetPatterns : List String
  excludePatterns : List String
  maxStylesheets : Nat
  debounce : Float
  chunkSize : Nat
  pause : Float
  logLevel : Log.Level
  logFormat : Log.Format
  maxStylesheets_pos : 0 < maxStylesheets
  chunkSize_pos : 0 < chunkSize

namespace Settings

def defaultLanguages : List String :=
  ["css", "scss", "sass", "less", "stylus", "postcss", "html", "xml", "svg", "javascript",
   "javascriptreact", "typescript", "typescriptreact", "vue", "svelte", "astro", "json", "jsonc",
   "yaml", "toml", "markdown", "mdx", "plaintext", "python", "ruby", "php", "perl", "go", "rust",
   "java", "kotlin", "swift", "csharp", "cpp", "c", "objective-c", "dart", "lua", "shellscript",
   "powershell", "sql", "graphql"]

def default : Settings where
  languages := defaultLanguages
  stylesheetPatterns := ["**/*.css"]
  excludePatterns := ["**/node_modules/**"]
  maxStylesheets := 100
  debounce := 0.05
  chunkSize := 200
  pause := 0.0
  logLevel := .info
  logFormat := .text
  maxStylesheets_pos := by decide
  chunkSize_pos := by decide

instance : Inhabited Settings := ⟨default⟩

/-- Whether colours are looked for in documents of a language. An asterisk stands for every
language. -/
def covers (s : Settings) (language : String) : Bool :=
  s.languages.contains "*" || s.languages.contains language

end Settings

end Swatch

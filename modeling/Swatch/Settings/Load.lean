import Swatch.Files.Disk
import Swatch.Json.Reader
import Swatch.Problem
import Swatch.Settings.Value

/-!
Where settings come from: a file, the environment, and what the caller says, each of which overrides
those before it, setting by setting.
-/

namespace Swatch.Settings

def fileName : String := "color-indexer.config.json"

def environmentNames : List (Setting × String) :=
  [(.languages, "COLOR_INDEXER_LANGUAGES"), (.maxStylesheets, "COLOR_INDEXER_MAX_FILES"),
   (.logLevel, "COLOR_INDEXER_LOG_LEVEL")]

def snakeCase (key : String) : String :=
  match key.toList with
  | [] => ""
  | first :: rest =>
    Text.lower (String.ofList
      (first :: rest.flatMap fun c => if c.isUpper then ['_', c] else [c]))

/-- Where the file is looked for: in a folder, where it may be missing, or at a path. -/
inductive Place where
  | folder (path : Path)
  | file (path : Path)
  deriving DecidableEq, Repr

def Place.path : Place → Path
  | .folder path => path.child fileName
  | .file path => path

def Place.ofPath (d : Disk) (path : Path) : Place :=
  if d.isFolder path then .folder path else .file path

inductive Refusal where
  | notFound (path : String)
  | unreadable (path : String) (error : FileError)
  | notText (fault : Text.Utf8.Malformed)
  | notJson (path : String) (text : List Char) (fault : Json.Fault) (remaining : Nat)
  | tooManyDigits (count : Nat)
  | tooDeep (container : Json.Container)
  | notAnObject (path : String)
  | invalid (faults : List (Setting × Fault)) (path? : Option String)
  deriving Repr

namespace Refusal

def message : Refusal → String
  | .notFound path => "Config file not found: " ++ path
  | .unreadable path error => "Cannot read " ++ path ++ ": " ++ error.message path
  | .notText fault => fault.message
  | .notJson path text fault remaining =>
    "Invalid JSON in " ++ path ++ ": " ++ Json.faultMessage text fault remaining
  | .tooManyDigits count => Json.tooManyDigitsMessage count
  | .tooDeep container => Json.tooDeepMessage container
  | .notAnObject path => "Config file must contain a JSON object: " ++ path
  | .invalid faults _ => "Invalid configuration: " ++ toString faults.length ++ " error(s)"

def problem? (r : Refusal) : Option Problem :=
  match r with
  | .notFound path | .unreadable path _ | .notJson path _ _ _ | .notAnObject path =>
    some (.ofConfiguration r.message (some path))
  | .invalid _ path? => some (.ofConfiguration r.message path?)
  | .notText _ | .tooManyDigits _ | .tooDeep _ => none

def faults : Refusal → List (Setting × Fault)
  | .invalid faults _ => faults
  | _ => []

end Refusal

def parse (path : String) (cs : List Char) : Except Refusal Json :=
  match Json.ofChars cs with
  | .ok v => .ok v
  | .error (.fault fault remaining) => .error (.notJson path cs fault remaining)
  | .error (.tooManyDigits count) => .error (.tooManyDigits count)
  | .error (.tooDeep container) => .error (.tooDeep container)

def named (members : List (String × Json)) (vs : Values) : Values :=
  members.foldl (fun vs (name, v) =>
    match Setting.ofName? name with
    | some s => vs.set s v
    | none => vs) vs

def known (members : List (String × Json)) : Values :=
  named (members.map fun (key, v) => (snakeCase key, v)) ∅

def unknown (path : String) (members : List (String × Json)) : List Log.Notice :=
  (members.filter fun member => (Setting.ofName? (snakeCase member.1)).isNone).map fun member =>
    .settingIgnored member.1 path

def fileValues (d : Disk) (place : Place) : Except Refusal (Values × List Log.Notice) :=
  let path := place.path
  match d.find path, place with
  | .error _, .folder _ => .ok (∅, [])
  | .error _, .file _ => .error (.notFound path.text)
  | .ok _, _ =>
    match d.read path with
    | .error (.file e) => .error (.unreadable path.text e)
    | .error (.malformed fault) => .error (.notText fault)
    | .ok cs => do
      match ← parse path.text cs with
      | .obj members => return (known members, unknown path.text members)
      | _ => throw (.notAnObject path.text)

def withEnvironment (vs : Values) (environment : List (String × String)) : Values :=
  environmentNames.foldl (fun vs (s, name) =>
    match environment.lookup name with
    | some value => vs.set s (.str value)
    | none => vs) vs

/-- Values with those that the caller sets. What is null or no setting does not count. -/
def withOverrides (vs : Values) (overrides : List (String × Json)) : Values :=
  named (overrides.filter fun (_, v) => !(v matches .null)) vs

def load (d : Disk) (place : Place) (environment : List (String × String))
    (overrides : List (String × Json)) : Except Refusal Settings × List Log.Notice :=
  match fileValues d place with
  | .error r => (.error r, [])
  | .ok (vs, notices) =>
    match ofValues (withOverrides (withEnvironment vs environment) overrides) with
    | .ok s => (.ok s, notices)
    | .error faults =>
      let path := place.path
      (.error (.invalid faults (if d.exists? path then some path.text else none)), notices)

end Swatch.Settings

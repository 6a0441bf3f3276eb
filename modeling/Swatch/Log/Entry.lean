import Swatch.Json.Printer
import Swatch.Log.Notice

/-!
Entries of the log, and how a line shows one: as plain text, or as an object with members.
-/

namespace Swatch.Log

def unranked : Int := 0

def rankName (rank : Int) : String :=
  match Level.all.find? fun level => level.rank = rank with
  | some level => level.name
  | none => if rank = unranked then "NOTSET" else "Level " ++ toString rank

structure Place where
  module : String
  function : Option String
  line : Int
  deriving DecidableEq, Repr

/-- An entry: its rank, the log it goes to, where it comes from, what it says, what else is known of
it, and the kind and the text of an error that it tells of. -/
structure Entry where
  rank : Int
  logger : String
  place : Option Place
  message : String
  particulars : List (String × Json)
  error : Option (String × String)

namespace Entry

def particularNames : List String :=
  ["duration_ms", "operation", "file_path", "record_count"]

def errorText (kind text : String) : String :=
  if text.isEmpty then kind else kind ++ ": " ++ text

def toJson (e : Entry) : Json :=
  let place :=
    match e.place with
    | some p =>
      [("module", .str p.module), ("function", Json.ofText? p.function), ("line", .int p.line)]
    | none => []
  .obj
    ([("level", .str (rankName e.rank)), ("logger", .str e.logger)] ++ place ++
      [("message", .str e.message)] ++
      Json.present (particularNames.map fun name => (name, e.particulars.lookup name)) ++
      Json.present [("exception", e.error.map fun (kind, text) => .str (errorText kind text))])

def line (format : Format) (e : Entry) : String :=
  match format with
  | .text => rankName e.rank ++ " | " ++ e.message
  | .json => e.toJson.line

end Entry

namespace Notice

def particulars : Notice → List (String × Json)
  | .stylesheetUnreadable path _ => [("operation", .str "index"), ("file_path", .str path)]
  | .colorsDetected source count =>
    [("operation", .str "detect"), ("file_path", .str source), ("record_count", .int count)]
  | .workspaceIndexed indexed _ _ _ =>
    [("operation", .str "index_all"), ("record_count", .int indexed)]
  | .circularReference _ | .settingIgnored _ _ | .tooManyStylesheets _
  | .stylesheetIndexed _ _ _ => []

def entry (n : Notice) : Entry where
  rank := n.level.rank
  logger := loggerName n.category
  place := none
  message := n.message
  particulars := n.particulars
  error := none

end Notice

end Swatch.Log

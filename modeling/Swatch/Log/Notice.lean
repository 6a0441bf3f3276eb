/-!
What is worth telling while the work goes on, with the wording, the importance and the part of the
program that tells it.
-/

namespace Swatch.Log

inductive Level where
  | debug
  | info
  | warning
  | error
  | critical
  deriving DecidableEq, Repr

namespace Level

def name : Level → String
  | .debug => "DEBUG"
  | .info => "INFO"
  | .warning => "WARNING"
  | .error => "ERROR"
  | .critical => "CRITICAL"

def rank : Level → Int
  | .debug => 10
  | .info => 20
  | .warning => 30
  | .error => 40
  | .critical => 50

end Level

def Level.all : List Level :=
  [.debug, .info, .warning, .error, .critical]

/-- How a line of the log is written: as plain text, or as an object with members. -/
inductive Format where
  | text
  | json
  deriving DecidableEq, Repr

def Format.name : Format → String
  | .text => "text"
  | .json => "json"

/-- The parts of the program that keep a log of their own. -/
inductive Category where
  | detector
  | indexer
  | cache
  | scheduler
  | workspace
  deriving DecidableEq, Repr

namespace Category

def name : Category → String
  | .detector => "detector"
  | .indexer => "indexer"
  | .cache => "cache"
  | .scheduler => "scheduler"
  | .workspace => "workspace"

def all : List Category :=
  [.detector, .indexer, .cache, .scheduler, .workspace]

end Category

def rootName : String := "color_indexer"

def loggerName : Option Category → String
  | some category => rootName ++ "." ++ category.name
  | none => rootName

inductive Notice where
  | circularReference (name : String)
  | settingIgnored (key path : String)
  | tooManyStylesheets (limit : Nat)
  | stylesheetUnreadable (path reason : String)
  | stylesheetIndexed (source : String) (declarations classes : Nat)
  | colorsDetected (source : String) (count : Nat)
  | workspaceIndexed (indexed found properties classes : Nat)
  deriving DecidableEq, Repr

namespace Notice

def level : Notice → Level
  | .circularReference _ | .settingIgnored _ _ | .tooManyStylesheets _ => .warning
  | .stylesheetUnreadable _ _ => .error
  | .stylesheetIndexed _ _ _ | .colorsDetected _ _ => .debug
  | .workspaceIndexed _ _ _ _ => .info

def category : Notice → Option Category
  | .circularReference _ | .stylesheetIndexed _ _ _ => some .indexer
  | .settingIgnored _ _ => none
  | .tooManyStylesheets _ | .stylesheetUnreadable _ _ | .workspaceIndexed _ _ _ _ =>
    some .workspace
  | .colorsDetected _ _ => some .detector

def message : Notice → String
  | .circularReference name => "Circular CSS variable reference detected: " ++ name
  | .settingIgnored key path => "Ignoring unknown setting '" ++ key ++ "' in " ++ path
  | .tooManyStylesheets limit =>
    "More than " ++ toString limit ++ " stylesheets found, indexing the first ones only"
  | .stylesheetUnreadable path reason => "Failed to index stylesheet " ++ path ++ ": " ++ reason
  | .stylesheetIndexed source declarations classes =>
    "Indexed " ++ source ++ ": " ++ toString declarations ++ " variables, " ++ toString classes ++
      " class colors"
  | .colorsDetected source count => "Detected " ++ toString count ++ " colors in " ++ source
  | .workspaceIndexed indexed found properties classes =>
    "Indexed " ++ toString indexed ++ "/" ++ toString found ++ " stylesheets: " ++
      toString properties ++ " variables, " ++ toString classes ++ " classes"

end Notice

end Swatch.Log

import ClosureLang.Location
import ClosureLang.Text.Json

/-! Findings: problems that static checks report at a place. -/
namespace ClosureLang.Lint

inductive Severity where
  | error
  | warning
  | info
deriving DecidableEq, Repr

namespace Severity

def name : Severity → String
  | error => "error"
  | warning => "warning"
  | info => "info"

/-- Severities are numbered from one. -/
def code : Severity → Nat
  | error => 1
  | warning => 2
  | info => 3

def all : List Severity := [error, warning, info]

def ofCode? (n : Int) : Option Severity := all.find? fun s => s.code = n

/-- The name of a numbered severity. -/
def nameOfCode (n : Int) : String := ((ofCode? n).map name).getD "unknown"

/-- The name written for a numbered severity; number zero is no severity and counts as a
warning. -/
def writtenName (n : Int) : String := if n = 0 then warning.name else nameOfCode n

def ofName? (text : String) : Option Severity := all.find? fun s => s.name = text

/-- The message about a text that names no severity. -/
def unknownMessage (text : String) : String := "unknown severity: " ++ Text.quoted text

end Severity

/-- Where a problem is. Line and column are zero if the text is unknown. -/
structure Position where
  file : String
  offset : Int
  line : Int := 0
  col : Int := 0

namespace Position

def text (p : Position) : String :=
  if p.line = 0 then
    if p.offset < 0 then p.file else p.file ++ "[" ++ Decimal.intText p.offset ++ "]"
  else if 0 < p.col then
    p.file ++ ":" ++ Decimal.intText p.line ++ ":" ++ Decimal.intText p.col
  else p.file ++ ":" ++ Decimal.intText p.line

/-- Unknown lines and columns are left out. -/
def json (p : Position) : Json :=
  .object ([("file", .string p.file), ("offset", .number p.offset)] ++
    (if p.line = 0 then [] else [("line", .number p.line)]) ++
    (if p.col = 0 then [] else [("col", .number p.col)]))

end Position

structure Finding where
  pos : Position
  message : String
  /-- The name of the check that found the problem. -/
  check : String
  severity : Severity
  notes : List String := []

namespace Finding

def text (f : Finding) : String :=
  f.pos.text ++ ": " ++ f.message ++ " (" ++ f.check ++ ")" ++
    String.join (f.notes.map ("\n  = note: " ++ ·))

def json (f : Finding) : Json :=
  .object ([("pos", f.pos.json), ("message", .string f.message), ("analyzer", .string f.check),
    ("severity", .string f.severity.name)] ++
    (if f.notes.isEmpty then [] else [("notes", .list (f.notes.map .string))]))

end Finding

/-- One line per finding and note. -/
def textReport (fs : List Finding) : String := String.join (fs.map (·.text ++ "\n"))

/-- The findings as a JSON list; no findings are `null`. -/
def jsonReport (fs : List Finding) : String :=
  Json.document (if fs.isEmpty then .null else .list (fs.map Finding.json))

def hasErrors (fs : List Finding) : Bool := fs.any (·.severity = .error)

end ClosureLang.Lint

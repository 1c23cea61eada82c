import ClosureLang.Text.Blank

/-! Lines of programs and outputs as conformance cases compare them. -/
namespace ClosureLang.Conformance

/-- Drops carriage returns in front of line feeds. -/
def dropReturns : List Char → List Char
  | [] => []
  | '\r' :: '\n' :: cs => '\n' :: dropReturns cs
  | c :: cs => c :: dropReturns cs

/-- The lines that are not blank, each ended by a line feed. A text without such lines is one
empty line. -/
def fixLines (s : String) : String :=
  let lines := (Text.lines (String.ofList (dropReturns s.toList))).filter fun l => Text.trim l ≠ ""
  if lines.isEmpty then "\n" else String.join (lines.map (· ++ "\n"))

/-- A log that takes text in pieces and keeps complete lines. -/
structure LineLog where
  lines : List String := []
  /-- The start of a line that is not complete yet. -/
  rest : String := ""

namespace LineLog

def write (log : LineLog) (piece : String) : LineLog :=
  let pieces := Text.lines (log.rest ++ piece)
  { lines := log.lines ++ pieces.dropLast, rest := pieces.getLastD "" }

/-- Logs the incomplete line, if there is one. -/
def flush (log : LineLog) : LineLog :=
  if log.rest = "" then log else { lines := log.lines ++ [log.rest] }

end LineLog

end ClosureLang.Conformance

import ClosureLang.Location
import ClosureLang.Report.Color
import ClosureLang.Text.Decimal
import ClosureLang.Text.Indent
import ClosureLang.Text.Utf8
import ClosureLang.Text.Wrap

/-! Reports with annotated source lines. -/
namespace ClosureLang

inductive Level where
  | error
  | warning
  | note
deriving DecidableEq, Repr

namespace Level

/-- Levels are numbered from zero. -/
def ofCode? : Int → Option Level
  | 0 => some error
  | 1 => some warning
  | 2 => some note
  | _ => none

def name : Level → String
  | error => "error"
  | warning => "warning"
  | note => "note"

def color (p : Palette) : Level → String
  | error => p.boldRed
  | warning => p.yellow
  | note => p.boldCyan

end Level

/-- A region of a source line. Numbers count from one; zero and below stand for unknown. -/
structure Span where
  file : String
  line : Int
  col : Int
  /-- The last column; found from the source if unknown. -/
  endCol : Int := 0
  label : String := ""

structure Report where
  /-- An unknown level has no name and no colour. -/
  level : Option Level
  message : String
  spans : List Span := []
  notes : List String := []

/-- How reports are rendered. -/
structure Renderer where
  palette : Palette := .plain
  /-- The column at which notes are wrapped; zero means the default, less means never. -/
  width : Int := 0
  /-- The text of a file, if it can be read. -/
  source : String → Option String

namespace Renderer

def defaultWidth : Int := 100

/-- The longest line that is read, in bytes. -/
def longestLine : Nat := 65535

def dropReturn (line : List Char) : List Char :=
  if line.getLast? = some '\r' then line.dropLast else line

/-- The lines of a text, without a last empty one and up to the first that is too long. -/
def readableLines (text : String) : List String :=
  let lines := Text.splitOnChar '\n' text.toList
  let lines := if lines.getLast? = some [] then lines.dropLast else lines
  (lines.takeWhile fun l => Utf8.size l ≤ longestLine).map fun l =>
    String.ofList (dropReturn l)

/-- The source line of a span, if there is one and it is not empty. -/
def sourceLine (r : Renderer) (file : String) (line : Int) : Option String :=
  if line ≤ 0 ∨ file = "" then none
  else do
    let text ← r.source file
    let found ← (readableLines text)[(line - 1).toNat]?
    if found = "" then none else some found

def isWordChar (c : Char) : Bool := c.isAlphanum || c = '_'

def isDelimiter (c : Char) : Bool :=
  [' ', '\t', '(', ')', '\x7b', '\x7d', ';', ',', '#'].contains c

/-- How many bytes the token at the start of some bytes takes: a run of word characters or a run
of others, up to a delimiter. -/
def tokenBytes (cs : List (Char × Nat)) : Nat :=
  match cs with
  | [] => 0
  | (first, _) :: _ =>
    let token := cs.takeWhile fun (c, _) => !isDelimiter c && isWordChar c = isWordChar first
    token.foldl (fun n (_, width) => n + width) 0

/-- The last column of the token at a column. Columns count bytes. -/
def detectEnd (source : String) (col : Nat) : Nat :=
  let size := source.utf8ByteSize
  if col = 0 ∨ size < col then col
  else
    let n := tokenBytes (Utf8.chars (Utf8.bytesOf source (col - 1) size))
    if n = 0 then col else col - 1 + n

/-- The columns taken by the start of a line on the screen, where a tab takes four. -/
def displayWidth (bytes : List UInt8) : Nat :=
  (Utf8.decode bytes).foldl (fun n c => n + if c = '\t' then 4 else 1) 0

def expandTabs (line : String) : String :=
  String.ofList (line.toList.flatMap fun c => if c = '\t' then [' ', ' ', ' ', ' '] else [c])

def heading (p : Palette) (d : Report) : String :=
  let color := (d.level.map (Level.color p)).getD ""
  let name := (d.level.map Level.name).getD ""
  color ++ p.bold ++ name ++ p.reset ++ ":" ++ p.reset ++ " " ++ p.bold ++ d.message ++
    p.reset ++ "\n"

def place (s : Span) : String :=
  if s.line ≤ 0 then s.file
  else if s.col ≤ 0 then s.file ++ ":" ++ Decimal.intText s.line
  else s.file ++ ":" ++ Decimal.intText s.line ++ ":" ++ Decimal.intText s.col

/-- The marks under the source line and where they start. -/
def underline (source : String) (s : Span) : Nat × Nat :=
  let col := if s.col ≤ 0 then 1 else s.col.toNat
  let last := if s.endCol ≤ 0 then detectEnd source col else s.endCol.toNat
  let start :=
    if 1 < col ∧ col - 1 ≤ source.utf8ByteSize then displayWidth (Utf8.bytesOf source 0 (col - 1))
    else 0
  (start, max last col - col + 1)

def renderSpan (r : Renderer) (s : Span) : String :=
  let p := r.palette
  let arrow := "  " ++ p.boldBlue ++ "-->" ++ p.reset ++ " " ++ place s ++ "\n"
  match r.sourceLine s.file s.line with
  | none => arrow ++ "   " ++ p.boldBlue ++ "|" ++ p.reset ++ "\n"
  | some source =>
    let number := Decimal.intText s.line
    let gutter := " " ++ p.boldBlue ++ Text.repeated number.length ' ' ++ " |" ++ p.reset
    let (start, length) := underline source s
    let label := if s.label = "" then "" else " " ++ p.boldRed ++ s.label ++ p.reset
    arrow ++ gutter ++ "\n" ++
      " " ++ p.boldBlue ++ number ++ " |" ++ p.reset ++ "  " ++ expandTabs source ++ "\n" ++
      gutter ++ "  " ++ Text.repeated start ' ' ++
      p.boldRed ++ Text.repeated length '^' ++ p.reset ++ label ++ "\n" ++
      gutter ++ "\n"

/-- The columns in front of the text of a note. -/
def noteMargin : Nat := 11

/-- Wraps a long note; further lines are aligned with the text of the first. -/
def wrapNote (r : Renderer) (note : String) : String :=
  let width := if r.width = 0 then defaultWidth else r.width
  if width ≤ noteMargin ∨ (note.utf8ByteSize : Int) ≤ width - noteMargin then note
  else
    let wrapped := Text.wrap (width - noteMargin).toNat note
    match wrapped.toList.span (· ≠ '\n') with
    | (_, []) => wrapped
    | (first, _ :: rest) =>
      String.ofList first ++ "\n" ++ Text.indent noteMargin (String.ofList rest)

def renderNote (r : Renderer) (note : String) : String :=
  "   " ++ r.palette.boldCyan ++ "=" ++ r.palette.reset ++ " note: " ++ r.wrapNote note ++ "\n"

def render (r : Renderer) (d : Report) : String :=
  heading r.palette d ++ String.join (d.spans.map r.renderSpan) ++
    String.join (d.notes.map r.renderNote)

/-- Reports separated by blank lines. -/
def renderAll (r : Renderer) (ds : List Report) : String := Text.join "\n" (ds.map r.render)

end Renderer

/-! ### Spans at byte offsets -/

def Span.ofLocation (loc : Location) : Span :=
  { file := loc.file, line := loc.line, col := loc.col }

/-- The span at an offset of a text; an unknown offset has none. -/
def Span.at? (file src : String) (offset : Int) : Option Span :=
  if offset < 0 then none else some (.ofLocation (.locate file src offset))

end ClosureLang

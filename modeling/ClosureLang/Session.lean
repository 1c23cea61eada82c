import ClosureLang.Report.Render
import ClosureLang.Run.Program

/-! Interactive sessions. Declarations persist from one input to the next, lines are collected
until they form a complete program, and the value of a bare expression is printed. -/
namespace ClosureLang

namespace Session

/-- The name of the input in reports. -/
def sourceName : String := "<repl>"

/-- The tree of an input: a program, or an expression whose value is printed. -/
def parse (src : String) : Except Grammar.SyntaxError Tree :=
  match Grammar.parseProgram src with
  | .ok t => .ok t
  | .error e =>
    match Grammar.parseExpression src with
    | .ok t => .ok (.form .sequence 0 [.form .print (t.offset?.getD 0) [t]])
    | .error _ => .error e

/-- How many more braces and parentheses are opened than closed outside comments. -/
def nesting : Bool → List Char → Int
  | _, [] => 0
  | true, c :: cs => nesting (c ≠ '\n') cs
  | false, c :: cs =>
    if c = '#' then nesting true cs
    else if c = '\x7b' ∨ c = '(' then nesting false cs + 1
    else if c = '\x7d' ∨ c = ')' then nesting false cs - 1
    else nesting false cs

def isLayout (c : Char) : Bool := c = ' ' || c = '\t' || c = '\r' || c = '\n'

/-- Whether an input was rejected only because it ended early: a block or parenthesis is still
open, or everything up to the end was accepted. -/
def incomplete (src : String) (e : Grammar.SyntaxError) : Bool :=
  let depth := nesting false src.toList
  if depth ≠ 0 then 0 < depth
  else (Text.trimRightBy isLayout src).utf8ByteSize ≤ e.offset

/-- The advice for a reference to a variable that does not exist. -/
def declareFirst : String := "declare variables with var before using them"

def syntaxReport (src : String) (e : Grammar.SyntaxError) : Report :=
  { level := some .error, message := e.message, spans := (Span.at? sourceName src e.offset).toList }

/-- A failed run is reported at its node, read as a place in the current input. -/
def stopReport (src : String) (s : Stop) : Report :=
  match s with
  | .condition c node =>
    { level := some .error, message := s.message
      spans := ((node.offset?).bind (Span.at? sourceName src)).toList
      notes := if c = .undefinedVariable then [declareFirst] else [] }
  | _ => { level := some .error, message := s.message }

end Session

structure Session where
  options : Options := {}
  palette : Palette := .plain
  machine : Machine := {}
  /-- The lines of an input that is not complete yet. -/
  pending : String := ""

namespace Session

def render (s : Session) (src : String) (r : Report) : String :=
  let source (file : String) : Option String := if file = sourceName then some src else none
  Renderer.render { palette := s.palette, source } r

/-- What an observer's event writes. -/
def eventText : Event → String
  | .step line => line
  | .internalError message => message
  | .enter _ | .leave _ => ""

/-- Runs an input that was read. The output holds the trace, what the program printed, and the
report of a failure. -/
def evaluate (s : Session) (src : String) (read : Except Grammar.SyntaxError Tree) :
    String × Session :=
  match read with
  | .error e => (s.render src (syntaxReport src e), s)
  | .ok t =>
    let (o, machine) := run s.options t s.machine
    let (events, machine) := machine.drain
    let printed := if o.out = "" then "" else o.out ++ "\n"
    let failure := match o.stop with
      | none => ""
      | some stop => s.render src (stopReport src stop)
    (String.join (events.map eventText) ++ printed ++ failure, { s with machine })

/-- Drops the pending lines. -/
def reset (s : Session) : Session := { s with pending := "" }

/-- Runs the pending lines even if they are incomplete. -/
def flush (s : Session) : String × Session :=
  if s.pending = "" then ("", s)
  else s.reset.evaluate s.pending (parse s.pending)

/-- Adds a line, and runs the input if it is complete. A blank line runs what is pending. The
flag tells whether no line is pending afterwards. -/
def feed (s : Session) (line : String) : Bool × String × Session :=
  if Text.trim line = "" then (true, s.flush)
  else
    let src := s.pending ++ line ++ "\n"
    match parse src with
    | .error e =>
      if incomplete src e then (false, "", { s with pending := src })
      else (true, s.reset.evaluate src (.error e))
    | .ok t => (true, s.reset.evaluate src (.ok t))

/-- The identifier characters that end at a position of a line. -/
def wordBefore (line : List Char) (pos : Nat) : List Char :=
  ((line.take pos).reverse.takeWhile fun c => c.isAlphanum || c = '_').reverse

/-- The keywords and global names, sorted, that start with a word. -/
def candidates (s : Session) (word : String) : List String :=
  let names := Grammar.keywords ++ s.machine.store.names Store.root
  Text.sorted ((names.filter fun name => Text.startsWith name word).eraseDups)

/-- What can follow the word before a position, and the length of that word. -/
def complete (s : Session) (line : String) (pos : Nat) : List String × Nat :=
  let word := wordBefore line.toList pos
  let found := if word.isEmpty then [] else s.candidates (String.ofList word)
  if found.isEmpty then ([], 0)
  else (found.map fun name => Text.stripStart name (String.ofList word), word.length)

end Session

end ClosureLang

import ClosureLang.Command.Settings
import ClosureLang.Files.Glob
import ClosureLang.Host
import ClosureLang.Report.Render
import ClosureLang.Run.Program

/-! Programs given to a command, and reports about them. -/
namespace ClosureLang.Command

structure Source where
  name : String
  text : String
  fromFile : Bool := false

namespace Source

variable {m : Type → Type} [Monad m] [Host m]

def readInput : m Source := return { name := "<stdin>", text := ← Host.input }

def readFiles (paths : List String) : m (Except FileError (List Source)) :=
  ExceptT.run <| paths.mapM fun path => do
    return { name := path, text := ← ExceptT.mk (Host.read path), fromFile := true }

/-- Programs given as arguments; they are numbered if there are several. -/
def ofExpressions (texts : List String) : List Source :=
  match texts with
  | [text] => [{ name := "<expression>", text }]
  | texts => texts.zipIdx.map fun (text, i) =>
    { name := "<expression " ++ Decimal.natText (i + 1) ++ ">", text }

/-- The programs that arguments name or spell out; without arguments, the input. -/
def readAll (words : List String) (areExpressions : Bool) : m (Except FileError (List Source)) := do
  if words.isEmpty then return .ok [← readInput]
  else if areExpressions then return .ok (ofExpressions words)
  else readFiles words

end Source

/-- Why a program cannot be read or does not end well. -/
inductive Failure where
  | unreadable (e : ReadError)
  | stopped (s : Stop)

namespace Failure

def message : Failure → String
  | unreadable e => e.message
  | stopped s => s.message

/-- The place that a failure is reported at. -/
def offset? : Failure → Option Int
  | unreadable (.syntaxError e) => some e.offset
  | stopped (.condition _ node) => node.offset?
  | _ => none

/-- What was being evaluated. -/
def notes : Failure → List String
  | stopped (.condition _ node) =>
    (node.kind?.map fun kind => "while evaluating " ++ kind.name).toList
  | _ => []

end Failure

namespace Source

/-- An empty program has no place to report at. -/
def report (src : Source) (f : Failure) : Report :=
  { level := some .error, message := f.message, notes := f.notes
    spans :=
      if src.text = "" then []
      else ((f.offset?).bind (Span.at? src.name src.text)).toList }

end Source

/-- A renderer that knows the texts of some programs. -/
def Settings.renderer (settings : Settings) (sources : List Source) : Renderer :=
  { palette := .ofMode settings.color
    source := fun name => (sources.find? (·.name = name)).map Source.text }

/-- The rendered report of a failure; `hint` adds the advice to look for mistakes in the file. -/
def Settings.failureText (settings : Settings) (src : Source) (f : Failure)
    (hint : Bool) : String :=
  let report := src.report f
  let advice := if hint && src.fromFile then ["try: tinylang lint " ++ src.name] else []
  (settings.renderer [src]).render { report with notes := report.notes ++ advice }

section Expansion

variable {m : Type → Type} [Monad m] [Host m]

/-- A path that ends in `/...` stands for the programs in a directory. -/
structure ExpansionError where
  arg : String
  cause : FileError

def ExpansionError.message (e : ExpansionError) : String :=
  "expanding " ++ e.arg ++ ": " ++ e.cause.message

def expand (arg : String) : ExceptT ExpansionError m (List String) := do
  match Text.stripEnd? arg "/..." with
  | none => return [arg]
  | some dir =>
    ExceptT.mk do return (← Programs.below (if dir = "" then "." else dir)).mapError (⟨arg, ·⟩)

/-- The files that arguments stand for, less the excluded ones. -/
def expandAll (args excludes : List String) : m (Except ExpansionError (List String)) :=
  ExceptT.run do return Glob.keep excludes (← args.mapM expand).flatten

end Expansion

end ClosureLang.Command

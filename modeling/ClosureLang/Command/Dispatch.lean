import ClosureLang.Command.Conform
import ClosureLang.Command.Doc
import ClosureLang.Command.Format
import ClosureLang.Command.Interact
import ClosureLang.Command.Lint
import ClosureLang.Command.Run
import ClosureLang.Command.ShowTree

/-! The command line: finding the command, reading its arguments, and running it. An unknown command
is compared with the known ones by the edit distance of their names. -/
namespace ClosureLang.Text

/-- The distances of `x :: a` from every end of `b`, from those of `a`, of which there is one more
than letters in `b`. -/
def distanceRow (x : UInt8) : List UInt8 → List Nat → List Nat
  | [], below => [below.headD 0 + 1]
  | y :: ys, below =>
    let row := distanceRow x ys below.tail
    let diagonal := below.tail.headD 0
    (if x = y then diagonal else min (min (below.headD 0) (row.headD 0)) diagonal + 1) :: row

/-- The distances of a word from every end of `b`, the longest end first. -/
def distances (b : List UInt8) : List UInt8 → List Nat
  | [] => (List.range (b.length + 1)).reverse
  | x :: a => distanceRow x b (distances b a)

def distance (a b : String) : Nat := (distances b.toUTF8.toList a.toUTF8.toList).headD 0

end ClosureLang.Text

namespace ClosureLang.Command

inductive Name where
  | doc
  | fmt
  | lint
  | lsp
  | parse
  | repl
  | run
  | test
deriving DecidableEq, Repr

/-- The flags of all commands. -/
def globalFlags : List Flag :=
  [{ name := "config", kind := .text }, { name := "color", kind := .text }]

def helpFlag : Flag := { name := "help", letter := some 'h', kind := .switch }

namespace Name

def text : Name → String
  | doc => "doc"
  | fmt => "fmt"
  | lint => "lint"
  | lsp => "lsp"
  | parse => "parse"
  | repl => "repl"
  | run => "run"
  | test => "test"

def all : List Name := [doc, fmt, lint, lsp, parse, repl, run, test]

def ofText? (s : String) : Option Name := all.find? fun name => name.text = s

def purpose : Name → String
  | doc => "Show documentation for the declarations in a program"
  | fmt => "Format source files"
  | lint => "Run static analysis checks on source files"
  | lsp => "Start the language server"
  | parse => "Print the parse tree of a program"
  | repl => "Start an interactive session"
  | run => "Run programs"
  | test => "Run conformance cases"

def flags : Name → List Flag
  | doc =>
    [{ name := "keywords", letter := some 'k', kind := .switch },
      { name := "guide", kind := .switch }]
  | fmt =>
    [{ name := "write", letter := some 'w', kind := .switch },
      { name := "diff", letter := some 'd', kind := .switch },
      { name := "list", letter := some 'l', kind := .switch },
      { name := "indent-size", kind := .number }, { name := "exclude", kind := .text }]
  | lint =>
    [{ name := "json", kind := .switch }, { name := "checks", kind := .text },
      { name := "list", kind := .switch }, { name := "exclude", kind := .text }]
  | lsp => [{ name := "stdio", kind := .switch }, { name := "port", kind := .number }]
  | parse =>
    [{ name := "output", letter := some 'o', kind := .text },
      { name := "expression", letter := some 'e', kind := .switch },
      { name := "fold", kind := .switch }, { name := "stats", kind := .switch }]
  | repl => [{ name := "history", kind := .text }]
  | run =>
    [{ name := "expression", letter := some 'e', kind := .switch },
      { name := "sexp", kind := .switch }, { name := "trace", kind := .switch },
      { name := "fold", kind := .switch }, { name := "max-depth", kind := .number },
      { name := "callgrind", kind := .text }, { name := "cpuprofile", kind := .text },
      { name := "otel", kind := .switch }, { name := "opencensus", kind := .switch },
      { name := "named-only", kind := .switch }]
  | test =>
    [{ name := "interpreter", letter := some 'i', kind := .switch },
      { name := "parser", letter := some 'p', kind := .switch },
      { name := "quiet", letter := some 'q', kind := .switch }]

end Name

/-- Commands about the command line itself. -/
def helpNames : List String := ["help", "completion"]

inductive UsageError where
  | unknownCommand (name : String)
  | flag (e : FlagError)
  | tooMany (limit received : Nat)
  | tooFew (limit received : Nat)
  /-- A word for a command that takes none. -/
  | unexpected (name : Name) (word : String)

/-- Names that a word may have been meant as: those that start with it, or are at most two edits
away. -/
def suggestions (word : String) : List String :=
  let word := Text.lower word
  (Name.all.map Name.text ++ ["completion"]).filter fun name =>
    Text.distance word name ≤ 2 || Text.startsWith name word

namespace UsageError

def suggestionText (word : String) : String :=
  match suggestions word with
  | [] => ""
  | names => "\n\nDid you mean this?\n" ++ String.join (names.map fun name => "\t" ++ name ++ "\n")

def message : UsageError → String
  | unknownCommand word =>
    "unknown command " ++ Text.quoted word ++ " for \"tinylang\"" ++ suggestionText word
  | flag e => e.message
  | tooMany limit received =>
    "accepts at most " ++ Decimal.natText limit ++ " arg(s), received " ++ Decimal.natText received
  | tooFew limit received =>
    "requires at least " ++ Decimal.natText limit ++ " arg(s), only received " ++
      Decimal.natText received
  | unexpected name word =>
    "unknown command " ++ Text.quoted word ++ " for " ++ Text.quoted ("tinylang " ++ name.text)

/-- An unknown command gets a hint at the usage text. -/
def hint : UsageError → String
  | unknownCommand _ => "Run 'tinylang --help' for usage.\n"
  | _ => ""

end UsageError

/-- Whether an argument in front of the command is a flag that takes the next argument as its
value. Unknown flags are taken for such. -/
def takesNext (arg : String) : Bool :=
  Text.startsWith arg "-" && !arg.toList.contains '=' &&
    (Text.startsWith arg "--" || arg.utf8ByteSize = 2)

/-- The arguments that are neither flags nor values of flags. A flag that lacks its value, or has
it as the last argument, ends the search. -/
def plainWords : List String → List String
  | [] => []
  | arg :: args =>
    if arg = "--" then []
    else if takesNext arg then
      match args with
      | [] => []
      | _ :: rest => if rest.isEmpty then [] else plainWords rest
    else if arg = "" ∨ Text.startsWith arg "-" then plainWords args
    else arg :: plainWords args

/-- The arguments without the first that is the given word. -/
def eraseWord (word : String) : List String → List String
  | [] => []
  | arg :: args =>
    if arg = "--" then arg :: args
    else if takesNext arg then
      match args with
      | [] => [arg]
      | value :: rest => arg :: value :: eraseWord word rest
    else if arg = word then args
    else arg :: eraseWord word args

/-- What a command line asks for. -/
inductive Request where
  /-- No command is named. -/
  | none
  | help
  | command (name : Name) (args : List String)

def Request.ofArgs (args : List String) : Except UsageError Request :=
  match plainWords args with
  | [] => .ok .none
  | word :: _ =>
    if helpNames.contains word then .ok .help
    else match Name.ofText? word with
      | some name => .ok (.command name (eraseWord word args))
      | Option.none => .error (.unknownCommand word)

/-- How many words a command takes. -/
def Name.checkWords (name : Name) (words : List String) : Except UsageError Unit :=
  match name with
  | parse => if words.length ≤ 1 then .ok () else .error (.tooMany 1 words.length)
  | test => if words.isEmpty then .error (.tooFew 1 0) else .ok ()
  | lsp =>
    match words with
    | [] => .ok ()
    | word :: _ => .error (.unexpected lsp word)
  | _ => .ok ()

def usage : String :=
  "Usage:\n  tinylang [command]\n\nAvailable Commands:\n" ++
    String.join (Name.all.map fun name =>
      "  " ++ name.text ++ Text.repeated (8 - name.text.length) ' ' ++ name.purpose ++ "\n")

def Name.usage (name : Name) : String :=
  name.purpose ++ "\n\nUsage:\n  tinylang " ++ name.text ++ " [flags]\n\nFlags:\n" ++
    String.join ((name.flags ++ [helpFlag] ++ globalFlags).map fun f => "  " ++ f.title ++ "\n")

section Executing

variable {m : Type → Type} [Monad m] [Host m]

def Name.execute (name : Name) (settings : Settings) (a : Arguments) : m UInt32 :=
  match name with
  | doc => document settings a name.usage
  | fmt => formatFiles settings a
  | lint => lintFiles settings a
  | lsp => return 0
  | parse => showTree settings a
  | repl => interact settings a
  | run => runPrograms settings a
  | test => conform settings a

/-- Reports a command line that cannot be executed. -/
def reject (e : UsageError) : m UInt32 := do
  Host.err ("Error: " ++ e.message ++ "\n" ++ e.hint ++ e.message ++ "\n")
  return 1

/-- Reads the arguments of a command and runs it. Help comes before everything else, and the
settings are read before the words are counted. -/
def executeCommand (name : Name) (args : List String) : m UInt32 := do
  match Arguments.parse (name.flags ++ globalFlags ++ [helpFlag]) args with
  | .error e => reject (.flag e)
  | .ok a =>
    if a.isOn helpFlag.name then
      Host.out name.usage
      return 0
    else
      let settings ← Settings.load a
      match name.checkWords a.words with
      | .error e => reject e
      | .ok () => name.execute settings a

/-- Executes a command line and gives the exit code. -/
def execute (args : List String) : m UInt32 := do
  match Request.ofArgs args with
  | .error e => reject e
  | .ok .help =>
    Host.out usage
    return 0
  | .ok .none =>
    match Arguments.parse (globalFlags ++ [helpFlag]) args with
    | .error e => reject (.flag e)
    | .ok _ =>
      Host.out usage
      return 0
  | .ok (.command name args) => executeCommand name args

end Executing

end ClosureLang.Command

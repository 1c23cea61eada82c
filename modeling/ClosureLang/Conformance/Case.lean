import ClosureLang.Conformance.Lines
import ClosureLang.Host
import ClosureLang.Run.Program
import ClosureLang.Text.Lower
import ClosureLang.Tree.Canonical

/-! Conformance cases: a program beside a file with its output and, possibly, a file with its
canonical form. -/
namespace ClosureLang.Conformance

/-- Which stages a case goes through. -/
inductive Mode where
  /-- Parse, compare the canonical form, run, and compare the output. -/
  | full
  /-- Run the canonical form and compare the output. -/
  | interpreter
  /-- Parse and compare the canonical form. -/
  | parser
deriving DecidableEq, Repr

def Mode.name : Mode → String
  | full => "interpreter and parser"
  | interpreter => "interpreter"
  | parser => "parser"

/-- What is compared. -/
inductive Aspect where
  | canonicalForm
  | output
deriving DecidableEq, Repr

def Aspect.name : Aspect → String
  | canonicalForm => "canonical form"
  | output => "output"

inductive CaseError where
  | file (e : FileError)
  | malformed (path : String) (e : Canonical.Malformed)
  | mismatch (path : String) (aspect : Aspect) (expected actual : String)

def CaseError.message : CaseError → String
  | file e => e.message
  | malformed path e => path ++ ": " ++ e.message
  | mismatch path aspect expected actual =>
    path ++ ": " ++ aspect.name ++ " does not match\nEXPECTED:\n" ++ expected ++
      "\nACTUAL:\n" ++ actual

def canonicalExtension : String := ".sexp"

def outputExtension : String := ".out"

/-- The output expected of a program that does not parse. -/
def syntaxErrorOutput : String := "syntax error"

/-- The expected canonical form, and the tree that is run in its place. A text without parentheses
holds no canonical form. -/
def readCanonical (path text : String) : Except CaseError (Option (String × Tree)) :=
  if !text.toList.contains '(' then .ok none
  else
    let expected := Canonical.normalize text
    match Canonical.parse expected with
    | .error e => .error (.malformed (Path.withExtension path canonicalExtension) e)
    | .ok t => .ok (some (expected, t))

/-- What an event writes while a case runs: only messages about malformed trees. -/
def internalText : Event → String
  | .internalError message => message
  | _ => ""

def compare (path : String) (aspect : Aspect) (expected actual : String) : Except CaseError Unit :=
  if actual = expected then .ok () else .error (.mismatch path aspect expected actual)

section Running

variable {m : Type → Type} [Monad m] [Host m]

/-- An action on files as part of a case. -/
def onFiles {α : Type} (x : m (Except FileError α)) : ExceptT CaseError m α :=
  ExceptT.mk do return (← x).mapError .file

def readFile (path : String) : ExceptT CaseError m String := onFiles (Host.read path)

/-- The contents of a file that need not exist. -/
def readFile? (path : String) : ExceptT CaseError m (Option String) :=
  onFiles do
    match ← Host.read path with
    | .ok text => return .ok (some text)
    | .error e => return if e.cause = .notFound then .ok none else .error e

def compareOutput (path actual : String) : ExceptT CaseError m Unit := do
  let expected ← readFile (Path.withExtension path outputExtension)
  ExceptT.mk (pure (compare path .output (fixLines expected) (fixLines actual)))

/-- Runs a tree on a machine of its own and compares the output. -/
def runTree (options : Options) (path : String) (t : Tree) : ExceptT CaseError m Unit := do
  let (o, machine) := run options t {}
  ExceptT.lift (Host.err (String.join (machine.events.toList.map internalText)))
  compareOutput path o.text

/-- Runs a case from its canonical form; without one it is skipped. -/
def runCanonical (options : Options) (path : String) : ExceptT CaseError m Bool := do
  match ← readFile? (Path.withExtension path canonicalExtension) with
  | none => return false
  | some text =>
    match ← ExceptT.mk (pure (readCanonical path text)) with
    | none => return false
    | some (expected, t) =>
      ExceptT.mk (pure (compare path .canonicalForm expected t.canonical))
      runTree options path t
      return true

/-- Runs a case from its program. -/
def runProgram (mode : Mode) (options : Options) (path : String) : ExceptT CaseError m Unit := do
  let program := fixLines (← readFile path)
  match Grammar.parseProgram program with
  | .error _ => compareOutput path syntaxErrorOutput
  | .ok t =>
    match ← readFile? (Path.withExtension path canonicalExtension) with
    | none => pure ()
    | some text =>
      ExceptT.mk (pure (compare path .canonicalForm (Canonical.normalize text)
        (Canonical.normalize t.canonical)))
    if mode ≠ .parser then runTree options path t

/-- Runs a case, and tells whether it was run at all. -/
def runCase (mode : Mode) (options : Options) (path : String) : ExceptT CaseError m Bool := do
  if mode = .interpreter then runCanonical options path
  else
    runProgram mode options path
    return true

/-- The cases that a path stands for. Those in a directory are sorted by name in lower case. -/
def casesAt (path : String) : ExceptT CaseError m (List String) := do
  if ← onFiles (Host.isDirectory path) then
    let paths ← onFiles (Programs.below path)
    return paths.mergeSort fun a b => !Text.before (Text.lower b) (Text.lower a)
  else return [path]

/-- Runs cases up to the first that fails. The count of those that passed goes on from `passed`. -/
def runCases (mode : Mode) (options : Options) (log : String → m Unit) :
    Nat → List String → m (Nat × Option CaseError)
  | passed, [] => return (passed, none)
  | passed, path :: paths => do
    log ("RUNNING " ++ path ++ "\n")
    match ← (runCase mode options path).run with
    | .error e => return (passed, some e)
    | .ok true => runCases mode options log (passed + 1) paths
    | .ok false =>
      log ("no sexp (" ++ path ++ ")\n")
      runCases mode options log passed paths

/-- Runs the cases at some paths up to the first that fails. -/
def runPaths (mode : Mode) (options : Options) (log : String → m Unit) :
    Nat → List String → m (Nat × Option CaseError)
  | passed, [] => return (passed, none)
  | passed, path :: paths => do
    match ← (casesAt path).run with
    | .error e => return (passed, some e)
    | .ok cases =>
      match ← runCases mode options log passed cases with
      | (passed, none) => runPaths mode options log passed paths
      | (passed, some e) => return (passed, some e)

end Running

end ClosureLang.Conformance

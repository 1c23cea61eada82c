import ClosureLang.Grammar.Parser
import ClosureLang.Lint.Checks

/-! Running checks over a program: selection, order of findings, and suppression by comments. -/
namespace ClosureLang.Lint

def checkNames : List String := Text.sorted (checks.map Check.name)

/-- The first lines of the documentation of every check. -/
def checkOverview : String :=
  String.join (checks.map fun c =>
    "  " ++ c.name ++ "\n    " ++ (Text.lines c.doc).headD "" ++ "\n\n")

/-- A selection named a check that does not exist. -/
structure UnknownCheck where
  name : String

def UnknownCheck.message (e : UnknownCheck) : String := "unknown check: " ++ e.name

/-- The checks of a comma-separated list; the empty list selects all. -/
def select (list : String) : Except UnknownCheck (List Check) :=
  if list = "" then .ok checks
  else
    let wanted := (Text.splitOnChar ',' list.toList).map fun w => Text.trim (String.ofList w)
    match wanted.find? fun w => !(checks.any (·.name = w)) with
    | some name => .error ⟨name⟩
    | none => .ok (checks.filter fun c => wanted.contains c.name)

/-- What the comment on a line suppresses: nothing, all checks, or some. -/
inductive Suppression where
  | nothing
  | everything
  | only (checks : List String)

/-- Reads the first comment of a line. -/
def suppression (line : String) : Suppression :=
  match line.toList.dropWhile (· ≠ '#') with
  | [] => .nothing
  | comment =>
    let text := Text.trim (String.ofList (comment.dropWhile (· = '#')))
    match Text.stripStart? text "nolint" with
    | none => .nothing
    | some "" => .everything
    | some rest =>
      match Text.stripStart? rest ":" with
      | none => .nothing
      | some "" => .everything
      | some list =>
        .only ((Text.splitOnChar ',' list.toList).map fun w => Text.trim (String.ofList w))

def Suppression.covers : Suppression → String → Bool
  | nothing, _ => false
  | everything, _ => true
  | only checks, check => checks.contains check

/-- Leaves out the findings on lines whose comment suppresses them. -/
def unsuppressed (source : String) (fs : List Finding) : List Finding :=
  let lines := (Text.lines source).map suppression
  fs.filter fun f =>
    if f.pos.line ≤ 0 then true
    else !(((lines[(f.pos.line - 1).toNat]?).getD .nothing).covers f.check)

/-- The findings of some checks, ordered by offset. Findings at one offset keep the order of the
checks. -/
def lintTree (selected : List Check) (t : Target) : Option (List Finding) := do
  let found ← selected.mapM (·.findings t)
  return unsuppressed t.source (found.flatten.mergeSort fun a b => a.pos.offset ≤ b.pos.offset)

inductive LintError where
  | syntaxError (file : String) (e : Grammar.SyntaxError)
  | absentNode

def LintError.message : LintError → String
  | syntaxError file e => file ++ ": " ++ e.message
  | absentNode => "absent node"

def lintFile (selected : List Check) (source file : String) : Except LintError (List Finding) :=
  match Grammar.parseProgram source with
  | .error e => .error (.syntaxError file e)
  | .ok tree =>
    match lintTree selected ⟨file, source, tree⟩ with
    | some fs => .ok fs
    | none => .error .absentNode

end ClosureLang.Lint

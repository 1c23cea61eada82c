import ClosureLang.Command.Source
import ClosureLang.Lint.Linter

/-! Checking files for likely mistakes. -/
namespace ClosureLang.Command

/-- A finding as a report, with the advice how to suppress it. -/
def findingReport (f : Lint.Finding) : Report :=
  { level := some (if f.severity = .error then .error else .warning)
    message := f.message ++ " (" ++ f.check ++ ")"
    spans :=
      if 0 < f.pos.line then [{ file := f.pos.file, line := f.pos.line, col := f.pos.col }] else []
    notes := f.notes ++
      ["to suppress: add \"# nolint:" ++ f.check ++ "\" as a comment on this line"] }

section Linting

variable {m : Type → Type} [Monad m] [Host m]

/-- The programs to check. If arguments name programs that are all excluded, there is nothing to
read. -/
def lintedSources (a : Arguments) : m (Except String (List Source)) := do
  if a.words.isEmpty then return .ok [← Source.readInput]
  else
    match ← expandAll a.words (a.texts "exclude") with
    | .error e => return .error e.message
    | .ok [] => return .error "no programs left to check"
    | .ok paths => return (← Source.readFiles paths).mapError FileError.message

def lintSources (settings : Settings) (checks : List Lint.Check) (asJson : Bool)
    (sources : List Source) : m UInt32 := do
  match sources.mapM fun src => Lint.lintFile checks src.text src.name with
  | .error e =>
    Host.errLine e.message
    return 2
  | .ok found =>
    match found.flatten with
    | [] => return 0
    | findings =>
      if asJson then Host.out (Lint.jsonReport findings)
      else Host.err ((settings.renderer sources).renderAll (findings.map findingReport))
      return 1

/-- The `lint` command. -/
def lintFiles (settings : Settings) (a : Arguments) : m UInt32 := do
  if a.isOn "list" then
    Lint.checks.forM fun c => Host.outLine c.name
    return 0
  else
    match Lint.select (a.text "checks") with
    | .error e =>
      Host.errLine ("tinylang lint: " ++ e.message)
      return 2
    | .ok checks =>
      match ← lintedSources a with
      | .error message =>
        Host.errLine message
        return 2
      | .ok sources => lintSources settings checks (a.isOn "json") sources

end Linting

end ClosureLang.Command

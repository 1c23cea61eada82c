import ClosureLang.Command.Source
import ClosureLang.Diff

/-! Formatting files: in print, in place, or as a list or diff of what would change. -/
namespace ClosureLang.Command

/-- What happens to a formatted file. -/
inductive FormatMode where
  | print
  | write
  | diff
  | list
deriving DecidableEq, Repr

/-- A list wins over a diff, which wins over writing. -/
def FormatMode.ofArguments (a : Arguments) : FormatMode :=
  if a.isOn "list" then list
  else if a.isOn "diff" then diff
  else if a.isOn "write" then write
  else print

section Formatting

variable {m : Type → Type} [Monad m] [Host m]

/-- Reports a problem with a file. -/
def complain (name message : String) : m UInt32 := do
  Host.errLine (name ++ ": " ++ message)
  return 1

/-- Hands over a formatted file. Only a list makes a difference to the exit code if a file would
change. -/
def deliver (mode : FormatMode) (path text formatted : String) : m UInt32 := do
  match mode with
  | .print =>
    Host.out formatted
    return 0
  | .list =>
    if text = formatted then return 0
    Host.outLine path
    return 1
  | .diff =>
    if text ≠ formatted then Host.out (Diff.text path text formatted)
    return 0
  | .write =>
    if text = formatted then return 0
    match ← Host.write path formatted with
    | .ok () => return 0
    | .error e =>
      Host.errLine e.message
      return 1

def formatFile (style : Layout.Style) (mode : FormatMode) (path : String) : m UInt32 := do
  match ← Host.read path with
  | .error e => complain path e.message
  | .ok text =>
    match Layout.format style text with
    | .error e => complain path e.message
    | .ok formatted => deliver mode path text formatted

def formatInput (style : Layout.Style) : m UInt32 := do
  let src ← Source.readInput
  match Layout.format style src.text with
  | .error e => complain src.name e.message
  | .ok formatted =>
    Host.out formatted
    return 0

/-- The `fmt` command. -/
def formatFiles (settings : Settings) (a : Arguments) : m UInt32 := do
  if a.words.isEmpty then formatInput settings.style
  else
    match ← expandAll a.words (a.texts "exclude") with
    | .error e =>
      Host.errLine e.message
      return 1
    | .ok paths =>
      let codes ← paths.mapM (formatFile settings.style (.ofArguments a))
      return codes.foldl max 0

end Formatting

end ClosureLang.Command

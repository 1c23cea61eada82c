import ClosureLang.Command.Settings
import ClosureLang.Conformance.Case

/-! Running conformance cases. -/
namespace ClosureLang.Command

open ClosureLang.Conformance

/-- The mode that flags select, unless they contradict each other. -/
def conformanceMode? (a : Arguments) : Option Mode :=
  match a.isOn "interpreter", a.isOn "parser" with
  | true, true => none
  | true, false => some .interpreter
  | false, true => some .parser
  | false, false => some .full

/-- The `test` command. -/
def conform {m : Type → Type} [Monad m] [Host m] (settings : Settings) (a : Arguments) :
    m UInt32 := do
  match conformanceMode? a with
  | none =>
    Host.errLine "tinylang test: -i and -p are mutually exclusive"
    return 2
  | some mode =>
    let options : Options := { fold := settings.fold, maxDepth := settings.maxDepth }
    let log := fun s => if a.isOn "quiet" then pure () else Host.err s
    match ← runPaths mode options log 0 a.words with
    | (passed, none) =>
      Host.outLine (mode.name ++ " passed all " ++ Decimal.natText passed ++ " test cases")
      return 0
    | (passed, some e) =>
      Host.outLine e.message
      Host.outLine ("FAIL after " ++ Decimal.natText passed ++ " passing cases")
      return 1

end ClosureLang.Command

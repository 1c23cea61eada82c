import ClosureLang.Command.Source
import ClosureLang.Session

/-! Sessions on the input. -/
namespace ClosureLang.Command

/-- A session together with its history. -/
structure Interaction where
  session : Session
  /-- The line recorded last. -/
  last : Option String := none

/-- Whether a line goes into the history: empty and repeated lines do not. -/
def Interaction.records (i : Interaction) (line : String) : Bool := line ≠ "" && i.last ≠ some line

/-- The last line of a history that is not blank; an unfinished line does not count. -/
def lastRecorded? (history : String) : Option String :=
  ((Text.lines history).dropLast.map Text.trim).reverse.find? (· ≠ "")

section Interacting

variable {m : Type → Type} [Monad m] [Host m]

/-- Takes a line. -/
def Interaction.take (history : Option String) (i : Interaction) (line : String) :
    m Interaction := do
  let recorded := i.records line
  match history with
  | some path => if recorded then discard (Host.append path (line ++ "\n"))
  | none => pure ()
  let (_, text, session) := i.session.feed line
  Host.err text
  return { session, last := if recorded then some line else i.last }

/-- The `repl` command. A history that cannot be written is passed over. -/
def interact (settings : Settings) (a : Arguments) : m UInt32 := do
  let history := (a.text? "history").filter (· ≠ "")
  let last ← match history with
    | none => pure none
    | some path =>
      discard (Host.append path "")
      match ← Host.read path with
      | .ok text => pure (lastRecorded? text)
      | .error _ => pure none
  let session : Session :=
    { options := { fold := settings.fold, maxDepth := settings.maxDepth }
      palette := .ofMode settings.color }
  let i ← Host.foldLines (Interaction.take history) { session, last }
  Host.err i.session.flush.1
  return 0

end Interacting

end ClosureLang.Command

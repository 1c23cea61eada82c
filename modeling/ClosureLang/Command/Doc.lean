import ClosureLang.Command.Source
import ClosureLang.Docs
import ClosureLang.Guide

/-! Showing the documentation of declarations, the reserved words, and the guide. -/
namespace ClosureLang.Command

/-- What is shown of a documented program: all declarations, or the first of a name. -/
def docText? (docs : List DeclDoc) : Option String → Option String
  | none => some (Text.join "\n" (docs.map DeclDoc.text))
  | some name => (docs.find? fun d => d.name = name).map DeclDoc.text

section Documenting

variable {m : Type → Type} [Monad m] [Host m]

def showDocs (settings : Settings) (path : String) (name : Option String) : m UInt32 := do
  match ← Host.read path with
  | .error e =>
    Host.errLine e.message
    return 1
  | .ok text =>
    match DeclDoc.collect text with
    | .error e =>
      Host.err (settings.failureText { name := path, text } (.unreadable (.syntaxError e)) false)
      Host.errLine (path ++ ": " ++ e.message)
      return 1
    | .ok docs =>
      match docText? docs name with
      | some text =>
        Host.out text
        return 0
      | none =>
        Host.errLine (path ++ ": no top-level declaration of " ++ name.getD "")
        return 1

/-- The `doc` command. Any other number of words than one or two gets the usage text. -/
def document (settings : Settings) (a : Arguments) (usage : String) : m UInt32 := do
  if a.isOn "guide" then
    Host.out guide
    return 0
  else if a.isOn "keywords" then
    Grammar.keywords.forM Host.outLine
    return 0
  else
    match a.words with
    | [path] => showDocs settings path none
    | [path, name] => showDocs settings path (some name)
    | _ =>
      Host.out usage
      return 1

end Documenting

end ClosureLang.Command

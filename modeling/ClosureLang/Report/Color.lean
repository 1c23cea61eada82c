import ClosureLang.Text.Printable

/-! When reports are coloured, and the escape sequences they are coloured with. -/
namespace ClosureLang

inductive ColorMode where
  /-- Colours on a terminal only. -/
  | auto
  | always
  | never
deriving DecidableEq, Repr

namespace ColorMode

def name : ColorMode → String
  | auto => "auto"
  | always => "always"
  | never => "never"

def ofName? : String → Option ColorMode
  | "" | "auto" => some auto
  | "always" => some always
  | "never" => some never
  | _ => none

def invalidMessage (text : String) : String :=
  "invalid color mode " ++ Text.quoted text ++ " (want auto, always or never)"

end ColorMode

/-- The sequences that switch colours on and off. -/
structure Palette where
  bold : String := ""
  yellow : String := ""
  boldRed : String := ""
  boldBlue : String := ""
  boldCyan : String := ""
  reset : String := ""

namespace Palette

def plain : Palette := {}

def ansi : Palette where
  bold := "\x1b[1m"
  yellow := "\x1b[33m"
  boldRed := "\x1b[1;31m"
  boldBlue := "\x1b[1;34m"
  boldCyan := "\x1b[1;36m"
  reset := "\x1b[0m"

/-- The palette for output that does not go to a terminal. -/
def ofMode : ColorMode → Palette
  | .always => ansi
  | .auto | .never => plain

end Palette

end ClosureLang

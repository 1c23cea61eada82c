import ClosureLang.Command.Flag
import ClosureLang.Data.Format
import ClosureLang.Host
import ClosureLang.Layout
import ClosureLang.Report.Color
import ClosureLang.Text.Lower

/-! Settings. A flag wins over an environment variable, which wins over the settings file. -/
namespace ClosureLang.Command

/-- What commands can be told besides their own flags. -/
structure Settings where
  trace : Bool := false
  fold : Bool := false
  /-- The most calls that may be active at once; zero sets no limit. -/
  maxDepth : Nat := 0
  color : ColorMode := .auto
  style : Layout.Style := {}

namespace Settings

/-- The variable that holds a setting. -/
def variableName (name : String) : String :=
  "TINYLANG_" ++ (name.map fun c => if c = '-' then '_' else c).toUpper

/-- A truth value; what is none counts as false. -/
def boolOf : Data.Value → Bool
  | .bool b => b
  | .int n => n ≠ 0
  | .real x => !x.isZero
  | .text s => (Numeral.truth? s).getD false
  | _ => false

/-- A number; what is none counts as zero. Numbers are cut to signed 64-bit words. -/
def intOf : Data.Value → Int
  | .bool b => if b then 1 else 0
  | .int n => (Int64.ofInt n).toInt
  | .real x => x.truncate
  | .text s =>
    match Numeral.parse (Numeral.dropZeroFraction s) with
    | .ok n => n
    | .error _ => 0
  | _ => 0

/-- A colour mode; what is none counts as automatic. -/
def colorOf : Data.Value → ColorMode
  | .text s => (ColorMode.ofName? s).getD .auto
  | _ => .auto

def ofFlag : Flag.Value → Data.Value
  | .switch on => .bool on
  | .number n => .int n
  | .text s => .text s

def isGiven : Data.Value → Bool
  | .null => false
  | _ => true

/-- Where settings come from. -/
structure Sources where
  arguments : Arguments
  /-- The environment variables that are set, by the settings they hold. -/
  environment : List (String × String)
  /-- The settings file. -/
  file : Data.Table

/-- The value of a setting, from the first source that has one. Empty variables count as unset, and
names in the file may be written in any case. -/
def Sources.find? (s : Sources) (name : String) : Option Data.Value :=
  ((s.arguments.value? name).map ofFlag).or <|
    (((s.environment.lookup name).filter (· ≠ "")).map .text).or <|
      (s.file.find? fun (key, value) => Text.lower key = name ∧ isGiven value).map Prod.snd

def names : List String := ["trace", "fold", "max-depth", "color", "indent-size"]

/-- Limits and sizes that are not positive leave the default. -/
def ofSources (s : Sources) : Settings :=
  let bool (name : String) : Bool := ((s.find? name).map boolOf).getD false
  let positive? (name : String) : Option Nat :=
    (s.find? name).bind fun v => if 0 < intOf v then some (intOf v).toNat else none
  { trace := bool "trace", fold := bool "fold", maxDepth := (positive? "max-depth").getD 0
    color := ((s.find? "color").map colorOf).getD .auto
    style := match positive? "indent-size" with
      | some n => { indentSize := n }
      | none => {} }

variable {m : Type → Type} [Monad m] [Host m]

/-- Reads the settings file that the arguments name. A file that cannot be used is passed over. -/
def readFile (path : String) : m (Option Data.Table) := do
  match Data.Format.ofExtension? (Path.extension path) with
  | none => return none
  | some format =>
    match ← Host.read path with
    | .ok text => (format.table? Host.environment? text).run
    | .error _ => return none

/-- The settings for a command. Using a settings file is reported. -/
def load (a : Arguments) : m Settings := do
  let path := a.text "config"
  let file ← if path = "" then pure none else readFile path
  if file.isSome then Host.errLine ("Using config file: " ++ path)
  let environment ← names.filterMapM fun name => do
    return (← Host.environment? (variableName name)).map (name, ·)
  return ofSources { arguments := a, environment, file := file.getD [] }

end Settings

end ClosureLang.Command

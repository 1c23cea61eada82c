import ClosureLang.Text.Blank
import ClosureLang.Text.Numeral
import ClosureLang.Text.Printable

/-! Flags and other arguments of a command line. Flags have a long name, some have a letter as
well, and they may stand among the other arguments. -/
namespace ClosureLang.Command

inductive Flag.Kind where
  /-- On unless a value says otherwise. -/
  | switch
  | number
  | text
deriving DecidableEq, Repr

structure Flag where
  name : String
  letter : Option Char := none
  kind : Flag.Kind
deriving DecidableEq, Repr

inductive Flag.Value where
  | switch (on : Bool)
  | number (n : Int)
  | text (s : String)
deriving DecidableEq, Repr

inductive FlagError where
  | badForm (arg : String)
  | unknown (name : String)
  | unknownLetter (letter : Char) (group : String)
  /-- The last argument is a flag whose value is missing. -/
  | noValue (arg : String)
  | noLetterValue (letter : Char) (group : String)
  | badSwitch (flag : Flag) (value : String)
  | badNumber (flag : Flag) (value : String) (fault : Numeral.Fault)
deriving DecidableEq, Repr

namespace Flag

/-- The flag as messages name it. -/
def title (f : Flag) : String :=
  match f.letter with
  | none => "--" ++ f.name
  | some c => "-" ++ String.singleton c ++ ", --" ++ f.name

/-- The letter as messages show it: of a letter outside ASCII the first byte, read as a
character. -/
def quotedLetter (c : Char) : String :=
  let first := Char.ofNat (((String.singleton c).toUTF8.toList.headD 0).toNat)
  let text :=
    if first = '\'' then ['\\', '\''] else if first = '"' then ['"'] else Text.escapeChar first
  String.ofList ('\'' :: text ++ ['\''])

end Flag

namespace FlagError

/-- A value that a flag cannot take, and what its reader has to say. -/
def badValue (f : Flag) (value reader : String) (fault : Numeral.Fault) : String :=
  "invalid argument " ++ Text.quoted value ++ " for " ++ Text.quoted f.title ++ " flag: strconv." ++
    reader ++ ": parsing " ++ Text.quoted value ++ ": " ++ fault.message

def message : FlagError → String
  | badForm arg => "bad flag syntax: " ++ arg
  | unknown name => "unknown flag: --" ++ name
  | unknownLetter c group =>
    "unknown shorthand flag: " ++ Flag.quotedLetter c ++ " in -" ++ group
  | noValue arg => "flag needs an argument: " ++ arg
  | noLetterValue c group => "flag needs an argument: " ++ Flag.quotedLetter c ++ " in -" ++ group
  | badSwitch f value => badValue f value "ParseBool" .malformed
  | badNumber f value fault => badValue f value "ParseInt" fault

end FlagError

/-- The value that a text gives to a flag. -/
def Flag.accept (f : Flag) (value : String) : Except FlagError Flag.Value :=
  match f.kind with
  | .text => .ok (.text value)
  | .switch =>
    match Numeral.truth? value with
    | some on => .ok (.switch on)
    | none => .error (.badSwitch f value)
  | .number =>
    match Numeral.parse value with
    | .ok n => .ok (.number n)
    | .error fault => .error (.badNumber f value fault)

/-- A command line that was read. -/
structure Arguments where
  /-- The flags given, in order. -/
  given : List (String × Flag.Value) := []
  /-- The arguments that are no flags. -/
  words : List String := []

namespace Arguments

/-- The value given last. -/
def value? (a : Arguments) (name : String) : Option Flag.Value := a.given.reverse.lookup name

def isOn (a : Arguments) (name : String) : Bool := a.value? name = some (.switch true)

def text? (a : Arguments) (name : String) : Option String :=
  match a.value? name with
  | some (.text s) => some s
  | _ => none

/-- The text given last, empty if there is none. -/
def text (a : Arguments) (name : String) : String := (a.text? name).getD ""

/-- All texts given to a flag. -/
def texts (a : Arguments) (name : String) : List String :=
  a.given.filterMap fun (n, v) =>
    match v with
    | .text s => if n = name then some s else none
    | _ => none

def give (f : Flag) (value : String) (a : Arguments) : Except FlagError Arguments :=
  (f.accept value).map fun v => { a with given := a.given ++ [(f.name, v)] }

end Arguments

/-- The state of reading a command line. -/
structure Reading where
  arguments : Arguments := {}
  /-- The flag that takes the next argument as its value, and the error if there is none. -/
  awaiting : Option (Flag × FlagError) := none
  /-- No more flags are expected. -/
  ended : Bool := false

namespace Reading

/-- Words that start like this are never groups of letters; they pass unread. -/
def unreadStart : String := "test."

/-- Reads a group of letters. A flag that is no switch takes the rest of the group as its value, or
the next argument if nothing is left. -/
def letters (flags : List Flag) (a : Arguments) : List Char → Except FlagError Reading
  | [] => .ok { arguments := a }
  | c :: cs =>
    let group := String.ofList (c :: cs)
    if Text.startsWith group unreadStart then .ok { arguments := a }
    else match flags.find? fun f => f.letter = some c with
      | none => .error (.unknownLetter c group)
      | some f =>
        match cs with
        | '=' :: d :: ds => (a.give f (String.ofList (d :: ds))).map fun a => { arguments := a }
        | cs =>
          if f.kind = .switch then
            match a.give f "true" with
            | .error e => .error e
            | .ok a => letters flags a cs
          else if cs.isEmpty then
            .ok { arguments := a, awaiting := some (f, .noLetterValue c group) }
          else (a.give f (String.ofList cs)).map fun a => { arguments := a }

/-- Reads a flag given by its long name. -/
def long (flags : List Flag) (a : Arguments) (arg : String) : Except FlagError Reading :=
  let (name, value) := (arg.toList.drop 2).span (· ≠ '=')
  if name.isEmpty ∨ name.head? = some '-' then .error (.badForm arg)
  else match flags.find? fun f => f.name = String.ofList name with
    | none => .error (.unknown (String.ofList name))
    | some f =>
      match value with
      | _ :: value => (a.give f (String.ofList value)).map fun a => { arguments := a }
      | [] =>
        if f.kind = .switch then (a.give f "true").map fun a => { arguments := a }
        else .ok { arguments := a, awaiting := some (f, .noValue arg) }

def word (r : Reading) (arg : String) : Reading :=
  { r with arguments := { r.arguments with words := r.arguments.words ++ [arg] } }

def step (flags : List Flag) (r : Reading) (arg : String) : Except FlagError Reading :=
  if r.ended then .ok (r.word arg)
  else match r.awaiting with
    | some (f, _) => (r.arguments.give f arg).map fun a => { arguments := a }
    | none =>
      if arg = "--" then .ok { r with ended := true }
      else if Text.startsWith arg "--" then long flags r.arguments arg
      else if Text.startsWith arg "-" ∧ arg ≠ "-" then letters flags r.arguments (arg.toList.drop 1)
      else .ok (r.word arg)

end Reading

/-- Reads a command line from left to right; the first error ends the reading. -/
def Arguments.parse (flags : List Flag) (args : List String) : Except FlagError Arguments := do
  let r ← args.foldlM (Reading.step flags) {}
  match r.awaiting with
  | some (_, e) => .error e
  | none => .ok r.arguments

end ClosureLang.Command

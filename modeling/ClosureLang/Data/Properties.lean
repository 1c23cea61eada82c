import ClosureLang.Data.Value
import ClosureLang.Text.Blank
import ClosureLang.Text.Lower
import ClosureLang.Text.Numeral

/-! Properties: lines with a key and a value. Points in a key lead to deeper tables, and a value
can refer to other values and to the environment by their names in curly brackets behind a dollar
sign. -/
namespace ClosureLang.Data.Properties

def isSpace (c : Char) : Bool := c = ' ' || c = '\t' || c.toNat = 0x0C

def isBreak (c : Char) : Bool := c = '\n' || c = '\r'

def isKeyEnd (c : Char) : Bool := isSpace c || isBreak c || c = ':' || c = '='

/-- The character that an escape stands for, and what follows it. Letters without a meaning stand
for themselves. -/
def escaped : List Char → Option (Char × List Char)
  | [] => none
  | 'u' :: cs => do
    let digits := cs.take 4
    if digits.length ≠ 4 then failure
    let code ← Numeral.ofDigits? 16 digits
    return (if code.isValidChar then Char.ofNat code else Char.ofNat 0xFFFD, cs.drop 4)
  | c :: cs =>
    let meant := match c with
      | 'f' => Char.ofNat 0x0C
      | 'n' => '\n'
      | 'r' => '\r'
      | 't' => '\t'
      | c => c
    some (meant, cs)

/-- Reads a key up to its end. -/
def key : Nat → List Char → Option (List Char × List Char)
  | 0, _ => none
  | _, [] => some ([], [])
  | fuel + 1, c :: cs =>
    if isKeyEnd c then some ([], c :: cs)
    else do
      let (c, cs) ← if c = '\\' then escaped cs else some (c, cs)
      let (more, rest) ← key fuel cs
      return (c :: more, rest)

/-- What follows the sign between a key and its value. -/
def dropSign (cs : List Char) : List Char :=
  let cs := cs.dropWhile isSpace
  let cs := match cs with
    | ':' :: cs => cs
    | '=' :: cs => cs
    | cs => cs
  cs.dropWhile isSpace

/-- Reads a value up to the end of its line. A backslash at the end continues it on the next
line. -/
def value : Nat → List Char → Option (List Char × List Char)
  | 0, _ => none
  | _, [] => some ([], [])
  | fuel + 1, c :: cs =>
    if isBreak c then some ([], cs)
    else if c = '\\' then
      match cs with
      | d :: more =>
        if isBreak d then value fuel (more.dropWhile isSpace)
        else do
          let (meant, cs) ← escaped cs
          let (text, rest) ← value fuel cs
          return (meant :: text, rest)
      | [] => none
    else do
      let (text, rest) ← value fuel cs
      return (c :: text, rest)

/-- Gives a key a value. A key that is there keeps its place. -/
def assign (entries : List (String × String)) (key value : String) : List (String × String) :=
  match entries with
  | [] => [(key, value)]
  | (k, v) :: rest => if k = key then (key, value) :: rest else (k, v) :: assign rest key value

/-- Reads the entries of a text behind those that are known. -/
def entriesFrom (known : List (String × String)) : Nat → List Char → Option (List (String × String))
  | 0, _ => none
  | _, [] => some known
  | fuel + 1, c :: cs =>
    if isSpace c || isBreak c then entriesFrom known fuel cs
    else if c = '#' || c = '!' then entriesFrom known fuel (cs.dropWhile fun d => !isBreak d)
    else do
      let (name, rest) ← key (cs.length + 2) (c :: cs)
      if name.isEmpty then failure
      let (text, rest) ← value (rest.length + 1) (dropSign rest)
      entriesFrom (assign known (String.ofList name) (String.ofList text)) fuel rest

def entries? (text : String) : Option (List (String × String)) :=
  entriesFrom [] (text.length + 1) text.toList

/-- The text before the first place where another occurs, and the text behind it. -/
def cut? (mark : List Char) : List Char → Option (List Char × List Char)
  | [] => if mark.isEmpty then some ([], []) else none
  | c :: cs =>
    if mark.isPrefixOf (c :: cs) then some ([], (c :: cs).drop mark.length)
    else (cut? mark cs).map fun (before, behind) => (c :: before, behind)

/-- How deep references may be nested. -/
def depthLimit : Nat := 64

/-- How many references one value may have. -/
def referenceLimit : Nat := 10000

section
variable {m : Type → Type} [Monad m] (environment : String → m (Option String))

/-- Replaces references. No value may refer to itself: `inside` are the keys whose values are being
replaced. A reference that no key answers is one to the environment. -/
def expand (entries : List (String × String)) :
    Nat → Nat → List String → List Char → OptionT m (List Char)
  | 0, _, _, _ => failure
  | _, 0, _, _ => failure
  | depth + 1, count + 1, inside, text =>
    match cut? ['$', '\x7b'] text with
    | none => return text
    | some (before, behind) =>
      match cut? ['\x7d'] behind with
      | none => failure
      | some (name, rest) => do
        let name := String.ofList name
        if inside.contains name then failure
        let found ← match entries.lookup name with
          | some v => pure v
          | none => OptionT.lift (do return (← environment name).getD "")
        let text ← expand entries depth referenceLimit (inside ++ [name]) found.toList
        expand entries (depth + 1) count inside (before ++ text ++ rest)

/-- The fields that a text describes. -/
def table? (text : String) : OptionT m Table := do
  let entries ← OptionT.mk (pure (entries? text))
  let expanded ← entries.mapM fun (key, value) => do
    return (key,
      String.ofList (← expand environment entries depthLimit referenceLimit [key] value.toList))
  return expanded.foldl (fun fields (key, value) =>
    let path := (Text.splitOnChar '.' key.toList).map String.ofList
    let last := Text.lower (path.getLast?.getD "")
    fields.setPath (path.dropLast ++ [last]) (.text value)) []

end

end ClosureLang.Data.Properties

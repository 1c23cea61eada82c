import ClosureLang.Data.Value
import ClosureLang.Text.Numeral
import ClosureLang.Text.Utf8

/-! Values written as JSON. Of fields with one name the last counts, and numbers are real
numbers. -/
namespace ClosureLang.Data.Json

/-- Readings at the start of a text, which leave the rest. -/
abbrev Parse (α : Type) := List Char → Option (α × List Char)

def isSpace (c : Char) : Bool := c = ' ' || c = '\t' || c = '\n' || c = '\r'

def skipSpace (cs : List Char) : List Char := cs.dropWhile isSpace

/-- The number that four hexadecimal digits denote. -/
def unit? : List Char → Option Nat
  | a :: b :: c :: d :: _ => Numeral.ofDigits? 16 [a, b, c, d]
  | _ => none

/-- The character behind an escaped unit, and how many characters of the text it takes. A pair of
surrogates is one character, and a surrogate alone is replaced. -/
def unitChar? (cs : List Char) : Option (Char × Nat) := do
  let high ← unit? cs
  if 0xD800 ≤ high && high < 0xDC00 then
    match cs.drop 4 with
    | '\\' :: 'u' :: more =>
      match unit? more with
      | some low =>
        if 0xDC00 ≤ low && low < 0xE000 then
          return (Char.ofNat (0x10000 + (high - 0xD800) * 0x400 + (low - 0xDC00)), 10)
        else return (Utf8.replacement, 4)
      | none => return (Utf8.replacement, 4)
    | _ => return (Utf8.replacement, 4)
  else if 0xDC00 ≤ high && high < 0xE000 then return (Utf8.replacement, 4)
  else return (Char.ofNat high, 4)

/-- The characters that an escape of one letter stands for. -/
def escapes : List (Char × Char) :=
  [('"', '"'), ('\\', '\\'), ('/', '/'), ('b', Char.ofNat 8), ('f', Char.ofNat 12), ('n', '\n'),
    ('r', '\r'), ('t', '\t')]

/-- Reads a string up to its closing quote. -/
def stringFrom : Nat → Parse (List Char)
  | 0, _ => none
  | _, [] => none
  | fuel + 1, c :: cs =>
    if c = '"' then some ([], cs)
    else if c.toNat < 0x20 then none
    else if c = '\\' then
      match cs with
      | [] => none
      | 'u' :: more => do
        let (meant, n) ← unitChar? more
        let (text, rest) ← stringFrom fuel (more.drop n)
        return (meant :: text, rest)
      | e :: more => do
        let meant ← escapes.lookup e
        let (text, rest) ← stringFrom fuel more
        return (meant :: text, rest)
    else do
      let (text, rest) ← stringFrom fuel cs
      return (c :: text, rest)

def string (cs : List Char) : Option (String × List Char) := do
  let (text, rest) ← stringFrom (cs.length + 1) cs
  return (String.ofList text, rest)

/-- The digits of a number, of which there must be some. -/
def digits (cs : List Char) : Option (List Char × List Char) :=
  let (found, rest) := cs.span Char.isDigit
  if found.isEmpty then none else some (found, rest)

/-- Reads a number. It has no needless zeros, and digits around its point. -/
def number (cs : List Char) : Option (Value × List Char) := do
  let (sign, cs) := match cs with
    | '-' :: cs => (['-'], cs)
    | cs => ([], cs)
  let (whole, cs) ← match cs with
    | '0' :: cs => some (['0'], cs)
    | cs => digits cs
  let (fraction, cs) ← match cs with
    | '.' :: cs => (digits cs).map fun (found, rest) => ('.' :: found, rest)
    | cs => some ([], cs)
  let (exponent, cs) ← match cs with
    | e :: cs =>
      if e = 'e' || e = 'E' then
        let (mark, cs) := match cs with
          | '-' :: cs => (['-'], cs)
          | '+' :: cs => (['+'], cs)
          | cs => ([], cs)
        (digits cs).map fun (found, rest) => (e :: mark ++ found, rest)
      else some ([], e :: cs)
    | [] => some ([], [])
  let x ← Double.ofDecimal? (sign ++ whole ++ fraction ++ exponent)
  return (.real x, cs)

/-- What follows a word. -/
def word (w : String) (v : Value) (cs : List Char) : Option (Value × List Char) :=
  if w.toList.isPrefixOf cs then some (v, cs.drop w.length) else none

/-- How deep values may be nested. -/
def depthLimit : Nat := 10000

mutual

/-- Reads a value. `depth` is the number of lists and objects around it. -/
def value (depth : Nat) : Nat → Parse Value
  | 0, _ => none
  | fuel + 1, cs =>
    match skipSpace cs with
    | [] => none
    | c :: cs =>
      if c = '\x7b' then
        if depth < depthLimit then do
          let (fields, rest) ← fieldsFrom (depth + 1) true [] fuel (skipSpace cs)
          return (.table fields, rest)
        else none
      else if c = '[' then
        if depth < depthLimit then do
          let (items, rest) ← itemsFrom (depth + 1) true fuel (skipSpace cs)
          return (.list items, rest)
        else none
      else if c = '"' then (string cs).map fun (s, rest) => (.text s, rest)
      else if c = 't' then word "true" (.bool true) (c :: cs)
      else if c = 'f' then word "false" (.bool false) (c :: cs)
      else if c = 'n' then word "null" .null (c :: cs)
      else number (c :: cs)

/-- Reads the items of a list up to its closing bracket. -/
def itemsFrom (depth : Nat) (first : Bool) : Nat → Parse (List Value)
  | 0, _ => none
  | fuel + 1, cs =>
    match cs with
    | [] => none
    | c :: more =>
      if first && c = ']' then some ([], more)
      else do
        let (item, rest) ← value depth fuel cs
        match skipSpace rest with
        | ',' :: rest =>
          let (items, rest) ← itemsFrom depth false fuel rest
          return (item :: items, rest)
        | ']' :: rest => return ([item], rest)
        | _ => none

/-- Reads the fields of an object up to its closing bracket. -/
def fieldsFrom (depth : Nat) (first : Bool) (fields : Table) : Nat → Parse Table
  | 0, _ => none
  | fuel + 1, cs =>
    match cs with
    | [] => none
    | c :: more =>
      if first && c = '\x7d' then some (fields, more)
      else if c = '"' then do
        let (name, rest) ← string more
        match skipSpace rest with
        | ':' :: rest =>
          let (v, rest) ← value depth fuel rest
          match skipSpace rest with
          | ',' :: rest => fieldsFrom depth false (fields.set name v) fuel (skipSpace rest)
          | '\x7d' :: rest => return (fields.set name v, rest)
          | _ => none
        | _ => none
      else none

end

/-- The value that a text describes. -/
def ofText? (text : String) : Option Value := do
  let cs := text.toList
  let (v, rest) ← value 0 (cs.length + 1) cs
  if (skipSpace rest).isEmpty then return v else failure

/-- The fields that a text describes, which is an object or null. -/
def table? (text : String) : Option Table := do
  match ← ofText? text with
  | .table fields => return fields
  | .null => return []
  | _ => failure

end ClosureLang.Data.Json

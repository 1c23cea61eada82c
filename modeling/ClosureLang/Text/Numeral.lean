import ClosureLang.Text.Decimal

/-! Numerals and truth values as settings spell them. A numeral may be marked as binary, octal or
hexadecimal, and underscores may separate its digits. -/
namespace ClosureLang.Numeral

inductive Fault where
  | malformed
  /-- The number does not fit in a 64-bit signed word. -/
  | outOfRange
deriving DecidableEq, Repr

def Fault.message : Fault → String
  | malformed => "invalid syntax"
  | outOfRange => "value out of range"

/-- The value of a digit; letters are digits above nine. -/
def digit? (c : Char) : Option Nat :=
  if c.isDigit then some (c.toNat - '0'.toNat)
  else if c.isAlpha then some (c.toLower.toNat - 'a'.toNat + 10)
  else none

/-- The number that digits of a base denote; none if there are no digits or others among them. -/
def ofDigits? (base : Nat) (cs : List Char) : Option Nat :=
  if cs.isEmpty then none
  else
    cs.foldlM (fun n c =>
      (digit? c).bind fun d => if d < base then some (base * n + d) else none) 0

/-- The base of a numeral, whether the base is marked, and the digits behind the mark. A leading
zero alone marks octal digits. -/
def marked : List Char → Nat × Bool × List Char
  | '0' :: c :: d :: cs =>
    match c.toLower with
    | 'b' => (2, true, d :: cs)
    | 'o' => (8, true, d :: cs)
    | 'x' => (16, true, d :: cs)
    | _ => (8, true, c :: d :: cs)
  | '0' :: cs => (8, true, cs)
  | cs => (10, false, cs)

/-- Adds digits to the number read so far. A number that gets too large ends the reading, whatever
follows. -/
def digitsFrom (base n : Nat) : List Char → Except Fault Nat
  | [] => .ok n
  | '_' :: cs => digitsFrom base n cs
  | c :: cs =>
    match digit? c with
    | none => .error .malformed
    | some d =>
      if base ≤ d then .error .malformed
      else if Decimal.wordCount ≤ base * n + d then .error .outOfRange
      else digitsFrom base (base * n + d) cs

/-- Whether every underscore stands between digits; `after` tells that a digit comes before. -/
def separated (after : Bool) : List Char → Bool
  | [] => true
  | '_' :: cs => after && cs.head?.any (· ≠ '_') && separated false cs
  | _ :: cs => separated true cs

def unsigned (cs : List Char) : Except Fault Nat :=
  if cs.isEmpty then .error .malformed
  else do
    let (base, isMarked, digits) := marked cs
    let n ← digitsFrom base 0 digits
    if separated isMarked digits then .ok n else .error .malformed

/-- The number that a text denotes. -/
def parse (text : String) : Except Fault Int := do
  let (negative, digits) := match text.toList with
    | '-' :: cs => (true, cs)
    | '+' :: cs => (false, cs)
    | cs => (false, cs)
  let n ← unsigned digits
  if negative then
    if n ≤ Decimal.wordLimit then return -Int.ofNat n else throw .outOfRange
  else
    if n < Decimal.wordLimit then return Int.ofNat n else throw .outOfRange

/-- The text without a fraction that consists of zeros, and without points behind it. -/
def dropZeroFraction (text : String) : String :=
  match (text.toList.reverse.dropWhile (· = '.')).span (· = '0') with
  | ([], _) => text
  | (_, '.' :: whole) => String.ofList whole.reverse
  | _ => text

/-- The truth value that a text denotes. -/
def truth? (text : String) : Option Bool :=
  if ["1", "t", "T", "TRUE", "true", "True"].contains text then some true
  else if ["0", "f", "F", "FALSE", "false", "False"].contains text then some false
  else none

end ClosureLang.Numeral

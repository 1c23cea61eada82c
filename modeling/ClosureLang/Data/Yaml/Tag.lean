import ClosureLang.Data.Value
import ClosureLang.Text.Blank
import ClosureLang.Text.Numeral
import ClosureLang.Text.Utf8

/-! What YAML scalars mean. Plain scalars tell by their text what they are, and a tag can demand
that a scalar is of a certain kind.

Bytes are written with 64 characters, four for three bytes. The last four characters stand for fewer
bytes if they end in equals signs. Line breaks do not count. -/
namespace ClosureLang.Data.Base64

/-- The six bits that a character stands for. -/
def bits? (c : Char) : Option Nat :=
  if c.isUpper then some (c.toNat - 'A'.toNat)
  else if c.isLower then some (c.toNat - 'a'.toNat + 26)
  else if c.isDigit then some (c.toNat - '0'.toNat + 52)
  else if c = '+' then some 62
  else if c = '/' then some 63
  else none

/-- The bytes of a number of 24 bits, the first ones. -/
def bytesOf (count n : Nat) : List UInt8 :=
  [UInt8.ofNat (n / 65536), UInt8.ofNat (n / 256), UInt8.ofNat n].take count

def decodeChars : List Char → Option (List UInt8)
  | [] => some []
  | [a, b, '=', '='] => do return bytesOf 1 ((← bits? a) * 262144 + (← bits? b) * 4096)
  | [a, b, c, '='] => do
    return bytesOf 2 ((← bits? a) * 262144 + (← bits? b) * 4096 + (← bits? c) * 64)
  | a :: b :: c :: d :: cs => do
    let n := (← bits? a) * 262144 + (← bits? b) * 4096 + (← bits? c) * 64 + (← bits? d)
    return bytesOf 3 n ++ (← decodeChars cs)
  | _ => none

/-- The text whose bytes are written. -/
def decode? (s : String) : Option String :=
  (decodeChars (s.toList.filter fun c => c ≠ '\n' && c ≠ '\r')).map fun bytes =>
    String.ofList ((Utf8.chars bytes).map Prod.fst)

end ClosureLang.Data.Base64

namespace ClosureLang.Data.Yaml

namespace Timestamp

/-- Readings of a part of a timestamp, which leave the rest. -/
abbrev Part (α : Type) := List Char → Option (α × List Char)

/-- One or two digits. -/
def number : Part Nat
  | a :: b :: cs =>
    if a.isDigit && b.isDigit then some (Decimal.natOfDigits [a, b], cs)
    else if a.isDigit then some (Decimal.digitValue a, b :: cs)
    else none
  | [a] => if a.isDigit then some (Decimal.digitValue a, []) else none
  | [] => none

/-- What follows a character. -/
def after? (c : Char) : List Char → Option (List Char)
  | d :: cs => if d = c then some cs else none
  | [] => none

/-- What follows a date. -/
def date? (cs : List Char) : Option (List Char) := do
  let (year, cs) := cs.span Char.isDigit
  if year.length ≠ 4 then failure
  let (month, cs) ← number (← after? '-' cs)
  let (day, cs) ← number (← after? '-' cs)
  if Calendar.isDate (Decimal.natOfDigits year) month day then return cs else failure

/-- What follows a time of day. -/
def time? (cs : List Char) : Option (List Char) := do
  let (hour, cs) ← number cs
  let (minute, cs) ← number (← after? ':' cs)
  let (second, cs) ← number (← after? ':' cs)
  if 24 ≤ hour || 60 ≤ minute || 60 ≤ second then failure
  match cs with
  | point :: d :: more =>
    if (point = '.' || point = ',') && d.isDigit then return more.dropWhile Char.isDigit
    else return cs
  | _ => return cs

/-- Whether a text is a time zone: `Z`, or hours and minutes with a sign. -/
def isZone : List Char → Bool
  | ['Z'] => true
  | [sign, a, b, ':', c, d] =>
    (sign = '+' || sign = '-') && [a, b, c, d].all Char.isDigit &&
      Decimal.natOfDigits [a, b] ≤ 24 && Decimal.natOfDigits [c, d] ≤ 60
  | _ => false

/-- Whether a text is a date, or a date with a time of day. A time behind the letter T has a zone,
and a time behind blanks has none. -/
def isValid (text : List Char) : Bool :=
  match date? text with
  | none => false
  | some [] => true
  | some (c :: cs) =>
    if c = 'T' || c = 't' then (time? cs).any isZone
    else if c = ' ' then (time? (cs.dropWhile (· = ' '))).any List.isEmpty
    else false

end Timestamp

/-- What a value is. -/
inductive Tag where
  | null
  | bool
  | int
  | real
  | text
  | moment
  | binary
  | merge
  | sequence
  | mapping
  | other (name : String)
deriving DecidableEq, Repr

namespace Tag

/-- The tag with a name. The names of the common tags start with their address or with two
exclamation marks. -/
def ofName (name : String) : Tag :=
  let short := match Text.stripStart? name "tag:yaml.org,2002:" with
    | some s => "!!" ++ s
    | none => name
  match short with
  | "!!null" => null
  | "!!bool" => bool
  | "!!int" => int
  | "!!float" => real
  | "!!str" => text
  | "!!timestamp" => moment
  | "!!binary" => binary
  | "!!merge" => merge
  | "!!seq" => sequence
  | "!!map" => mapping
  | _ => other short

/-- Digits of a base behind a sign, as a number that fits in a signed 64-bit word. -/
def signedDigits? (base : Nat) (cs : List Char) : Option Int := do
  let (negative, digits) := Double.signed cs
  let n : Int := Int.ofNat (← Numeral.ofDigits? base digits)
  let n := if negative then -n else n
  if -Int.ofNat Decimal.wordLimit ≤ n ∧ n < Int.ofNat Decimal.wordLimit then return n else failure

/-- The whole number that a text denotes: a signed or an unsigned 64-bit word. Binary and octal
digits may have a sign of their own. -/
def int? (cs : List Char) : Option Int :=
  match Numeral.parse (String.ofList cs) with
  | .ok n => some n
  | .error _ =>
    match Numeral.unsigned cs with
    | .ok n => some (Int.ofNat n)
    | .error _ =>
      match cs with
      | '0' :: 'b' :: digits => signedDigits? 2 digits
      | '0' :: 'o' :: digits => signedDigits? 8 digits
      | _ => none

/-- The number that a text denotes, without its underscores. -/
def number? (cs : List Char) : Option (Tag × Value) :=
  let digits := cs.filter (· ≠ '_')
  match int? digits, Double.ofDecimal? digits with
  | some n, _ => some (int, .int n)
  | none, some x => some (real, .real x)
  | none, none => none

/-- Words that stand for values. -/
def word? (s : String) : Option (Tag × Value) :=
  if ["", "~", "null", "Null", "NULL"].contains s then some (null, .null)
  else if ["true", "True", "TRUE"].contains s then some (bool, .bool true)
  else if ["false", "False", "FALSE"].contains s then some (bool, .bool false)
  else if [".nan", ".NaN", ".NAN"].contains s then some (real, .real .undefined)
  else if [".inf", ".Inf", ".INF", "+.inf", "+.Inf", "+.INF"].contains s then
    some (real, .real (.infinite false))
  else if ["-.inf", "-.Inf", "-.INF"].contains s then some (real, .real (.infinite true))
  else none

/-- What a text is by itself. Dates count only if `moments` holds. -/
def ofText (moments : Bool) (s : String) : Tag × Value :=
  match word? s with
  | some found => found
  | none =>
    match s.toList with
    | [] => (null, .null)
    | c :: cs =>
      if c = '.' then
        match Double.ofDecimal? (c :: cs) with
        | some x => (real, .real x)
        | none => (text, .text s)
      else if c.isDigit || c = '+' || c = '-' then
        if moments && Timestamp.isValid (c :: cs) then (moment, .moment s)
        else (number? (c :: cs)).getD (text, .text s)
      else (text, .text s)

/-- The value of a text that has to be of a kind; none if it is not. A whole number is a real
number, too, if it is a signed word. -/
def value? (tag : Tag) (s : String) : Option Value :=
  match tag with
  | text => some (.text s)
  | binary => (Base64.decode? s).map .text
  | null | bool | int | real | moment =>
    match ofText (tag = moment) s with
    | (int, .int n) =>
      if tag = int then some (.int n)
      else if tag = real ∧ n < Int.ofNat Decimal.wordLimit then
        (Double.ofFraction? (n < 0) n.natAbs 1).map .real
      else none
    | (found, v) => if found = tag then some v else none
  | merge | sequence | mapping | other _ => some (.text s)

end Tag

end ClosureLang.Data.Yaml

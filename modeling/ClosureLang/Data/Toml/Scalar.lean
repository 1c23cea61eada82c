import ClosureLang.Data.Value
import ClosureLang.Text.Numeral

/-! Texts, numbers and dates as TOML writes them. Readings leave the rest of the text. -/
namespace ClosureLang.Data.Toml

abbrev Parse (α : Type) := List Char → Option (α × List Char)

def isSpace (c : Char) : Bool := c = ' ' || c = '\t'

def skipSpace (cs : List Char) : List Char := cs.dropWhile isSpace

/-- Characters that may stand in texts and comments. -/
def isAllowed (c : Char) : Bool :=
  let n := c.toNat
  n = 0x09 || n = 0x0A || n = 0x0D || (0x20 ≤ n && n ≠ 0x7F)

namespace Quoted

/-- The characters that an escape of one letter stands for. -/
def escapes : List (Char × Char) :=
  [('"', '"'), ('\\', '\\'), ('b', Char.ofNat 0x08), ('e', Char.ofNat 0x1B), ('f', Char.ofNat 0x0C),
    ('n', '\n'), ('r', '\r'), ('t', '\t')]

/-- The character that `n` hexadecimal digits denote. -/
def codePoint (n : Nat) : Parse Char := fun cs => do
  if (cs.take n).length ≠ n then failure
  let code ← Numeral.ofDigits? 16 (cs.take n)
  if code.isValidChar then return (Char.ofNat code, cs.drop n) else failure

/-- The character that an escape stands for, behind its backslash. -/
def escaped : Parse Char
  | [] => none
  | 'u' :: cs => codePoint 4 cs
  | 'U' :: cs => codePoint 8 cs
  | c :: cs => (escapes.lookup c).map fun meant => (meant, cs)

/-- Reads a text on one line behind its opening quote. -/
def basic : Nat → Parse (List Char)
  | 0, _ => none
  | _, [] => none
  | fuel + 1, c :: cs =>
    if c = '"' then some ([], cs)
    else if c = '\n' || c = '\r' || !isAllowed c then none
    else do
      let (c, cs) ← if c = '\\' then escaped cs else some (c, cs)
      let (more, rest) ← basic fuel cs
      return (c :: more, rest)

/-- Reads a text without escapes behind its opening quote. -/
def literal : Parse (List Char)
  | [] => none
  | c :: cs =>
    if c = '\'' then some ([], cs)
    else if c = '\n' || c = '\r' || !isAllowed c then none
    else (literal cs).map fun (more, rest) => (c :: more, rest)

/-- The end of a text on several lines: three quotes, before which up to two belong to the text.
None if it does not end here. -/
def ending? (quote : Char) (cs : List Char) : Option (Option (List Char × List Char)) :=
  let run := (cs.takeWhile (· = quote)).length
  if run < 3 then none
  else if 5 < run then some none
  else some (some (List.replicate (run - 3) quote, cs.drop run))

/-- What follows a line break at the start. -/
def dropBreak : List Char → List Char
  | '\n' :: cs => cs
  | '\r' :: '\n' :: cs => cs
  | cs => cs

/-- What follows a backslash that ends its line, without the blanks and line breaks after it. -/
def joined? (cs : List Char) : Option (List Char) :=
  match cs.dropWhile fun c => isSpace c with
  | '\n' :: more => some (more.dropWhile fun c => isSpace c || c = '\n' || c = '\r')
  | '\r' :: '\n' :: more => some (more.dropWhile fun c => isSpace c || c = '\n' || c = '\r')
  | _ => none

/-- Reads a text on several lines behind its opening quotes. -/
def multiline (quote : Char) : Nat → Parse (List Char)
  | 0, _ => none
  | _, [] => none
  | fuel + 1, c :: cs =>
    match ending? quote (c :: cs) with
    | some result => result
    | none =>
      if !isAllowed c || (c = '\r' && cs.head? ≠ some '\n') then none
      else if c = '\\' && quote = '"' then
        match joined? cs with
        | some rest => multiline quote fuel rest
        | none => do
          let (meant, cs) ← escaped cs
          let (more, rest) ← multiline quote fuel cs
          return (meant :: more, rest)
      else do
        let (more, rest) ← multiline quote fuel cs
        return (c :: more, rest)

/-- Reads a quoted text; one on several lines only where `lines` holds. -/
def read (lines : Bool) : Parse String := fun cs => do
  let (text, rest) ← match cs with
    | '"' :: '"' :: '"' :: more =>
      if lines then multiline '"' (more.length + 1) (dropBreak more) else some ([], '"' :: more)
    | '\'' :: '\'' :: '\'' :: more =>
      if lines then multiline '\'' (more.length + 1) (dropBreak more) else some ([], '\'' :: more)
    | '"' :: more => basic (more.length + 1) more
    | '\'' :: more => literal more
    | _ => none
  return (String.ofList text, rest)

end Quoted

namespace Moment

/-- The number that two digits denote. -/
def pair? (a b : Char) : Option Nat :=
  if a.isDigit && b.isDigit then some (Decimal.natOfDigits [a, b]) else none

/-- What follows a date. -/
def date? : List Char → Option (List Char)
  | a :: b :: c :: d :: '-' :: e :: f :: '-' :: g :: h :: rest => do
    if !([a, b, c, d].all Char.isDigit) then failure
    if Calendar.isDate (Decimal.natOfDigits [a, b, c, d]) (← pair? e f)
      (← pair? g h) then return rest
    else failure
  | _ => none

/-- What follows a time of day. -/
def time? : List Char → Option (List Char)
  | a :: b :: ':' :: c :: d :: ':' :: e :: f :: rest => do
    if 23 < (← pair? a b) || 59 < (← pair? c d) || 60 < (← pair? e f) then failure
    match rest with
    | '.' :: more =>
      let digits := more.takeWhile Char.isDigit
      if digits.isEmpty then failure else return more.drop digits.length
    | _ => return rest
  | _ => none

/-- Whether a text is a time zone. -/
def isZone : List Char → Bool
  | [c] => c = 'Z' || c = 'z'
  | [sign, a, b, ':', c, d] =>
    (sign = '+' || sign = '-') && (pair? a b).any (· ≤ 23) && (pair? c d).any (· ≤ 59)
  | _ => false

/-- Whether a text is a date, a time, or a date with a time and perhaps a zone. -/
def isValid (cs : List Char) : Bool :=
  match cs[2]? with
  | some ':' => (time? cs).any List.isEmpty
  | _ =>
    match date? cs with
    | none => false
    | some [] => true
    | some (sep :: rest) =>
      (sep = 'T' || sep = 't' || sep = ' ') && (time? rest).any fun zone =>
        zone.isEmpty || isZone zone

def isMomentChar (c : Char) : Bool := c.isDigit || "-+:.TtZz".toList.contains c

/-- The characters of a date or time, with a blank before the time at most. -/
def span (cs : List Char) : List Char :=
  let first := cs.takeWhile isMomentChar
  match cs.drop first.length with
  | ' ' :: d :: more =>
    if d.isDigit then first ++ ' ' :: d :: more.takeWhile isMomentChar else first
  | _ => first

/-- Whether a date or a time starts here: digits up to a dash or a colon in its place. -/
def startsHere (cs : List Char) : Bool :=
  let digits := (cs.takeWhile Char.isDigit).length
  (digits = 2 && cs[2]? = some ':') || (digits = 4 && cs[4]? = some '-')

end Moment

namespace Number

/-- Whether every underscore of a number stands between two digits of its base. -/
def isSeparated (isDigit : Char → Bool) (cs : List Char) : Bool :=
  let rec check (after : Bool) : List Char → Bool
    | [] => true
    | '_' :: cs => after && cs.head?.any isDigit && check false cs
    | c :: cs => check (isDigit c) cs
  check false cs

/-- A number that fits in a signed 64-bit word. -/
def word? (negative : Bool) (n : Nat) : Option Value :=
  if negative then (if n ≤ Decimal.wordLimit then some (.int (-Int.ofNat n)) else none)
  else if n < Decimal.wordLimit then some (.int (Int.ofNat n)) else none

/-- Whether a character is a digit of a base. -/
def isDigitOf (base : Nat) (c : Char) : Bool := (Numeral.digit? c).any (· < base)

/-- Reads a whole number with a mark for its base. -/
def based (base : Nat) : Parse Value := fun cs => do
  let text := cs.takeWhile fun c => isDigitOf base c || c = '_'
  if !isSeparated (isDigitOf base) text then failure
  let n ← Numeral.ofDigits? base (text.filter (· ≠ '_'))
  return (← word? false n, cs.drop text.length)

/-- Whether digits have a needless zero at the start. -/
def isPadded : List Char → Bool
  | '0' :: c :: _ => c.isDigit
  | _ => false

/-- Whether a point stands between digits wherever there is one. -/
def hasFullFraction (cs : List Char) : Bool :=
  let whole := cs.takeWhile Char.isDigit
  match cs.drop whole.length with
  | '.' :: more => !whole.isEmpty && more.head?.any Char.isDigit
  | _ => true

/-- Reads a decimal number. -/
def decimal : Parse Value := fun cs => do
  let text := cs.takeWhile fun c => c.isDigit || "+-_.eE".toList.contains c
  let rest := cs.drop text.length
  if !isSeparated Char.isDigit text then failure
  let plain := text.filter (· ≠ '_')
  let (negative, digits) := Double.signed plain
  if isPadded digits then failure
  if digits.any fun c => c = '.' || c = 'e' || c = 'E' then
    if !hasFullFraction digits then failure
    return (.real (← Double.ofDecimal? plain), rest)
  else
    let n ← Decimal.nat? digits
    return (← word? negative n, rest)

/-- Reads the words for what is beyond all numbers and for what is none. -/
def word : Parse Value := fun cs =>
  let (negative, body) := Double.signed cs
  if "inf".toList.isPrefixOf body then some (.real (.infinite negative), body.drop 3)
  else if "nan".toList.isPrefixOf body then some (.real .undefined, body.drop 3)
  else none

/-- Reads a number. -/
def read : Parse Value := fun cs =>
  match word cs with
  | some found => some found
  | none =>
    match cs with
    | '0' :: 'x' :: more => based 16 more
    | '0' :: 'o' :: more => based 8 more
    | '0' :: 'b' :: more => based 2 more
    | _ => decimal cs

end Number

/-- Reads a number, a date or a time. -/
def numberOrMoment : Parse Value := fun cs =>
  if Moment.startsHere cs then
    let text := Moment.span cs
    if Moment.isValid text then some (.moment (String.ofList text), cs.drop text.length) else none
  else Number.read cs

end ClosureLang.Data.Toml

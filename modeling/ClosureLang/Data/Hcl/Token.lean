import ClosureLang.Text.Blank
import ClosureLang.Text.Numeral
import ClosureLang.Text.Printable

/-! The tokens of an HCL text. Comments are passed over. -/
namespace ClosureLang.Data.Hcl

inductive Token where
  | ident (name : String)
  | bool (b : Bool)
  /-- A number as it is written. -/
  | number (text : String)
  /-- A number with a point as it is written. -/
  | real (text : String)
  | string (s : String)
  | heredoc (s : String)
  | leftBracket
  | rightBracket
  | leftBrace
  | rightBrace
  | comma
  | assign
  | other
deriving DecidableEq, Repr

abbrev Parse (α : Type) := List Char → Option (α × List Char)

def isLetter (c : Char) : Bool := c.isAlpha || c = '_' || (0x80 ≤ c.toNat && Text.isPrintable c)

def isNameChar (c : Char) : Bool := isLetter c || c.isDigit || c = '-' || c = '.'

/-- What follows a comment between `/*` and `*/`. -/
def skipBlockComment : List Char → Option (List Char)
  | '*' :: '/' :: cs => some cs
  | _ :: cs => skipBlockComment cs
  | [] => none

/-- The digits and the sign of an exponent that starts here. -/
def exponent : List Char → List Char
  | e :: cs =>
    if e = 'e' || e = 'E' then
      match cs with
      | s :: more =>
        if s = '-' || s = '+' then e :: s :: more.takeWhile Char.isDigit
        else e :: cs.takeWhile Char.isDigit
      | [] => [e]
    else []
  | [] => []

/-- Reads a number. Digits behind a zero are octal, unless a point follows. -/
def number (cs : List Char) : Option (Token × List Char) :=
  let result (make : String → Token) (text : List Char) : Option (Token × List Char) :=
    some (make (String.ofList text), cs.drop text.length)
  let sign := cs.takeWhile (· = '-')
  let body := cs.drop sign.length
  match body with
  | '0' :: x :: more =>
    if x = 'x' || x = 'X' then
      let digits := more.takeWhile fun c => (Numeral.digit? c).any (· < 16)
      if digits.isEmpty then none else result .number (sign ++ '0' :: x :: digits)
    else decimal result sign body
  | _ => decimal result sign body
where
  decimal (result : (String → Token) → List Char → Option (Token × List Char))
    (sign body : List Char) :
      Option (Token × List Char) :=
    let whole := body.takeWhile Char.isDigit
    match body.drop whole.length with
    | '.' :: more =>
      let fraction := more.takeWhile Char.isDigit
      result .real (sign ++ whole ++ '.' :: fraction ++ exponent (more.drop fraction.length))
    | rest =>
      let power := exponent rest
      if power.isEmpty && whole.head? = some '0' && (whole.drop 2).any fun c =>
        c = '8' || c = '9' then none
      else result .number (sign ++ whole ++ power)

/-- Reads as many hexadecimal digits as a character. -/
def codePoint (n : Nat) : Parse Char := fun cs => do
  if (cs.take n).length ≠ n then failure
  let code ← Numeral.ofDigits? 16 (cs.take n)
  if code.isValidChar then return (Char.ofNat code, cs.drop n) else failure

/-- The characters that an escape of one letter stands for. -/
def escapes : List (Char × Char) :=
  [('a', Char.ofNat 7), ('b', Char.ofNat 8), ('f', Char.ofNat 12), ('n', '\n'), ('r', '\r'),
    ('t', '\t'), ('v', Char.ofNat 11), ('\\', '\\'), ('"', '"')]

/-- The character that an escape stands for, behind its backslash. -/
def escaped : Parse Char
  | [] => none
  | 'x' :: cs => codePoint 2 cs
  | 'u' :: cs => codePoint 4 cs
  | 'U' :: cs => codePoint 8 cs
  | c :: cs =>
    if (Numeral.digit? c).any (· < 8) then do
      let code ← Numeral.ofDigits? 8 ((c :: cs).take 3)
      if cs.length < 2 || 255 < code then failure else return (Char.ofNat code, cs.drop 2)
    else (escapes.lookup c).map fun meant => (meant, cs)

/-- Reads a string behind its opening quote. Inside of interpolations, which stand in braces behind
a dollar sign, nothing has a meaning but braces. -/
def stringFrom : Nat → Nat → Parse (List Char)
  | 0, _, _ => none
  | _, _, [] => none
  | fuel + 1, braces, c :: cs =>
    let keep (braces : Nat) (kept : List Char) (rest : List Char) :
        Option (List Char × List Char) :=
      (stringFrom fuel braces rest).map fun (more, rest) => (kept ++ more, rest)
    if braces = 0 then
      if c = '"' then some ([], cs)
      else if c = '\n' then none
      else if c = '$' && cs.head? = some '\x7b' then keep 1 ['$', '\x7b'] (cs.drop 1)
      else if c = '\\' then (escaped cs).bind fun (meant, rest) => keep 0 [meant] rest
      else keep 0 [c] cs
    else if c = '\x7b' then keep (braces + 1) [c] cs
    else if c = '\x7d' then keep (braces - 1) [c] cs
    else keep braces [c] cs

/-- The lines of a heredoc up to the one that holds its anchor, and what follows. -/
def heredocLines (anchor : List Char) :
    List (List Char) → Option (List (List Char) × List (List Char))
  | [] => none
  | [_] => none
  | line :: rest =>
    let bare := (line.dropWhile Text.isBlank).reverse.dropWhile (· = '\r')
    if bare = anchor.reverse then some ([], rest)
    else (heredocLines anchor rest).map fun (lines, rest) => (line :: lines, rest)

/-- The text of lines. -/
def unlines : List (List Char) → List Char
  | [] => []
  | [line] => line
  | line :: rest => line ++ '\n' :: unlines rest

/-- Reads a heredoc behind its two signs. -/
def heredoc (cs : List Char) : Option (Token × List Char) := do
  let cs := match cs with
    | '-' :: cs => cs
    | cs => cs
  let anchor := cs.takeWhile fun c => isLetter c || c.isDigit
  if anchor.isEmpty then failure
  match (cs.drop anchor.length) with
  | '\n' :: body =>
    let (lines, rest) ← heredocLines anchor (Text.splitOnChar '\n' body)
    return (.heredoc (String.ofList (lines.flatMap (· ++ ['\n']))), unlines rest)
  | _ => failure

def isSpace (c : Char) : Bool := c = ' ' || c = '\t' || c = '\n' || c = '\r'

/-- Reads the token that starts with a character. -/
def token (c : Char) (cs : List Char) : Option (Token × List Char) :=
  if isLetter c then
    let name := c :: cs.takeWhile isNameChar
    let rest := cs.drop (name.length - 1)
    some (if name = "true".toList then .bool true else if name = "false".toList then .bool false
      else .ident (String.ofList name), rest)
  else if c.isDigit then number (c :: cs)
  else if c = '"' then
    (stringFrom (cs.length + 1) 0 cs).map fun (s, rest) => (.string (String.ofList s), rest)
  else if c = '<' then
    match cs with
    | '<' :: more => heredoc more
    | _ => none
  else if c = '[' then some (.leftBracket, cs)
  else if c = ']' then some (.rightBracket, cs)
  else if c = '\x7b' then some (.leftBrace, cs)
  else if c = '\x7d' then some (.rightBrace, cs)
  else if c = ',' then some (.comma, cs)
  else if c = '=' then some (.assign, cs)
  else if c = '-' && cs.head?.any Char.isDigit then number (c :: cs)
  else if c = '.' && cs.head?.any Char.isDigit then
    let fraction := cs.takeWhile Char.isDigit
    let text := '.' :: fraction ++ exponent (cs.drop fraction.length)
    some (.real (String.ofList text), cs.drop (text.length - 1))
  else if c = '+' || c = '-' || c = '.' then some (.other, cs)
  else none

def tokensFrom : Nat → List Char → Option (List Token)
  | 0, _ => none
  | _, [] => some []
  | fuel + 1, c :: cs =>
    if isSpace c then tokensFrom fuel cs
    else if c = '#' then tokensFrom fuel (cs.dropWhile (· ≠ '\n'))
    else if c = '/' then
      match cs with
      | '/' :: more => tokensFrom fuel (more.dropWhile (· ≠ '\n'))
      | '*' :: more => (skipBlockComment more).bind (tokensFrom fuel)
      | _ => none
    else do
      let (t, rest) ← token c cs
      return t :: (← tokensFrom fuel rest)

/-- A text in which line feeds alone end lines. -/
def unified : List Char → List Char
  | '\r' :: '\n' :: cs => '\n' :: unified cs
  | c :: cs => c :: unified cs
  | [] => []

/-- The tokens of a text. -/
def tokens? (text : String) : Option (List Token) :=
  let cs := unified text.toList
  tokensFrom (cs.length + 1) cs

end ClosureLang.Data.Hcl

import ClosureLang.Data.Value
import ClosureLang.Text.Blank

/-! Assignments to variables as a shell would make them. A value may be quoted, and then go on over
several lines; variables in a value are replaced, unless the value is in single quotes. -/
namespace ClosureLang.Data.Dotenv

def isSpace (c : Char) : Bool := c = ' ' || c = '\t' || c = '\n' || c = '\r' || c.toNat = 0x0C

def isNameChar (c : Char) : Bool := c.isAlphanum || c = '_' || c = '.'

/-- The lines of a text. A carriage return and a line feed, alone or together, end a line. -/
def lines : List Char → List (List Char)
  | [] => [[]]
  | '\r' :: '\n' :: cs => [] :: lines cs
  | c :: cs =>
    if c = '\r' || c = '\n' then [] :: lines cs
    else match lines cs with
      | line :: more => (c :: line) :: more
      | [] => [[c]]

/-- How many characters come before the last occurrence of a character. -/
def lastIndex? (c : Char) (cs : List Char) : Option Nat :=
  ((cs.reverse.idxOf? c).map fun n => cs.length - 1 - n)

def trimmed (cs : List Char) : List Char := (Text.trim (String.ofList cs)).toList

/-- The quote that a line opens and does not close. -/
def openQuote? (line : List Char) : Option Char := do
  let sign ← (line.idxOf? '=').or (line.idxOf? ':')
  if sign = 0 || line.length - 1 ≤ sign then failure
  let value := trimmed (line.drop (sign + 1))
  let quote ← value.head?
  if quote ≠ '"' && quote ≠ '\'' then failure
  match lastIndex? quote (trimmed (value.drop 1)) with
  | some n => if (value.drop n).head? = some '\\' then return quote else failure
  | none => return quote

/-- Whether a line closes a quote; one behind a backslash does not count. -/
def closes (quote : Char) (line : List Char) : Bool :=
  match lastIndex? quote line with
  | none => false
  | some n => n = 0 || (line.drop (n - 1)).head? ≠ some '\\'

/-- The lines of a quoted value up to the one that closes it, and the lines behind. -/
def quotedLines? (quote : Char) : List (List Char) → Option (List Char × List (List Char))
  | [] => none
  | line :: rest =>
    if closes quote line then some ('\n' :: line, rest)
    else (quotedLines? quote rest).map fun (text, rest) => ('\n' :: line ++ text, rest)

/-- Whether a text is blank, or blank before a comment on one line. -/
def isTail (cs : List Char) : Bool :=
  match cs.dropWhile isSpace with
  | [] => true
  | c :: more => c = '#' && !more.contains '\n'

/-- The longest text that a quote at its end closes, if only a comment follows. -/
def quotedValue? (quote : Char) (cs : List Char) : Option (List Char) :=
  let ends := (List.range cs.length).reverse.filter fun n =>
    (cs.drop n).head? = some quote && isTail (cs.drop (n + 1))
  ends.head?.map fun n => cs.take n

/-- What a value is written in. -/
inductive Quoting where
  | none
  | single
  | double
deriving DecidableEq

/-- The value in a text behind the sign of an assignment. -/
def value? (cs : List Char) : Option (List Char) :=
  let quoted := match cs with
    | c :: more =>
      if c = '\'' || c = '"' then (quotedValue? c more).map fun text => c :: text ++ [c]
      else Option.none
    | [] => Option.none
  quoted.or <|
    let plain := cs.takeWhile fun c => c ≠ '#' && c ≠ '\n'
    if isTail (cs.drop plain.length) then some plain else Option.none

/-- The name and the value of an assignment, behind a word that is passed over. -/
def assignment? (cs : List Char) : Option (String × List Char) := do
  let name := cs.takeWhile isNameChar
  if name.isEmpty then failure
  let rest := cs.drop name.length
  let value ← match rest.dropWhile isSpace with
    | '=' :: more => value? (more.dropWhile isSpace)
    | _ =>
      match rest with
      | ':' :: s :: more => if isSpace s then value? more else failure
      | _ => failure
  return (String.ofList name, value)

/-- The name and the value of an assignment. The word `export` may stand before it. -/
def line? (cs : List Char) : Option (String × List Char) :=
  let cs := cs.dropWhile isSpace
  let exported :=
    if "export".toList.isPrefixOf cs && (cs.drop 6).head?.any isSpace then
      assignment? ((cs.drop 6).dropWhile isSpace)
    else none
  exported.or (assignment? cs)

/-- A value without its quotes, and how it was quoted. -/
def unquoted (value : List Char) : List Char × Quoting :=
  let inner := (value.drop 1).dropLast
  if 2 ≤ value.length && value.head? = some '"' && value.getLast? = some '"' then (inner, .double)
  else if 2 ≤ value.length && value.head? = some '\'' && value.getLast? = some '\'' then
    (inner, .single)
  else (value, .none)

/-- Replaces the escapes of line breaks. -/
def unescapeBreaks : List Char → List Char
  | '\\' :: 'n' :: cs => '\n' :: unescapeBreaks cs
  | '\\' :: 'r' :: cs => '\r' :: unescapeBreaks cs
  | c :: cs => c :: unescapeBreaks cs
  | [] => []

/-- Drops backslashes, but not before a dollar sign. -/
def unescape : List Char → List Char
  | '\\' :: c :: cs => if c = '$' then '\\' :: unescape (c :: cs) else c :: unescape cs
  | c :: cs => c :: unescape cs
  | [] => []

def isVariableChar (c : Char) : Bool := c.isUpper || c.isDigit || c = '_'

section
variable {m : Type → Type} [Monad m] (environment : String → m (Option String))

/-- Replaces variables, which have a dollar sign before them, by their values in the environment or
else by those assigned before. A dollar sign behind a backslash stays. -/
def expand (known : List (String × String)) : Nat → List Char → m (List Char)
  | 0, cs => return cs
  | _, [] => return []
  | fuel + 1, c :: cs => do
    let (escaped, rest) := match c, cs with
      | '\\', '$' :: more => (true, some more)
      | '$', more => (false, some more)
      | _, _ => (false, none)
    match rest with
    | none => return c :: (← expand known fuel cs)
    | some rest =>
      let bracket := rest.head? = some '\x7b'
      let inner := if bracket then rest.drop 1 else rest
      let name := inner.takeWhile isVariableChar
      let behind := inner.drop name.length
      let closed := behind.head? = some '\x7d'
      let behind := if closed then behind.drop 1 else behind
      let written := ['$'] ++ (if bracket then ['\x7b'] else []) ++ name ++
        (if closed then ['\x7d'] else [])
      let text ←
        if escaped then pure written
        else do
          let name := String.ofList name
          let found ← environment name
          pure ((found.or (known.lookup name)).getD "").toList
      return text ++ (← expand known fuel behind)

/-- Adds the assignments of lines to those that are known, the latest first. -/
def assignments (known : List (String × String)) :
    Nat → List (List Char) → OptionT m (List (String × String))
  | 0, _ => failure
  | _, [] => return known
  | fuel + 1, line :: rest => do
    let line := trimmed line
    if line.isEmpty || line.head? = some '#' then assignments known fuel rest
    else
      let (line, rest) ← OptionT.mk <| pure <| match openQuote? line with
        | none => some (line, rest)
        | some quote => (quotedLines? quote rest).map fun (text, rest) => (line ++ text, rest)
      let (name, value) ← OptionT.mk (pure (line? line))
      let (text, quoting) := unquoted (trimmed value)
      let text := if quoting = .double then unescape (unescapeBreaks text) else text
      let text ←
        if quoting = .single then pure text
        else OptionT.lift (expand environment known (text.length + 1) text)
      assignments ((name, String.ofList text) :: known) fuel rest

/-- The fields that a text describes. -/
def table? (text : String) : OptionT m Table := do
  let cs := match text.toList with
    | c :: cs => if c.toNat = 0xFEFF then cs else c :: cs
    | [] => []
  let found ← assignments environment [] (cs.length + 2) (lines cs)
  return found.reverse.foldl (fun fields (name, value) => fields.set name (.text value)) []

end

end ClosureLang.Data.Dotenv

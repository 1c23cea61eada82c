import ClosureLang.Data.Yaml.Cursor
import ClosureLang.Text.Numeral

/-! The texts of YAML scalars: plain, quoted, and in blocks. A text that breaks a rule of its form
has no value. -/
namespace ClosureLang.Data.Yaml

/-- Readings that move a cursor, and may fail. -/
abbrev Reader := StateT Cursor Option

namespace Reader

def rest : Reader (List Char) := return (← get).rest

/-- More steps than a reading can take that moves at every step. -/
def bound : Reader Nat := return (← get).left + 1

def skip (n : Nat) : Reader Unit := modify (Cursor.skip n)

def skipWhile (p : Char → Bool) : Reader Unit := modify (Cursor.skipWhile p)

/-- Moves over a line break, if one stands here, and answers it as texts keep it. -/
def lineBreak : Reader (List Char) := do
  let c ← get
  set c.skipBreak
  return c.breakText

def require (p : Bool) : Reader Unit := if p then pure () else failure

end Reader

/-- What separates two words of a text. -/
structure Gap where
  /-- The blanks, if the words are on one line. -/
  blanks : List Char := []
  /-- Whether there are line breaks. -/
  isBroken : Bool := false
  /-- The first line break that counts. -/
  first : List Char := []
  /-- The line breaks after it. -/
  more : List Char := []

namespace Gap

/-- The text that a gap stands for. A single line feed stands for a blank, and further ones for
themselves. -/
def text (g : Gap) : List Char :=
  if !g.isBroken then g.blanks
  else if g.first = ['\n'] then (if g.more.isEmpty then [' '] else g.more)
  else g.first ++ g.more

/-- Reads blanks and line breaks. Tabs to the left of `indent` are an error behind a line break. -/
def readFrom (indent : Int) : Nat → Gap → Reader Gap
  | 0, _ => failure
  | fuel + 1, g => do
    let cursor ← get
    match cursor.rest with
    | [] => return g
    | c :: _ =>
      if isBlank c then
        Reader.require !(g.isBroken && decide (Int.ofNat cursor.column < indent) && c = '\t')
        Reader.skip 1
        readFrom indent fuel (if g.isBroken then g else { g with blanks := g.blanks ++ [c] })
      else if isBreak c then
        let b ← Reader.lineBreak
        readFrom indent fuel <|
          if g.isBroken then { g with more := g.more ++ b } else { isBroken := true, first := b }
      else return g

def read (indent : Int) (g : Gap) : Reader Gap := do
  readFrom indent (← Reader.bound) g

end Gap

namespace Plain

/-- How many characters the word has that starts here. A colon ends it before a blank; inside
brackets, so do the characters that have a meaning there. -/
def wordLength (inFlow : Bool) : List Char → Nat
  | [] => 0
  | c :: cs =>
    if isBlank c || isBreak c || (c = ':' && endsWord cs) ||
        (inFlow && [',', '?', '[', ']', '\x7b', '\x7d'].contains c) then 0
    else wordLength inFlow cs + 1

/-- Reads the words of a plain scalar. The answer also tells whether line breaks follow it. -/
def readFrom (inFlow : Bool) (indent : Int) : Nat → Gap → Reader (List Char × Bool)
  | 0, _ => failure
  | fuel + 1, g => do
    let cursor ← get
    if cursor.atDocumentMark || cursor.rest.head? = some '#' then return ([], g.isBroken)
    let n := wordLength inFlow cursor.rest
    let text := if n = 0 then [] else g.text ++ cursor.rest.take n
    let g := if n = 0 then g else {}
    Reader.skip n
    if !endsWord (← Reader.rest) || (← Reader.rest).isEmpty then return (text, g.isBroken)
    let g ← g.read indent
    if !inFlow && Int.ofNat (← get).column < indent then return (text, g.isBroken)
    let (more, broken) ← readFrom inFlow indent fuel g
    return (text ++ more, broken)

/-- Reads a plain scalar that belongs to a block indented by less than `indent`. -/
def read (inFlow : Bool) (indent : Int) : Reader (String × Bool) := do
  let (text, broken) ← readFrom inFlow indent (← Reader.bound) {}
  return (String.ofList text, broken)

end Plain

namespace Quoted

/-- What an escape stands for, by the character behind the backslash: a character, or as many
hexadecimal digits. -/
def escape? (c : Char) : Option (Char ⊕ Nat) :=
  match c with
  | '0' => some (.inl (Char.ofNat 0))
  | 'a' => some (.inl (Char.ofNat 0x07))
  | 'b' => some (.inl (Char.ofNat 0x08))
  | 't' => some (.inl '\t')
  | '\t' => some (.inl '\t')
  | 'n' => some (.inl '\n')
  | 'v' => some (.inl (Char.ofNat 0x0B))
  | 'f' => some (.inl (Char.ofNat 0x0C))
  | 'r' => some (.inl '\r')
  | 'e' => some (.inl (Char.ofNat 0x1B))
  | ' ' => some (.inl ' ')
  | '"' => some (.inl '"')
  | '\'' => some (.inl '\'')
  | '\\' => some (.inl '\\')
  | 'N' => some (.inl (Char.ofNat 0x85))
  | '_' => some (.inl (Char.ofNat 0xA0))
  | 'L' => some (.inl (Char.ofNat 0x2028))
  | 'P' => some (.inl (Char.ofNat 0x2029))
  | 'x' => some (.inr 2)
  | 'u' => some (.inr 4)
  | 'U' => some (.inr 8)
  | _ => none

/-- Reads the character that `n` hexadecimal digits denote. -/
def hexChar (n : Nat) : Reader Char := do
  let digits := (← Reader.rest).take n
  Reader.require (digits.length = n)
  let code ← (Numeral.ofDigits? 16 digits : Option Nat)
  Reader.require (code.isValidChar)
  Reader.skip n
  return Char.ofNat code

/-- Reads a word of a scalar in double quotes. The answer also tells whether an escaped line break
ends it. -/
def doubleWord : Nat → Reader (List Char × Bool)
  | 0 => failure
  | fuel + 1 => do
    match ← Reader.rest with
    | [] => return ([], false)
    | '"' :: _ => return ([], false)
    | '\\' :: cs =>
      if startsBreak cs then
        Reader.skip 1
        modify Cursor.skipBreak
        return ([], true)
      else
        let e ← (cs.head? : Option Char)
        let meant ← (escape? e : Option (Char ⊕ Nat))
        Reader.skip 2
        let c ← match meant with
          | .inl c => pure c
          | .inr n => hexChar n
        let (more, broken) ← doubleWord fuel
        return (c :: more, broken)
    | c :: _ =>
      if isBlank c || isBreak c then return ([], false)
      else
        Reader.skip 1
        let (more, broken) ← doubleWord fuel
        return (c :: more, broken)

/-- Reads a word of a scalar in single quotes, where a quote is written twice. -/
def singleWord : Nat → Reader (List Char)
  | 0 => failure
  | fuel + 1 => do
    match ← Reader.rest with
    | [] => return []
    | '\'' :: '\'' :: _ =>
      Reader.skip 2
      return '\'' :: (← singleWord fuel)
    | c :: _ =>
      if isBlank c || isBreak c || c = '\'' then return []
      else
        Reader.skip 1
        return c :: (← singleWord fuel)

def readFrom (single : Bool) : Nat → Reader (List Char)
  | 0 => failure
  | fuel + 1 => do
    let cursor ← get
    Reader.require !(cursor.atDocumentMark || cursor.rest.isEmpty)
    let (word, broken) ←
      if single then pure (← singleWord (cursor.left + 1), false) else doubleWord (cursor.left + 1)
    if (← Reader.rest).head? = some (if single then '\'' else '"') then return word
    let g ← Gap.read 0 { isBroken := broken }
    return word ++ g.text ++ (← readFrom single fuel)

/-- Reads a scalar between quotes. -/
def read (single : Bool) : Reader String := do
  Reader.skip 1
  let text ← readFrom single (← Reader.bound)
  Reader.skip 1
  return String.ofList text

end Quoted

namespace Block

/-- Which of the line breaks at its end a block keeps. -/
inductive Tail where
  | none
  | one
  | all
deriving DecidableEq

def tail? : List Char → Option Tail
  | '+' :: _ => some .all
  | '-' :: _ => some .none
  | _ => Option.none

/-- Reads how the end of the block is treated, if it is given. -/
def readTail : Reader (Option Tail) := do
  let found := tail? (← Reader.rest)
  if found.isSome then Reader.skip 1
  return found

/-- Reads by how much the block is indented, if it is given. -/
def readIncrement : Reader Nat := do
  match ← Reader.rest with
  | c :: _ =>
    if c.isDigit then
      Reader.require (c ≠ '0')
      Reader.skip 1
      return Decimal.digitValue c
    else return 0
  | [] => return 0

/-- Reads what stands behind the sign of a block on its line. -/
def readHeader : Reader (Tail × Nat) := do
  let first ← readTail
  let increment ← readIncrement
  let last ← if first.isNone && increment ≠ 0 then readTail else pure first
  Reader.skipWhile isBlank
  if (← Reader.rest).head? = some '#' then modify Cursor.skipLine
  Reader.require ((← Reader.rest).isEmpty || startsBreak (← Reader.rest))
  modify Cursor.skipBreak
  return (last.getD .one, increment)

/-- Reads blank lines and the indentation of the line that follows them. An indentation that is
not known yet is zero. The answer is the line breaks and the deepest indentation. -/
def breaksFrom (indent deepest : Nat) : Nat → Reader (List Char × Nat)
  | 0 => failure
  | fuel + 1 => do
    let c ← get
    let spaces := (c.rest.takeWhile (· = ' ')).length
    let room := indent - c.column
    Reader.skip (if indent = 0 ∨ spaces < room then spaces else room)
    let c ← get
    let deepest := if deepest < c.column then c.column else deepest
    Reader.require !((indent = 0 || c.column < indent) && c.rest.head? = some '\t')
    if startsBreak c.rest then
      let b ← Reader.lineBreak
      let (more, deepest) ← breaksFrom indent deepest fuel
      return (b ++ more, deepest)
    else return ([], deepest)

/-- Reads blank lines. An indentation that is not known yet is the deepest one that is found, but
deeper than the block around. -/
def readBreaks (outer : Int) (indent : Nat) : Reader (List Char × Nat) := do
  let (breaks, deepest) ← breaksFrom indent 0 (← Reader.bound)
  if indent ≠ 0 then return (breaks, indent)
  else
    let least := (outer + 1).toNat
    let found := if deepest < least then least else deepest
    return (breaks, if found < 1 then 1 else found)

/-- Reads the lines of a block. `pending` is the line break behind the last line, and `breaks` the
blank lines after it. Unless the block is literal, a line feed between two lines that do not start
with a blank is folded. -/
def linesFrom (literal : Bool) (outer : Int) (indent : Nat) (tail : Tail) :
    Nat → Bool → List Char → List Char → Reader (List Char)
  | 0, _, _, _ => failure
  | fuel + 1, afterBlank, pending, breaks => do
    let c ← get
    if c.column = indent && !c.rest.isEmpty then
      let startsBlank := c.rest.head?.any isBlank
      let joined :=
        if !literal && !afterBlank && !startsBlank && pending = ['\n'] then
          (if breaks.isEmpty then [' '] else [])
        else pending
      let line := c.rest.takeWhile fun b => !isBreak b
      modify Cursor.skipLine
      let next ← Reader.lineBreak
      let (blankLines, _) ← readBreaks outer indent
      let more ← linesFrom literal outer indent tail fuel startsBlank next blankLines
      return joined ++ breaks ++ line ++ more
    else
      return (if tail = .none then [] else pending) ++ (if tail = .all then breaks else [])

/-- Reads a block of text that belongs to a block indented by `outer`. -/
def read (literal : Bool) (outer : Int) : Reader String := do
  Reader.skip 1
  let (tail, increment) ← readHeader
  let given := if increment = 0 then 0 else if 0 ≤ outer then outer.toNat + increment else increment
  let (breaks, indent) ← readBreaks outer given
  let text ← linesFrom literal outer indent tail (← Reader.bound) false [] breaks
  return String.ofList text

end Block

end ClosureLang.Data.Yaml

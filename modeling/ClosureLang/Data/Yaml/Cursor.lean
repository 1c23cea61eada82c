/-! A place in a YAML text, and the steps that move it forward. -/
namespace ClosureLang.Data.Yaml

def isBlank (c : Char) : Bool := c = ' ' || c = '\t'

/-- Line feeds, carriage returns, next line, and the separators of lines and paragraphs. -/
def isBreak (c : Char) : Bool :=
  c = '\n' || c = '\r' || c.toNat = 0x85 || c.toNat = 0x2028 || c.toNat = 0x2029

/-- The characters of names: anchors, directives, and the handles of tags. -/
def isNameChar (c : Char) : Bool := c.isAlphanum || c = '_' || c = '-'

/-- Characters that may stand in a text. -/
def isAllowed (c : Char) : Bool :=
  let n := c.toNat
  n = 0x09 || n = 0x0A || n = 0x0D || (0x20 ≤ n && n ≤ 0x7E) || n = 0x85 ||
    (0xA0 ≤ n && n ≤ 0xFFFD) || 0x10000 ≤ n

/-- The mark that may stand at the start of a text or a line. -/
def byteOrderMark : Char := Char.ofNat 0xFEFF

/-- Whether a word ends here: at a blank, a line break, or the end of the text. -/
def endsWord : List Char → Bool
  | [] => true
  | c :: _ => isBlank c || isBreak c

def startsBreak : List Char → Bool
  | [] => false
  | c :: _ => isBreak c

/-- Whether a line that starts here is a mark between documents, three times the same character. -/
def isDocumentMark (c : Char) : List Char → Bool
  | a :: b :: d :: cs => a = c && b = c && d = c && endsWord cs
  | _ => false

structure Cursor where
  rest : List Char
  /-- How many characters are left. -/
  left : Nat := rest.length
  /-- How many characters come before. -/
  index : Nat := 0
  line : Nat := 0
  column : Nat := 0
  /-- Whether a line break comes before, with nothing but blanks in between. -/
  fresh : Bool := false

namespace Cursor

/-- Moves over characters that are no line breaks. -/
def skip (n : Nat) (c : Cursor) : Cursor :=
  { c with
    rest := c.rest.drop n, left := c.left - n, index := c.index + n, column := c.column + n
    fresh := c.fresh && (c.rest.take n).all isBlank }

/-- Moves over the line break that stands here. A carriage return and a line feed are one. -/
def skipBreak (c : Cursor) : Cursor :=
  let next (n : Nat) (rest : List Char) : Cursor :=
    { rest, left := c.left - n, index := c.index + n, line := c.line + 1, fresh := true }
  match c.rest with
  | '\r' :: '\n' :: cs => next 2 cs
  | b :: cs => if isBreak b then next 1 cs else c
  | [] => c

/-- The line break that stands here as texts keep it: the separators as they are, all others as a
line feed. -/
def breakText (c : Cursor) : List Char :=
  match c.rest with
  | [] => []
  | b :: _ =>
    if !isBreak b then [] else if 0x2028 ≤ b.toNat then [b] else ['\n']

/-- Moves over one character or line break. -/
def step (c : Cursor) : Cursor := if startsBreak c.rest then c.skipBreak else c.skip 1

def skipWhile (p : Char → Bool) (c : Cursor) : Cursor := c.skip (c.rest.takeWhile p).length

/-- Moves to the end of the line. -/
def skipLine (c : Cursor) : Cursor := c.skipWhile fun b => !isBreak b

/-- Whether a mark between documents stands here. -/
def atDocumentMark (c : Cursor) : Bool :=
  c.column = 0 && (isDocumentMark '-' c.rest || isDocumentMark '.' c.rest)

/-- How many blanks are looked over for a comment. -/
def commentReach : Nat := 512

/-- Moves over a comment behind something else on the same line. -/
def skipLineComment (c : Cursor) : Cursor :=
  let blanks := (c.rest.takeWhile isBlank).length
  if !c.fresh && blanks < commentReach && (c.rest.drop blanks).head? = some '#' then c.skipLine
  else c

/-- How many characters further the next comment starts, if only blank lines come before it. -/
def nextComment? (c : Cursor) : Option Nat :=
  match c.rest with
  | [] => none
  | b :: cs =>
    if b = '\n' || b = '\r' then
      let gap := (cs.takeWhile fun d => isBlank d || d = '\n' || d = '\r').length
      if gap + 1 < commentReach && (cs.drop gap).head? = some '#' then some (gap + 1) else none
    else none

/-- Moves until `index` characters come before. -/
def moveTo (index : Nat) : Nat → Cursor → Cursor
  | 0, c => c
  | fuel + 1, c => if c.index < index then moveTo index fuel c.step else c

/-- Moves over the comment that stands here and over those that follow it, to the end of the line
of the last one. -/
def skipComments : Nat → Cursor → Cursor
  | 0, c => c
  | fuel + 1, c =>
    let c := c.skipLine
    match c.nextComment? with
    | some n => skipComments fuel (moveTo (c.index + n) n c)
    | none => c

/-- Moves to the next token. Blanks, comments and line breaks are passed over; a tab only where it
cannot be taken for indentation, which is where `tabs` holds. The answer tells whether a line
break was passed. -/
def skipToToken (tabs inFlow : Bool) : Nat → Cursor → Bool × Cursor
  | 0, c => (false, c)
  | fuel + 1, c =>
    let c := if c.column = 0 && c.rest.head? = some byteOrderMark then c.skip 1 else c
    let c := c.skipWhile fun b => b = ' ' || (tabs && b = '\t')
    let c := if c.rest.head? = some '#' then c.skipComments c.left else c
    if startsBreak c.rest then
      (true, (skipToToken inFlow inFlow fuel c.skipBreak).2)
    else (false, c)

end Cursor

end ClosureLang.Data.Yaml

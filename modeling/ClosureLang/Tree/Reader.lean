import ClosureLang.Text.Printable
import ClosureLang.Text.Utf8
import ClosureLang.Tree.Canonical
import ClosureLang.Tree.Validate

/-! Reading canonical text back: lexemes, then nested data, then a validated tree. -/
namespace ClosureLang.Canonical

/-- Blanks skipped in front of a lexeme. -/
def isSkipped (c : Char) : Bool := c = ' ' || c = '\t' || c = '\r' || c = '\n'

/-- Characters of tags and symbols: no ASCII blank and no parenthesis. -/
def isSymbolChar (c : Char) : Bool :=
  !(isSkipped c || c = '\x0c' || c = '(' || c = ')')

/-- ASCII letters, digits and the underscore: no integer ends in front of one. -/
def isWordChar (c : Char) : Bool := c.isAlphanum || c = '_'

/-- Where a lexeme starts, in bytes, and what it is. -/
inductive Lexeme where
  | opening (offset : Nat)
  | closing (offset : Nat)
  | tag (text : List Char) (offset : Nat)
  | integer (text : List Char) (offset : Nat)
  | symbol (text : List Char) (offset : Nat)
  | stray (offset : Nat)

def Lexeme.offset : Lexeme → Nat
  | opening o | closing o | tag _ o | integer _ o | symbol _ o | stray o => o

/-- The length of the integer at the start of a text, zero if there is none. -/
def integerLength (cs : List Char) : Nat :=
  let sign := if cs.head? = some '-' then 1 else 0
  let digits := ((cs.drop sign).takeWhile Char.isDigit).length
  let next := (cs.drop (sign + digits)).head?
  if digits = 0 || next.any isWordChar then 0 else sign + digits

/-- The lexeme at the start of a text that is not blank, and how many characters it takes.
Behind an opening parenthesis a tag is read, elsewhere an integer is tried before a symbol. -/
def lexeme (afterOpen : Bool) (offset : Nat) (c : Char) (cs : List Char) : Lexeme × Nat :=
  if c = '(' then (.opening offset, 1)
  else if c = ')' then (.closing offset, 1)
  else if !isSymbolChar c then (.stray offset, 1)
  else
    let word := (c :: cs).takeWhile isSymbolChar
    if afterOpen then (.tag word offset, max 1 word.length)
    else
      let n := integerLength (c :: cs)
      if n = 0 then (.symbol word offset, max 1 word.length)
      else (.integer ((c :: cs).take n) offset, max 1 n)

theorem lexeme_length_pos (afterOpen : Bool) (offset : Nat) (c : Char) (cs : List Char) :
    0 < (lexeme afterOpen offset c cs).2 := by
  simp only [lexeme]
  repeat' split
  all_goals first | exact Nat.one_pos | exact Nat.lt_of_lt_of_le Nat.one_pos (Nat.le_max_left ..)

def Lexeme.isOpening : Lexeme → Bool
  | opening _ => true
  | _ => false

def lexemes (afterOpen : Bool) (offset : Nat) : List Char → List Lexeme
  | [] => []
  | c :: cs =>
    if isSkipped c then lexemes afterOpen (offset + 1) cs
    else
      let l := lexeme afterOpen offset c cs
      l.1 :: lexemes l.1.isOpening (offset + Utf8.size ((c :: cs).take l.2)) ((c :: cs).drop l.2)
termination_by cs => cs.length
decreasing_by
  · simp
  · have := lexeme_length_pos afterOpen offset c cs
    simp only [List.length_drop, List.length_cons]
    omega

/-- Nested data as it stands in the text, before tags are looked up. -/
inductive Datum where
  | integer (text : List Char) (offset : Nat)
  | symbol (text : List Char) (offset : Nat)
  | compound (tag : List Char) (offset : Nat) (items : List Datum)

/-- A compound that is still open; its items are in reverse. -/
structure Open where
  tag : List Char
  offset : Nat
  items : List Datum

def Open.close (f : Open) : Datum := .compound f.tag f.offset f.items.reverse

def Open.add (f : Open) (d : Datum) : Open := { f with items := d :: f.items }

/-- The first datum of a text and the lexemes behind it. The innermost open compound comes first
in the list. -/
def readDatum : List Open → List Lexeme → Option (Datum × List Lexeme)
  | stack, .opening _ :: .tag text offset :: rest => readDatum (⟨text, offset, []⟩ :: stack) rest
  | [], .integer text offset :: rest => some (.integer text offset, rest)
  | [], .symbol text offset :: rest => some (.symbol text offset, rest)
  | f :: stack, .integer text offset :: rest =>
    readDatum (f.add (.integer text offset) :: stack) rest
  | f :: stack, .symbol text offset :: rest => readDatum (f.add (.symbol text offset) :: stack) rest
  | [f], .closing _ :: rest => some (f.close, rest)
  | f :: g :: stack, .closing _ :: rest => readDatum (g.add f.close :: stack) rest
  | _, _ => none

/-- Why a text is not the canonical form of a valid tree. -/
inductive Malformed where
  | noTree
  | trailing (offset : Nat)
  | badInteger (text : String)
  | unknownTag (text : String) (offset : Nat)
  | misshapen (m : Tree.Misshapen)

def Malformed.message (m : Malformed) : String :=
  "malformed canonical form: syntax error" ++
    match m with
    | noTree => ""
    | trailing offset => ": unexpected text at offset " ++ Decimal.natText offset
    | badInteger text => ": bad integer " ++ Text.quoted text
    | unknownTag text offset =>
      ": unknown tag " ++ Text.quoted text ++ " at offset " ++ Decimal.natText offset
    | misshapen m => ": " ++ m.message

mutual

/-- The tree of a datum. An unknown tag is reported before any fault further inside. -/
def treeOf : Datum → Except Malformed Tree
  | .integer text offset =>
    match Decimal.word? text with
    | some value => .ok (.int offset value)
    | none => .error (.badInteger (String.ofList text))
  | .symbol text offset => .ok (.ident offset (String.ofList text))
  | .compound tag offset items =>
    match Form.ofTag? (String.ofList tag) with
    | none => .error (.unknownTag (String.ofList tag) offset)
    | some f =>
      match treesOf items with
      | .ok children => .ok (.form f offset children)
      | .error e => .error e

def treesOf : List Datum → Except Malformed (List Tree)
  | [] => .ok []
  | d :: ds =>
    match treeOf d with
    | .error e => .error e
    | .ok t =>
      match treesOf ds with
      | .error e => .error e
      | .ok ts => .ok (t :: ts)

end

/-- Reads exactly one tree. Offsets are the byte offsets of tags and leaves in the text. -/
def parse (text : String) : Except Malformed Tree :=
  match readDatum [] (lexemes false 0 text.toList) with
  | none => .error .noTree
  | some (_, l :: _) => .error (.trailing l.offset)
  | some (d, []) =>
    match treeOf d with
    | .error e => .error e
    | .ok t =>
      match t.validate with
      | some m => .error (.misshapen m)
      | none => .ok t

end ClosureLang.Canonical

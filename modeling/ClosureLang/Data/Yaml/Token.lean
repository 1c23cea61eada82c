import ClosureLang.Data.Yaml.Scalar
import ClosureLang.Text.Utf8

/-! The tokens of a YAML text. Indentation and keys show themselves late, at a line that is
indented less or at a colon, so tokens wait in a queue until their order is settled. -/
namespace ClosureLang.Data.Yaml

inductive Token where
  | streamEnd
  | versionDirective (major minor : Nat)
  | tagDirective (handle stem : String)
  | documentStart
  | documentEnd
  | blockSequenceStart
  | blockMappingStart
  | blockEnd
  | flowSequenceStart
  | flowSequenceEnd
  | flowMappingStart
  | flowMappingEnd
  | blockEntry
  | flowEntry
  | key
  | value
  | reference (name : String)
  | anchor (name : String)
  | tag (handle suffix : String)
  | scalar (text : String) (isPlain : Bool)
deriving DecidableEq, Repr

namespace Directive

/-- Reads a number of a version. -/
def versionNumber : Reader Nat := do
  let digits := (← Reader.rest).takeWhile Char.isDigit
  Reader.require (digits ≠ [] && digits.length ≤ 2)
  Reader.skip digits.length
  return Decimal.natOfDigits digits

def version : Reader Token := do
  Reader.skipWhile isBlank
  let major ← versionNumber
  Reader.require ((← Reader.rest).head? = some '.')
  Reader.skip 1
  return .versionDirective major (← versionNumber)

end Directive

namespace TagName

/-- Reads the handle of a tag: a name between exclamation marks, the second of which may be
missing unless the handle is being declared. -/
def handle (declared : Bool) : Reader (List Char) := do
  let cs ← Reader.rest
  Reader.require (cs.head? = some '!')
  let name := (cs.drop 1).takeWhile isNameChar
  let isClosed := (cs.drop (name.length + 1)).head? = some '!'
  let text := '!' :: name ++ (if isClosed then ['!'] else [])
  Reader.require (isClosed || !declared || text = ['!'])
  Reader.skip text.length
  return text

/-- Characters of tags that stand for themselves. -/
def isUriChar (c : Char) : Bool := isNameChar c || ";/?:@&=+$,.!~*'()[]".toList.contains c

/-- A byte that is written as a percent sign and two digits. -/
def escapedByte? (cs : List Char) : Option UInt8 :=
  match cs with
  | '%' :: a :: b :: _ => (Numeral.ofDigits? 16 [a, b]).map UInt8.ofNat
  | _ => none

/-- How many bytes a character has that starts with a byte. -/
def widthOf? (b : UInt8) : Option Nat :=
  if b < 0x80 then some 1
  else if 0xC0 ≤ b && b < 0xE0 then some 2
  else if 0xE0 ≤ b && b < 0xF0 then some 3
  else if 0xF0 ≤ b && b < 0xF8 then some 4
  else none

/-- Reads as many escaped bytes, which must continue a character. -/
def continuation : Nat → Reader (List UInt8)
  | 0 => return []
  | n + 1 => do
    let b ← (escapedByte? (← Reader.rest) : Option UInt8)
    Reader.require (Utf8.isContinuation b)
    Reader.skip 3
    return b :: (← continuation n)

/-- Reads a character that is written as escaped bytes. -/
def escapedChar : Reader (List Char) := do
  let b ← (escapedByte? (← Reader.rest) : Option UInt8)
  let width ← (widthOf? b : Option Nat)
  Reader.skip 3
  let more ← continuation (width - 1)
  return (Utf8.chars (b :: more)).map Prod.fst

def uriFrom : Nat → Reader (List Char)
  | 0 => failure
  | fuel + 1 => do
    match ← Reader.rest with
    | [] => return []
    | c :: _ =>
      if c = '%' then return (← escapedChar) ++ (← uriFrom fuel)
      else if isUriChar c then
        Reader.skip 1
        return c :: (← uriFrom fuel)
      else return []

/-- Reads the rest of a tag behind `head`, which is not kept up to its first character. -/
def uri (head : List Char) : Reader (List Char) := do
  let text ← uriFrom (← Reader.bound)
  Reader.require !(head.isEmpty && text.isEmpty)
  return head.drop 1 ++ text

/-- Reads a tag: in angle brackets as it is, with a handle that stands for its beginning, or
without. -/
def read : Reader Token := do
  let token ← match ← Reader.rest with
    | '!' :: '<' :: _ => do
      Reader.skip 2
      let suffix ← uri []
      Reader.require ((← Reader.rest).head? = some '>')
      Reader.skip 1
      pure (Token.tag "" (String.ofList suffix))
    | _ => do
      let h ← handle false
      if 1 < h.length && h.getLast? = some '!' then
        let suffix ← uri []
        pure (Token.tag (String.ofList h) (String.ofList suffix))
      else
        let suffix ← uri h
        pure (if suffix.isEmpty then Token.tag "" "!" else Token.tag "!" (String.ofList suffix))
  Reader.require (endsWord (← Reader.rest))
  return token

/-- Reads what declares a handle and the beginning of tags that it stands for. -/
def directive : Reader Token := do
  Reader.skipWhile isBlank
  let h ← handle true
  Reader.require ((← Reader.rest).head?.any isBlank)
  Reader.skipWhile isBlank
  let stem ← uri []
  Reader.require (endsWord (← Reader.rest))
  return .tagDirective (String.ofList h) (String.ofList stem)

end TagName

/-- Reads a line that directs how the document is read. -/
def Directive.read : Reader Token := do
  Reader.skip 1
  let name := (← Reader.rest).takeWhile isNameChar
  Reader.skip name.length
  Reader.require (!name.isEmpty && endsWord (← Reader.rest))
  let token ←
    if name = "YAML".toList then Directive.version
    else if name = "TAG".toList then TagName.directive
    else failure
  Reader.skipWhile isBlank
  if (← Reader.rest).head? = some '#' then modify Cursor.skipLine
  Reader.require ((← Reader.rest).isEmpty || startsBreak (← Reader.rest))
  modify Cursor.skipBreak
  return token

/-- Reads the name of an anchor or an alias. -/
def anchorName : Reader String := do
  Reader.skip 1
  let name := (← Reader.rest).takeWhile isNameChar
  Reader.skip name.length
  let cs ← Reader.rest
  Reader.require (!name.isEmpty && (endsWord cs || cs.head?.any "?:,]\x7d%@\x60".toList.contains))
  return String.ofList name

/-- A place where a key may have started. -/
structure KeyStart where
  /-- The number of the token that starts there. -/
  token : Nat
  index : Nat
  line : Nat
  column : Nat
  /-- Whether the block around needs a key there. -/
  isRequired : Bool

/-- The state between two tokens. -/
structure Lexer where
  cursor : Cursor
  /-- How far the innermost block is indented. -/
  indent : Int := -1
  /-- The blocks around it. -/
  outer : List Int := []
  /-- How many brackets are open. -/
  flow : Nat := 0
  /-- The possible key of the innermost brackets, and of those around them. -/
  keys : List (Option KeyStart) := [none]
  /-- Whether a key may start here. -/
  keyAllowed : Bool := true
  /-- The tokens that wait. -/
  queue : List Token := []
  /-- How many tokens have been taken from the queue. -/
  taken : Nat := 0

abbrev Lex := StateT Lexer Option

namespace Lex

/-- Runs a reading at the cursor. -/
def reading {α : Type} (r : Reader α) : Lex α := fun l =>
  (r.run l.cursor).map fun (a, cursor) => (a, { l with cursor })

def require (p : Bool) : Lex Unit := if p then pure () else failure

def push (t : Token) : Lex Unit := modify fun l => { l with queue := l.queue ++ [t] }

def allowKey (allowed : Bool) : Lex Unit := modify fun l => { l with keyAllowed := allowed }

/-- Forgets the possible key of the innermost brackets, which must not be a required one. -/
def dropKey : Lex Unit := do
  let l ← get
  match l.keys with
  | some k :: keys =>
    require !k.isRequired
    set { l with keys := none :: keys }
  | _ => return

/-- Notes that a key may start here. -/
def noteKey : Lex Unit := do
  let l ← get
  if l.keyAllowed then
    let k : KeyStart :=
      { token := l.taken + l.queue.length, index := l.cursor.index, line := l.cursor.line
        column := l.cursor.column
        isRequired := l.flow = 0 && l.indent = Int.ofNat l.cursor.column }
    dropKey
    modify fun l => { l with keys := some k :: l.keys.drop 1 }

/-- The longest text of a key. -/
def keyReach : Nat := 1024

/-- Whether a key that started there could end here. A required one must. -/
def isAlive (k : KeyStart) : Lex Bool := do
  let c := (← get).cursor
  if k.line < c.line || k.index + keyReach < c.index then
    require !k.isRequired
    return false
  else return true

/-- How deep blocks and brackets may be nested. -/
def depthLimit : Nat := 10000

/-- Starts a block at a column, unless one is open there. Its token comes before the token with the
given number, or last. -/
def openBlock (column : Nat) (before : Option Nat) (t : Token) : Lex Unit := do
  let l ← get
  if l.flow = 0 && l.indent < Int.ofNat column then
    require (l.outer.length < depthLimit)
    let place := (before.map (· - l.taken)).getD l.queue.length
    set { l with
      outer := l.indent :: l.outer, indent := Int.ofNat column
      queue := l.queue.take place ++ t :: l.queue.drop place }

/-- The blocks that are left at a column, the number of those that end there, and the indentation
of the innermost one that is left. -/
def closedAt (column : Int) : Int → List Int → Nat × Int × List Int
  | indent, [] => (0, indent, [])
  | indent, o :: outer =>
    if column < indent then
      let (n, indent, outer) := closedAt column o outer
      (n + 1, indent, outer)
    else (0, indent, o :: outer)

/-- Ends the blocks that are indented more than a column. -/
def closeBlocks (column : Int) : Lex Unit := modify fun l =>
  if l.flow = 0 then
    let (n, indent, outer) := closedAt column l.indent l.outer
    { l with indent, outer, queue := l.queue ++ List.replicate n .blockEnd }
  else l

/-- Ends all blocks, before something that belongs to no block. -/
def endBlocks : Lex Unit := do
  closeBlocks (-1)
  dropKey
  allowKey false

def streamEnd : Lex Unit := do
  modify fun l =>
    if l.cursor.column = 0 then l
    else { l with cursor := { l.cursor with column := 0, line := l.cursor.line + 1 } }
  endBlocks
  push .streamEnd

def directive : Lex Unit := do
  endBlocks
  push (← reading Directive.read)

def documentMark (t : Token) : Lex Unit := do
  endBlocks
  reading (Reader.skip 3)
  push t

def flowStart (t : Token) : Lex Unit := do
  noteKey
  require ((← get).flow < depthLimit)
  modify fun l => { l with flow := l.flow + 1, keys := none :: l.keys }
  allowKey true
  reading (Reader.skip 1)
  push t

def flowEnd (t : Token) : Lex Unit := do
  dropKey
  modify fun l => if l.flow = 0 then l else { l with flow := l.flow - 1, keys := l.keys.drop 1 }
  allowKey false
  reading (Reader.skip 1)
  push t

def flowEntry : Lex Unit := do
  dropKey
  allowKey true
  reading (Reader.skip 1)
  push .flowEntry

def blockEntry : Lex Unit := do
  let l ← get
  if l.flow = 0 then
    require l.keyAllowed
    openBlock l.cursor.column none .blockSequenceStart
  dropKey
  allowKey true
  reading (Reader.skip 1)
  push .blockEntry

def key : Lex Unit := do
  let l ← get
  if l.flow = 0 then
    require l.keyAllowed
    openBlock l.cursor.column none .blockMappingStart
  dropKey
  allowKey (l.flow = 0)
  reading (Reader.skip 1)
  push .key

/-- The key that ends here, at a colon. -/
def endingKey : Lex (Option KeyStart) := do
  match (← get).keys.head?.join with
  | none => return none
  | some k => return if ← isAlive k then some k else none

def value : Lex Unit := do
  match ← endingKey with
  | some k =>
    modify fun l =>
      let place := k.token - l.taken
      { l with
        queue := l.queue.take place ++ .key :: l.queue.drop place
        keys := none :: l.keys.drop 1 }
    openBlock k.column (some k.token) .blockMappingStart
    allowKey false
  | none =>
    modify fun l => { l with keys := none :: l.keys.drop 1 }
    let l ← get
    if l.flow = 0 then
      require l.keyAllowed
      openBlock l.cursor.column none .blockMappingStart
    allowKey (l.flow = 0)
  reading (Reader.skip 1)
  push .value

/-- A token that may start a key, and that no key follows. -/
def inKey (r : Reader Token) : Lex Unit := do
  noteKey
  allowKey false
  push (← reading r)

def blockText (literal : Bool) : Lex Unit := do
  dropKey
  allowKey true
  let text ← reading (Block.read literal (← get).indent)
  push (.scalar text false)

def plain : Lex Unit := do
  noteKey
  allowKey false
  let l ← get
  let (text, broken) ← reading (Plain.read (0 < l.flow) (l.indent + 1))
  push (.scalar text true)
  if broken then allowKey true

/-- Characters that start no plain scalar. -/
def isIndicator (c : Char) : Bool := "-?:,[]\x7b\x7d#&*!|>'\"%@\x60".toList.contains c

/-- Adds the token that starts with a character. -/
def tokenFrom (c : Char) (cs : List Char) : Lex Unit := do
  let inFlow := 0 < (← get).flow
  if c = '[' then flowStart .flowSequenceStart
  else if c = '\x7b' then flowStart .flowMappingStart
  else if c = ']' then flowEnd .flowSequenceEnd
  else if c = '\x7d' then flowEnd .flowMappingEnd
  else if c = ',' then flowEntry
  else if c = '-' && endsWord cs then blockEntry
  else if c = '?' && (inFlow || endsWord cs) then key
  else if c = ':' && (inFlow || endsWord cs) then value
  else if c = '*' then inKey (.reference <$> anchorName)
  else if c = '&' then inKey (.anchor <$> anchorName)
  else if c = '!' then inKey TagName.read
  else if c = '|' && !inFlow then blockText true
  else if c = '>' && !inFlow then blockText false
  else if c = '\'' then inKey (return .scalar (← Quoted.read true) false)
  else if c = '"' then inKey (return .scalar (← Quoted.read false) false)
  else if !(isIndicator c || endsWord (c :: cs)) || (c = '-' && !cs.head?.any isBlank) ||
      (!inFlow && (c = '?' || c = ':') && !endsWord cs) then plain
  else failure

/-- Adds the next token, and those that it brings with it. -/
def next : Lex Unit := do
  modify fun l =>
    let (passed, cursor) :=
      l.cursor.skipToToken (0 < l.flow || !l.keyAllowed) (0 < l.flow) (l.cursor.left + 1)
    { l with cursor, keyAllowed := l.keyAllowed || (passed && l.flow = 0) }
  let c := (← get).cursor
  closeBlocks (Int.ofNat c.column)
  match c.rest with
  | [] => streamEnd
  | b :: cs =>
    if c.column = 0 && b = '%' then directive
    else if c.column = 0 && isDocumentMark '-' c.rest then documentMark .documentStart
    else if c.column = 0 && isDocumentMark '.' c.rest then documentMark .documentEnd
    else
      tokenFrom b cs
      if (← get).queue.getLast? ≠ some .blockEntry then
        modify fun l => { l with cursor := l.cursor.skipLineComment }

/-- Forgets a possible key at some depth. -/
def forget (number : Nat) : Lex Unit := modify fun l =>
  { l with keys := l.keys.map (·.filter (·.token ≠ number)) }

/-- Whether the first token that waits might still turn out to start a key. -/
def isOpen : Lex Bool := do
  let l ← get
  match l.keys.find? (·.any (·.token = l.taken)) with
  | none => return false
  | some none => return false
  | some (some k) =>
    if ← isAlive k then return true
    else
      forget k.token
      return false

/-- How many tokens wait before the first one is settled. -/
def lookahead : Nat := 3

def fill : Nat → Lex Unit
  | 0 => failure
  | fuel + 1 => do
    if lookahead ≤ (← get).queue.length then
      if !(← isOpen) then return
    next
    fill fuel

/-- The first token that waits. -/
def peek : Lex Token := do
  fill ((← get).cursor.left + 8)
  ((← get).queue.head? : Option Token)

/-- Takes the first token that waits. -/
def take : Lex Unit := modify fun l => { l with queue := l.queue.drop 1, taken := l.taken + 1 }

end Lex

end ClosureLang.Data.Yaml

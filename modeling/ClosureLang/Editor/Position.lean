import ClosureLang.Grammar.Lexis
import ClosureLang.Location
import ClosureLang.Text.Blank

/-! Places in a document as editors count them, and the words and blocks found there. -/
namespace ClosureLang.Editor

/-- Lines and characters count from zero. -/
structure Position where
  line : Nat
  character : Nat
deriving DecidableEq, Repr

structure Range where
  start : Position
  stop : Position
deriving DecidableEq, Repr

namespace Position

def ofLocation (loc : Location) : Position :=
  ⟨(loc.line - 1).toNat, (loc.col - 1).toNat⟩

/-- The position of a byte offset. -/
def ofOffset (content : String) (offset : Int) : Position :=
  ofLocation (Location.locate "" content offset)

/-- The bytes of some lines and the line feeds behind them. -/
def lineBytes : List String → Nat
  | [] => 0
  | l :: ls => l.utf8ByteSize + 1 + lineBytes ls

/-- The byte offset of a position. A position behind the end of its line is taken as that end; a
line that does not exist has no offset. -/
def offset? (content : String) (p : Position) : Option Nat :=
  let lines := Text.lines content
  match lines[p.line]? with
  | none => none
  | some line =>
    some (lineBytes (lines.take p.line) + Utf8.size (line.toList.take p.character))

end Position

/-- The range of `n` bytes from an offset on. -/
def Range.ofBytes (content : String) (offset : Int) (n : Nat) : Range :=
  ⟨.ofOffset content offset, .ofOffset content (offset + n)⟩

/-- The identifier around a position, also if the position is just behind it. The character of
the position counts bytes here. -/
def wordAt (content : String) (p : Position) : String :=
  match (Text.lines content)[p.line]? with
  | none => ""
  | some line =>
    let bytes := line.toUTF8.toList
    if bytes.length < p.character then ""
    else
      let before := ((bytes.take p.character).reverse.takeWhile Grammar.isIdentByte).reverse
      let after := (bytes.drop p.character).takeWhile Grammar.isIdentByte
      String.ofList ((before ++ after).map fun b => Char.ofNat b.toNat)

/-- The length of the word at an offset, or one for any other character. It is zero outside the
text. -/
def tokenLength (content : String) (offset : Int) : Nat :=
  if offset < 0 ∨ content.utf8ByteSize ≤ offset then 0
  else max 1 (Grammar.runEnd Grammar.isIdentByte content.toUTF8 offset.toNat - offset.toNat)

/-- Where the brace closing the `depth` open blocks stands, counted from `pos` on; braces in
comments do not count. -/
def closingFrom (inComment : Bool) (depth pos : Nat) : List UInt8 → Option Nat
  | [] => none
  | b :: bs =>
    if inComment then closingFrom (b ≠ Grammar.lineFeed) depth (pos + 1) bs
    else if b = Grammar.hash then closingFrom true depth (pos + 1) bs
    else if b = 0x7b then closingFrom false (depth + 1) (pos + 1) bs
    else if b = 0x7d then
      if depth ≤ 1 then some pos else closingFrom false (depth - 1) (pos + 1) bs
    else closingFrom false depth (pos + 1) bs

/-- The offset of the brace that matches the one at `opening`, or the end of the text. -/
def closingBrace (src : String) (opening : Int) : Nat :=
  let size := src.utf8ByteSize
  if opening < 0 ∨ size ≤ opening then size
  else
    match Utf8.bytesOf src opening.toNat size with
    | 0x7b :: bs => (closingFrom false 1 (opening.toNat + 1) bs).getD size
    | _ => size

def fileScheme : String := "file://"

/-- The path that an address names. -/
def pathOfUri (uri : String) : String := Text.stripStart uri fileScheme

/-- The address of a path; relative paths are addresses already. -/
def uriOfPath (path : String) : String :=
  if Text.startsWith path "/" then fileScheme ++ path else path

/-- Whether a text can be used as an identifier. -/
def isName (name : String) : Bool :=
  match name.toUTF8.toList with
  | [] => false
  | b :: bs => Grammar.isIdentStart b && bs.all Grammar.isIdentByte && !Grammar.isReserved name

end ClosureLang.Editor

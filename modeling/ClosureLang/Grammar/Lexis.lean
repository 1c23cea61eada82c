/-! Bytes, words and blanks of program text. Program text is read byte by byte; outside comments
only ASCII can be part of a program. -/
namespace ClosureLang.Grammar

/-- The reserved words, sorted. -/
def keywords : List String := ["else", "func", "if", "int", "print", "ret", "var", "while"]

def isReserved (word : String) : Bool := keywords.contains word

def isDigitByte (b : UInt8) : Bool := 48 ≤ b && b ≤ 57

def isIdentStart (b : UInt8) : Bool := b = 95 || (97 ≤ b && b ≤ 122) || (65 ≤ b && b ≤ 90)

def isIdentByte (b : UInt8) : Bool := isIdentStart b || isDigitByte b

def isBlankByte (b : UInt8) : Bool := b = 32 || b = 9 || b = 10 || b = 13

/-- The byte that starts a comment. -/
def hash : UInt8 := 35

def lineFeed : UInt8 := 10

/-- Whether the ASCII text `cs` stands at `pos`. -/
def holds (src : ByteArray) : Nat → List Char → Bool
  | _, [] => true
  | pos, c :: cs => src[pos]? = some (UInt8.ofNat c.toNat) && holds src (pos + 1) cs

/-- How many of the next `limit` bytes satisfy `p` before one does not. -/
def runLength (p : UInt8 → Bool) (src : ByteArray) : Nat → Nat → Nat
  | 0, _ => 0
  | limit + 1, pos => if (src[pos]?).any p then runLength p src limit (pos + 1) + 1 else 0

/-- Where the longest run of bytes satisfying `p` from `pos` on ends. -/
def runEnd (p : UInt8 → Bool) (src : ByteArray) (pos : Nat) : Nat :=
  pos + runLength p src (src.size - pos) pos

/-- How many of the next `limit` bytes are blank or part of a comment. -/
def layoutLength (src : ByteArray) : Bool → Nat → Nat → Nat
  | _, 0, _ => 0
  | inComment, limit + 1, pos =>
    match src[pos]? with
    | none => 0
    | some b =>
      if inComment then layoutLength src (b ≠ lineFeed) limit (pos + 1) + 1
      else if isBlankByte b then layoutLength src false limit (pos + 1) + 1
      else if b = hash then layoutLength src true limit (pos + 1) + 1
      else 0

/-- Where the blanks and comments from `pos` on end. -/
def layoutEnd (src : ByteArray) (pos : Nat) : Nat :=
  pos + layoutLength src false (src.size - pos) pos

/-- The ASCII text between two offsets. -/
def asciiText (src : ByteArray) (start stop : Nat) : List Char :=
  (src.extract start stop).toList.map fun b => Char.ofNat b.toNat

end ClosureLang.Grammar

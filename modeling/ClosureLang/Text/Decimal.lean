/-! Decimal text of integers, and the words that read back from it. -/
namespace ClosureLang.Decimal

/-- The decimal digits of a natural number, most significant first. -/
def natChars (n : Nat) : List Char := Nat.toDigits 10 n

/-- A minus sign, if needed, and the digits of the absolute value. -/
def intChars : Int → List Char
  | .ofNat n => natChars n
  | .negSucc n => '-' :: natChars (n + 1)

def natText (n : Nat) : String := String.ofList (natChars n)

def intText (i : Int) : String := String.ofList (intChars i)

def wordText (w : Int64) : String := intText w.toInt

def digitValue (c : Char) : Nat := c.toNat - '0'.toNat

/-- The number that a run of digits denotes; no digits denote zero. -/
def natOfDigits (cs : List Char) : Nat :=
  cs.foldl (fun n c => 10 * n + digitValue c) 0

/-- A non-empty run of digits as a number. -/
def nat? (cs : List Char) : Option Nat :=
  if cs ≠ [] ∧ cs.all Char.isDigit then some (natOfDigits cs) else none

/-- Digits with an optional sign as a number. -/
def int? : List Char → Option Int
  | '-' :: cs => (nat? cs).map fun n => -(n : Int)
  | '+' :: cs => (nat? cs).map Int.ofNat
  | cs => (nat? cs).map Int.ofNat

/-- The number of 64-bit words. -/
def wordCount : Nat := 18446744073709551616

/-- Signed 64-bit words are below this number, and not below its negative. -/
def wordLimit : Nat := 9223372036854775808

/-- A decimal that fits in a 64-bit signed word. -/
def word? (cs : List Char) : Option Int64 :=
  match int? cs with
  | some i =>
    if -Int.ofNat wordLimit ≤ i ∧ i < Int.ofNat wordLimit then some (Int64.ofInt i) else none
  | none => none

end ClosureLang.Decimal

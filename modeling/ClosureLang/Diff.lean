import ClosureLang.Text.Utf8

/-! Line diffs of byte strings. Lines are matched by a longest common subsequence. -/
namespace ClosureLang.Diff

/-- A line without its line feed, or any other run of bytes. -/
abbrev Bytes := List UInt8

def lineFeed : UInt8 := 10

/-- The lines of a text. A line feed ends a line, so a text that ends in one has no further line. -/
def linesOf : Bytes → List Bytes
  | [] => []
  | b :: bs =>
    if b = lineFeed then [] :: linesOf bs
    else match linesOf bs with
      | [] => [[b]]
      | line :: lines => (b :: line) :: lines

/-- A line that is in both texts, in the first only, or in the second only. -/
inductive Line where
  | kept (text : Bytes)
  | removed (text : Bytes)
  | added (text : Bytes)
deriving DecidableEq

namespace Line

def keptMark : UInt8 := 0x20

def removedMark : UInt8 := 0x2d

def addedMark : UInt8 := 0x2b

def bytes : Line → Bytes
  | kept text => keptMark :: text
  | removed text => removedMark :: text
  | added text => addedMark :: text

end Line

/-- The entry in row `i` and column `j` is the length of a longest common subsequence of what both
texts have from their lines `i` and `j` on. -/
abbrev Table := Array (Array Nat)

namespace Table

/-- An entry; there is none outside the table. -/
def at? (t : Table) (i j : Nat) : Option Nat := t[i]?.bind (·[j]?)

/-- Writes an entry, which fails outside the table. -/
def set? (t : Table) (i j n : Nat) : Option Table :=
  if (t.at? i j).isSome then some (t.modify i (·.setIfInBounds j n)) else none

/-- Computes an entry from those below it and to its right. -/
def fillEntry (a b : Array Bytes) (i j : Nat) (t : Table) : Option Table := do
  let x ← a[i]?
  let y ← b[j]?
  if x = y then
    t.set? i j ((← t.at? (i + 1) (j + 1)) + 1)
  else
    t.set? i j (max (← t.at? (i + 1) j) (← t.at? i (j + 1)))

/-- Computes the first `n` entries of a row, the last first. -/
def fillRow (a b : Array Bytes) (i : Nat) : Nat → Table → Option Table
  | 0, t => some t
  | j + 1, t => (t.fillEntry a b i j).bind (fillRow a b i j)

/-- Computes the first `n` rows, the last first. -/
def fillRows (a b : Array Bytes) : Nat → Table → Option Table
  | 0, t => some t
  | i + 1, t => (t.fillRow a b i b.size).bind (fillRows a b i)

def of? (a b : Array Bytes) : Option Table :=
  fillRows a b a.size (.replicate (a.size + 1) (.replicate (b.size + 1) 0))

end Table

/-- Whether a line is dropped on the left where the texts differ: where this keeps the longer common
subsequence, or one as long, and where nothing is left on the right. -/
def dropsLeft (a b : Array Bytes) (t : Table) (i j : Nat) : Option Bool := do
  if j = b.size then return true
  else if i < a.size then return (← t.at? i (j + 1)) ≤ (← t.at? (i + 1) j)
  else return false

/-- Goes through both texts at once. It fails if it comes to a line or an entry that is not
there. -/
def scriptFrom? (a b : Array Bytes) (t : Table) (i j : Nat) : Option (List Line) :=
  if i < a.size ∨ j < b.size then
    if i < a.size ∧ j < b.size ∧ a[i]? = b[j]? then
      if _hi : i < a.size then (scriptFrom? a b t (i + 1) (j + 1)).map (.kept a[i] :: ·) else none
    else
      (dropsLeft a b t i j).bind fun left =>
        if left then
          if _hi : i < a.size then (scriptFrom? a b t (i + 1) j).map (.removed a[i] :: ·) else none
        else
          if _hj : j < b.size then (scriptFrom? a b t i (j + 1)).map (.added b[j] :: ·) else none
  else some []
termination_by (a.size - i) + (b.size - j)

def script? (a b : Array Bytes) : Option (List Line) :=
  (Table.of? a b).bind fun t => scriptFrom? a b t 0 0

def ascii (s : String) : Bytes := s.toList.map fun c => UInt8.ofNat c.toNat

def headers (path : Bytes) : Bytes :=
  ascii "--- " ++ path ++ [lineFeed] ++ ascii "+++ " ++ path ++ [lineFeed]

/-- The diff of two versions of a file. -/
def bytes? (path before after : Bytes) : Option Bytes :=
  (script? (linesOf before).toArray (linesOf after).toArray).map fun script =>
    headers path ++ script.flatMap fun line => line.bytes ++ [lineFeed]

/-- The diff of two versions of a file, as a text. -/
def text (path before after : String) : String :=
  let bytesOf (s : String) : Bytes := s.toUTF8.data.toList
  String.ofList (Utf8.decode ((bytes? (bytesOf path) (bytesOf before) (bytesOf after)).getD []))

end ClosureLang.Diff

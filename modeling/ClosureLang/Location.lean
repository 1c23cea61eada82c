import ClosureLang.Text.Decimal
import ClosureLang.Text.Utf8

/-! Places in a text: byte offsets, and the lines and columns that people read. -/
namespace ClosureLang

/-- Lines and columns start at one; zero stands for unknown. -/
structure Location where
  file : String
  /-- Byte offset, negative if unknown. -/
  pos : Int
  line : Int
  /-- Counted in characters. -/
  col : Int

namespace Location

def text (loc : Location) : String :=
  if loc.pos < 0 then loc.file
  else if loc.line = 0 then loc.file ++ "[" ++ Decimal.intText loc.pos ++ "]"
  else if loc.col = 0 then loc.file ++ ":" ++ Decimal.intText loc.line
  else loc.file ++ ":" ++ Decimal.intText loc.line ++ ":" ++ Decimal.intText loc.col

/-- A message attributed to a place. -/
def annotate (loc : Location) (message : String) : String := loc.text ++ ": " ++ message

def newline : UInt8 := 10

/-- The number of line feeds in the bytes and the bytes behind the last of them. -/
def lastLine (bytes : List UInt8) : Nat × List UInt8 :=
  (bytes.count newline, (bytes.reverse.takeWhile (· ≠ newline)).reverse)

/-- The line and column of a byte offset; offsets behind the end count as the end. -/
def locate (file src : String) (pos : Int) : Location :=
  if pos < 0 then ⟨file, pos, 0, 0⟩
  else
    let stop := min pos.toNat src.utf8ByteSize
    let (feeds, line) := lastLine (Utf8.bytesOf src 0 stop)
    ⟨file, stop, feeds + 1, Utf8.count line + 1⟩

end Location

end ClosureLang

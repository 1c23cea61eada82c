import ClosureLang.Text.Width

/-! Indentation of every line of a text, with colours switched off across the inserted blanks. -/
namespace ClosureLang.Text

/-- What has to be remembered between two characters. -/
structure Indenter where
  /-- Inside an escape sequence, as the line splitter sees it. -/
  inEscape : Bool := false
  /-- The current line already has its indentation. -/
  indented : Bool := false
  /-- Inside an escape sequence, as the colour tracker sees it. -/
  collecting : Bool := false
  /-- The part of an escape sequence read so far. -/
  sequence : List Char := []
  /-- The colour sequences since the last reset. -/
  colours : List Char := []
  /-- Some sequence was seen since the last reset. -/
  coloured : Bool := false
  /-- The text written so far, in reverse. -/
  written : List Char := []

namespace Indenter

def write (w : Indenter) (cs : List Char) : Indenter :=
  { w with written := cs.reverse ++ w.written }

/-- Passes one character on, keeping track of the colours. An escape sequence is written when it
ends. -/
def pass (w : Indenter) (c : Char) : Indenter :=
  if c = escape then
    { w with collecting := true, coloured := true, sequence := w.sequence ++ [c] }
  else if w.collecting then
    let sequence := w.sequence ++ [c]
    if endsEscape c then
      let w := { w with collecting := false, sequence := [] }
      let w :=
        if resetSequence.isPrefixOf sequence then { w with colours := [], coloured := false }
        else if c = 'm' then { w with colours := w.colours ++ sequence }
        else w
      w.write sequence
    else { w with sequence }
  else w.write [c]

def startLine (n : Nat) (w : Indenter) : Indenter :=
  let w := if w.coloured then w.write resetSequence else w
  let w := (List.replicate n ' ').foldl pass w
  { w with indented := true }.write w.colours

def step (n : Nat) (w : Indenter) (c : Char) : Indenter :=
  let w :=
    if c = escape then { w with inEscape := true }
    else if w.inEscape then { w with inEscape := !isLetter c }
    else
      let w := if w.indented then w else w.startLine n
      if c = '\n' then { w with indented := false } else w
  w.pass c

end Indenter

/-- The text with `n` blanks in front of each line. -/
def indent (n : Nat) (s : String) : String :=
  String.ofList (s.toList.foldl (Indenter.step n) {}).written.reverse

end ClosureLang.Text

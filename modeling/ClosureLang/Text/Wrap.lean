import ClosureLang.Text.Blank
import ClosureLang.Text.Utf8
import ClosureLang.Text.Width

/-! Greedy word wrapping. Lines break at blanks and after hyphens; existing line breaks stay. -/
namespace ClosureLang.Text

structure Wrapper where
  /-- Columns used on the current line. Pending blanks and hyphens are not in it. -/
  used : Nat := 0
  /-- Blanks read since the last word. -/
  space : List Char := []
  /-- The word being read. -/
  word : List Char := []
  inEscape : Bool := false
  /-- The text written so far, in reverse. -/
  written : List Char := []

namespace Wrapper

def write (w : Wrapper) (cs : List Char) : Wrapper := { w with written := cs.reverse ++ w.written }

def flushSpace (w : Wrapper) : Wrapper :=
  { w with used := w.used + Utf8.size w.space, space := [] }.write w.space

def flushWord (w : Wrapper) : Wrapper :=
  if w.word.isEmpty then w
  else
    let w := w.flushSpace
    { w with used := w.used + columns w.word, word := [] }.write w.word

def breakLine (w : Wrapper) : Wrapper := { w with used := 0, space := [] }.write ['\n']

/-- Blanks before a line break are kept if they fit. -/
def endLine (limit : Nat) (w : Wrapper) : Wrapper :=
  let w :=
    if w.word.isEmpty then
      if w.used + Utf8.size w.space > limit then { w with used := 0, space := [] }
      else { w with space := [] }.write w.space
    else w
  w.flushWord.breakLine

def step (limit : Nat) (w : Wrapper) (c : Char) : Wrapper :=
  if c = escape then { w with word := w.word ++ [c], inEscape := true }
  else if w.inEscape then { w with word := w.word ++ [c], inEscape := !endsEscape c }
  else if c = '\n' then w.endLine limit
  else if isBlank c then
    let w := w.flushWord
    { w with space := w.space ++ [c] }
  else if c = '-' then w.flushSpace.flushWord.write [c]
  else
    let w := { w with word := w.word ++ [c] }
    if w.used + Utf8.size w.space + columns w.word > limit ∧ columns w.word < limit
    then w.breakLine
    else w

end Wrapper

/-- The text broken into lines of at most `limit` columns where its words allow it. -/
def wrap (limit : Nat) (s : String) : String :=
  String.ofList (s.toList.foldl (Wrapper.step limit) {}).flushWord.written.reverse

end ClosureLang.Text

import ClosureLang.Text.Blank
import ClosureLang.Text.Decimal
import ClosureLang.Tree.Basic

/-! Canonical text: compound nodes as `(tag child ...)`, leaves bare. -/
namespace ClosureLang.Tree

mutual

def chars : Tree → List Char
  | absent => ['(', ')']
  | node (.integer value) _ _ => Decimal.intChars value.toInt
  | node (.ident name) _ _ => name.toList
  | node (.form f) _ cs => '(' :: f.tag.toList ++ charsOfChildren cs ++ [')']

def charsOfChildren : List Tree → List Char
  | [] => []
  | c :: cs => ' ' :: chars c ++ charsOfChildren cs

end

def canonical (t : Tree) : String := String.ofList t.chars

end ClosureLang.Tree

namespace ClosureLang.Canonical

/-- What the normal form remembers of the text before: whether it is empty or ends in an opening
parenthesis, and whether blanks are pending. -/
structure Spacing where
  empty : Bool := true
  afterOpen : Bool := false
  pending : Bool := false

/-- Runs of blanks become one space, and blanks beside parentheses and at both ends go. -/
def normalizeFrom (s : Spacing) : List Char → List Char
  | [] => []
  | c :: cs =>
    if Text.isBlank c then normalizeFrom { s with pending := !s.empty } cs
    else if c = ')' then c :: normalizeFrom { empty := false } cs
    else
      let rest := c :: normalizeFrom { empty := false, afterOpen := c = '(' } cs
      if s.pending && !s.afterOpen then ' ' :: rest else rest

def normalize (text : String) : String := String.ofList (normalizeFrom {} text.toList)

end ClosureLang.Canonical

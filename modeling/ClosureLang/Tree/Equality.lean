import ClosureLang.Tree.Basic

/-! Structural comparison of trees, with or without offsets. Leaves compare by payload alone. -/
namespace ClosureLang.Tree

mutual

def agree (offsets : Bool) : Tree → Tree → Bool
  | absent, absent => true
  | node (.integer m) p _, node (.integer n) q _ => (!offsets || p = q) && m = n
  | node (.ident x) p _, node (.ident y) q _ => (!offsets || p = q) && x = y
  | node (.form f) p cs, node (.form g) q ds =>
    (!offsets || p = q) && f = g && agreeAll offsets cs ds
  | _, _ => false

def agreeAll (offsets : Bool) : List Tree → List Tree → Bool
  | [], [] => true
  | c :: cs, d :: ds => agree offsets c d && agreeAll offsets cs ds
  | _, _ => false

end

/-- Equal kinds, offsets, payloads and children. -/
def equal (a b : Tree) : Bool := agree true a b

/-- Equality up to offsets. -/
def similar (a b : Tree) : Bool := agree false a b

end ClosureLang.Tree

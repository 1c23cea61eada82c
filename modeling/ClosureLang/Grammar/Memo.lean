import ClosureLang.Tree.Basic

/-! The table of rule applications that a parse fills, with its counters. -/
namespace ClosureLang.Grammar

/-- The rules of the grammar. Skipping blanks and comments is a rule too. -/
inductive Rule where
  | space | program | statement | declare | assign | print | ifElse | ifThen | whileDo | ret
  | exprStatement | block | expr | and | not | compare | add | mul | unary | call | primary
  | paren | function | param | type | ident | integer
deriving DecidableEq, Repr

def Rule.all : List Rule :=
  [space, program, statement, declare, assign, print, ifElse, ifThen, whileDo, ret, exprStatement,
    block, expr, and, not, compare, add, mul, unary, call, primary, paren, function, param, type,
    ident, integer]

/-- A successful rule application. -/
structure Match where
  node : Tree
  /-- The type annotation that comes with the node, if any. -/
  type : String := ""
  /-- The offset behind the match and the blanks after it. -/
  stop : Nat

/-- What a rule application came to; `none` is failure. -/
abbrev Outcome := Option Match

structure Memo where
  /-- The outcomes known so far, by offset. -/
  rows : Array (List (Rule × Outcome))
  hits : Nat := 0
  misses : Nat := 0
  /-- The farthest offset at which a token was missing. -/
  farthest : Nat := 0

namespace Memo

/-- The empty table for a text of `size` bytes. -/
def empty (size : Nat) : Memo := { rows := Array.replicate (size + 1) [] }

def find? (m : Memo) (r : Rule) (pos : Nat) : Option Outcome := ((m.rows[pos]?).getD []).lookup r

def insert (m : Memo) (r : Rule) (pos : Nat) (out : Outcome) : Memo :=
  { m with rows := m.rows.modify pos ((r, out) :: ·) }

def hit (m : Memo) : Memo := { m with hits := m.hits + 1 }

def miss (m : Memo) : Memo := { m with misses := m.misses + 1 }

/-- Records that a token was missing at `pos`. -/
def reach (m : Memo) (pos : Nat) : Memo := { m with farthest := max m.farthest pos }

/-- The number of outcomes in the table. -/
def size (m : Memo) : Nat := m.rows.foldl (fun n row => n + row.length) 0

end Memo

end ClosureLang.Grammar

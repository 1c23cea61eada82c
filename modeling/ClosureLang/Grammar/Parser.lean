import ClosureLang.Grammar.Rules

/-! Parsers: the rules applied through the memo table, and whole texts. -/
namespace ClosureLang.Grammar

/-- Applies a rule through the table. Each nested application either starts further right or is
of a rule lower in the grammar, so a depth of one application per rule and offset is enough. -/
def applyMemo (src : ByteArray) : Nat → Rule → Nat → Parse Outcome
  | 0, _, _ => return none
  | depth + 1, r, pos => do
    match (← get).find? r pos with
    | some out =>
      modify Memo.hit
      return out
    | none =>
      modify Memo.miss
      let out ← body src (applyMemo src depth) r pos
      modify (·.insert r pos out)
      return out

def depthBound (src : ByteArray) : Nat := Rule.all.length * (src.size + 1) + 1

/-- A text is no complete program; `offset` is the farthest place at which a token was missing. -/
structure SyntaxError where
  offset : Nat

def SyntaxError.message (_ : SyntaxError) : String := "syntax error"

/-- A parser keeps its table as long as it is given the same text. -/
structure Parser where
  /-- The current text and its table, once there is one. -/
  current : Option (String × Memo) := none

namespace Parser

def memoFor (p : Parser) (src : String) : Memo :=
  match p.current with
  | some (text, memo) => if text = src then memo else .empty src.utf8ByteSize
  | none => .empty src.utf8ByteSize

def memo (p : Parser) : Memo :=
  match p.current with
  | some (_, memo) => memo
  | none => .empty 0

/-- Parses the whole text by one rule. -/
def parseAll (p : Parser) (start : Rule) (src : String) : Except SyntaxError Tree × Parser :=
  let bytes := src.toUTF8
  let (out, memo) := (applyMemo bytes (depthBound bytes) start 0).run (p.memoFor src)
  let result :=
    match out with
    | some m => if m.stop = bytes.size then .ok m.node else .error ⟨memo.farthest⟩
    | none => .error ⟨memo.farthest⟩
  (result, ⟨some (src, memo)⟩)

end Parser

/-- The tree of a complete program. -/
def parseProgram (src : String) : Except SyntaxError Tree := (Parser.parseAll {} .program src).1

/-- The tree of a single expression. -/
def parseExpression (src : String) : Except SyntaxError Tree := (Parser.parseAll {} .expr src).1

section Accepted

variable {result : Except SyntaxError Tree}

theorem exists_ok_of_isSome (h : result.toOption.isSome = true) : ∃ t, result = .ok t := by
  cases result with
  | error e => cases h
  | ok t => exact ⟨t, rfl⟩

/-- What passes a check is the tree of a text that is accepted. -/
theorem exists_ok_of_any {check : Tree → Bool} (h : result.toOption.any check = true) :
    ∃ t, result = .ok t ∧ check t = true := by
  cases result with
  | error e => cases h
  | ok t => exact ⟨t, rfl, h⟩

end Accepted

end ClosureLang.Grammar

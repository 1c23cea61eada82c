import ClosureLang.Grammar.Lexis
import ClosureLang.Proofs.Grammar.Peg
import ClosureLang.Text.Decimal
import ClosureLang.Tree.Basic

/-! The grammar of programs as a parsing expression grammar, with the tree of every match. -/
namespace ClosureLang.Grammar

inductive Nonterminal where
  | program | statement | declare | assign | print | ifElse | ifThen | whileDo | ret
  | exprStatement | block | expr | and | not | compare | add | mul | unary | call | primary
  | function
deriving DecidableEq

abbrev Pattern := Peg Nonterminal Tree

namespace Pattern

variable {α β : Type}

def map (f : α → β) (a : Pattern α) : Pattern β := .act (fun x => some (f x)) a

def fail : Pattern α := .act (fun _ => none) .offset

/-- Characters of ASCII, one byte each. -/
def text : List Char → Pattern Unit
  | [] => map (fun _ => ()) .offset
  | c :: cs => map (fun _ => ()) (.seq (.byte (· = UInt8.ofNat c.toNat)) (text cs))

/-- Blanks and comments. A comment ends before the line feed. -/
def space : Pattern Unit :=
  map (fun _ => ()) (.star (.alt
    (map (fun _ => ()) (.byte isBlankByte))
    (map (fun _ => ()) (.seq (.byte (· = hash)) (.star (.byte (· ≠ lineFeed)))))))

/-- A token skips the blanks and comments around it. The value comes with the token's offset. -/
def token (a : Pattern α) : Pattern (Nat × α) :=
  map (fun m => (m.2.1, m.2.2.1)) (.seq space (.seq .offset (.seq a space)))

def lit (s : String) : Pattern Nat := map Prod.fst (token (text s.toList))

/-- No identifier character follows a keyword. -/
def word (s : String) : Pattern Nat :=
  map Prod.fst (token (.seq (text s.toList) (.without (.byte isIdentByte))))

/-- One byte of a class and all that follow of another. -/
def run (first others : UInt8 → Bool) : Pattern (List Char) :=
  map (fun m => (m.1 :: m.2).map fun b => Char.ofNat b.toNat)
    (.seq (.byte first) (.star (.byte others)))

/-- Reserved words are no identifiers. -/
def name (cs : List Char) : Option String :=
  if isReserved (String.ofList cs) then none else some (String.ofList cs)

def ident : Pattern Tree :=
  map (fun m => .ident m.1 m.2) (token (.act name (run isIdentStart isIdentByte)))

/-- Literals have to fit in a signed word of 64 bits. -/
def literal (cs : List Char) : Option Int64 :=
  if Decimal.natOfDigits cs < Decimal.wordLimit then some (Int64.ofNat (Decimal.natOfDigits cs))
  else none

def integer : Pattern Tree :=
  map (fun m => .int m.1 m.2) (token (.act literal (run isDigitByte isDigitByte)))

/-- `'int' | 'func'`, as a type tag. -/
def type : Pattern Tree :=
  .alt (map (fun p : Nat => .ident p "int") (word "int"))
    (map (fun p : Nat => .ident p "func") (word "func"))

/-- `type? ident` -/
def param : Pattern (Option Tree × Tree) := .seq (.opt type) ident

def parens (a : Pattern α) : Pattern (Nat × α) :=
  map (fun m => (m.1, m.2.1)) (.seq (lit "(") (.seq a (lit ")")))

/-- `(item (',' item)*)?` -/
def list (item : Pattern α) : Pattern (List α) :=
  map (fun m => (m.map fun l => l.1 :: l.2.map Prod.snd).getD [])
    (.opt (.seq item (.star (.seq (lit ",") item))))

/-- The first operator that stands here, with its offset. -/
def operator : List BinaryOp → Pattern (BinaryOp × Nat)
  | [] => fail
  | op :: ops => .alt (map (op, ·) (lit op.symbol)) (operator ops)

/-- A binary operation behind a left operand. -/
def apply (lhs : Tree) (m : (BinaryOp × Nat) × Tree) : Tree := .binary m.1.1 m.1.2 lhs m.2

/-- `operand (op operand)*`, associated to the left. -/
def leftAssoc (operand : Nonterminal) (ops : List BinaryOp) : Pattern Tree :=
  map (fun m => m.2.foldl apply m.1)
    (.seq (.rule operand) (.star (.seq (operator ops) (.rule operand))))

/-- The tag of a parameter stands where its name does. -/
def tag (m : Option Tree × Tree) : Tree :=
  .ident (m.2.offset?.getD 0) (((m.1.bind Tree.name?)).getD Tree.genericType)

/-- The tree of a function. There is a signature only if some position is annotated. -/
def functionTree (start : Nat) (params : List (Option Tree × Tree)) (result : Option Tree)
    (body : Tree) : Tree :=
  let tags := params.map tag ++ [result.getD (.ident start Tree.genericType)]
  let signature :=
    if result.isSome || params.any (·.1.isSome) then [Tree.form .signature start tags] else []
  .form .function start (.form .parameters start (params.map Prod.snd) :: body :: signature)

def callTree (callee : Tree) (m : Nat × List Tree) : Tree :=
  .form .call m.1 [callee, .form .arguments m.1 m.2]

/-- `'=' expr ';'` -/
def initializer : Pattern Tree :=
  map (fun m => m.2.1) (.seq (lit "=") (.seq (.rule .expr) (lit ";")))

/-- `word expr ';'` -/
def wordExpr (s : String) (f : Form) : Pattern Tree :=
  map (fun m => .form f m.1 [m.2.1]) (.seq (word s) (.seq (.rule .expr) (lit ";")))

/-- `word '(' expr ')' block`, as the offset of the word, the condition and the block. -/
def guardedBlock (s : String) : Pattern (Nat × Tree × Tree) :=
  map (fun m => (m.1, m.2.1.2, m.2.2)) (.seq (word s) (.seq (parens (.rule .expr)) (.rule .block)))

end Pattern

open Pattern

/-- The grammar of programs. -/
def syntaxOf : Nonterminal → Pattern Tree
  | .program =>
    map (fun m => .form .sequence m.1 m.2.2.1)
      (.seq .offset (.seq space (.seq (.star (.rule .statement)) space)))
  | .statement =>
    .alt (.rule .declare) (.alt (.rule .assign) (.alt (.rule .print) (.alt (.rule .ifElse)
      (.alt (.rule .ifThen) (.alt (.rule .whileDo) (.alt (.rule .ret) (.rule .exprStatement)))))))
  | .declare =>
    map (fun m => .form .declare m.1.1 (m.2.1 :: m.2.2 :: m.1.2.toList))
      (.seq (.alt (map (fun p : Nat => ((p : Int), none)) (word "var"))
        (map (fun t => (t.offset?.getD 0, some t)) type)) (.seq ident Pattern.initializer))
  | .assign =>
    map (fun m =>
        .form .assign (m.1.offset?.getD 0) [.form .varLoc (m.1.offset?.getD 0) [m.1], m.2])
      (.seq ident Pattern.initializer)
  | .print => wordExpr "print" .print
  | .ifElse =>
    map (fun m => .form .ifElse m.1.1 [m.1.2.1, m.1.2.2, m.2.2])
      (.seq (guardedBlock "if") (.seq (word "else") (.rule .block)))
  | .ifThen => map (fun m => .form .ifThen m.1 [m.2.1, m.2.2]) (guardedBlock "if")
  | .whileDo => map (fun m => .form .whileDo m.1 [m.2.1, m.2.2]) (guardedBlock "while")
  | .ret => wordExpr "ret" .ret
  | .exprStatement => map Prod.fst (.seq (.rule .expr) (lit ";"))
  | .block =>
    map (fun m => .form .sequence m.1 m.2.1.children)
      (.seq (lit "\x7b") (.seq (.rule .program) (lit "\x7d")))
  | .expr => Pattern.leftAssoc .and [.or]
  | .and => Pattern.leftAssoc .not [.and]
  | .not =>
    .alt (map (fun m => .form .not m.1 [m.2]) (.seq (lit "!") (.rule .not))) (.rule .compare)
  | .compare =>
    map (fun m => (m.2.map (apply m.1)).getD m.1)
      (.seq (.rule .add) (.opt (.seq (operator [.le, .ge, .eq, .ne, .lt, .gt]) (.rule .add))))
  | .add => Pattern.leftAssoc .mul [.add, .sub]
  | .mul => Pattern.leftAssoc .unary [.mul, .div]
  | .unary =>
    .alt (map (fun m => .binary .sub m.1 (.int m.1 0) m.2) (.seq (lit "-") (.rule .unary)))
      (.rule .call)
  | .call =>
    map (fun m => m.2.foldl callTree m.1)
      (.seq (.rule .primary) (.star (parens (list (.rule .expr)))))
  | .primary =>
    .alt (map Prod.snd (parens (.rule .expr))) (.alt (.rule .function)
      (.alt (map (fun t => .form .lookup (t.offset?.getD 0) [t]) ident) integer))
  | .function =>
    map (fun m => functionTree m.1 m.2.1.2 m.2.2.1 m.2.2.2)
      (.seq (word "func") (.seq (parens (list param))
        (.seq (.opt (map Prod.snd (.seq (lit "->") type))) (.rule .block))))

def Nonterminal.rank : Nonterminal → Nat
  | .block | .function | .print | .ret | .ifThen | .whileDo | .ifElse | .declare | .assign => 0
  | .primary => 1
  | .call => 2
  | .unary => 3
  | .mul => 4
  | .add => 5
  | .compare => 6
  | .not => 7
  | .and => 8
  | .expr => 9
  | .exprStatement => 10
  | .statement => 11
  | .program => 12

/-- No nonterminal leads back to itself at the same offset, and only a program may be empty. -/
def ranking : Ranking syntaxOf where
  rank := Nonterminal.rank
  top := 13
  nullable := (· = .program)
  rank_lt_top := by intro n; cases n <;> decide
  guarded := by intro n; cases n <;> rfl
  consumes := by intro n; cases n <;> first | (intro h; exact absurd h (by decide)) | (intro _; rfl)

/-- What a nonterminal comes to at an offset. -/
def read (src : ByteArray) : Nonterminal → Nat → Option (Tree × Nat) := ranking.read src

end ClosureLang.Grammar

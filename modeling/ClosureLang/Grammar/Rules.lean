import ClosureLang.Grammar.Lexis
import ClosureLang.Grammar.Memo
import ClosureLang.Text.Decimal

/-!
The rules of the grammar, each in terms of a way to apply the others.

    program    := statement*
    statement  := declare | assign | print | ifelse | if | while | return | expr ';'
    declare    := ('var' | type) ident '=' expr ';'
    assign     := ident '=' expr ';'
    print      := 'print' expr ';'
    ifelse     := if 'else' block
    if         := 'if' '(' expr ')' block
    while      := 'while' '(' expr ')' block
    return     := 'ret' expr ';'
    block      := '{' program '}'
    expr       := and ('||' and)*
    and        := not ('&&' not)*
    not        := '!' not | compare
    compare    := add (('<=' | '>=' | '==' | '!=' | '<' | '>') add)?
    add        := mul (('+' | '-') mul)*
    mul        := unary (('*' | '/') unary)*
    unary      := '-' unary | call
    call       := primary ('(' (expr (',' expr)*)? ')')*
    primary    := '(' expr ')' | function | ident | integer
    function   := 'func' '(' (param (',' param)*)? ')' ('->' type)? block
    param      := type? ident
    type       := 'int' | 'func'

Every token skips the blanks and comments around it.
-/
namespace ClosureLang.Grammar

abbrev Parse := StateM Memo

variable (src : ByteArray) (apply : Rule → Nat → Parse Outcome)

/-- Fails at `pos`, recording how far the parse got. -/
def missing {α : Type} (pos : Nat) : Parse (Option α) := do
  modify (·.reach pos)
  return none

/-- The offset behind the blanks and comments at `pos`. -/
def skip (pos : Nat) : Parse Nat := do
  return ((← apply .space pos).map Match.stop).getD pos

/-- Matches a token; gives its offset and the offset behind the blanks after it. -/
def literal (pos : Nat) (text : String) : Parse (Option (Nat × Nat)) := do
  let start ← skip apply pos
  if holds src start text.toList then
    let stop ← skip apply (start + text.length)
    return some (start, stop)
  else missing start

/-- Matches a word that no identifier character follows. -/
def keyword (pos : Nat) (word : String) : Parse (Option (Nat × Nat)) := do
  let start ← skip apply pos
  let after := start + word.length
  if holds src start word.toList && !(src[after]?).any isIdentByte then
    let stop ← skip apply after
    return some (start, stop)
  else missing start

/-- The outcome of the first rule that matches. -/
def firstOf (pos : Nat) : List Rule → Parse Outcome
  | [] => return none
  | r :: rs => do
    match ← apply r pos with
    | some m => return some m
    | none => firstOf pos rs

def identRule (pos : Nat) : Parse Outcome := do
  let start ← skip apply pos
  if (src[start]?).any isIdentStart then
    let stop := runEnd isIdentByte src start
    let name := String.ofList (asciiText src start stop)
    if isReserved name then missing start
    else return some { node := .ident start name, stop := ← skip apply stop }
  else missing start

/-- A literal too large for a word does not match. -/
def integerRule (pos : Nat) : Parse Outcome := do
  let start ← skip apply pos
  let stop := runEnd isDigitByte src start
  match Decimal.word? (asciiText src start stop) with
  | some value => return some { node := .int start value, stop := ← skip apply stop }
  | none => missing start

def typeRule (pos : Nat) : Parse Outcome := do
  match ← keyword src apply pos "int" with
  | some (start, stop) => return some { node := .ident start "int", type := "int", stop }
  | none =>
    match ← keyword src apply pos "func" with
    | some (start, stop) => return some { node := .ident start "func", type := "func", stop }
    | none => return none

/-- Matches statements until one fails; gives the offset behind the last. -/
def statements : Nat → Nat → Parse (List Tree × Nat)
  | 0, stop => return ([], stop)
  | limit + 1, stop => do
    match ← apply .statement stop with
    | none => return ([], stop)
    | some m => do
      let (rest, last) ← statements limit m.stop
      return (m.node :: rest, last)

/-- The sequence records the offset at which the rule was applied. -/
def programRule (pos : Nat) : Parse Outcome := do
  let start ← skip apply pos
  let (body, stop) ← statements apply (src.size + 1) start
  return some { node := .form .sequence pos body, stop }

/-- Matches `'=' expr ';'`. -/
def initializer (pos : Nat) : Parse Outcome := do
  let some (_, stop) ← literal src apply pos "=" | return none
  let some value ← apply .expr stop | return none
  let some (_, stop) ← literal src apply value.stop ";" | return none
  return some { value with stop }

def declareRule (pos : Nat) : Parse Outcome := do
  match ← keyword src apply pos "var" with
  | some (start, stop) =>
    let some name ← apply .ident stop | return none
    let some value ← initializer src apply name.stop | return none
    return some { node := .form .declare start [name.node, value.node], stop := value.stop }
  | none =>
    let some type ← apply .type pos | return none
    let some name ← apply .ident type.stop | return none
    let some value ← initializer src apply name.stop | return none
    let start := type.node.offset?.getD 0
    return some { node := .form .declare start [name.node, value.node, type.node],
                  stop := value.stop }

def assignRule (pos : Nat) : Parse Outcome := do
  let some name ← apply .ident pos | return none
  let some value ← initializer src apply name.stop | return none
  let start := name.node.offset?.getD 0
  let place := Tree.form .varLoc start [name.node]
  return some { node := .form .assign start [place, value.node], stop := value.stop }

/-- Matches `word expr ';'`. -/
def keywordExpr (word : String) (f : Form) (pos : Nat) : Parse Outcome := do
  let some (start, stop) ← keyword src apply pos word | return none
  let some value ← apply .expr stop | return none
  let some (_, stop) ← literal src apply value.stop ";" | return none
  return some { node := .form f start [value.node], stop }

/-- Matches `word '(' expr ')' block`. -/
def conditional (word : String) (f : Form) (pos : Nat) : Parse Outcome := do
  let some (start, stop) ← keyword src apply pos word | return none
  let some (_, stop) ← literal src apply stop "(" | return none
  let some cond ← apply .expr stop | return none
  let some (_, stop) ← literal src apply cond.stop ")" | return none
  let some body ← apply .block stop | return none
  return some { node := .form f start [cond.node, body.node], stop := body.stop }

def ifElseRule (pos : Nat) : Parse Outcome := do
  let some head ← apply .ifThen pos | return none
  let some (_, stop) ← keyword src apply head.stop "else" | return none
  let some alternative ← apply .block stop | return none
  let node := Tree.form .ifElse (head.node.offset?.getD 0)
    [head.node.child 0, head.node.child 1, alternative.node]
  return some { node, stop := alternative.stop }

def exprStatementRule (pos : Nat) : Parse Outcome := do
  let some value ← apply .expr pos | return none
  let some (_, stop) ← literal src apply value.stop ";" | return none
  return some { node := value.node, stop }

def blockRule (pos : Nat) : Parse Outcome := do
  let some (start, stop) ← literal src apply pos "\x7b" | return none
  let some body ← apply .program stop | return none
  let some (_, stop) ← literal src apply body.stop "\x7d" | return none
  return some { node := .form .sequence start body.node.children, stop }

/-- The first operator that stands at `pos` with an operand behind it, where it stands, and the
operand. -/
def operation (operand : Rule) (pos : Nat) : List BinaryOp → Parse (Option (BinaryOp × Nat × Match))
  | [] => return none
  | op :: ops => do
    match ← literal src apply pos op.symbol with
    | none => operation operand pos ops
    | some (start, stop) =>
      match ← apply operand stop with
      | none => operation operand pos ops
      | some rhs => return some (op, start, rhs)

/-- Extends `node` to the left-associated chain of operations behind it. -/
def operations (operand : Rule) (ops : List BinaryOp) : Nat → Tree → Nat → Parse Match
  | 0, node, stop => return { node, stop }
  | limit + 1, node, stop => do
    match ← operation src apply operand stop ops with
    | none => return { node, stop }
    | some (op, start, rhs) =>
      operations operand ops limit (.binary op start node rhs.node) rhs.stop

def leftAssoc (operand : Rule) (ops : List BinaryOp) (pos : Nat) : Parse Outcome := do
  let some lhs ← apply operand pos | return none
  return some (← operations src apply operand ops (src.size + 1) lhs.node lhs.stop)

/-- Whether the byte at `pos` is the ASCII character `c`. -/
def peek (pos : Nat) (c : Char) : Bool := holds src pos [c]

def notRule (pos : Nat) : Parse Outcome := do
  let operand ← match ← literal src apply pos "!" with
    | some (start, stop) =>
      if peek src (start + 1) '=' then pure none
      else pure ((← apply .not stop).map fun m => { m with node := .form .not start [m.node] })
    | none => pure none
  match operand with
  | some m => return some m
  | none => apply .compare pos

/-- Longer operators come first, so that no operator is read as the start of a longer one. -/
def comparisons : List BinaryOp := [.le, .ge, .eq, .ne, .lt, .gt]

def compareRule (pos : Nat) : Parse Outcome := do
  let some lhs ← apply .add pos | return none
  match ← operation src apply .add lhs.stop comparisons with
  | some (op, start, rhs) =>
    return some { node := .binary op start lhs.node rhs.node, stop := rhs.stop }
  | none => return some lhs

/-- A leading minus is a subtraction from zero. -/
def unaryRule (pos : Nat) : Parse Outcome := do
  let operand ← match ← literal src apply pos "-" with
    | some (start, stop) =>
      if peek src (start + 1) '>' then pure none
      else pure ((← apply .unary stop).map fun m =>
        { m with node := .binary .sub start (.int start 0) m.node })
    | none => pure none
  match operand with
  | some m => return some m
  | none => apply .call pos

/-- Matches `(',' item)*`. A comma without an item is a failure. -/
def commaSeparated (item : Rule) : Nat → Nat → Parse (Option (List Match × Nat))
  | 0, stop => return some ([], stop)
  | limit + 1, stop => do
    match ← literal src apply stop "," with
    | none => return some ([], stop)
    | some (_, next) =>
      let some m ← apply item next | return none
      let some (rest, last) ← commaSeparated item limit m.stop | return none
      return some (m :: rest, last)

/-- Matches `'(' (item (',' item)*)? ')'`; gives the offset of the opening parenthesis, the items
and the offset behind. -/
def parenthesized (item : Rule) (pos : Nat) : Parse (Option (Nat × List Match × Nat)) := do
  let some (start, stop) ← literal src apply pos "(" | return none
  match ← apply item stop with
  | none =>
    let some (_, stop) ← literal src apply stop ")" | return none
    return some (start, [], stop)
  | some first =>
    let some (rest, stop) ← commaSeparated src apply item (src.size + 1) first.stop | return none
    let some (_, stop) ← literal src apply stop ")" | return none
    return some (start, first :: rest, stop)

/-- Extends `node` to the chain of calls behind it. -/
def calls : Nat → Tree → Nat → Parse Match
  | 0, node, stop => return { node, stop }
  | limit + 1, node, stop => do
    match ← parenthesized src apply .expr stop with
    | none => return { node, stop }
    | some (start, args, next) =>
      let arguments := Tree.form .arguments start (args.map Match.node)
      calls limit (.form .call start [node, arguments]) next

def callRule (pos : Nat) : Parse Outcome := do
  let some callee ← apply .primary pos | return none
  return some (← calls src apply (src.size + 1) callee.node callee.stop)

def primaryRule (pos : Nat) : Parse Outcome := do
  let some m ← firstOf apply pos [.paren, .function, .ident, .integer] | return none
  match m.node with
  | .node (.ident _) offset _ =>
    return some { node := .form .lookup offset [m.node], stop := m.stop }
  | _ => return some m

def parenRule (pos : Nat) : Parse Outcome := do
  let some (_, stop) ← literal src apply pos "(" | return none
  let some inner ← apply .expr stop | return none
  let some (_, stop) ← literal src apply inner.stop ")" | return none
  return some { node := inner.node, stop }

/-- The type tag of a parameter: its annotation, or the generic one at the place of its name. -/
def paramTag (m : Match) : Tree :=
  .ident (m.node.offset?.getD 0) (if m.type = "" then Tree.genericType else m.type)

/-- Matches `('->' type)?`; the inner value is the return tag. -/
def returnType (pos : Nat) : Parse (Option (Option Tree × Nat)) := do
  match ← literal src apply pos "->" with
  | none => return some (none, pos)
  | some (_, stop) =>
    let some type ← apply .type stop | return none
    return some (some type.node, type.stop)

/-- A signature is attached only if some position is annotated. -/
def functionRule (pos : Nat) : Parse Outcome := do
  let some (start, stop) ← keyword src apply pos "func" | return none
  let some (_, params, stop) ← parenthesized src apply .param stop | return none
  let some (result, stop) ← returnType src apply stop | return none
  let some body ← apply .block stop | return none
  let parameters := Tree.form .parameters start (params.map Match.node)
  let tags := params.map paramTag ++ [result.getD (.ident start Tree.genericType)]
  let typed := result.isSome || params.any (·.type ≠ "")
  let signature := if typed then [Tree.form .signature start tags] else []
  return some { node := .form .function start (parameters :: body.node :: signature),
                stop := body.stop }

def paramRule (pos : Nat) : Parse Outcome := do
  let annotated ← match ← apply .type pos with
    | none => pure none
    | some type => pure ((← apply .ident type.stop).map fun name => { name with type := type.type })
  match annotated with
  | some m => return some m
  | none => apply .ident pos

/-- The body of a rule at an offset. -/
def body (r : Rule) (pos : Nat) : Parse Outcome :=
  match r with
  | .space => return some { node := .absent, stop := layoutEnd src pos }
  | .program => programRule src apply pos
  | .statement =>
    firstOf apply pos [.declare, .assign, .print, .ifElse, .ifThen, .whileDo, .ret, .exprStatement]
  | .declare => declareRule src apply pos
  | .assign => assignRule src apply pos
  | .print => keywordExpr src apply "print" .print pos
  | .ifElse => ifElseRule src apply pos
  | .ifThen => conditional src apply "if" .ifThen pos
  | .whileDo => conditional src apply "while" .whileDo pos
  | .ret => keywordExpr src apply "ret" .ret pos
  | .exprStatement => exprStatementRule src apply pos
  | .block => blockRule src apply pos
  | .expr => leftAssoc src apply .and [.or] pos
  | .and => leftAssoc src apply .not [.and] pos
  | .not => notRule src apply pos
  | .compare => compareRule src apply pos
  | .add => leftAssoc src apply .mul [.add, .sub] pos
  | .mul => leftAssoc src apply .unary [.mul, .div] pos
  | .unary => unaryRule src apply pos
  | .call => callRule src apply pos
  | .primary => primaryRule apply pos
  | .paren => parenRule src apply pos
  | .function => functionRule src apply pos
  | .param => paramRule apply pos
  | .type => typeRule src apply pos
  | .ident => identRule src apply pos
  | .integer => integerRule src apply pos

end ClosureLang.Grammar

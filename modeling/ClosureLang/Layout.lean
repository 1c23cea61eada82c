import ClosureLang.Grammar.Parser
import ClosureLang.Text.Blank
import ClosureLang.Tree.Canonical
import ClosureLang.Tree.Walk

/-! Trees as program text in a fixed layout: one statement per line, blocks indented by one level,
and parentheses only where the shape of the tree needs them. -/
namespace ClosureLang.Layout

/-- How program text is laid out. -/
structure Style where
  /-- Blanks per level. -/
  indentSize : Nat := 4
  /-- The most blank lines kept between two statements. -/
  maxBlankLines : Int := 1

inductive LayoutError where
  /-- The tree has no program text, such as a statement in the place of an expression. -/
  | unprintable (t : Tree)
  /-- A needed child is absent. -/
  | absentNode

def LayoutError.message : LayoutError → String
  | unprintable t => "tree has no source form: " ++ t.canonical
  | absentNode => "absent node"

/-- How tightly an operator binds; higher binds tighter. -/
def opStrength : BinaryOp → Nat
  | .or => 1
  | .and => 2
  | .lt | .gt | .le | .ge | .eq | .ne => 4
  | .add | .sub => 5
  | .mul | .div => 6

/-- The strength of a negation. -/
def notStrength : Nat := 3

/-- The strength of calls, literals, lookups and functions. -/
def primaryStrength : Nat := 7

/-- How tightly an expression binds. A negative literal is read back as a subtraction. -/
def strength : Tree → Nat
  | .node (.form (.binary op)) _ _ => opStrength op
  | .node (.form .not) _ _ => notStrength
  | .node (.integer value) _ _ => if value < 0 then opStrength .sub else primaryStrength
  | _ => primaryStrength

/-- The strengths that the left and right operand of an operator need to stand without
parentheses. Comparisons do not chain. -/
def operandStrengths (op : BinaryOp) : Nat × Nat :=
  if opStrength op = opStrength .lt then (opStrength .add, opStrength .add)
  else (opStrength op, opStrength op + 1)

def parenthesizeIf (b : Bool) (text : String) : String := if b then "(" ++ text ++ ")" else text

def annotateParams : List String → List String → List String
  | [], _ => []
  | params, [] => params
  | p :: ps, tag :: tags =>
    (if tag = Tree.genericType then p else tag ++ " " ++ p) :: annotateParams ps tags

/-- The header of a function: parameters with their types, and the type of the result. -/
def signature? (fn : Tree) : Option String := do
  let tags ← (fn.child 2).typeTags?
  let params ← fn.paramNames?
  let result := match tags[params.length]? with
    | some tag => if tag = Tree.genericType then "" else " -> " ++ tag
    | none => ""
  return "func(" ++ Text.join ", " (annotateParams params tags) ++ ")" ++ result

/-- The headers of all functions in a tree, in preorder. -/
def signatures? (t : Tree) : Option (List String) :=
  (t.nodes.filter (·.isForm .function)).mapM signature?

/-- The smallest offset in a tree. An operator stands behind its left operand, so the offset of
the tree itself need not be the smallest. -/
def leftmost (offset : Int) (t : Tree) : Int := t.offsets.foldl min offset

/-- The number of line feeds in the blanks that end at an offset. -/
def feedsBefore (bytes : List UInt8) : Nat :=
  (bytes.reverse.takeWhile fun b => Grammar.isBlankByte b).count Grammar.lineFeed

/-- The number of blank lines to write in front of a statement. -/
def blankLinesBefore (style : Style) (src : String) (offset : Int) (t : Tree) : Nat :=
  let start := leftmost offset t
  if src = "" ∨ start < 0 ∨ src.utf8ByteSize < start then 0
  else
    let feeds := feedsBefore (src.toUTF8.extract 0 start.toNat).toList
    (min ((feeds : Int) - 1) style.maxBlankLines).toNat

def indentation (style : Style) (level : Nat) : String :=
  Text.repeated (level * style.indentSize) ' '

def nameOf (t : Tree) : Except LayoutError String :=
  match t.name? with
  | some name => .ok name
  | none => .error .absentNode

/-- The name that an assignment assigns to. -/
def placeName : Tree → Except LayoutError String
  | .node (.form .varLoc) _ cs => nameOf ((cs[0]?).getD .absent)
  | t => nameOf t

def signatureText (fn : Tree) : Except LayoutError String :=
  match signature? fn with
  | some text => .ok text
  | none => .error .absentNode

mutual

/-- An expression, in parentheses if it binds less tightly than `least`. -/
def expr (style : Style) (src : String) (level least : Nat) : Tree → Except LayoutError String
  | .absent => .error (.unprintable .absent)
  | .node label offset cs => do
    let text ← operands style src level label offset cs
    return parenthesizeIf (strength (.node label offset cs) < least) text

/-- The expression at a node, without parentheses around it. -/
def operands (style : Style) (src : String) (level : Nat) (label : Label) (offset : Int)
    (cs : List Tree) : Except LayoutError String :=
  match label with
  | .integer value => .ok (Decimal.wordText value)
  | .form .lookup => nameOf ((cs[0]?).getD .absent)
  | .form .not =>
    match cs with
    | [] => .error (.unprintable .absent)
    | c :: _ => do return "!" ++ (← expr style src level notStrength c)
  | .form .call =>
    match cs with
    | [] => .error (.unprintable .absent)
    | callee :: rest => do
      let head ← expr style src level primaryStrength callee
      match rest with
      | .node _ _ args :: _ =>
        return head ++ "(" ++ Text.join ", " (← exprs style src level args) ++ ")"
      | _ => .error .absentNode
  | .form .function => do
    let head ← signatureText (.node label offset cs)
    match cs with
    | _ :: body :: _ => return head ++ " " ++ (← block style src level body)
    | _ => .error (.unprintable .absent)
  | .form (.binary op) =>
    match cs with
    | [lhs, rhs] => do
      let left ← expr style src level (operandStrengths op).1 lhs
      let right ← expr style src level (operandStrengths op).2 rhs
      return left ++ " " ++ op.symbol ++ " " ++ right
    | _ => .error (.unprintable (.node label offset cs))
  | _ => .error (.unprintable (.node label offset cs))

def exprs (style : Style) (src : String) (level : Nat) :
    List Tree → Except LayoutError (List String)
  | [] => .ok []
  | t :: ts => do
    let text ← expr style src level 0 t
    return text :: (← exprs style src level ts)

/-- A braced sequence whose statements are one level deeper. -/
def block (style : Style) (src : String) (level : Nat) : Tree → Except LayoutError String
  | .node (.form .sequence) _ [] => .ok "\x7b\x7d"
  | .node (.form .sequence) _ (c :: cs) => do
    let text ← statements style src (level + 1) true (c :: cs)
    return "\x7b\n" ++ text ++ indentation style level ++ "\x7d"
  | t => .error (.unprintable t)

/-- A statement without its indentation and line feed. -/
def statement (style : Style) (src : String) (level : Nat) : Tree → Except LayoutError String
  | .absent => .error .absentNode
  | .node label offset cs =>
    match label with
    | .form .declare => do
      let type ← match cs with
        | _ :: _ :: .node tag o ds :: _ => nameOf (.node tag o ds)
        | _ => .ok "var"
      let name ← nameOf ((cs[0]?).getD .absent)
      match cs with
      | _ :: value :: _ =>
        return type ++ " " ++ name ++ " = " ++ (← expr style src level 0 value) ++ ";"
      | _ => .error (.unprintable .absent)
    | .form .assign => do
      let name ← placeName ((cs[0]?).getD .absent)
      match cs with
      | _ :: value :: _ => return name ++ " = " ++ (← expr style src level 0 value) ++ ";"
      | _ => .error (.unprintable .absent)
    | .form .print =>
      match cs with
      | value :: _ => do return "print " ++ (← expr style src level 0 value) ++ ";"
      | [] => .error (.unprintable .absent)
    | .form .ret =>
      match cs with
      | value :: _ => do return "ret " ++ (← expr style src level 0 value) ++ ";"
      | [] => .error (.unprintable .absent)
    | .form .ifThen => do return "if" ++ (← conditional style src level cs)
    | .form .whileDo => do return "while" ++ (← conditional style src level cs)
    | .form .ifElse => do
      let head ← conditional style src level cs
      match cs with
      | _ :: _ :: alternative :: _ =>
        return "if" ++ head ++ " else " ++ (← block style src level alternative)
      | _ => .error (.unprintable .absent)
    | .form .sequence | .form .invalid | .form .parameters | .form .signature | .form .arguments
    | .form .varLoc | .ident _ => .error (.unprintable (.node label offset cs))
    | _ => do
      let text ← operands style src level label offset cs
      return text ++ ";"

/-- A condition in parentheses and the block it guards. -/
def conditional (style : Style) (src : String) (level : Nat) : List Tree → Except LayoutError String
  | cond :: rest => do
    let text ← expr style src level 0 cond
    match rest with
    | body :: _ => return " (" ++ text ++ ") " ++ (← block style src level body)
    | [] => .error (.unprintable .absent)
  | [] => .error (.unprintable .absent)

/-- Statements on lines of their own, with the blank lines that separated them. -/
def statements (style : Style) (src : String) (level : Nat) (first : Bool) :
    List Tree → Except LayoutError String
  | [] => .ok ""
  | t :: ts => do
    let text ← statement style src level t
    let blanks := if first then 0 else blankLinesBefore style src (t.offset?.getD 0) t
    let rest ← statements style src level false ts
    return Text.repeated blanks '\n' ++ indentation style level ++ text ++ "\n" ++ rest

end

/-- One line feed at the end of a text that is not empty. -/
def endLine (text : String) : String :=
  if text = "" then "" else Text.trimRightBy (· = '\n') text ++ "\n"

/-- The text of a tree: of a program if it is a sequence, else of an expression. Blank lines are
taken from the text `src` that the tree was read from, if there is one. -/
def render (style : Style) (src : String) : Tree → Except LayoutError String
  | .node (.form .sequence) _ cs => do return endLine (← statements style src 0 true cs)
  | .absent => .error (.unprintable .absent)
  | t => expr style src 0 0 t

inductive FormatError where
  | syntaxError (e : Grammar.SyntaxError)
  | layout (e : LayoutError)

def FormatError.message : FormatError → String
  | syntaxError e => e.message
  | layout e => e.message

/-- Program text in the fixed layout. Comments are dropped. -/
def format (style : Style) (src : String) : Except FormatError String :=
  match Grammar.parseProgram src with
  | .error e => .error (.syntaxError e)
  | .ok t => (render style src t).mapError .layout

end ClosureLang.Layout

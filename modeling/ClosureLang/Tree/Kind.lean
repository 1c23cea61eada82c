/-! The kinds of nodes that programs are made of, with their tags and numbers. -/
namespace ClosureLang

/-- Operators with two operands. -/
inductive BinaryOp where
  | add | sub | mul | div
  | lt | gt | le | ge
  | eq | ne
  | and | or
deriving DecidableEq, Repr

namespace BinaryOp

def all : List BinaryOp := [add, sub, mul, div, lt, gt, le, ge, eq, ne, and, or]

def symbol : BinaryOp → String
  | add => "+"
  | sub => "-"
  | mul => "*"
  | div => "/"
  | lt => "<"
  | gt => ">"
  | le => "<="
  | ge => ">="
  | eq => "=="
  | ne => "!="
  | and => "&&"
  | or => "||"

def name : BinaryOp → String
  | add => "add"
  | sub => "sub"
  | mul => "mul"
  | div => "div"
  | lt => "lt"
  | gt => "gt"
  | le => "le"
  | ge => "ge"
  | eq => "eq"
  | ne => "ne"
  | and => "and"
  | or => "or"

/-- Sums and differences, the operators that chain. -/
def isAdditive : BinaryOp → Bool
  | add | sub => true
  | _ => false

end BinaryOp

/-- The shapes of compound nodes. A numbered kind beyond the known ones is `unknown`. -/
inductive Form where
  | invalid
  | sequence
  | declare
  | assign
  | print
  | ifThen
  | ifElse
  | whileDo
  | ret
  | function
  | parameters
  | signature
  | call
  | arguments
  | lookup
  | varLoc
  | binary (op : BinaryOp)
  | not
  | unknown (excess : Fin 225)
deriving DecidableEq, Repr

namespace Form

/-- The forms that have a tag of their own. -/
def tagged : List Form :=
  [sequence, declare, assign, print, ifThen, ifElse, whileDo, ret, function, parameters,
    signature, call, arguments, lookup, varLoc] ++ BinaryOp.all.map binary ++ [not]

/-- The tag of a form in canonical text. -/
def tag : Form → String
  | invalid | unknown _ => "invalid"
  | sequence => "sequence"
  | declare => "declare"
  | assign => "assign"
  | print => "print"
  | ifThen => "if"
  | ifElse => "ifelse"
  | whileDo => "while"
  | ret => "return"
  | function => "function"
  | parameters => "parameters"
  | signature => "signature"
  | call => "call"
  | arguments => "arguments"
  | lookup => "lookup"
  | varLoc => "varloc"
  | binary op => op.symbol
  | not => "!"

/-- Operators have a name besides their symbol, which serves as a second tag. -/
def name : Form → String
  | binary op => op.name
  | not => "not"
  | form => form.tag

/-- The form that a tag or an operator's name stands for. -/
def ofTag? (text : String) : Option Form :=
  tagged.find? fun form => form.tag = text || form.name = text

def isBinary : Form → Bool
  | binary _ => true
  | _ => false

end Form

/-- What a node is: one of the two leaves or a compound form. -/
inductive Kind where
  | integer
  | ident
  | form (form : Form)
deriving DecidableEq, Repr

namespace Kind

/-- The numbered kinds, in the order of their numbers. -/
def numbered : List Kind :=
  [form .invalid, integer, ident] ++ Form.tagged.map form

/-- The kind with the given number, for numbers below 256. -/
def ofCode (n : Nat) : Kind :=
  match numbered[n]? with
  | some kind => kind
  | none => form (.unknown (Fin.ofNat 225 (n - numbered.length)))

def code (kind : Kind) : Nat :=
  match kind with
  | form (.unknown excess) => numbered.length + excess.val
  | kind => numbered.idxOf kind

def tag : Kind → String
  | integer => "integer"
  | ident => "identifier"
  | form f => f.tag

def name : Kind → String
  | form f => f.name
  | kind => kind.tag

/-- The kind whose tag is `text`; `invalid` counts as a tag here. -/
def ofTag? (text : String) : Option Kind := numbered.find? fun kind => kind.tag = text

def isLeaf : Kind → Bool
  | integer | ident => true
  | form _ => false

def isBinary : Kind → Bool
  | form f => f.isBinary
  | _ => false

end Kind

end ClosureLang

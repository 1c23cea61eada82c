import ClosureLang.Text.Blank
import ClosureLang.Text.Decimal
import ClosureLang.Tree.Canonical

/-! Values, closures and the store of scopes that programs run in. -/
namespace ClosureLang

abbrev ScopeId := Nat

abbrev ClosureId := Nat

/-- Integers and functions. A function is known by its place in the store, so that every closure
differs from all others. -/
inductive Value where
  | int (value : Int64)
  | closure (id : ClosureId)
deriving DecidableEq, Repr

namespace Value

def ofBool (b : Bool) : Value := int (if b then 1 else 0)

/-- Only the integer zero is false. -/
def truthy : Value → Bool
  | int n => n ≠ 0
  | closure _ => true

/-- The text that `print` writes. -/
def text : Value → String
  | int n => Decimal.wordText n
  | closure _ => "closure"

def typeName : Value → String
  | int _ => "int"
  | closure _ => "func"

end Value

/-- What goes wrong in running a program. -/
inductive Condition where
  | divideByZero
  | undefinedVariable
  | variableAlreadyDefined
  | illegalReturn
  | argumentMismatch
  | callingNonFunction
  | mathOnFunction
  | duplicateParameter
  | stackOverflow
deriving DecidableEq, Repr

namespace Condition

def text : Condition → String
  | divideByZero => "divide by zero"
  | undefinedVariable => "undefined variable"
  | variableAlreadyDefined => "variable already defined"
  | illegalReturn => "illegal return"
  | argumentMismatch => "argument mismatch"
  | callingNonFunction => "calling non-function"
  | mathOnFunction => "math on function"
  | duplicateParameter => "duplicate parameter"
  | stackOverflow => "stack overflow"

def message (c : Condition) : String := "runtime error: " ++ c.text

end Condition

/-- The function value of a function node. -/
structure Closure where
  /-- The name it was first declared under, empty if it never was. -/
  name : String := ""
  params : List String
  body : Tree
  /-- The scope it was created in. -/
  scope : ScopeId
  /-- One type tag per parameter and one for the result, if the function is annotated. -/
  signature : Option (List String)
  /-- The function node. -/
  node : Tree

namespace Closure

/-- The closure of a function node, or the fact that two parameters share a name. The answer is
`none` if a part of the node is absent. -/
def ofNode? (fn : Tree) (scope : ScopeId) : Option (Except Condition Closure) := do
  let params ← fn.paramNames?
  let signature ← match fn.child 2 with
    | .absent => some none
    | sig => sig.typeTags?.map some
  if params.Nodup then
    return .ok { params, body := fn.child 1, scope, signature, node := fn }
  else return .error .duplicateParameter

/-- A tag that annotates nothing is empty. -/
def tagText (tag : Option String) : String :=
  match tag with
  | some tag => if tag = Tree.genericType then "" else tag
  | none => ""

def paramType (c : Closure) (i : Nat) : String := tagText ((c.signature.getD [])[i]?)

def returnType (c : Closure) : String := tagText ((c.signature.getD []).getLast?)

/-- The name for reports. -/
def label (c : Closure) : String := if c.name = "" then "<anonymous>" else c.name

end Closure

structure Binding where
  value : Value
  /-- The declared type tag, empty if there is none. -/
  type : String

/-- The names bound in one block. -/
structure Scope where
  parent : Option ScopeId
  vars : List (String × Binding) := []

namespace Scope

def find? (s : Scope) (x : String) : Option Binding := s.vars.lookup x

def binds (s : Scope) (x : String) : Bool := (s.find? x).isSome

def names (s : Scope) : List String := Text.sorted (s.vars.map Prod.fst)

def update (s : Scope) (x : String) (v : Value) : Scope :=
  { s with vars := s.vars.map fun (y, b) => if y = x then (y, { b with value := v }) else (y, b) }

/-- The bindings in the order of their names. -/
def text (s : Scope) : String :=
  "\x7b" ++ Text.join " " (s.names.map fun x =>
    x ++ "=" ++ ((s.find? x).map (·.value.text)).getD "") ++ "\x7d"

end Scope

/-- All scopes and closures made so far. Scopes are never removed, so a closure keeps the scopes
it was created in. -/
structure Store where
  scopes : Array Scope
  closures : Array Closure := #[]

namespace Store

/-- The scope without a parent. -/
def root : ScopeId := 0

def initial : Store := { scopes := #[{ parent := none }] }

/-- A scope with none around it. -/
def newRoot (s : Store) : ScopeId × Store :=
  (s.scopes.size, { s with scopes := s.scopes.push { parent := none } })

def newScope (s : Store) (parent : ScopeId) : ScopeId × Store :=
  (s.scopes.size, { s with scopes := s.scopes.push { parent := some parent } })

def newClosure (s : Store) (c : Closure) : ClosureId × Store :=
  (s.closures.size, { s with closures := s.closures.push c })

def closure? (s : Store) (id : ClosureId) : Option Closure := s.closures[id]?

/-- A closure as it is now: it may have got a name since it was looked up. -/
def current (s : Store) (id : ClosureId) (c : Closure) : Closure := (s.closure? id).getD c

/-- At most `limit` scopes from `e` towards the root. -/
def chainUpTo (s : Store) : Nat → ScopeId → List ScopeId
  | 0, _ => []
  | limit + 1, e =>
    match s.scopes[e]? with
    | none => []
    | some scope => e :: (scope.parent.map (chainUpTo s limit)).getD []

/-- The scopes from `e` to the root. A parent is older than its children, so there are at most
`e + 1` of them. -/
def chain (s : Store) (e : ScopeId) : List ScopeId := s.chainUpTo (e + 1) e

def binding? (s : Store) (e : ScopeId) (x : String) : Option Binding :=
  (s.scopes[e]?).bind (·.find? x)

/-- The innermost scope on the chain of `e` that binds `x`. -/
def locate (s : Store) (e : ScopeId) (x : String) : Option ScopeId :=
  (s.chain e).find? fun e => (s.binding? e x).isSome

def get? (s : Store) (e : ScopeId) (x : String) : Option Value := do
  return (← s.binding? (← s.locate e x) x).value

/-- Binds a name in `e` itself, unless it is bound there already. -/
def define (s : Store) (e : ScopeId) (x : String) (v : Value) (type : String) : Option Store :=
  if (s.binding? e x).isSome then none
  else some { s with scopes := s.scopes.modify e fun scope =>
    { scope with vars := scope.vars ++ [(x, ⟨v, type⟩)] } }

/-- Stores a value in the slot of `x` in `e`. -/
def set (s : Store) (e : ScopeId) (x : String) (v : Value) : Store :=
  { s with scopes := s.scopes.modify e (·.update x v) }

/-- Names a closure that has no name yet. -/
def nameClosure (s : Store) (id : ClosureId) (name : String) : Store :=
  { s with closures := s.closures.modify id fun c => if c.name = "" then { c with name } else c }

/-- The names bound in `e` itself, sorted. -/
def names (s : Store) (e : ScopeId) : List String := ((s.scopes[e]?).map Scope.names).getD []

/-- The scopes of the chain of `e`, innermost first. -/
def text (s : Store) (e : ScopeId) : String :=
  Text.join " " ((s.chain e).map fun e => ((s.scopes[e]?).map Scope.text).getD "")

end Store

end ClosureLang

import ClosureLang.Run.Store
import ClosureLang.Text.Indent

/-! The state of a running program, and the actions that statements and expressions are made of. -/
namespace ClosureLang

/-- Why a run ends early. -/
inductive Stop where
  | condition (c : Condition) (node : Tree)
  /-- A kind has no meaning in the position in which it appears. -/
  | unknownNode (kind : Kind)
  /-- A needed child is absent. -/
  | absentNode
  | outOfFuel

def Stop.message : Stop → String
  | condition c _ => c.message
  | unknownNode kind => "unknown node: " ++ kind.tag
  | absentNode => "absent node"
  | outOfFuel => "out of fuel"

/-- What an observer of a run gets to see, in order. -/
inductive Event where
  /-- A line of the trace. -/
  | step (line : String)
  /-- A call starts. -/
  | enter (fn : Closure)
  /-- A call ends; its function may have got a name since it started. -/
  | leave (fn : Closure)
  /-- A message about a malformed tree. -/
  | internalError (message : String)

/-- How programs are run. -/
structure Options where
  /-- Fold constants first. -/
  fold : Bool := false
  /-- The most calls that may be active at once; zero sets no limit. -/
  maxDepth : Nat := 0
  trace : Bool := false
  /-- Report calls. -/
  calls : Bool := false

structure Machine where
  store : Store := .initial
  /-- The current scope. -/
  scope : ScopeId := Store.root
  /-- A return is on its way to the enclosing call. -/
  returning : Bool := false
  /-- The value being returned. -/
  result : Value := .int 0
  /-- The number of active calls. -/
  depth : Nat := 0
  /-- The nesting of the trace. -/
  level : Nat := 0
  out : String := ""
  events : Array Event := #[]

abbrev Action := EStateM Stop Machine

namespace Action

def emit (e : Event) : Action Unit := modify fun m => { m with events := m.events.push e }

def raise {α : Type} (c : Condition) (node : Tree) : Action α := throw (.condition c node)

/-- The trace line of a step at a node. -/
def stepLine (step : String) (node : Tree) (m : Machine) : String :=
  Text.indent (2 * m.level)
    (step ++ " " ++ node.canonical ++ " in " ++ m.store.text m.scope ++ "\n")

def traceStep (options : Options) (step : String) (node : Tree) : Action Unit :=
  if options.trace then fun m => emit (.step (stepLine step node m)) m else pure ()

/-- Runs an action and then restores a part of the state, whatever the outcome. -/
@[inline] def restoring {α : Type} (restore : Machine → Machine) (x : Action α) :
    Action α := fun m =>
  match x m with
  | .ok a m => .ok a (restore m)
  | .error e m => .error e (restore m)

/-- Runs an action one level deeper in the trace. -/
def nested {α : Type} (x : Action α) : Action α := fun m =>
  restoring (fun m' => { m' with level := m'.level - 1 }) x { m with level := m.level + 1 }

/-- Runs an action in a new scope inside the current one. -/
def inScope {α : Type} (x : Action α) : Action α := fun m =>
  let (scope, store) := m.store.newScope m.scope
  restoring (fun m' => { m' with scope := m.scope }) x { m with store, scope }

def nameOf (t : Tree) : Action String :=
  match t.name? with
  | some name => pure name
  | none => throw .absentNode

def printLine (text : String) : Action Unit :=
  modify fun m => { m with out := m.out ++ text ++ "\n" }

/-- The scope holding the variable that a location node names. -/
def locate (options : Options) (node : Tree) : Action (ScopeId × String) := do
  traceStep options "locate" node
  match node with
  | .absent => throw .absentNode
  | .node (.form .varLoc) _ _ =>
    let name ← nameOf (node.child 0)
    let m ← get
    match m.store.locate m.scope name with
    | some scope => return (scope, name)
    | none => raise .undefinedVariable node
  | .node label _ _ => throw (.unknownNode label.kind)

/-- Declares a variable; a closure without a name takes that of the variable. -/
def declare (node : Tree) (v : Value) : Action Unit := do
  let name ← nameOf (node.child 0)
  let type := (node.child 2).name?.getD ""
  let m ← get
  match m.store.define m.scope name v type with
  | none => raise .variableAlreadyDefined node
  | some store =>
    match v with
    | .int _ => set { m with store }
    | .closure id => set { m with store := store.nameClosure id name }

def lookup (node : Tree) : Action Value := do
  let name ← nameOf (node.child 0)
  let m ← get
  match m.store.get? m.scope name with
  | some v => return v
  | none => raise .undefinedVariable node

/-- The value of a function node: a new closure over the current scope. -/
def makeClosure (node : Tree) : Action Value := fun m =>
  match Closure.ofNode? node m.scope with
  | none => .error .absentNode m
  | some (.error c) => .error (.condition c node) m
  | some (.ok c) =>
    let (id, store) := m.store.newClosure c
    .ok (.closure id) { m with store }

/-- Binds parameters to arguments in a scope; both are as many, and parameters are distinct. -/
def bindParams (c : Closure) (scope : ScopeId) (args : List Value) (s : Store) : Store :=
  ((c.params.zip args).zipIdx).foldl (fun s ((x, v), i) =>
    (s.define scope x v (c.paramType i)).getD s) s

/-- Reports the call of a function around an action, each time with the name that it has then. -/
def observed {α : Type} (options : Options) (id : ClosureId) (c : Closure)
    (x : Action α) : Action α :=
  if options.calls then fun m =>
    restoring (fun m' =>
      { m' with events := m'.events.push (.leave (m'.store.current id c)) })
      x { m with events := m.events.push (.enter (m.store.current id c)) }
  else x

/-- Runs a function body in the scope of its call, with one more call active meanwhile. The value is
that of the return on its way, or zero. The caller's scope and pending return are put back whatever
the outcome. -/
def inCall (scope : ScopeId) (store : Store) (body : Action Unit) : Action Value := fun m =>
  let restore := fun m' : Machine =>
    { m' with
      scope := m.scope, returning := m.returning, result := m.result, depth := m'.depth - 1 }
  let start := { m with store, scope, returning := false, result := .int 0, depth := m.depth + 1 }
  match body start with
  | .ok () m' => .ok (if m'.returning then m'.result else .int 0) (restore m')
  | .error e m' => .error e (restore m')

end Action

/-- The value of an operator at two values. -/
def BinaryOp.apply (op : BinaryOp) (v w : Value) : Except Condition Value :=
  match op with
  | .eq => .ok (.ofBool (v = w))
  | .ne => .ok (.ofBool (v ≠ w))
  | .and => .ok (.ofBool (v.truthy && w.truthy))
  | .or => .ok (.ofBool (v.truthy || w.truthy))
  | .add | .sub | .mul | .div | .lt | .gt | .le | .ge =>
    match v, w with
    | .int a, .int b =>
      match op with
      | .add => .ok (.int (a + b))
      | .sub => .ok (.int (a - b))
      | .mul => .ok (.int (a * b))
      | .div => if b = 0 then .error .divideByZero else .ok (.int (a / b))
      | .lt => .ok (.ofBool (a < b))
      | .gt => .ok (.ofBool (b < a))
      | .le => .ok (.ofBool (a ≤ b))
      | _ => .ok (.ofBool (b ≤ a))
    | _, _ => .error .mathOnFunction

end ClosureLang

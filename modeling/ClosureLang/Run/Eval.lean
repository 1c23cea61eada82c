import ClosureLang.Run.Machine

/-! Running trees: statements are executed, expressions evaluated. Every call takes one unit of
fuel, so that running a program that never ends has an answer too. -/
namespace ClosureLang

open ClosureLang.Action

/-- Executes statements in order until a return is on its way. -/
def execAll (exec : Tree → Action Unit) : List Tree → Action Unit
  | [] => pure ()
  | t :: ts => do
    if (← get).returning then pure ()
    else
      exec t
      execAll exec ts

/-- Evaluates expressions from left to right. -/
def evalAll (eval : Tree → Action Value) : List Tree → Action (List Value)
  | [] => pure []
  | t :: ts => do
    let v ← eval t
    let vs ← evalAll eval ts
    return v :: vs

/-- The function behind a value that is called. -/
def calleeOf (node : Tree) (v : Value) : Action (ClosureId × Closure) := do
  match v with
  | .int _ => raise .callingNonFunction node
  | .closure id =>
    match (← get).store.closure? id with
    | some c => return (id, c)
    | none => throw .absentNode

/-- Checks the number of arguments and the depth of calls. -/
def checkCall (options : Options) (node : Tree) (c : Closure) (args : List Value) :
    Action Unit := do
  if args.length ≠ c.params.length then raise .argumentMismatch node
  else if 0 < options.maxDepth ∧ options.maxDepth ≤ (← get).depth then raise .stackOverflow node

/-- Calls a function whose call was checked. -/
def enterCall (options : Options) (id : ClosureId) (c : Closure) (args : List Value)
    (exec : Tree → Action Unit) : Action Value := do
  let (scope, store) := (← get).store.newScope c.scope
  let store := bindParams c scope args store
  observed options id c (inCall scope store (exec c.body))

mutual

def exec (options : Options) : Nat → Tree → Action Unit
  | 0, _ => throw .outOfFuel
  | fuel + 1, node => do
    traceStep options "execute" node
    nested <| match node with
      | .absent => throw .absentNode
      | .node (.ident _) _ _ => throw (.unknownNode .ident)
      | .node (.form .sequence) _ cs => execAll (exec options fuel) cs
      | .node (.form .declare) _ _ => do
        let v ← eval options fuel (node.child 1)
        declare node v
      | .node (.form .assign) _ _ => do
        let v ← eval options fuel (node.child 1)
        let (scope, name) ← locate options (node.child 0)
        modify fun m => { m with store := m.store.set scope name v }
      | .node (.form .print) _ _ => do
        let v ← eval options fuel (node.child 0)
        printLine v.text
      | .node (.form .ifThen) _ _ => do
        let v ← eval options fuel (node.child 0)
        if v.truthy then inScope (exec options fuel (node.child 1)) else pure ()
      | .node (.form .ifElse) _ _ => do
        let v ← eval options fuel (node.child 0)
        if v.truthy then inScope (exec options fuel (node.child 1))
        else inScope (exec options fuel (node.child 2))
      | .node (.form .whileDo) _ _ => loop options fuel (node.child 0) (node.child 1)
      | .node (.form .ret) _ _ => do
        if (← get).depth = 0 then raise .illegalReturn node
        let v ← eval options fuel (node.child 0)
        modify fun m => { m with returning := true, result := v }
      | .node (.form f) _ _ =>
        match f with
        | .invalid | .parameters | .signature | .arguments | .varLoc =>
          throw (.unknownNode (.form f))
        | _ => discard (eval options fuel node)
      | .node (.integer _) _ _ => discard (eval options fuel node)

/-- Repeats a body in a new scope each time, while the condition holds and no return is on its
way. -/
def loop (options : Options) : Nat → Tree → Tree → Action Unit
  | 0, _, _ => throw .outOfFuel
  | fuel + 1, cond, body => do
    if (← get).returning then pure ()
    else
      let v ← eval options fuel cond
      if v.truthy then
        inScope (exec options fuel body)
        loop options fuel cond body
      else pure ()

def eval (options : Options) : Nat → Tree → Action Value
  | 0, _ => throw .outOfFuel
  | fuel + 1, node => do
    traceStep options "evaluate" node
    nested <| match node with
      | .absent => throw .absentNode
      | .node (.integer value) _ _ => pure (.int value)
      | .node (.form .lookup) _ _ => lookup node
      | .node (.form (.binary op)) _ _ => do
        let v ← eval options fuel (node.child 0)
        let w ← eval options fuel (node.child 1)
        match op.apply v w with
        | .ok result => pure result
        | .error c => raise c node
      | .node (.form .not) _ _ => do
        let v ← eval options fuel (node.child 0)
        pure (.ofBool (!v.truthy))
      | .node (.form .function) _ _ => makeClosure node
      | .node (.form .call) _ _ => do
        let (id, c) ← calleeOf node (← eval options fuel (node.child 0))
        let args ← match node.child 1 with
          | .absent => throw .absentNode
          | arguments => evalAll (eval options fuel) arguments.children
        checkCall options node c args
        enterCall options id c args (exec options fuel)
      | .node label _ _ => throw (.unknownNode label.kind)

end

end ClosureLang

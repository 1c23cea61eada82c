import ClosureLang.Proofs.Run.Growth
import ClosureLang.Run.Eval

/-! What one step of a run does at a node, in terms of the parts of the node, and what the actions
that surround other actions make of their endings. -/
namespace ClosureLang

namespace Kind

/-- The parts of other nodes, which mean nothing by themselves. -/
def isFragment : Kind → Bool
  | .ident | .form .invalid | .form .parameters | .form .signature | .form .arguments
  | .form .varLoc => true
  | _ => false

def isStatement : Kind → Bool
  | .form .sequence | .form .declare | .form .assign | .form .print | .form .ifThen | .form .ifElse
  | .form .whileDo | .form .ret => true
  | _ => false

def isExpression : Kind → Bool
  | .integer | .form .lookup | .form (.binary _) | .form .not | .form .function | .form .call =>
    true
  | _ => false

end Kind

namespace Action

variable {α : Type}

/-- The same ending with another machine. -/
def mapEnd (f : Machine → Machine) : EStateM.Result Stop Machine α → EStateM.Result Stop Machine α
  | .ok a m => .ok a (f m)
  | .error s m => .error s (f m)

/-- The machine at the end of an action, whatever the outcome. -/
def after (x : Action α) (m : Machine) : Machine :=
  match x m with
  | .ok _ m' => m'
  | .error _ m' => m'

/-- Why an action ends early, if it does. -/
def stop? (x : Action α) (m : Machine) : Option Stop :=
  match x m with
  | .ok _ _ => none
  | .error s _ => some s

theorem restoring_eq (restore : Machine → Machine) (x : Action α) (m : Machine) :
    restoring restore x m = mapEnd restore (x m) := by
  simp only [restoring]
  cases x m <;> rfl

theorem inScope_eq (x : Action α) (m : Machine) :
    inScope x m = mapEnd (fun m' => { m' with scope := m.scope })
      (x { m with store := (m.store.newScope m.scope).2, scope := (m.store.newScope m.scope).1 }) :=
  restoring_eq ..

/-- A step at a node is traced; what it does is one level deeper in the trace. -/
def traced (options : Options) (what : String) (node : Tree) (x : Action α) : Action α := do
  traceStep options what node
  nested x

theorem traceStep_eq_ok (options : Options) (what : String) (node : Tree) (m : Machine) :
    ∃ events, traceStep options what node m = .ok () { m with events } := by
  by_cases htrace : options.trace = true
  · refine ⟨m.events.push (.step (stepLine what node m)), ?_⟩
    rw [show traceStep options what node = _ from if_pos htrace]
    rfl
  · refine ⟨m.events, ?_⟩
    rw [show traceStep options what node = _ from if_neg htrace]
    rfl

theorem traced_eq (options : Options) (what : String) (node : Tree) (m : Machine) :
    ∃ events, ∀ x : Action α, traced options what node x m =
      mapEnd (fun m' => { m' with level := m'.level - 1 })
        (x { m with events, level := m.level + 1 }) := by
  obtain ⟨events, hstep⟩ := traceStep_eq_ok options what node m
  refine ⟨events, fun x => ?_⟩
  simp only [traced, bind, EStateM.bind, hstep]
  exact restoring_eq ..

/-- Calls are reported in front of what they do and behind it. -/
theorem observed_of_calls {options : Options} (h : options.calls = true) (id : ClosureId)
    (c : Closure) (x : Action α) (m : Machine) :
    observed options id c x m =
      mapEnd (fun m' => { m' with events := m'.events.push (.leave (m'.store.current id c)) })
        (x { m with events := m.events.push (.enter (m.store.current id c)) }) := by
  rw [show observed options id c x = _ from if_pos h]
  exact restoring_eq ..

theorem observed_of_not_calls {options : Options} (h : ¬ options.calls = true) (id : ClosureId)
    (c : Closure) (x : Action α) : observed options id c x = x := if_neg h

theorem observed_eq_mapEnd (options : Options) (id : ClosureId) (c : Closure) (x : Action α)
    (m : Machine) :
    ∃ events, ∃ finish : Machine → Array Event, observed options id c x m =
      mapEnd (fun m' => { m' with events := finish m' }) (x { m with events }) := by
  by_cases hcalls : options.calls = true
  · exact ⟨_, _, observed_of_calls hcalls id c x m⟩
  · refine ⟨m.events, Machine.events, ?_⟩
    rw [observed_of_not_calls hcalls]
    cases x m <;> rfl

/-- An action that concerns the store only, and the scope in which it is done. -/
def onStore (f : ScopeId → Store → Except Stop (α × Store)) : Action α := fun m =>
  match f m.scope m.store with
  | .ok (a, store) => .ok a { m with store }
  | .error s => .error s m

/-- A return sets out for the enclosing call. -/
def setOut (v : Value) : Action Unit := modify fun m => { m with returning := true, result := v }

end Action

namespace Tree

/-- A step that needs the name of a tree. -/
def named {β : Type} (t : Tree) (f : String → Except Stop β) : Except Stop β :=
  match t.name? with
  | none => .error .absentNode
  | some x => f x

def lookupAt (node : Tree) (e : ScopeId) (s : Store) : Except Stop (Value × Store) :=
  (node.child 0).named fun x =>
    match s.get? e x with
    | some v => .ok (v, s)
    | none => .error (.condition .undefinedVariable node)

def locateAt (node : Tree) (e : ScopeId) (s : Store) : Except Stop ((ScopeId × String) × Store) :=
  match node with
  | .absent => .error .absentNode
  | .node (.form .varLoc) _ _ =>
    (node.child 0).named fun x =>
      match s.locate e x with
      | some target => .ok ((target, x), s)
      | none => .error (.condition .undefinedVariable node)
  | .node label _ _ => .error (.unknownNode label.kind)

def declareAt (node : Tree) (v : Value) (e : ScopeId) (s : Store) : Except Stop (Unit × Store) :=
  (node.child 0).named fun x =>
    match s.define e x v ((node.child 2).name?.getD "") with
    | none => .error (.condition .variableAlreadyDefined node)
    | some s =>
      match v with
      | .int _ => .ok ((), s)
      | .closure id => .ok ((), s.nameClosure id x)

def closureAt (node : Tree) (e : ScopeId) (s : Store) : Except Stop (Value × Store) :=
  match Closure.ofNode? node e with
  | none => .error .absentNode
  | some (.error c) => .error (.condition c node)
  | some (.ok c) => .ok (.closure (s.newClosure c).1, (s.newClosure c).2)

def calleeAt (node : Tree) (v : Value) (_ : ScopeId) (s : Store) :
    Except Stop ((ClosureId × Closure) × Store) :=
  match v with
  | .int _ => .error (.condition .callingNonFunction node)
  | .closure id =>
    match s.closure? id with
    | some c => .ok ((id, c), s)
    | none => .error .absentNode

/-- The value of an operator node whose operands have the given values. -/
def operateAt (node : Tree) (op : BinaryOp) (v w : Value) (_ : ScopeId) (s : Store) :
    Except Stop (Value × Store) :=
  match op.apply v w with
  | .ok result => .ok (result, s)
  | .error c => .error (.condition c node)

end Tree

def Store.assignAt (target : ScopeId × String) (v : Value) (_ : ScopeId) (s : Store) :
    Except Stop (Unit × Store) := .ok ((), s.set target.1 target.2 v)

section Primitives

variable {node : Tree} {e : ScopeId} {s s' : Store} {v w : Value}

theorem Tree.named_eq_ok {α : Type} {t : Tree} {f : String → Except Stop α} {a : α}
    (h : t.named f = .ok a) : ∃ x, t.name? = some x ∧ f x = .ok a := by
  unfold named at h
  cases hname : t.name? with
  | none =>
    rw [hname] at h
    cases h
  | some x =>
    rw [hname] at h
    exact ⟨x, rfl, h⟩

theorem Tree.lookupAt_eq_ok (h : node.lookupAt e s = .ok (v, s')) :
    s' = s ∧ ∃ x, s.get? e x = some v := by
  obtain ⟨x, -, h⟩ := named_eq_ok h
  cases hget : s.get? e x with
  | none => simp [hget] at h
  | some v' =>
    simp only [hget, Except.ok.injEq, Prod.mk.injEq] at h
    exact ⟨h.2.symm, x, by rw [hget, h.1]⟩

theorem Tree.locateAt_eq_ok {target : ScopeId × String} (h : node.locateAt e s = .ok (target, s')) :
    s' = s := by
  unfold locateAt at h
  split at h
  · cases h
  · obtain ⟨x, -, h⟩ := named_eq_ok h
    cases hlocate : s.locate e x <;> simp_all
  · cases h

theorem Tree.declareAt_eq_ok {u : Unit} (h : node.declareAt v e s = .ok (u, s')) :
    ∃ x type s₁, (node.child 0).name? = some x ∧ s.define e x v type = some s₁ ∧
      (s' = s₁ ∨ ∃ id, s' = s₁.nameClosure id x) := by
  obtain ⟨x, hx, h⟩ := named_eq_ok h
  cases hdefine : s.define e x v ((node.child 2).name?.getD "") with
  | none => simp [hdefine] at h
  | some s₁ =>
    refine ⟨x, _, s₁, hx, hdefine, ?_⟩
    simp only [hdefine] at h
    cases v with
    | int n =>
      cases h
      exact .inl rfl
    | closure id =>
      cases h
      exact .inr ⟨id, rfl⟩

theorem Tree.closureAt_eq_ok (h : node.closureAt e s = .ok (v, s')) :
    ∃ c, Closure.ofNode? node e = some (.ok c) ∧ v = .closure (s.newClosure c).1 ∧
      s' = (s.newClosure c).2 := by
  unfold closureAt at h
  split at h
  · cases h
  · cases h
  · rename_i c hc
    cases h
    exact ⟨c, hc, rfl, rfl⟩

theorem Tree.calleeAt_eq_ok {callee : ClosureId × Closure}
    (h : node.calleeAt v e s = .ok (callee, s')) :
    s' = s ∧ s.closure? callee.1 = some callee.2 := by
  unfold calleeAt at h
  cases v with
  | int n => cases h
  | closure id =>
    cases hclosure : s.closure? id with
    | none => simp [hclosure] at h
    | some c =>
      simp only [hclosure, Except.ok.injEq, Prod.mk.injEq] at h
      obtain ⟨rfl, rfl⟩ := h
      exact ⟨rfl, hclosure⟩

theorem Tree.operateAt_eq_ok {op : BinaryOp} {u : Value}
    (h : node.operateAt op v w e s = .ok (u, s')) : s' = s ∧ op.apply v w = .ok u := by
  unfold operateAt at h
  cases happly : op.apply v w <;> simp_all

end Primitives

open ClosureLang.Action ClosureLang.Tree

/-- The values of the arguments of a call. -/
def evalArguments (eval : Tree → Action Value) (node : Tree) : Action (List Value) :=
  match node.child 1 with
  | .absent => throw .absentNode
  | arguments => evalAll eval arguments.children

section Equations

variable {options : Options} {node : Tree} {v w : Value}

theorem lookup_eq : lookup node = onStore node.lookupAt := by
  funext m
  unfold lookup nameOf onStore lookupAt named
  cases (node.child 0).name? with
  | none => rfl
  | some x =>
    show (match m.store.get? m.scope x with
      | some v => pure v
      | none => raise .undefinedVariable node) m = _
    cases h : m.store.get? m.scope x <;> simp only [h] <;> rfl

theorem locate_eq : locate options node = (do
    traceStep options "locate" node
    onStore node.locateAt) := by
  unfold locate
  congr 1
  funext _ m
  unfold onStore locateAt
  split
  · rfl
  · rename_i o cs
    unfold nameOf named
    cases (Tree.child (.node (.form .varLoc) o cs) 0).name? with
    | none => rfl
    | some x =>
      show (match m.store.locate m.scope x with
        | some e => pure (e, x)
        | none => raise .undefinedVariable (.node (.form .varLoc) o cs)) m = _
      cases h : m.store.locate m.scope x <;> simp only [h] <;> rfl
  · simp only
    rfl

theorem declare_eq : declare node v = onStore (node.declareAt v) := by
  funext m
  unfold declare nameOf onStore declareAt named
  cases (node.child 0).name? with
  | none => rfl
  | some x =>
    show (match m.store.define m.scope x v ((node.child 2).name?.getD "") with
      | none => raise .variableAlreadyDefined node
      | some store =>
        match v with
        | .int _ => set { m with store }
        | .closure id => set { m with store := store.nameClosure id x }) m = _
    cases h : m.store.define m.scope x v ((node.child 2).name?.getD "") with
    | none => simp only [h]; rfl
    | some store => cases v <;> simp only [h] <;> rfl

theorem makeClosure_eq : makeClosure node = onStore node.closureAt := by
  funext m
  unfold makeClosure onStore closureAt
  cases Closure.ofNode? node m.scope with
  | none => rfl
  | some r => cases r <;> rfl

theorem calleeOf_eq : calleeOf node v = onStore (node.calleeAt v) := by
  funext m
  unfold calleeOf onStore calleeAt
  cases v with
  | int n => rfl
  | closure id =>
    show (match m.store.closure? id with
      | some c => pure (id, c)
      | none => throw .absentNode : Action (ClosureId × Closure)) m = _
    cases h : m.store.closure? id <;> simp only [h] <;> rfl

theorem operate_eq (op : BinaryOp) :
    (match op.apply v w with
      | .ok result => pure result
      | .error c => raise c node) = onStore (node.operateAt op v w) := by
  funext m
  unfold onStore operateAt
  cases op.apply v w <;> rfl

theorem enterCall_eq (id : ClosureId) (c : Closure) (args : List Value) (exec : Tree → Action Unit)
    (m : Machine) :
    enterCall options id c args exec m =
      observed options id c
        (inCall (m.store.enter c args).1 (m.store.enter c args).2 (exec c.body)) m :=
  rfl

end Equations

/-- What the execution of a tree does, apart from the trace. -/
inductive Execution (options : Options) (fuel : Nat) : Tree → Action Unit → Prop where
  | absent : Execution options fuel .absent (throw .absentNode)
  | fragment {l o cs} : l.kind.isFragment = true →
      Execution options fuel (.node l o cs) (throw (.unknownNode l.kind))
  | expression {l o cs} : l.kind.isFragment = false → l.kind.isStatement = false →
      Execution options fuel (.node l o cs) (discard (eval options fuel (.node l o cs)))
  | sequence {o cs} :
      Execution options fuel (form .sequence o cs) (execAll (exec options fuel) cs)
  | declare {o cs} :
      Execution options fuel (form .declare o cs) (do
        let v ← eval options fuel ((form .declare o cs).child 1)
        onStore ((form .declare o cs).declareAt v))
  | assign {o cs} :
      Execution options fuel (form .assign o cs) (do
        let v ← eval options fuel ((form .assign o cs).child 1)
        let target ← locate options ((form .assign o cs).child 0)
        onStore (Store.assignAt target v))
  | print {o cs} :
      Execution options fuel (form .print o cs) (do
        let v ← eval options fuel ((form .print o cs).child 0)
        printLine v.text)
  | ifThen {o cs} :
      Execution options fuel (form .ifThen o cs) (do
        let v ← eval options fuel ((form .ifThen o cs).child 0)
        if v.truthy then inScope (exec options fuel ((form .ifThen o cs).child 1)) else pure ())
  | ifElse {o cs} :
      Execution options fuel (form .ifElse o cs) (do
        let v ← eval options fuel ((form .ifElse o cs).child 0)
        if v.truthy then inScope (exec options fuel ((form .ifElse o cs).child 1))
        else inScope (exec options fuel ((form .ifElse o cs).child 2)))
  | whileDo {o cs} :
      Execution options fuel (form .whileDo o cs)
        (loop options fuel ((form .whileDo o cs).child 0) ((form .whileDo o cs).child 1))
  | ret {o cs} :
      Execution options fuel (form .ret o cs) (do
        if (← get).depth = 0 then raise .illegalReturn (form .ret o cs)
        else
          let v ← eval options fuel ((form .ret o cs).child 0)
          setOut v)

/-- What the evaluation of a tree does, apart from the trace. -/
inductive Evaluation (options : Options) (fuel : Nat) : Tree → Action Value → Prop where
  | absent : Evaluation options fuel .absent (throw .absentNode)
  | other {l o cs} : l.kind.isExpression = false →
      Evaluation options fuel (.node l o cs) (throw (.unknownNode l.kind))
  | integer {n o cs} : Evaluation options fuel (.node (.integer n) o cs) (pure (.int n))
  | lookup {o cs} :
      Evaluation options fuel (form .lookup o cs) (onStore (form .lookup o cs).lookupAt)
  | binary {op o cs} :
      Evaluation options fuel (form (.binary op) o cs) (do
        let v ← eval options fuel ((form (.binary op) o cs).child 0)
        let w ← eval options fuel ((form (.binary op) o cs).child 1)
        onStore ((form (.binary op) o cs).operateAt op v w))
  | not {o cs} :
      Evaluation options fuel (form .not o cs) (do
        let v ← eval options fuel ((form .not o cs).child 0)
        pure (.ofBool (!v.truthy)))
  | function {o cs} :
      Evaluation options fuel (form .function o cs) (onStore (form .function o cs).closureAt)
  | call {o cs} :
      Evaluation options fuel (form .call o cs) (do
        let v ← eval options fuel ((form .call o cs).child 0)
        let callee ← onStore ((form .call o cs).calleeAt v)
        let args ← evalArguments (eval options fuel) (form .call o cs)
        checkCall options (form .call o cs) callee.2 args
        enterCall options callee.1 callee.2 args (exec options fuel))

theorem Execution.eq {options : Options} {fuel : Nat} {t : Tree} {x : Action Unit}
    (h : Execution options fuel t x) :
    exec options (fuel + 1) t = traced options "execute" t x := by
  cases h with
  | @fragment l o cs h =>
    cases l with
    | integer n => cases h
    | ident x => rfl
    | form f => cases f <;> first | rfl | cases h
  | @expression l o cs h h' =>
    cases l with
    | integer n => rfl
    | ident x => cases h
    | form f => cases f <;> first | rfl | (cases h; done) | cases h'
  | declare =>
    simp only [← declare_eq]
    rfl
  | _ => rfl

theorem Evaluation.eq {options : Options} {fuel : Nat} {t : Tree} {x : Action Value}
    (h : Evaluation options fuel t x) :
    eval options (fuel + 1) t = traced options "evaluate" t x := by
  cases h with
  | @other l o cs h =>
    cases l with
    | integer n => cases h
    | ident x => rfl
    | form f => cases f <;> first | rfl | cases h
  | lookup =>
    rw [← lookup_eq]
    rfl
  | binary =>
    simp only [← operate_eq]
    rfl
  | function =>
    rw [← makeClosure_eq]
    rfl
  | @call o cs =>
    have harguments : ∀ f : List Value → Action Value,
        (match (form .call o cs).child 1 with
          | .absent => throw .absentNode >>= f
          | arguments => evalAll (eval options fuel) arguments.children >>= f) =
        evalArguments (eval options fuel) (form .call o cs) >>= f := by
      intro f
      unfold evalArguments
      cases (form .call o cs).child 1 <;> rfl
    simp only [← harguments, ← calleeOf_eq]
    rfl
  | _ => rfl

theorem exec_succ (options : Options) (fuel : Nat) (t : Tree) :
    ∃ x, Execution options fuel t x ∧ exec options (fuel + 1) t = traced options "execute" t x := by
  have hexecution : ∃ x, Execution options fuel t x := by
    cases t with
    | absent => exact ⟨_, .absent⟩
    | node l o cs =>
      cases l with
      | integer n => exact ⟨_, .expression rfl rfl⟩
      | ident x => exact ⟨_, .fragment rfl⟩
      | form f =>
        cases f with
        | sequence => exact ⟨_, .sequence⟩
        | declare => exact ⟨_, .declare⟩
        | assign => exact ⟨_, .assign⟩
        | print => exact ⟨_, .print⟩
        | ifThen => exact ⟨_, .ifThen⟩
        | ifElse => exact ⟨_, .ifElse⟩
        | whileDo => exact ⟨_, .whileDo⟩
        | ret => exact ⟨_, .ret⟩
        | invalid | parameters | signature | arguments | varLoc => exact ⟨_, .fragment rfl⟩
        | lookup | binary | not | function | call | unknown => exact ⟨_, .expression rfl rfl⟩
  obtain ⟨x, hx⟩ := hexecution
  exact ⟨x, hx, hx.eq⟩

theorem eval_succ (options : Options) (fuel : Nat) (t : Tree) :
    ∃ x, Evaluation options fuel t x ∧
      eval options (fuel + 1) t = traced options "evaluate" t x := by
  have hevaluation : ∃ x, Evaluation options fuel t x := by
    cases t with
    | absent => exact ⟨_, .absent⟩
    | node l o cs =>
      cases l with
      | integer n => exact ⟨_, .integer⟩
      | ident x => exact ⟨_, .other rfl⟩
      | form f =>
        cases f with
        | lookup => exact ⟨_, .lookup⟩
        | binary op => exact ⟨_, .binary⟩
        | not => exact ⟨_, .not⟩
        | function => exact ⟨_, .function⟩
        | call => exact ⟨_, .call⟩
        | invalid | sequence | declare | assign | print | ifThen | ifElse | whileDo | ret
        | parameters | signature | arguments | varLoc | unknown => exact ⟨_, .other rfl⟩
  obtain ⟨x, hx⟩ := hevaluation
  exact ⟨x, hx, hx.eq⟩

end ClosureLang

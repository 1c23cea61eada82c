import ClosureLang.Proofs.Run.Steps

/-! Programs by what they come to: a return is a way for a statement to end, which sequences and
loops pass on and calls take up. There is no flag to poll, no value to keep and no depth to put
back. -/
namespace ClosureLang

open ClosureLang.Tree

/-- How a statement ends that does not fail. -/
inductive Completion where
  | normal
  | returned (v : Value)

/-- The value of a call whose body ends so. -/
def Completion.value : Completion → Value
  | normal => .int 0
  | returned v => v

/-- What programs act on: scopes and closures, and what is printed. -/
structure State where
  store : Store
  out : String

/-- What a part of a program comes to: an answer or the reason why there is none, and the state
then. -/
abbrev Outcome (α : Type) := Except Stop α × State

def Outcome.map {α β : Type} (f : α → β) (r : Outcome α) : Outcome β := (r.1.map f, r.2)

namespace State

/-- What a step on the store comes to. -/
def perform {α : Type} (σ : State) (e : ScopeId) (f : ScopeId → Store → Except Stop (α × Store)) :
    Outcome α :=
  match f e σ.store with
  | .ok (a, store) => (.ok a, { σ with store })
  | .error s => (.error s, σ)

def print (σ : State) (v : Value) : State := { σ with out := σ.out ++ v.text ++ "\n" }

/-- The state with a new scope inside `e`. -/
def block (σ : State) (e : ScopeId) : State := { σ with store := (σ.store.newScope e).2 }

/-- The state with the scope of a call. -/
def call (σ : State) (c : Closure) (args : List Value) : State :=
  { σ with store := (σ.store.enter c args).2 }

end State

/-- Why a call is not made, if it is not: the number of arguments, or too many active calls. -/
def refusal? (limit depth : Nat) (c : Closure) (args : List Value) : Option Condition :=
  if args.length ≠ c.params.length then some .argumentMismatch
  else if 0 < limit ∧ limit ≤ depth then some .stackOverflow
  else none

/-- The part of an expression that is evaluated first. -/
def Tree.operand? (t : Tree) : Option Tree :=
  match t.form? with
  | some (.binary _) | some .not | some .call => some (t.child 0)
  | _ => none

/-- The expression that a statement evaluates first. A return does so inside calls only. -/
def Tree.subject? (t : Tree) : Option Tree :=
  match t.form? with
  | some .declare | some .assign => some (t.child 1)
  | some .print | some .ifThen | some .ifElse => some (t.child 0)
  | _ => none

/-- The first operand is evaluated first. -/
theorem evaluation_operand (options : Options) {t c : Tree} (h : t.operand? = some c) :
    ∃ f : Nat → Value → Action Value,
      ∀ fuel, Evaluation options fuel t (eval options fuel c >>= f fuel) := by
  unfold Tree.operand? at h
  match t with
  | .node (.form (.binary op)) o cs =>
    cases h
    exact ⟨_, fun _ => .binary⟩
  | .node (.form .not) o cs =>
    cases h
    exact ⟨_, fun _ => .not⟩
  | .node (.form .call) o cs =>
    cases h
    exact ⟨_, fun _ => .call⟩

theorem execution_subject (options : Options) {t c : Tree} (h : t.subject? = some c) :
    ∃ f : Nat → Value → Action Unit,
      ∀ fuel, Execution options fuel t (eval options fuel c >>= f fuel) := by
  unfold Tree.subject? at h
  match t with
  | .node (.form .declare) o cs =>
    cases h
    exact ⟨_, fun _ => .declare⟩
  | .node (.form .assign) o cs =>
    cases h
    exact ⟨_, fun _ => .assign⟩
  | .node (.form .print) o cs =>
    cases h
    exact ⟨_, fun _ => .print⟩
  | .node (.form .ifThen) o cs =>
    cases h
    exact ⟨_, fun _ => .ifThen⟩
  | .node (.form .ifElse) o cs =>
    cases h
    exact ⟨_, fun _ => .ifElse⟩

mutual

/-- In the scope `e`, with `d` calls active, an expression comes to an outcome. -/
inductive Evaluates (limit : Nat) : Nat → ScopeId → Tree → State → Outcome Value → Prop where
  | absent {d e σ} : Evaluates limit d e .absent σ (.error .absentNode, σ)
  | other {d e l o cs σ} : l.kind.isExpression = false →
      Evaluates limit d e (.node l o cs) σ (.error (.unknownNode l.kind), σ)
  | integer {d e n o cs σ} : Evaluates limit d e (.node (.integer n) o cs) σ (.ok (.int n), σ)
  | lookup {d e o cs σ} :
      Evaluates limit d e (form .lookup o cs) σ (σ.perform e (form .lookup o cs).lookupAt)
  | function {d e o cs σ} :
      Evaluates limit d e (form .function o cs) σ (σ.perform e (form .function o cs).closureAt)
  | operand {d e t c σ s σ'} : t.operand? = some c →
      Evaluates limit d e c σ (.error s, σ') → Evaluates limit d e t σ (.error s, σ')
  | not {d e o cs σ v σ'} :
      Evaluates limit d e ((form .not o cs).child 0) σ (.ok v, σ') →
      Evaluates limit d e (form .not o cs) σ (.ok (.ofBool (!v.truthy)), σ')
  /-- Both operands are evaluated, whatever the value of the first. -/
  | right {d e op o cs σ v σ₁ s σ'} :
      Evaluates limit d e ((form (.binary op) o cs).child 0) σ (.ok v, σ₁) →
      Evaluates limit d e ((form (.binary op) o cs).child 1) σ₁ (.error s, σ') →
      Evaluates limit d e (form (.binary op) o cs) σ (.error s, σ')
  | binary {d e op o cs σ v σ₁ u σ₂} :
      Evaluates limit d e ((form (.binary op) o cs).child 0) σ (.ok v, σ₁) →
      Evaluates limit d e ((form (.binary op) o cs).child 1) σ₁ (.ok u, σ₂) →
      Evaluates limit d e (form (.binary op) o cs) σ
        (σ₂.perform e ((form (.binary op) o cs).operateAt op v u))
  | callee {d e o cs σ v σ₁ s σ'} :
      Evaluates limit d e ((form .call o cs).child 0) σ (.ok v, σ₁) →
      σ₁.perform e ((form .call o cs).calleeAt v) = (.error s, σ') →
      Evaluates limit d e (form .call o cs) σ (.error s, σ')
  | arguments {d e o cs σ v σ₁ id c σ₂ s σ'} :
      Evaluates limit d e ((form .call o cs).child 0) σ (.ok v, σ₁) →
      σ₁.perform e ((form .call o cs).calleeAt v) = (.ok (id, c), σ₂) →
      EvaluatesArguments limit d e ((form .call o cs).child 1) σ₂ (.error s, σ') →
      Evaluates limit d e (form .call o cs) σ (.error s, σ')
  | refused {d e o cs σ v σ₁ id c σ₂ vs σ₃ condition} :
      Evaluates limit d e ((form .call o cs).child 0) σ (.ok v, σ₁) →
      σ₁.perform e ((form .call o cs).calleeAt v) = (.ok (id, c), σ₂) →
      EvaluatesArguments limit d e ((form .call o cs).child 1) σ₂ (.ok vs, σ₃) →
      refusal? limit d c vs = some condition →
      Evaluates limit d e (form .call o cs) σ (.error (.condition condition (form .call o cs)), σ₃)
  | call {d e o cs σ v σ₁ id c σ₂ vs σ₃ r} :
      Evaluates limit d e ((form .call o cs).child 0) σ (.ok v, σ₁) →
      σ₁.perform e ((form .call o cs).calleeAt v) = (.ok (id, c), σ₂) →
      EvaluatesArguments limit d e ((form .call o cs).child 1) σ₂ (.ok vs, σ₃) →
      refusal? limit d c vs = none →
      Runs limit (d + 1) (σ₃.store.enter c vs).1 c.body (σ₃.call c vs) r →
      Evaluates limit d e (form .call o cs) σ (r.map Completion.value)

inductive EvaluatesArguments (limit : Nat) :
    Nat → ScopeId → Tree → State → Outcome (List Value) → Prop where
  | absent {d e σ} : EvaluatesArguments limit d e .absent σ (.error .absentNode, σ)
  | node {d e l o cs σ r} :
      EvaluatesAll limit d e cs σ r → EvaluatesArguments limit d e (.node l o cs) σ r

/-- From left to right. -/
inductive EvaluatesAll (limit : Nat) :
    Nat → ScopeId → List Tree → State → Outcome (List Value) → Prop where
  | nil {d e σ} : EvaluatesAll limit d e [] σ (.ok [], σ)
  | head {d e t ts σ s σ'} :
      Evaluates limit d e t σ (.error s, σ') → EvaluatesAll limit d e (t :: ts) σ (.error s, σ')
  | cons {d e t ts σ v σ₁ r} :
      Evaluates limit d e t σ (.ok v, σ₁) → EvaluatesAll limit d e ts σ₁ r →
      EvaluatesAll limit d e (t :: ts) σ (r.map (v :: ·))

inductive Runs (limit : Nat) : Nat → ScopeId → Tree → State → Outcome Completion → Prop where
  | absent {d e σ} : Runs limit d e .absent σ (.error .absentNode, σ)
  | fragment {d e l o cs σ} : l.kind.isFragment = true →
      Runs limit d e (.node l o cs) σ (.error (.unknownNode l.kind), σ)
  | expression {d e l o cs σ r} : l.kind.isFragment = false → l.kind.isStatement = false →
      Evaluates limit d e (.node l o cs) σ r →
      Runs limit d e (.node l o cs) σ (r.map fun _ => .normal)
  | sequence {d e o cs σ r} : RunsAll limit d e cs σ r → Runs limit d e (form .sequence o cs) σ r
  | subject {d e t c σ s σ'} : t.subject? = some c →
      Evaluates limit d e c σ (.error s, σ') → Runs limit d e t σ (.error s, σ')
  | declare {d e o cs σ v σ₁} :
      Evaluates limit d e ((form .declare o cs).child 1) σ (.ok v, σ₁) →
      Runs limit d e (form .declare o cs) σ
        ((σ₁.perform e ((form .declare o cs).declareAt v)).map fun _ => .normal)
  | location {d e o cs σ v σ₁ s σ'} :
      Evaluates limit d e ((form .assign o cs).child 1) σ (.ok v, σ₁) →
      σ₁.perform e ((form .assign o cs).child 0).locateAt = (.error s, σ') →
      Runs limit d e (form .assign o cs) σ (.error s, σ')
  | assign {d e o cs σ v σ₁ target σ₂} :
      Evaluates limit d e ((form .assign o cs).child 1) σ (.ok v, σ₁) →
      σ₁.perform e ((form .assign o cs).child 0).locateAt = (.ok target, σ₂) →
      Runs limit d e (form .assign o cs) σ
        ((σ₂.perform e (Store.assignAt target v)).map fun _ => .normal)
  | print {d e o cs σ v σ₁} :
      Evaluates limit d e ((form .print o cs).child 0) σ (.ok v, σ₁) →
      Runs limit d e (form .print o cs) σ (.ok .normal, σ₁.print v)
  | skip {d e o cs σ v σ₁} :
      Evaluates limit d e ((form .ifThen o cs).child 0) σ (.ok v, σ₁) → v.truthy = false →
      Runs limit d e (form .ifThen o cs) σ (.ok .normal, σ₁)
  | ifThen {d e o cs σ v σ₁ r} :
      Evaluates limit d e ((form .ifThen o cs).child 0) σ (.ok v, σ₁) → v.truthy = true →
      Runs limit d (σ₁.store.newScope e).1 ((form .ifThen o cs).child 1) (σ₁.block e) r →
      Runs limit d e (form .ifThen o cs) σ r
  | ifElse {d e o cs σ v σ₁ r} :
      Evaluates limit d e ((form .ifElse o cs).child 0) σ (.ok v, σ₁) →
      Runs limit d (σ₁.store.newScope e).1
        (if v.truthy then (form .ifElse o cs).child 1 else (form .ifElse o cs).child 2)
        (σ₁.block e) r →
      Runs limit d e (form .ifElse o cs) σ r
  | whileDo {d e o cs σ r} :
      Loops limit d e ((form .whileDo o cs).child 0) ((form .whileDo o cs).child 1) σ r →
      Runs limit d e (form .whileDo o cs) σ r
  /-- Outside calls a return fails before its operand is evaluated. -/
  | stray {e o cs σ} :
      Runs limit 0 e (form .ret o cs) σ (.error (.condition .illegalReturn (form .ret o cs)), σ)
  | ret {d e o cs σ r} :
      Evaluates limit (d + 1) e ((form .ret o cs).child 0) σ r →
      Runs limit (d + 1) e (form .ret o cs) σ (r.map .returned)

/-- In order, up to the first that does not end normally. -/
inductive RunsAll (limit : Nat) :
    Nat → ScopeId → List Tree → State → Outcome Completion → Prop where
  | nil {d e σ} : RunsAll limit d e [] σ (.ok .normal, σ)
  | stop {d e t ts σ r} : Runs limit d e t σ r → r.1 ≠ .ok .normal → RunsAll limit d e (t :: ts) σ r
  | next {d e t ts σ σ₁ r} :
      Runs limit d e t σ (.ok .normal, σ₁) → RunsAll limit d e ts σ₁ r →
      RunsAll limit d e (t :: ts) σ r

/-- A loop with the given condition and body, which runs in a new scope each time. -/
inductive Loops (limit : Nat) :
    Nat → ScopeId → Tree → Tree → State → Outcome Completion → Prop where
  | failed {d e cond body σ s σ'} :
      Evaluates limit d e cond σ (.error s, σ') → Loops limit d e cond body σ (.error s, σ')
  | done {d e cond body σ v σ₁} :
      Evaluates limit d e cond σ (.ok v, σ₁) → v.truthy = false →
      Loops limit d e cond body σ (.ok .normal, σ₁)
  | stop {d e cond body σ v σ₁ r} :
      Evaluates limit d e cond σ (.ok v, σ₁) → v.truthy = true →
      Runs limit d (σ₁.store.newScope e).1 body (σ₁.block e) r → r.1 ≠ .ok .normal →
      Loops limit d e cond body σ r
  | next {d e cond body σ v σ₁ σ₂ r} :
      Evaluates limit d e cond σ (.ok v, σ₁) → v.truthy = true →
      Runs limit d (σ₁.store.newScope e).1 body (σ₁.block e) (.ok .normal, σ₂) →
      Loops limit d e cond body σ₂ r → Loops limit d e cond body σ r

end

/-- There is nothing to run out of. -/
def Proper {α : Type} (r : Outcome α) : Prop := r.1 ≠ .error .outOfFuel

namespace Proper

variable {α β : Type} {limit d : Nat} {e : ScopeId} {σ σ' : State} {node : Tree}

theorem map {r : Outcome α} (h : Proper r) (f : α → β) : Proper (r.map f) := by
  obtain ⟨s | a, σ⟩ := r
  · exact fun hs => h (by cases hs; rfl)
  · nofun

theorem error {s : Stop} (h : Proper ((.error s, σ) : Outcome α)) :
    Proper ((.error s, σ') : Outcome β) :=
  fun hs => h (by cases hs; rfl)

theorem perform {f : ScopeId → Store → Except Stop (α × Store)}
    (hf : ∀ s, f e s ≠ .error .outOfFuel) : Proper (σ.perform e f) := by
  unfold State.perform
  cases h : f e σ.store with
  | ok r => nofun
  | error s =>
    rintro ⟨⟩
    exact hf σ.store h

theorem named {t : Tree} {f : String → Except Stop α} (hf : ∀ x, f x ≠ .error .outOfFuel) :
    t.named f ≠ .error .outOfFuel := by
  unfold Tree.named
  split
  · nofun
  · exact hf _

theorem lookup : Proper (σ.perform e node.lookupAt) :=
  perform fun s => named fun x => by split <;> nofun

theorem locate : Proper (σ.perform e node.locateAt) := by
  refine perform fun s => ?_
  unfold locateAt
  split
  · nofun
  · exact named fun x => by split <;> nofun
  · nofun

theorem declare {v : Value} : Proper (σ.perform e (node.declareAt v)) :=
  perform fun s => named fun x => by
    split
    · nofun
    · split <;> nofun

theorem function : Proper (σ.perform e node.closureAt) := by
  refine perform fun s => ?_
  unfold closureAt
  split <;> nofun

theorem callee {v : Value} : Proper (σ.perform e (node.calleeAt v)) := by
  refine perform fun s => ?_
  unfold calleeAt
  split
  · nofun
  · split <;> nofun

theorem operate {op : BinaryOp} {v u : Value} : Proper (σ.perform e (node.operateAt op v u)) := by
  refine perform fun s => ?_
  unfold operateAt
  split <;> nofun

end Proper

mutual

theorem Evaluates.proper {limit d : Nat} {e : ScopeId} {t : Tree} {σ : State} {r : Outcome Value} :
    Evaluates limit d e t σ r → Proper r
  | .absent | .other _ | .integer | .not _ | .refused .. => nofun
  | .lookup => .lookup
  | .function => .function
  | .operand _ h => h.proper
  | .right _ h => h.proper
  | .binary _ _ => .operate
  | .callee _ h => (h ▸ Proper.callee : Proper (.error _, _)).error
  | .arguments _ _ h => h.proper.error
  | .call _ _ _ _ h => h.proper.map _

theorem EvaluatesArguments.proper {limit d : Nat} {e : ScopeId} {t : Tree} {σ : State}
    {r : Outcome (List Value)} : EvaluatesArguments limit d e t σ r → Proper r
  | .absent => nofun
  | .node h => h.proper

theorem EvaluatesAll.proper {limit d : Nat} {e : ScopeId} {ts : List Tree} {σ : State}
    {r : Outcome (List Value)} : EvaluatesAll limit d e ts σ r → Proper r
  | .nil => nofun
  | .head h => h.proper.error
  | .cons _ h => h.proper.map _

theorem Runs.proper {limit d : Nat} {e : ScopeId} {t : Tree} {σ : State} {r : Outcome Completion} :
    Runs limit d e t σ r → Proper r
  | .absent | .fragment _ | .print _ | .skip _ _ | .stray => nofun
  | .expression _ _ h => h.proper.map _
  | .sequence h => h.proper
  | .subject _ h => h.proper.error
  | .declare _ => Proper.declare.map _
  | .location _ h => (h ▸ Proper.locate : Proper (.error _, _)).error
  | .assign _ _ => nofun
  | .ifThen _ _ h => h.proper
  | .ifElse _ h => h.proper
  | .whileDo h => h.proper
  | .ret h => h.proper.map _

theorem RunsAll.proper {limit d : Nat} {e : ScopeId} {ts : List Tree} {σ : State}
    {r : Outcome Completion} : RunsAll limit d e ts σ r → Proper r
  | .nil => nofun
  | .stop h _ => h.proper
  | .next _ h => h.proper

theorem Loops.proper {limit d : Nat} {e : ScopeId} {cond body : Tree} {σ : State}
    {r : Outcome Completion} : Loops limit d e cond body σ r → Proper r
  | .failed h => h.proper.error
  | .done _ _ => nofun
  | .stop _ _ h _ => h.proper
  | .next _ _ _ h => h.proper

end

end ClosureLang

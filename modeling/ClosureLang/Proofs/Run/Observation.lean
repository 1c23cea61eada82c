import ClosureLang.Proofs.Run.Steps

/-! What was printed and reported before a run does not matter to it. -/
namespace ClosureLang

open ClosureLang.Action

variable {α β : Type} {x : Action α} {options : Options}

namespace Machine

/-- The machine with an earlier output and earlier events. -/
def behind (out : String) (events : Array Event) (m : Machine) : Machine :=
  { m with out := out ++ m.out, events := events ++ m.events }

end Machine

/-- An action goes on from any output and any events in the same way. -/
def Oblivious (x : Action α) : Prop :=
  ∀ out events m, x (m.behind out events) = mapEnd (.behind out events) (x m)

namespace Oblivious

theorem pure (a : α) : Oblivious (Pure.pure a : Action α) := fun _ _ _ => rfl

theorem throw (s : Stop) : Oblivious (MonadExcept.throw s : Action α) := fun _ _ _ => rfl

theorem bind {f : α → Action β} (hx : Oblivious x) (hf : ∀ a, Oblivious (f a)) :
    Oblivious (x >>= f) := by
  intro out events m
  simp only [Bind.bind, EStateM.bind, hx out events m]
  cases x m with
  | ok a m' => exact hf a out events m'
  | error s m' => rfl

/-- The action may depend on the machine, but not on what was printed and reported. -/
theorem get {g : Machine → Action α} (hbehind : ∀ out events m, g (m.behind out events) = g m)
    (h : ∀ m, Oblivious (g m)) : Oblivious (MonadState.get >>= g) := by
  intro out events m
  show g (m.behind out events) (m.behind out events) = _
  rw [hbehind]
  exact h m out events m

theorem ite {c : Prop} [Decidable c] {x y : Action α} (hx : Oblivious x) (hy : Oblivious y) :
    Oblivious (if c then x else y) := by
  split
  · exact hx
  · exact hy

/-- An action between a change of the machine and the restoration of a part of it. -/
theorem restoring {start : Machine → Machine} {finish : Machine → Machine → Machine}
    (hx : Oblivious x)
    (hstart : ∀ out events m, start (m.behind out events) = (start m).behind out events)
    (hfinish : ∀ out events m m',
      finish (m.behind out events) (m'.behind out events) = (finish m m').behind out events) :
    Oblivious fun m => Action.restoring (finish m) x (start m) := by
  intro out events m
  simp only [Action.restoring, hstart, hx out events (start m)]
  cases x (start m) with
  | ok a m' => exact congrArg (EStateM.Result.ok a) (hfinish out events m m')
  | error s m' => exact congrArg (EStateM.Result.error s) (hfinish out events m m')

theorem traceStep (what : String) (node : Tree) : Oblivious (traceStep options what node) := by
  unfold Action.traceStep
  refine ite (fun out events m => ?_) (pure ())
  exact congrArg (EStateM.Result.ok ()) (by simp [Machine.behind, stepLine])

theorem nested (h : Oblivious x) : Oblivious (nested x) :=
  h.restoring (fun _ _ _ => rfl) fun _ _ _ _ => rfl

theorem traced {what : String} {node : Tree} (h : Oblivious x) :
    Oblivious (traced options what node x) := (traceStep what node).bind fun _ => h.nested

theorem inScope (h : Oblivious x) : Oblivious (inScope x) :=
  h.restoring (fun _ _ _ => rfl) fun _ _ _ _ => rfl

theorem observed (id : ClosureId) (c : Closure) (h : Oblivious x) :
    Oblivious (observed options id c x) := by
  unfold Action.observed
  refine ite (h.restoring ?_ ?_) h
  · intro out events m
    simp [Machine.behind]
  · intro out events m m'
    simp [Machine.behind]

theorem inCall {scope : ScopeId} {store : Store} {body : Action Unit} (h : Oblivious body) :
    Oblivious (inCall scope store body) := by
  intro out events m
  have hbody := h out events { m with
    store, scope, returning := false, result := .int 0, depth := m.depth + 1 }
  simp only [Machine.behind] at hbody
  simp only [Action.inCall, Machine.behind, hbody]
  generalize body _ = r
  cases r <;> rfl

theorem onStore (f : ScopeId → Store → Except Stop (α × Store)) : Oblivious (onStore f) := by
  intro out events m
  simp only [Action.onStore, Machine.behind]
  cases f m.scope m.store <;> rfl

theorem locate (node : Tree) : Oblivious (locate options node) := by
  rw [locate_eq]
  exact (traceStep "locate" node).bind fun _ => onStore _

theorem setOut (v : Value) : Oblivious (setOut v) := fun _ _ _ => rfl

theorem printLine (text : String) : Oblivious (printLine text) := fun out events m =>
  congrArg (EStateM.Result.ok ()) (by simp [Machine.behind, String.append_assoc])

theorem checkCall (node : Tree) (c : Closure) (args : List Value) :
    Oblivious (checkCall options node c args) := by
  unfold ClosureLang.checkCall
  refine ite (throw _) (get (fun _ _ _ => rfl) fun m => ?_)
  exact ite (throw _) (pure ())

theorem enterCall {id : ClosureId} {c : Closure} {args : List Value} {g : Tree → Action Unit}
    (h : Oblivious (g c.body)) : Oblivious (enterCall options id c args g) :=
  get (fun _ _ _ => rfl) fun _ => h.inCall.observed id c

theorem evalAll {g : Tree → Action Value} (h : ∀ t, Oblivious (g t)) (ts : List Tree) :
    Oblivious (evalAll g ts) := by
  induction ts with
  | nil => exact pure []
  | cons t ts ih => exact (h t).bind fun v => ih.bind fun vs => pure (v :: vs)

theorem evalArguments {g : Tree → Action Value} (h : ∀ t, Oblivious (g t)) (node : Tree) :
    Oblivious (evalArguments g node) := by
  unfold ClosureLang.evalArguments
  split
  · exact throw _
  · exact evalAll h _

theorem execAll {g : Tree → Action Unit} (h : ∀ t, Oblivious (g t)) (ts : List Tree) :
    Oblivious (execAll g ts) := by
  induction ts with
  | nil => exact pure ()
  | cons t ts ih =>
    exact get (fun _ _ _ => rfl) fun m => ite (pure ()) ((h t).bind fun _ => ih)

end Oblivious

variable (options) (fuel : Nat)

theorem oblivious_eval_succ (heval : ∀ t, Oblivious (eval options fuel t))
    (hexec : ∀ t, Oblivious (exec options fuel t)) (t : Tree) :
    Oblivious (eval options (fuel + 1) t) := by
  obtain ⟨x, hx, heq⟩ := eval_succ options fuel t
  rw [heq]
  refine .traced ?_
  cases hx with
  | absent => exact .throw _
  | other => exact .throw _
  | integer => exact .pure _
  | lookup => exact .onStore _
  | binary => exact (heval _).bind fun v => (heval _).bind fun w => .onStore _
  | not => exact (heval _).bind fun v => .pure _
  | function => exact .onStore _
  | call =>
    exact (heval _).bind fun v => (Oblivious.onStore _).bind fun callee =>
      (Oblivious.evalArguments heval _).bind fun args =>
        (Oblivious.checkCall _ _ args).bind fun _ => .enterCall (hexec _)

theorem oblivious_exec_succ (heval : ∀ t, Oblivious (eval options fuel t))
    (hexec : ∀ t, Oblivious (exec options fuel t))
    (hloop : ∀ cond body, Oblivious (loop options fuel cond body)) (t : Tree) :
    Oblivious (exec options (fuel + 1) t) := by
  obtain ⟨x, hx, heq⟩ := exec_succ options fuel t
  rw [heq]
  refine .traced ?_
  cases hx with
  | absent => exact .throw _
  | fragment => exact .throw _
  | expression => exact (heval _).bind fun _ => .pure ()
  | sequence => exact .execAll hexec _
  | declare => exact (heval _).bind fun v => .onStore _
  | assign =>
    exact (heval _).bind fun v => (Oblivious.locate _).bind fun target => .onStore _
  | print => exact (heval _).bind fun v => .printLine _
  | ifThen => exact (heval _).bind fun v => .ite (.inScope (hexec _)) (.pure ())
  | ifElse => exact (heval _).bind fun v => .ite (.inScope (hexec _)) (.inScope (hexec _))
  | whileDo => exact hloop _ _
  | ret =>
    exact .get (fun _ _ _ => rfl) fun m => .ite (.throw _) ((heval _).bind fun v => .setOut v)

theorem oblivious_loop_succ (heval : ∀ t, Oblivious (eval options fuel t))
    (hexec : ∀ t, Oblivious (exec options fuel t))
    (hloop : ∀ cond body, Oblivious (loop options fuel cond body)) (cond body : Tree) :
    Oblivious (loop options (fuel + 1) cond body) := by
  refine .get (fun _ _ _ => rfl) fun m =>
    .ite (.pure ()) ((heval cond).bind fun v => .ite ?_ (.pure ()))
  exact (Oblivious.inScope (hexec body)).bind fun _ => hloop cond body

theorem oblivious : (∀ t, Oblivious (eval options fuel t)) ∧
    (∀ t, Oblivious (exec options fuel t)) ∧
    ∀ cond body, Oblivious (loop options fuel cond body) := by
  induction fuel with
  | zero => exact ⟨fun _ => .throw _, fun _ => .throw _, fun _ _ => .throw _⟩
  | succ fuel ih =>
    obtain ⟨heval, hexec, hloop⟩ := ih
    exact ⟨oblivious_eval_succ options fuel heval hexec,
      oblivious_exec_succ options fuel heval hexec hloop,
      oblivious_loop_succ options fuel heval hexec hloop⟩

end ClosureLang

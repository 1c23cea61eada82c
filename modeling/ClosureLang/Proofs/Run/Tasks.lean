import Mathlib.Logic.Relation
import ClosureLang.Proofs.Run.BigStep
import ClosureLang.Proofs.Run.Effects
import ClosureLang.Proofs.Run.Simulation

/-! What a run consists of: tasks that start tasks. A task that fails ends the whole run, and
whenever a run fails, one task is the first to do so. -/
namespace ClosureLang

open ClosureLang.Action ClosureLang.Tree

namespace Machine

/-- The machine on which a traced step is made. -/
def within (options : Options) (what : String) (node : Tree) (m : Machine) : Machine :=
  { (traceStep options what node).after m with level := m.level + 1 }

theorem within_eq (options : Options) (what : String) (node : Tree) (m : Machine) :
    ∃ events, m.within options what node = { m with events, level := m.level + 1 } := by
  obtain ⟨events, hstep⟩ := traceStep_eq_ok options what node m
  exact ⟨events, by simp only [within, after, hstep]⟩

section Within

variable {options : Options} {what : String} {node : Tree} {m : Machine}

@[simp] theorem within_store : (m.within options what node).store = m.store := by
  obtain ⟨events, hwithin⟩ := within_eq options what node m
  rw [hwithin]

@[simp] theorem within_scope : (m.within options what node).scope = m.scope := by
  obtain ⟨events, hwithin⟩ := within_eq options what node m
  rw [hwithin]

@[simp] theorem within_returning : (m.within options what node).returning = m.returning := by
  obtain ⟨events, hwithin⟩ := within_eq options what node m
  rw [hwithin]

@[simp] theorem within_depth : (m.within options what node).depth = m.depth := by
  obtain ⟨events, hwithin⟩ := within_eq options what node m
  rw [hwithin]

end Within

/-- The machine in a new scope inside the current one. -/
def inBlock (m : Machine) : Machine :=
  { m with store := (m.store.newScope m.scope).2, scope := (m.store.newScope m.scope).1 }

/-- The machine on which the body of a called function is executed. -/
def calling (options : Options) (id : ClosureId) (c : Closure) (args : List Value)
    (m : Machine) : Machine :=
  { m with
    store := (m.store.enter c args).2, scope := (m.store.enter c args).1
    returning := false, result := .int 0, depth := m.depth + 1
    events := if options.calls then m.events.push (.enter (m.store.current id c)) else m.events }

end Machine

/-- What is done on a machine: a tree is evaluated, executed or located, lists of trees are, or a
loop is. -/
inductive Task where
  | eval (fuel : Nat) (t : Tree) (m : Machine)
  | exec (fuel : Nat) (t : Tree) (m : Machine)
  | evalAll (fuel : Nat) (ts : List Tree) (m : Machine)
  | execAll (fuel : Nat) (ts : List Tree) (m : Machine)
  | loop (fuel : Nat) (cond body : Tree) (m : Machine)
  | locate (t : Tree) (m : Machine)

namespace Task

/-- Why a task ends early, if it does. -/
def stop? (options : Options) : Task → Option Stop
  | eval fuel t m => (ClosureLang.eval options fuel t).stop? m
  | exec fuel t m => (ClosureLang.exec options fuel t).stop? m
  | evalAll fuel ts m => (ClosureLang.evalAll (ClosureLang.eval options fuel) ts).stop? m
  | execAll fuel ts m => (ClosureLang.execAll (ClosureLang.exec options fuel) ts).stop? m
  | loop fuel cond body m => (ClosureLang.loop options fuel cond body).stop? m
  | locate t m => (Action.locate options t).stop? m

/-- A task starts another one, on the machine that it has reached by then. -/
inductive Starts (options : Options) : Task → Task → Prop where
  /-- The first operand of an operator, or the function of a call. -/
  | operand {n t c m} : t.operand? = some c →
      Starts options (eval (n + 1) t m) (eval n c (m.within options "evaluate" t))
  | right {n op o cs m v m₁} :
      ClosureLang.eval options n ((form (.binary op) o cs).child 0)
        (m.within options "evaluate" (form (.binary op) o cs)) = .ok v m₁ →
      Starts options (eval (n + 1) (form (.binary op) o cs) m)
        (eval n ((form (.binary op) o cs).child 1) m₁)
  | arguments {n o cs m v m₁ callee m₂} :
      ClosureLang.eval options n ((form .call o cs).child 0)
        (m.within options "evaluate" (form .call o cs)) = .ok v m₁ →
      onStore ((form .call o cs).calleeAt v) m₁ = .ok callee m₂ →
      ((form .call o cs).child 1).isAbsent = false →
      Starts options (eval (n + 1) (form .call o cs) m)
        (evalAll n ((form .call o cs).child 1).children m₂)
  | body {n o cs m v m₁ callee m₂ args m₃ m₄} :
      ClosureLang.eval options n ((form .call o cs).child 0)
        (m.within options "evaluate" (form .call o cs)) = .ok v m₁ →
      onStore ((form .call o cs).calleeAt v) m₁ = .ok callee m₂ →
      evalArguments (ClosureLang.eval options n) (form .call o cs) m₂ = .ok args m₃ →
      checkCall options (form .call o cs) callee.2 args m₃ = .ok () m₄ →
      Starts options (eval (n + 1) (form .call o cs) m)
        (exec n callee.2.body (m₄.calling options callee.1 callee.2 args))
  /-- The expression that a statement is about. -/
  | subject {n t c m} : t.subject? = some c →
      Starts options (exec (n + 1) t m) (eval n c (m.within options "execute" t))
  | expression {n l o cs m} : l.kind.isFragment = false → l.kind.isStatement = false →
      Starts options (exec (n + 1) (.node l o cs) m)
        (eval n (.node l o cs) (m.within options "execute" (.node l o cs)))
  | statements {n o cs m} :
      Starts options (exec (n + 1) (form .sequence o cs) m)
        (execAll n cs (m.within options "execute" (form .sequence o cs)))
  | target {n o cs m v m₁} :
      ClosureLang.eval options n ((form .assign o cs).child 1)
        (m.within options "execute" (form .assign o cs)) = .ok v m₁ →
      Starts options (exec (n + 1) (form .assign o cs) m) (locate ((form .assign o cs).child 0) m₁)
  | branch {n o cs m v m₁} :
      ClosureLang.eval options n ((form .ifThen o cs).child 0)
        (m.within options "execute" (form .ifThen o cs)) = .ok v m₁ → v.truthy = true →
      Starts options (exec (n + 1) (form .ifThen o cs) m)
        (exec n ((form .ifThen o cs).child 1) m₁.inBlock)
  | alternative {n o cs m v m₁} :
      ClosureLang.eval options n ((form .ifElse o cs).child 0)
        (m.within options "execute" (form .ifElse o cs)) = .ok v m₁ →
      Starts options (exec (n + 1) (form .ifElse o cs) m)
        (exec n ((form .ifElse o cs).child (if v.truthy then 1 else 2)) m₁.inBlock)
  | repetition {n o cs m} :
      Starts options (exec (n + 1) (form .whileDo o cs) m)
        (loop n ((form .whileDo o cs).child 0) ((form .whileDo o cs).child 1)
          (m.within options "execute" (form .whileDo o cs)))
  | result {n o cs m} : m.depth ≠ 0 →
      Starts options (exec (n + 1) (form .ret o cs) m)
        (eval n ((form .ret o cs).child 0) (m.within options "execute" (form .ret o cs)))
  | condition {n cond body m} : m.returning = false →
      Starts options (loop (n + 1) cond body m) (eval n cond m)
  | iteration {n cond body m v m₁} : m.returning = false →
      ClosureLang.eval options n cond m = .ok v m₁ → v.truthy = true →
      Starts options (loop (n + 1) cond body m) (exec n body m₁.inBlock)
  | again {n cond body m v m₁ m₂} : m.returning = false →
      ClosureLang.eval options n cond m = .ok v m₁ → v.truthy = true →
      inScope (ClosureLang.exec options n body) m₁ = .ok () m₂ →
      Starts options (loop (n + 1) cond body m) (loop n cond body m₂)
  | argument {n t ts m} : Starts options (evalAll n (t :: ts) m) (eval n t m)
  | laterArguments {n t ts m v m₁} : ClosureLang.eval options n t m = .ok v m₁ →
      Starts options (evalAll n (t :: ts) m) (evalAll n ts m₁)
  | statement {n t ts m} : m.returning = false →
      Starts options (execAll n (t :: ts) m) (exec n t m)
  | laterStatements {n t ts m m₁} : m.returning = false →
      ClosureLang.exec options n t m = .ok () m₁ →
      Starts options (execAll n (t :: ts) m) (execAll n ts m₁)

/-- The tasks that a run gets to from a given one. -/
def Reaches (options : Options) : Task → Task → Prop := Relation.ReflTransGen (Starts options)

end Task

namespace Action

variable {α β : Type} {x : Action α} {f : α → Action β} {m m' : Machine} {a : α} {s : Stop}
  {options : Options}

theorem stop?_bind_of_stop (h : x.stop? m = some s) : (x >>= f).stop? m = some s := by
  simp only [stop?, bind, EStateM.bind] at h ⊢
  cases hx : x m with
  | ok a m' => simp [hx] at h
  | error s' m' => simpa [hx] using h

theorem stop?_bind_of_ok (h : x m = .ok a m') : (x >>= f).stop? m = (f a).stop? m' := by
  simp only [stop?, bind, EStateM.bind, h]

theorem traced_eq_within (options : Options) (what : String) (node : Tree) (x : Action α)
    (m : Machine) :
    traced options what node x m =
      mapEnd (fun m' => { m' with level := m'.level - 1 }) (x (m.within options what node)) := by
  obtain ⟨events, hstep⟩ := traceStep_eq_ok options what node m
  have hwithin : m.within options what node = { m with events, level := m.level + 1 } := by
    simp only [Machine.within, after, hstep]
  simp only [traced, bind, EStateM.bind, hstep, hwithin]
  exact restoring_eq ..

@[simp] theorem stop?_traced (what : String) (node : Tree) :
    (traced options what node x).stop? m = x.stop? (m.within options what node) :=
  stop?_of_eq_mapEnd (traced_eq_within ..)

@[simp] theorem stop?_inScope : (inScope x).stop? m = x.stop? m.inBlock :=
  stop?_of_eq_mapEnd (inScope_eq ..)

theorem observed_eq_entered (options : Options) (id : ClosureId) (c : Closure) (x : Action α)
    (m : Machine) :
    ∃ finish : Machine → Array Event, observed options id c x m =
      mapEnd (fun m' => { m' with events := finish m' })
        (x { m with
          events :=
            if options.calls then m.events.push (.enter (m.store.current id c))
            else m.events }) := by
  by_cases hcalls : options.calls = true
  · refine ⟨fun m' => m'.events.push (.leave (m'.store.current id c)), ?_⟩
    rw [show observed options id c x = _ from if_pos hcalls, if_pos hcalls]
    exact restoring_eq ..
  · refine ⟨Machine.events, ?_⟩
    rw [show observed options id c x = x from if_neg hcalls, if_neg hcalls]
    cases x m <;> rfl

theorem stop?_enterCall (id : ClosureId) (c : Closure) (args : List Value) (g : Tree → Action Unit)
    (m : Machine) :
    (enterCall options id c args g).stop? m = (g c.body).stop? (m.calling options id c args) := by
  obtain ⟨finish, hobserved⟩ := observed_eq_entered options id c
    (inCall (m.store.enter c args).1 (m.store.enter c args).2 (g c.body)) m
  rw [stop?_of_eq_mapEnd ((enterCall_eq id c args g m).trans hobserved), stop?_inCall]
  rfl

theorem execAll_of_running {g : Tree → Action Unit} {t : Tree} {ts : List Tree}
    (h : m.returning = false) :
    (execAll g (t :: ts)).stop? m = (g t >>= fun _ => execAll g ts).stop? m := by
  show (if m.returning then pure () else g t >>= fun _ => execAll g ts : Action Unit).stop? m = _
  rw [h, if_neg Bool.false_ne_true]

theorem ret_of_called {node : Tree} {x : Action Unit} (h : m.depth ≠ 0) :
    (do if (← get).depth = 0 then raise .illegalReturn node else x : Action Unit).stop? m =
      x.stop? m := by
  show (if m.depth = 0 then raise .illegalReturn node else x : Action Unit).stop? m = _
  rw [if_neg h]

theorem loop_of_running {n : Nat} {cond body : Tree} (h : m.returning = false) :
    (loop options (n + 1) cond body).stop? m =
      (eval options n cond >>= fun v =>
        if v.truthy then inScope (exec options n body) >>= fun _ => loop options n cond body
        else pure ()).stop? m := by
  show (if m.returning then pure () else eval options n cond >>= fun v =>
    if v.truthy then inScope (exec options n body) >>= fun _ => loop options n cond body
    else pure () : Action Unit).stop? m = _
  rw [h, if_neg Bool.false_ne_true]

end Action

namespace Task

variable {options : Options} {τ τ' : Task} {s : Stop}

/-- The step lemma: a task that starts a failing one fails in the same way. -/
theorem stop_of_starts (h : Starts options τ τ') (hs : τ'.stop? options = some s) :
    τ.stop? options = some s := by
  cases h with
  | @operand n t c m ht =>
    obtain ⟨f, hf⟩ := evaluation_operand options ht
    rw [stop?, (hf n).eq, stop?_traced]
    exact stop?_bind_of_stop hs
  | right hv =>
    rw [stop?, (Evaluation.binary).eq, stop?_traced, stop?_bind_of_ok hv]
    exact stop?_bind_of_stop hs
  | @arguments n o cs m v m₁ callee m₂ hv hcallee hpresent =>
    rw [stop?, (Evaluation.call).eq, stop?_traced, stop?_bind_of_ok hv, stop?_bind_of_ok hcallee]
    refine stop?_bind_of_stop ?_
    unfold evalArguments
    revert hs hpresent
    cases (form .call o cs).child 1 with
    | absent => exact fun _ hpresent => nomatch hpresent
    | node l o' args => exact fun _ hs => hs
  | body hv hcallee hargs hcheck =>
    rw [stop?, (Evaluation.call).eq, stop?_traced, stop?_bind_of_ok hv, stop?_bind_of_ok hcallee,
      stop?_bind_of_ok hargs, stop?_bind_of_ok hcheck, stop?_enterCall]
    exact hs
  | @subject n t c m ht =>
    obtain ⟨f, hf⟩ := execution_subject options ht
    rw [stop?, (hf n).eq, stop?_traced]
    exact stop?_bind_of_stop hs
  | expression hfragment hstatement =>
    rw [stop?, (Execution.expression hfragment hstatement).eq, stop?_traced]
    exact stop?_bind_of_stop hs
  | statements =>
    rw [stop?, (Execution.sequence).eq, stop?_traced]
    exact hs
  | target hv =>
    rw [stop?, (Execution.assign).eq, stop?_traced, stop?_bind_of_ok hv]
    exact stop?_bind_of_stop hs
  | branch hv htruthy =>
    rw [stop?, (Execution.ifThen).eq, stop?_traced, stop?_bind_of_ok hv, if_pos htruthy,
      stop?_inScope]
    exact hs
  | @alternative n o cs m v m₁ hv =>
    rw [stop?, (Execution.ifElse).eq, stop?_traced, stop?_bind_of_ok hv]
    by_cases htruthy : v.truthy = true
    · rw [if_pos htruthy] at hs ⊢
      rw [stop?_inScope]
      exact hs
    · rw [if_neg htruthy] at hs ⊢
      rw [stop?_inScope]
      exact hs
  | repetition =>
    rw [stop?, (Execution.whileDo).eq, stop?_traced]
    exact hs
  | @result n o cs m hdepth =>
    rw [stop?, (Execution.ret).eq, stop?_traced, ret_of_called (by simpa using hdepth)]
    exact stop?_bind_of_stop hs
  | condition hreturning =>
    rw [stop?, loop_of_running hreturning]
    exact stop?_bind_of_stop hs
  | iteration hreturning hv htruthy =>
    rw [stop?, loop_of_running hreturning, stop?_bind_of_ok hv, if_pos htruthy]
    refine stop?_bind_of_stop ?_
    rw [stop?_inScope]
    exact hs
  | again hreturning hv htruthy hbody =>
    rw [stop?, loop_of_running hreturning, stop?_bind_of_ok hv, if_pos htruthy,
      stop?_bind_of_ok hbody]
    exact hs
  | argument => exact stop?_bind_of_stop hs
  | laterArguments hv =>
    rw [stop?, ClosureLang.evalAll, stop?_bind_of_ok hv]
    exact stop?_bind_of_stop hs
  | statement hreturning =>
    rw [stop?, execAll_of_running hreturning]
    exact stop?_bind_of_stop hs
  | laterStatements hreturning h =>
    rw [stop?, execAll_of_running hreturning, stop?_bind_of_ok h]
    exact hs

/-- The run lemma: the failure of a task is the failure of the run. -/
theorem stop_of_reaches (h : Reaches options τ τ') (hs : τ'.stop? options = some s) :
    τ.stop? options = some s := by
  induction h with
  | refl => exact hs
  | tail _ hstart ih => exact ih (stop_of_starts hstart hs)

/-- Tasks that a task starts have less fuel or a shorter list. -/
def measure : Task → Nat × Nat
  | eval fuel _ _ | exec fuel _ _ | loop fuel _ _ _ => (fuel, 0)
  | evalAll fuel ts _ | execAll fuel ts _ => (fuel, ts.length + 1)
  | locate _ _ => (0, 0)

theorem measure_lt (h : Starts options τ τ') :
    Prod.Lex (· < ·) (· < ·) τ'.measure τ.measure := by
  cases h with
  | argument => exact .right _ (Nat.succ_pos _)
  | laterArguments => exact .right _ (Nat.lt_succ_self _)
  | statement => exact .right _ (Nat.succ_pos _)
  | laterStatements => exact .right _ (Nat.lt_succ_self _)
  | target => exact .left _ _ (Nat.succ_pos _)
  | _ => exact .left _ _ (Nat.lt_succ_self _)

/-- Induction along the tasks of a run, from the ones that start no other. -/
@[elab_as_elim]
theorem induction (options : Options) {motive : Task → Prop}
    (h : ∀ τ, (∀ τ', Starts options τ τ' → motive τ') → motive τ) (τ : Task) : motive τ := by
  have hwf := (Prod.lex Nat.lt_wfRel Nat.lt_wfRel).wf
  induction τ using (InvImage.wf measure hwf).induction with
  | h τ ih => exact h τ fun τ' hstart => ih τ' (measure_lt hstart)

/-- A task fails by itself: none of those that it starts does. -/
def Raises (options : Options) (s : Stop) (τ : Task) : Prop :=
  τ.stop? options = some s ∧ ∀ τ', Starts options τ τ' → τ'.stop? options = none

/-- Whenever a run fails, it gets to a task that fails by itself. -/
theorem raised_of_stop (hs : τ.stop? options = some s) :
    ∃ τ', Reaches options τ τ' ∧ Raises options s τ' := by
  induction τ using induction options with
  | h τ ih =>
    by_cases hraises : ∀ τ', Starts options τ τ' → τ'.stop? options = none
    · exact ⟨τ, .refl, hs, hraises⟩
    · simp only [not_forall] at hraises
      obtain ⟨τ', hstart, hfails⟩ := hraises
      obtain ⟨s', hs'⟩ := Option.ne_none_iff_exists'.mp hfails
      cases hs.symm.trans (stop_of_starts hstart hs')
      obtain ⟨τ'', hreaches, hraises⟩ := ih τ' hstart hs'
      exact ⟨τ'', .head hstart hreaches, hraises⟩

end Task

end ClosureLang

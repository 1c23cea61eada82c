import ClosureLang.Proofs.Run.Placement

/-! Where the conditions come from that end runs. Those about scopes come from repeated parameters,
returns outside calls, and declarations of bound names. -/
namespace ClosureLang

open ClosureLang.Action ClosureLang.Tree

/-- The condition that ended a run, if one did. -/
def Output.condition? (o : Output) : Option Condition :=
  match o.stop with
  | some (.condition c _) => some c
  | _ => none

theorem Output.stop_of_condition? {o : Output} {c : Condition} (h : o.condition? = some c) :
    ∃ u, o.stop = some (.condition c u) := by
  unfold condition? at h
  split at h
  · rename_i hstop
    cases h
    exact ⟨_, hstop⟩
  · cases h

namespace Action

variable {α β : Type} {x : Action α} {f : α → Action β} {m : Machine} {s : Stop} {options : Options}

theorem ok_of_stop?_eq_none (h : x.stop? m = none) : ∃ a m', x m = .ok a m' := by
  simp only [stop?] at h
  cases hx : x m with
  | ok a m' => exact ⟨a, m', rfl⟩
  | error s m' => simp [hx] at h

/-- What fails behind a first part that does not. -/
theorem stop?_bind (hx : x.stop? m = none) (h : (x >>= f).stop? m = some s) :
    ∃ a m', x m = .ok a m' ∧ (f a).stop? m' = some s := by
  obtain ⟨a, m', hok⟩ := ok_of_stop?_eq_none hx
  exact ⟨a, m', hok, by rwa [stop?_bind_of_ok hok] at h⟩

theorem stop?_onStore {g : ScopeId → Store → Except Stop (α × Store)}
    (h : (onStore g).stop? m = some s) : g m.scope m.store = .error s := by
  simp only [stop?, onStore] at h
  cases hg : g m.scope m.store with
  | ok r => simp [hg] at h
  | error s' =>
    simp only [hg, Option.some.injEq] at h
    rw [h]

end Action

/-- What fails in a call behind the arguments. -/
theorem Action.stop?_arguments {α : Type} {g : Tree → Action Value} {node u : Tree} {c : Condition}
    {f : List Value → Action α} {m : Machine}
    (hargs : (node.child 1).isAbsent = false → (evalAll g (node.child 1).children).stop? m = none)
    (h : (evalArguments g node >>= f).stop? m = some (.condition c u)) :
    ∃ vs m', evalArguments g node m = .ok vs m' ∧ (f vs).stop? m' = some (.condition c u) := by
  refine stop?_bind ?_ h
  unfold evalArguments at h ⊢
  revert h hargs
  cases node.child 1 with
  | absent => exact fun _ h => nomatch h
  | node l o args => exact fun hargs _ => hargs rfl

section Conditions

variable {node u : Tree} {c : Condition} {e : ScopeId} {s : Store} {m : Machine} {options : Options}

theorem Tree.named_eq_error {α : Type} {x : Tree} {f : String → Except Stop α}
    (h : x.named f = .error (.condition c u)) :
    ∃ y, x.name? = some y ∧ f y = .error (.condition c u) := by
  unfold named at h
  cases hname : x.name? with
  | none =>
    rw [hname] at h
    cases h
  | some y =>
    rw [hname] at h
    exact ⟨y, rfl, h⟩

theorem Tree.lookupAt_eq_error (h : node.lookupAt e s = .error (.condition c u)) :
    c = .undefinedVariable ∧ u = node := by
  obtain ⟨y, -, h⟩ := named_eq_error h
  split at h
  · cases h
  · cases h
    exact ⟨rfl, rfl⟩

theorem Tree.locateAt_eq_error (h : node.locateAt e s = .error (.condition c u)) :
    c = .undefinedVariable ∧ u = node := by
  unfold locateAt at h
  split at h
  · cases h
  · obtain ⟨y, -, h⟩ := named_eq_error h
    split at h
    · cases h
    · cases h
      exact ⟨rfl, rfl⟩
  · cases h

/-- A declaration fails just if its name is bound. -/
theorem Tree.declareAt_eq_error {v : Value} (h : node.declareAt v e s = .error (.condition c u)) :
    c = .variableAlreadyDefined ∧ u = node ∧ ∃ y, (node.child 0).name? = some y ∧ s.Binds e y := by
  obtain ⟨y, hy, h⟩ := named_eq_error h
  split at h
  · rename_i hdefine
    cases h
    simp only [Store.define, ite_eq_left_iff, reduceCtorEq, imp_false, not_not] at hdefine
    exact ⟨rfl, rfl, y, hy, hdefine⟩
  · split at h <;> cases h

theorem Tree.closureAt_eq_error (h : node.closureAt e s = .error (.condition c u)) :
    c = .duplicateParameter ∧ u = node ∧ ∃ names, node.paramNames? = some names ∧
      ¬ names.Nodup := by
  unfold closureAt at h
  split at h
  · cases h
  · rename_i c' hc'
    cases h
    obtain ⟨names, hnames, ⟨hnodup, hr⟩ | ⟨f, hr, -⟩⟩ := Closure.ofNode?_cases hc'
    · cases hr
      exact ⟨rfl, rfl, names, hnames, hnodup⟩
    · cases hr
  · cases h

theorem Tree.calleeAt_eq_error {v : Value} (h : node.calleeAt v e s = .error (.condition c u)) :
    c = .callingNonFunction ∧ u = node := by
  unfold calleeAt at h
  split at h
  · cases h
    exact ⟨rfl, rfl⟩
  · split at h <;> cases h

theorem Tree.operateAt_eq_error {op : BinaryOp} {v w : Value}
    (h : node.operateAt op v w e s = .error (.condition c u)) :
    op.apply v w = .error c ∧ u = node := by
  unfold operateAt at h
  split at h
  · cases h
  · rename_i c' hc'
    cases h
    exact ⟨hc', rfl⟩

/-- The number of arguments is checked before the depth. -/
theorem checkCall_eq (f : Closure) (args : List Value) (m : Machine) :
    checkCall options node f args m =
      if args.length ≠ f.params.length then .error (.condition .argumentMismatch node) m
      else if 0 < options.maxDepth ∧ options.maxDepth ≤ m.depth then
        .error (.condition .stackOverflow node) m
      else .ok () m := by
  unfold checkCall
  split
  · rfl
  · change (if 0 < options.maxDepth ∧ options.maxDepth ≤ m.depth then raise .stackOverflow node
      else pure () : Action Unit) m = _
    split <;> rfl

theorem stop?_checkCall (f : Closure) (args : List Value) :
    (checkCall options node f args).stop? m =
      if args.length ≠ f.params.length then some (.condition .argumentMismatch node)
      else if 0 < options.maxDepth ∧ options.maxDepth ≤ m.depth then
        some (.condition .stackOverflow node)
      else none := by
  rw [stop?, checkCall_eq]
  by_cases harity : args.length ≠ f.params.length
  · rw [if_pos harity, if_pos harity]
  · rw [if_neg harity, if_neg harity]
    by_cases hdeep : 0 < options.maxDepth ∧ options.maxDepth ≤ m.depth
    · rw [if_pos hdeep, if_pos hdeep]
    · rw [if_neg hdeep, if_neg hdeep]

end Conditions

namespace Task

/-- The task that raises a condition, and the node that it is raised at. -/
inductive Origin (options : Options) : Condition → Tree → Task → Prop where
  | lookup {n o cs m} :
      Origin options .undefinedVariable (form .lookup o cs) (eval (n + 1) (form .lookup o cs) m)
  | locate {t m} : Origin options .undefinedVariable t (locate t m)
  | function {n o cs names m} : (form .function o cs).paramNames? = some names → ¬ names.Nodup →
      Origin options .duplicateParameter (form .function o cs)
        (eval (n + 1) (form .function o cs) m)
  | operator {n op o cs m c v w} : op.apply v w = .error c →
      Origin options c (form (.binary op) o cs) (eval (n + 1) (form (.binary op) o cs) m)
  | callee {n o cs m} :
      Origin options .callingNonFunction (form .call o cs) (eval (n + 1) (form .call o cs) m)
  | arity {n o cs m} :
      Origin options .argumentMismatch (form .call o cs) (eval (n + 1) (form .call o cs) m)
  | depth {n o cs m v m₁ callee m₂ args m₃} :
      ClosureLang.eval options n ((form .call o cs).child 0)
        (m.within options "evaluate" (form .call o cs)) = .ok v m₁ →
      onStore ((form .call o cs).calleeAt v) m₁ = .ok callee m₂ →
      evalArguments (ClosureLang.eval options n) (form .call o cs) m₂ = .ok args m₃ →
      args.length = callee.2.params.length → 0 < options.maxDepth → options.maxDepth ≤ m₃.depth →
      Origin options .stackOverflow (form .call o cs) (eval (n + 1) (form .call o cs) m)
  | ret {n o cs m} : m.depth = 0 →
      Origin options .illegalReturn (form .ret o cs) (exec (n + 1) (form .ret o cs) m)
  | declare {n o cs x v m m₁} :
      ClosureLang.eval options n ((form .declare o cs).child 1)
        (m.within options "execute" (form .declare o cs)) = .ok v m₁ →
      ((form .declare o cs).child 0).name? = some x → m₁.store.Binds m₁.scope x →
      Origin options .variableAlreadyDefined (form .declare o cs)
        (exec (n + 1) (form .declare o cs) m)

variable {options : Options} {τ : Task} {c : Condition} {u t : Tree} {n : Nat} {m : Machine}

theorem origin_of_eval (h : Raises options (.condition c u) (eval (n + 1) t m)) :
    Origin options c u (eval (n + 1) t m) := by
  obtain ⟨hstop, hstarted⟩ := h
  obtain ⟨x, hx, heq⟩ := eval_succ options n t
  rw [stop?, heq, stop?_traced] at hstop
  cases hx with
  | absent => cases hstop
  | other => cases hstop
  | integer => cases hstop
  | lookup =>
    obtain ⟨rfl, rfl⟩ := lookupAt_eq_error (stop?_onStore hstop)
    exact .lookup
  | function =>
    obtain ⟨rfl, rfl, names, hnames, hnodup⟩ := closureAt_eq_error (stop?_onStore hstop)
    exact .function hnames hnodup
  | binary =>
    obtain ⟨v, m₁, hv, hstop⟩ := stop?_bind (hstarted _ (.operand rfl)) hstop
    obtain ⟨w, m₂, hw, hstop⟩ := stop?_bind (hstarted _ (.right hv)) hstop
    obtain ⟨happly, rfl⟩ := operateAt_eq_error (stop?_onStore hstop)
    exact .operator happly
  | not =>
    obtain ⟨v, m₁, hv, hstop⟩ := stop?_bind (hstarted _ (.operand rfl)) hstop
    cases hstop
  | @call o cs =>
    obtain ⟨v, m₁, hv, hstop⟩ := stop?_bind (hstarted _ (.operand rfl)) hstop
    cases hcallee : (onStore ((form .call o cs).calleeAt v)).stop? m₁ with
    | some s =>
      rw [stop?_bind_of_stop hcallee] at hstop
      cases hstop
      obtain ⟨rfl, rfl⟩ := calleeAt_eq_error (stop?_onStore hcallee)
      exact .callee
    | none =>
      obtain ⟨callee, m₂, hcallee, hstop⟩ := stop?_bind hcallee hstop
      obtain ⟨args, m₃, hargs, hstop⟩ :=
        stop?_arguments (fun h => hstarted _ (.arguments hv hcallee h)) hstop
      cases hcheck : (checkCall options (form .call o cs) callee.2 args).stop? m₃ with
      | some s =>
        rw [stop?_bind_of_stop hcheck] at hstop
        cases hstop
        rw [stop?_checkCall] at hcheck
        split at hcheck
        · cases hcheck
          exact .arity
        · rename_i harity
          split at hcheck
          · rename_i hdeep
            cases hcheck
            exact .depth hv hcallee hargs (not_not.mp harity) hdeep.1 hdeep.2
          · cases hcheck
      | none =>
        obtain ⟨⟨⟩, m₄, hcheck, hstop⟩ := stop?_bind hcheck hstop
        rw [stop?_enterCall] at hstop
        cases hstop.symm.trans (hstarted _ (.body hv hcallee hargs hcheck))

theorem origin_of_exec (h : Raises options (.condition c u) (exec (n + 1) t m)) :
    Origin options c u (exec (n + 1) t m) := by
  obtain ⟨hstop, hstarted⟩ := h
  obtain ⟨x, hx, heq⟩ := exec_succ options n t
  rw [stop?, heq, stop?_traced] at hstop
  cases hx with
  | absent => cases hstop
  | fragment => cases hstop
  | expression hfragment hstatement =>
    obtain ⟨v, m₁, hv, hstop⟩ := stop?_bind (hstarted _ (.expression hfragment hstatement)) hstop
    cases hstop
  | sequence => cases hstop.symm.trans (hstarted _ .statements)
  | declare =>
    obtain ⟨v, m₁, hv, hstop⟩ := stop?_bind (hstarted _ (.subject rfl)) hstop
    obtain ⟨rfl, rfl, x, hx, hbound⟩ := declareAt_eq_error (stop?_onStore hstop)
    exact .declare hv hx hbound
  | assign =>
    obtain ⟨v, m₁, hv, hstop⟩ := stop?_bind (hstarted _ (.subject rfl)) hstop
    obtain ⟨target, m₂, htarget, hstop⟩ := stop?_bind (hstarted _ (.target hv)) hstop
    cases hstop
  | print =>
    obtain ⟨v, m₁, hv, hstop⟩ := stop?_bind (hstarted _ (.subject rfl)) hstop
    cases hstop
  | ifThen =>
    obtain ⟨v, m₁, hv, hstop⟩ := stop?_bind (hstarted _ (.subject rfl)) hstop
    split at hstop
    · rename_i htruthy
      rw [stop?_inScope] at hstop
      cases hstop.symm.trans (hstarted _ (.branch hv htruthy))
    · cases hstop
  | ifElse =>
    obtain ⟨v, m₁, hv, hstop⟩ := stop?_bind (hstarted _ (.subject rfl)) hstop
    have hbranch := hstarted _ (.alternative hv)
    split at hstop
    · rename_i htruthy
      rw [stop?_inScope] at hstop
      rw [if_pos htruthy] at hbranch
      cases hstop.symm.trans hbranch
    · rename_i htruthy
      rw [stop?_inScope] at hstop
      rw [if_neg htruthy] at hbranch
      cases hstop.symm.trans hbranch
  | whileDo => cases hstop.symm.trans (hstarted _ .repetition)
  | ret =>
    by_cases hdepth : m.depth = 0
    · change (if (m.within options "execute" _).depth = 0 then
        raise .illegalReturn _ else _ : Action Unit).stop? _ =
        _ at hstop
      rw [if_pos (by simpa using hdepth)] at hstop
      cases hstop
      exact .ret hdepth
    · rw [ret_of_called (by simpa using hdepth)] at hstop
      obtain ⟨v, m₁, hv, hstop⟩ := stop?_bind (hstarted _ (.result hdepth)) hstop
      cases hstop

theorem not_raises_loop {cond body : Tree} :
    ¬ Raises options (.condition c u) (loop (n + 1) cond body m) := by
  rintro ⟨hstop, hstarted⟩
  cases hreturning : m.returning with
  | true =>
    change (if m.returning then pure () else _ : Action Unit).stop? m = _ at hstop
    rw [hreturning] at hstop
    cases hstop
  | false =>
    rw [stop?, loop_of_running hreturning] at hstop
    obtain ⟨v, m₁, hv, hstop⟩ := stop?_bind (hstarted _ (.condition hreturning)) hstop
    split at hstop
    · rename_i htruthy
      have hiteration := hstarted _ (.iteration hreturning hv htruthy)
      rw [stop?, ← stop?_inScope] at hiteration
      obtain ⟨⟨⟩, m₂, hbody, hstop⟩ := stop?_bind hiteration hstop
      cases hstop.symm.trans (hstarted _ (.again hreturning hv htruthy hbody))
    · cases hstop

theorem not_raises_evalAll {ts : List Tree} :
    ¬ Raises options (.condition c u) (evalAll n ts m) := by
  rintro ⟨hstop, hstarted⟩
  cases ts with
  | nil => cases hstop
  | cons t ts =>
    obtain ⟨v, m₁, hv, hstop⟩ := stop?_bind (hstarted _ .argument) hstop
    obtain ⟨vs, m₂, hvs, hstop⟩ := stop?_bind (hstarted _ (.laterArguments hv)) hstop
    cases hstop

theorem not_raises_execAll {ts : List Tree} :
    ¬ Raises options (.condition c u) (execAll n ts m) := by
  rintro ⟨hstop, hstarted⟩
  cases ts with
  | nil => cases hstop
  | cons t ts =>
    cases hreturning : m.returning with
    | true =>
      change (if m.returning then pure () else _ : Action Unit).stop? m = _ at hstop
      rw [hreturning] at hstop
      cases hstop
    | false =>
      rw [stop?, execAll_of_running hreturning] at hstop
      obtain ⟨⟨⟩, m₁, ht, hstop⟩ := stop?_bind (hstarted _ (.statement hreturning)) hstop
      cases hstop.symm.trans (hstarted _ (.laterStatements hreturning ht))

/-- The origin of a condition is the task that fails by itself. -/
theorem origin_of_raises (h : Raises options (.condition c u) τ) : Origin options c u τ := by
  cases τ with
  | eval n t m =>
    cases n with
    | zero => exact nomatch h.1
    | succ n => exact origin_of_eval h
  | exec n t m =>
    cases n with
    | zero => exact nomatch h.1
    | succ n => exact origin_of_exec h
  | loop n cond body m =>
    cases n with
    | zero => exact nomatch h.1
    | succ n => exact absurd h not_raises_loop
  | evalAll n ts m => exact absurd h not_raises_evalAll
  | execAll n ts m => exact absurd h not_raises_execAll
  | locate t m =>
    have hlocate := h.1
    rw [stop?, locate_eq] at hlocate
    obtain ⟨events, htrace⟩ := traceStep_eq_ok options "locate" t m
    rw [stop?_bind_of_ok htrace] at hlocate
    obtain ⟨rfl, rfl⟩ := locateAt_eq_error (stop?_onStore hlocate)
    exact .locate

end Task

/-- The conditions that say that a program does not keep to the rules of scopes. -/
def Condition.IsScoping (c : Condition) : Prop :=
  c = .duplicateParameter ∨ c = .illegalReturn ∨ c = .variableAlreadyDefined

/-- A node keeps to the rules of scopes. -/
structure KeepsRules (c : Context) (t : Tree) : Prop where
  parameters : t.isForm .function = true → ∀ names, t.paramNames? = some names → names.Nodup
  returns : t.isForm .ret = true → c.outside = false
  declarations : t.isForm .declare = true → ∀ x, (t.child 0).name? = some x → x ∉ c.bound

theorem apply_not_scoping {op : BinaryOp} {v w : Value} {c : Condition}
    (h : op.apply v w = .error c) : ¬ c.IsScoping := by
  unfold BinaryOp.apply at h
  repeat' split at h
  all_goals cases h
  all_goals simp [Condition.IsScoping]

namespace Task

variable {options : Options} {τ : Task} {c : Condition} {u t : Tree} {n : Nat} {m : Machine}

/-- A task that breaks a rule of scopes when its own turn comes. -/
inductive Offends (options : Options) : Task → Prop where
  | function {n o cs names m} : (form .function o cs).paramNames? = some names → ¬ names.Nodup →
      Offends options (eval (n + 1) (form .function o cs) m)
  | ret {n o cs m} : m.depth = 0 → Offends options (exec (n + 1) (form .ret o cs) m)
  | declare {n o cs x v m m₁} :
      ClosureLang.eval options n ((form .declare o cs).child 1)
        (m.within options "execute" (form .declare o cs)) = .ok v m₁ →
      ((form .declare o cs).child 0).name? = some x → m₁.store.Binds m₁.scope x →
      Offends options (exec (n + 1) (form .declare o cs) m)

/-- Whatever raises a condition that is about scopes breaks one of their rules. -/
theorem offends_of_raises (hc : c.IsScoping) (h : Raises options (.condition c u) τ) :
    Offends options τ := by
  cases origin_of_raises h with
  | function hnames hnodup => exact .function hnames hnodup
  | ret hdepth => exact .ret hdepth
  | declare hv hx hbound => exact .declare hv hx hbound
  | operator happly => exact absurd hc (apply_not_scoping happly)
  | lookup | locate | callee | arity | depth => simp [Condition.IsScoping] at hc

/-- A placed task breaks no rule if every node keeps them. -/
theorem not_offends {φ : Finals} (hτ : Placed KeepsRules φ τ) : ¬ Offends options τ := by
  intro h
  cases h with
  | function hnames hnodup =>
    obtain ⟨c, -, -, hsited⟩ := hτ
    exact hnodup (hsited.here.parameters rfl _ hnames)
  | ret hdepth =>
    obtain ⟨c, role, hm, -, hsited, -⟩ := hτ
    have houtside := hm.here.outside.mpr hdepth
    rw [hsited.here.returns rfl] at houtside
    contradiction
  | declare hv hx hbound =>
    obtain ⟨c, role, hm, hplace, hsited, -⟩ := hτ
    obtain ⟨φ', -, hm₁⟩ := scoped_of_subject (fun τ _ => keeps τ) hm hplace hsited rfl hv
    exact hsited.here.declarations rfl _ hx (hm₁.here.bound hm₁.typed.older hbound)

/-- A program that keeps to the rules of scopes never raises a condition that is about them. -/
theorem not_scoping_of_rules (ht : InPlace .block t) (hrules : Sited KeepsRules (.program t) t)
    (fuel : Nat)
    (hstop : (ClosureLang.exec options fuel t).stop? (Machine.ready {}) = some (.condition c u)) :
    ¬ c.IsScoping := by
  intro hc
  obtain ⟨τ, hreaches, hraises⟩ :=
    raised_of_stop (show (exec fuel t (Machine.ready {})).stop? options =
      some (.condition c u) from hstop)
  obtain ⟨φ, hplaced⟩ := placed_program ht hrules fuel
  obtain ⟨φ', hplaced⟩ := placed_of_reaches hplaced hreaches
  exact not_offends hplaced (offends_of_raises hc hraises)

end Task

end ClosureLang

import Mathlib.Order.Filter.AtTopBot.Basic
import ClosureLang.Grammar.Parser
import ClosureLang.Proofs.Run.Outcomes

/-! Running a program with a flag for returns comes to what the program comes to without one. -/
namespace ClosureLang

open ClosureLang.Action ClosureLang.Tree

variable {α β : Type} {options : Options} {fuel d : Nat} {e : ScopeId} {σ σ₁ : State}

/-- An outcome in `R`, unless fuel ran out. -/
def Finishes (R : Outcome α → Prop) (r : Outcome α) : Prop := r.1 ≠ .error .outOfFuel → R r

theorem Finishes.map {P : Outcome α → Prop} {R : Outcome β → Prop} {f : α → β} {r : Outcome α}
    (h : Finishes P r) (hPR : ∀ r, P r → R (r.map f)) : Finishes R (r.map f) := by
  intro hr
  refine hPR r (h fun hfuel => hr ?_)
  simp only [Outcome.map, hfuel]
  rfl

theorem Finishes.error {P : Outcome α → Prop} {R : Outcome β → Prop} {s : Stop}
    (h : Finishes P (.error s, σ)) (hPR : P (.error s, σ) → R (.error s, σ)) :
    Finishes R (.error s, σ) := by
  refine fun hs => hPR (h fun hr => hs ?_)
  cases hr
  rfl

theorem Answers.bind_finishes {x : Action α} {f : α → Action β} {P : Outcome α → Prop}
    {R : Outcome β → Prop} (hx : Answers d e σ x (Finishes P))
    (hf : ∀ a σ₁, P (.ok a, σ₁) → Answers d e σ₁ (f a) (Finishes R))
    (hfail : ∀ s σ₁, P (.error s, σ₁) → R (.error s, σ₁)) : Answers d e σ (x >>= f) (Finishes R) :=
  hx.bind (fun a σ₁ h => hf a σ₁ (h nofun)) fun s σ₁ h => h.error (hfail s σ₁)

theorem Completes.bind_finishes {x : Action α} {f : α → Action Unit} {P : Outcome α → Prop}
    {R : Outcome Completion → Prop} (hx : Answers d e σ x (Finishes P))
    (hf : ∀ a σ₁, P (.ok a, σ₁) → Completes d e σ₁ (f a) (Finishes R))
    (hfail : ∀ s σ₁, P (.error s, σ₁) → R (.error s, σ₁)) :
    Completes d e σ (x >>= f) (Finishes R) :=
  .bind hx (fun a σ₁ h => hf a σ₁ (h nofun)) fun s σ₁ h => h.error (hfail s σ₁)

theorem execAll_of_returning {g : Tree → Action Unit} {m : Machine} (hm : m.returning = true)
    (ts : List Tree) : execAll g ts m = .ok () m := by
  cases ts with
  | nil => rfl
  | cons t ts =>
    show (if m.returning then pure () else do
      g t
      execAll g ts : Action Unit) m = _
    rw [if_pos hm]
    rfl

theorem loop_of_returning {m : Machine} (hm : m.returning = true) (cond body : Tree) :
    loop options (fuel + 1) cond body m = .ok () m := by
  show (if m.returning then pure () else do
    let v ← eval options fuel cond
    if v.truthy then
      inScope (exec options fuel body)
      loop options fuel cond body
    else pure () : Action Unit) m = _
  rw [if_pos hm]
  rfl

section Soundness

variable (options) (fuel)

def EvalSound : Prop :=
  ∀ d e t σ, Answers d e σ (eval options fuel t) (Finishes (Evaluates options.maxDepth d e t σ))

def ExecSound : Prop :=
  ∀ d e t σ, Completes d e σ (exec options fuel t) (Finishes (Runs options.maxDepth d e t σ))

def LoopSound : Prop :=
  ∀ d e cond body σ,
    Completes d e σ (loop options fuel cond body)
      (Finishes (Loops options.maxDepth d e cond body σ))

variable {options fuel}

theorem evalAll_sound (heval : EvalSound options fuel) (ts : List Tree) :
    Answers d e σ (evalAll (eval options fuel) ts)
      (Finishes (EvaluatesAll options.maxDepth d e ts σ)) := by
  induction ts generalizing σ with
  | nil => exact .pure fun _ => .nil
  | cons t ts ih =>
    refine .evalAll_cons (heval d e t σ) (fun v σ₁ hv => ?_) fun s σ₁ hs => hs.error .head
    exact ih.mono fun r hr => hr.map fun r => .cons (hv nofun)

theorem evalArguments_sound (heval : EvalSound options fuel) (node : Tree) :
    Answers d e σ (evalArguments (eval options fuel) node)
      (Finishes (EvaluatesArguments options.maxDepth d e (node.child 1) σ)) := by
  refine .evalArguments (fun habsent _ => habsent ▸ .absent) fun l o cs hpresent => ?_
  rw [hpresent]
  exact (evalAll_sound heval cs).mono fun r hr hfuel => .node (hr hfuel)

theorem evalSound_succ (heval : EvalSound options fuel) (hexec : ExecSound options fuel) :
    EvalSound options (fuel + 1) := by
  intro d e t σ
  obtain ⟨x, hx, heq⟩ := eval_succ options fuel t
  rw [heq]
  refine .traced ?_
  cases hx with
  | absent => exact .throw fun _ => .absent
  | other h => exact .throw fun _ => .other h
  | integer => exact .pure fun _ => .integer
  | lookup => exact .onStore fun _ => .lookup
  | function => exact .onStore fun _ => .function
  | not =>
    exact (heval d e _ _).bind_finishes (fun v σ₁ hv => .pure fun _ => .not hv) fun s σ₁ =>
      .operand rfl
  | binary =>
    refine (heval d e _ _).bind_finishes (fun v σ₁ hv => ?_) fun s σ₁ => .operand rfl
    refine (heval d e _ _).bind_finishes (fun u σ₂ hu => ?_) fun s σ₂ => .right hv
    exact .onStore fun _ => .binary hv hu
  | @call o cs =>
    refine (heval d e _ _).bind_finishes (fun v σ₁ hv => ?_) fun s σ₁ => .operand rfl
    refine Answers.bind (.onStore (Q := (σ₁.perform e ((form .call o cs).calleeAt v) = ·)) rfl)
      (fun callee σ₂ hcallee => ?_) fun s σ₂ hs _ => .callee hv hs
    refine (evalArguments_sound heval _).bind_finishes (fun vs σ₃ hvs => ?_)
      fun s σ₃ => .arguments hv hcallee
    refine .checkCall (fun hmade => .enterCall ?_) fun condition h _ => .refused hv hcallee hvs h
    exact (hexec _ _ _ _).mono fun r hr => hr.map fun r => .call hv hcallee hvs hmade

theorem execAll_sound (hexec : ExecSound options fuel) (ts : List Tree) :
    Completes d e σ (execAll (exec options fuel) ts)
      (Finishes (RunsAll options.maxDepth d e ts σ)) := by
  induction ts generalizing σ with
  | nil => exact .pure fun _ => .nil
  | cons t ts ih =>
    refine .poll ((hexec d e t σ).andThen (fun σ₁ h => ih.mono fun r hr hfuel => ?_)
      (fun r hstop hr hfuel => .stop (hr hfuel) hstop) fun m hm =>
        .inl (execAll_of_returning hm ts))
    exact .next (h (by simp)) (hr hfuel)

theorem execSound_succ (heval : EvalSound options fuel) (hexec : ExecSound options fuel)
    (hloop : LoopSound options fuel) : ExecSound options (fuel + 1) := by
  intro d e t σ
  obtain ⟨x, hx, heq⟩ := exec_succ options fuel t
  rw [heq]
  refine .traced ?_
  cases hx with
  | absent => exact .throw fun _ => .absent
  | fragment h => exact .throw fun _ => .fragment h
  | expression h h' =>
    refine .of_answers ((heval d e _ _).bind (fun v σ₁ hv => .pure fun _ => ?_) fun s σ₁ hs => ?_)
    · exact .expression h h' (hv nofun)
    · exact hs.map fun r => .expression h h'
  | @sequence o cs => exact (execAll_sound hexec cs).mono fun r hr hfuel => .sequence (hr hfuel)
  | declare =>
    refine .bind_finishes (heval d e _ _) (fun v σ₁ hv => ?_) fun s σ₁ => .subject rfl
    exact .of_answers (.onStore fun _ => .declare hv)
  | @assign o cs =>
    refine .bind_finishes (heval d e _ _) (fun v σ₁ hv => ?_) fun s σ₁ => .subject rfl
    refine .bind (.locate (Q := (σ₁.perform e ((form .assign o cs).child 0).locateAt = ·)) rfl)
      (fun target σ₂ htarget => ?_) fun s σ₂ hs _ => .location hv hs
    exact .of_answers (.onStore fun _ => .assign hv htarget)
  | print =>
    exact .bind_finishes (heval d e _ _) (fun v σ₁ hv => .printLine fun _ => .print hv)
      fun s σ₁ => .subject rfl
  | ifThen =>
    refine .bind_finishes (heval d e _ _) (fun v σ₁ hv => ?_) fun s σ₁ => .subject rfl
    cases htruthy : v.truthy with
    | false => exact .pure fun _ => .skip hv htruthy
    | true => exact .inScope ((hexec _ _ _ _).mono fun r hr hfuel => .ifThen hv htruthy (hr hfuel))
  | ifElse =>
    refine .bind_finishes (heval d e _ _) (fun v σ₁ hv => ?_) fun s σ₁ => .subject rfl
    have hbranch := fun t => hexec d (σ₁.store.newScope e).1 t (σ₁.block e)
    cases htruthy : v.truthy with
    | false =>
      refine .inScope ((hbranch _).mono fun r hr hfuel => .ifElse hv ?_)
      simpa [htruthy] using hr hfuel
    | true =>
      refine .inScope ((hbranch _).mono fun r hr hfuel => .ifElse hv ?_)
      simpa [htruthy] using hr hfuel
  | @whileDo o cs => exact (hloop d e _ _ _).mono fun r hr hfuel => .whileDo (hr hfuel)
  | ret =>
    refine .get fun m hm => ?_
    rw [hm.depth]
    cases d with
    | zero => exact .throw fun _ => .stray
    | succ d =>
      exact .bind (heval (d + 1) e _ _) (fun v σ₁ hv => .setOut fun _ => .ret (hv nofun))
        fun s σ₁ hs => hs.map fun r => .ret

theorem loopSound_succ (heval : EvalSound options fuel) (hexec : ExecSound options fuel)
    (hloop : LoopSound options fuel) : LoopSound options (fuel + 1) := by
  intro d e cond body σ
  refine .poll (.bind_finishes (heval d e _ _) (fun v σ₁ hv => ?_) fun s σ₁ => .failed)
  cases htruthy : v.truthy with
  | false => exact .pure fun _ => .done hv htruthy
  | true =>
    refine (Completes.inScope (hexec _ _ _ _)).andThen (fun σ₂ hbody => ?_)
      (fun r hstop hr hfuel => ?_) fun m hm => ?_
    · exact (hloop _ _ _ _ _).mono fun r hr hfuel => .next hv htruthy (hbody (by simp)) (hr hfuel)
    · exact .stop hv htruthy (hr hfuel) hstop
    · cases fuel with
      | zero => exact .inr ⟨rfl, fun σ₁ h => absurd rfl h⟩
      | succ fuel => exact .inl (loop_of_returning hm cond body)

/-- The run lemma of soundness: with any fuel, unless it runs out. -/
theorem sound (options : Options) (fuel : Nat) :
    EvalSound options fuel ∧ ExecSound options fuel ∧ LoopSound options fuel := by
  induction fuel with
  | zero =>
    exact ⟨fun _ _ _ _ => .throw fun h => absurd rfl h, fun _ _ _ _ => .throw fun h => absurd rfl h,
      fun _ _ _ _ _ => .throw fun h => absurd rfl h⟩
  | succ fuel ih =>
    obtain ⟨heval, hexec, hloop⟩ := ih
    exact ⟨evalSound_succ heval hexec, execSound_succ heval hexec hloop,
      loopSound_succ heval hexec hloop⟩

end Soundness

section Completeness

open Filter

theorem eventually_succ {P : Nat → Prop} (h : ∀ᶠ n in atTop, P (n + 1)) : ∀ᶠ n in atTop, P n := by
  rw [← map_add_atTop_eq_nat 1]
  exact h

theorem Answers.bind_ok {x : Action α} {f : α → Action β} {a : α} {R : Outcome β → Prop}
    (hx : Answers d e σ x (· = (.ok a, σ₁))) (hf : Answers d e σ₁ (f a) R) :
    Answers d e σ (x >>= f) R := by
  refine hx.bind (fun b σ₂ h => ?_) nofun
  cases h
  exact hf

theorem Answers.bind_error {x : Action α} {f : α → Action β} {s : Stop} {R : Outcome β → Prop}
    (hx : Answers d e σ x (· = (.error s, σ₁))) (h : R (.error s, σ₁)) :
    Answers d e σ (x >>= f) R := by
  refine hx.bind nofun fun s' σ₂ hs => ?_
  cases hs
  exact h

theorem Completes.bind_ok {x : Action α} {f : α → Action Unit} {a : α}
    {R : Outcome Completion → Prop} (hx : Answers d e σ x (· = (.ok a, σ₁)))
    (hf : Completes d e σ₁ (f a) R) :
    Completes d e σ (x >>= f) R := by
  refine .bind hx (fun b σ₂ h => ?_) nofun
  cases h
  exact hf

theorem Completes.bind_error {x : Action α} {f : α → Action Unit} {s : Stop}
    {R : Outcome Completion → Prop} (hx : Answers d e σ x (· = (.error s, σ₁)))
    (h : R (.error s, σ₁)) : Completes d e σ (x >>= f) R := by
  refine .bind hx nofun fun s' σ₂ hs => ?_
  cases hs
  exact h

variable {t : Tree} {Q : Outcome Value → Prop} {R : Outcome Completion → Prop}

theorem eventually_eval {x : Nat → Action Value} (hx : ∀ fuel, Evaluation options fuel t (x fuel))
    (h : ∀ᶠ fuel in atTop, Answers d e σ (x fuel) Q) :
    ∀ᶠ fuel in atTop, Answers d e σ (eval options fuel t) Q := by
  refine eventually_succ (h.mono fun fuel h => ?_)
  rw [(hx fuel).eq]
  exact .traced h

theorem eventually_exec {x : Nat → Action Unit} (hx : ∀ fuel, Execution options fuel t (x fuel))
    (h : ∀ᶠ fuel in atTop, Completes d e σ (x fuel) R) :
    ∀ᶠ fuel in atTop, Completes d e σ (exec options fuel t) R := by
  refine eventually_succ (h.mono fun fuel h => ?_)
  rw [(hx fuel).eq]
  exact .traced h

theorem eventually_loop {cond body : Tree}
    (h : ∀ᶠ fuel in atTop, Completes d e σ (eval options fuel cond >>= fun v =>
      if v.truthy then inScope (exec options fuel body) >>= fun _ => loop options fuel cond body
      else pure ()) R) :
    ∀ᶠ fuel in atTop, Completes d e σ (loop options fuel cond body) R :=
  eventually_succ (h.mono fun _ h => .poll h)

mutual

theorem eventually_evaluates {d : Nat} {e : ScopeId} {t : Tree} {σ : State} {r : Outcome Value} :
    Evaluates options.maxDepth d e t σ r →
      ∀ᶠ fuel in atTop, Answers d e σ (eval options fuel t) (· = r)
  | .absent => eventually_eval (fun _ => .absent) (.of_forall fun _ => .throw rfl)
  | .other h => eventually_eval (fun _ => .other h) (.of_forall fun _ => .throw rfl)
  | .integer => eventually_eval (fun _ => .integer) (.of_forall fun _ => .pure rfl)
  | .lookup => eventually_eval (fun _ => .lookup) (.of_forall fun _ => .onStore rfl)
  | .function => eventually_eval (fun _ => .function) (.of_forall fun _ => .onStore rfl)
  | .operand hoperand h => by
    obtain ⟨f, hf⟩ := evaluation_operand options hoperand
    exact eventually_eval hf ((eventually_evaluates h).mono fun fuel h => h.bind_error rfl)
  | .not h =>
    eventually_eval (fun _ => .not)
      ((eventually_evaluates h).mono fun fuel h => h.bind_ok (.pure rfl))
  | .right h h' => by
    refine eventually_eval (fun _ => .binary) ?_
    filter_upwards [eventually_evaluates h, eventually_evaluates h'] with fuel h h'
    exact h.bind_ok (h'.bind_error rfl)
  | .binary h h' => by
    refine eventually_eval (fun _ => .binary) ?_
    filter_upwards [eventually_evaluates h, eventually_evaluates h'] with fuel h h'
    exact h.bind_ok (h'.bind_ok (.onStore rfl))
  | .callee h hcallee => by
    refine eventually_eval (fun _ => .call) ?_
    filter_upwards [eventually_evaluates h] with fuel h
    exact h.bind_ok (Answers.bind_error (.onStore hcallee) rfl)
  | .arguments h hcallee h' => by
    refine eventually_eval (fun _ => .call) ?_
    filter_upwards [eventually_evaluates h, eventually_evaluatesArguments h'] with fuel h h'
    exact h.bind_ok (Answers.bind_ok (.onStore hcallee) ((h' rfl).bind_error rfl))
  | .refused h hcallee h' hrefused => by
    refine eventually_eval (fun _ => .call) ?_
    filter_upwards [eventually_evaluates h, eventually_evaluatesArguments h'] with fuel h h'
    refine h.bind_ok (Answers.bind_ok (.onStore hcallee) ((h' rfl).bind_ok ?_))
    refine .checkCall (fun hmade => ?_) fun condition hcondition => ?_
    · cases hmade.symm.trans hrefused
    · cases hcondition.symm.trans hrefused
      rfl
  | .call h hcallee h' hmade hbody => by
    refine eventually_eval (fun _ => .call) ?_
    filter_upwards [eventually_evaluates h, eventually_evaluatesArguments h', eventually_runs hbody]
      with fuel h h' hbody
    refine h.bind_ok (Answers.bind_ok (.onStore hcallee) ((h' rfl).bind_ok ?_))
    refine .checkCall (fun _ => .enterCall (hbody.mono fun r hr => hr ▸ rfl))
      fun condition hcondition => ?_
    cases hcondition.symm.trans hmade

theorem eventually_evaluatesArguments {d : Nat} {e : ScopeId} {t : Tree} {σ : State}
    {r : Outcome (List Value)} :
    EvaluatesArguments options.maxDepth d e t σ r →
      ∀ᶠ fuel in atTop, ∀ ⦃node⦄, node.child 1 = t →
        Answers d e σ (evalArguments (eval options fuel) node) (· = r)
  | .absent => .of_forall fun fuel node hchild => .evalArguments (fun _ => rfl) fun l o cs h => by
    cases hchild.symm.trans h
  | .node h => by
    filter_upwards [eventually_evaluatesAll h] with fuel h node hchild
    refine .evalArguments (fun habsent => ?_) fun l o cs hpresent => ?_
    · cases hchild.symm.trans habsent
    · cases hchild.symm.trans hpresent
      exact h

theorem eventually_evaluatesAll {d : Nat} {e : ScopeId} {ts : List Tree} {σ : State}
    {r : Outcome (List Value)} :
    EvaluatesAll options.maxDepth d e ts σ r →
      ∀ᶠ fuel in atTop, Answers d e σ (evalAll (eval options fuel) ts) (· = r)
  | .nil => .of_forall fun fuel => .pure rfl
  | .head h => by
    filter_upwards [eventually_evaluates h] with fuel h
    exact h.bind_error rfl
  | .cons h h' => by
    filter_upwards [eventually_evaluates h, eventually_evaluatesAll h'] with fuel h h'
    refine .evalAll_cons h (fun v σ₁ hv => ?_) nofun
    cases hv
    exact h'.mono fun r hr => hr ▸ rfl

theorem eventually_runs {d : Nat} {e : ScopeId} {t : Tree} {σ : State} {r : Outcome Completion} :
    Runs options.maxDepth d e t σ r →
      ∀ᶠ fuel in atTop, Completes d e σ (exec options fuel t) (· = r)
  | .absent => eventually_exec (fun _ => .absent) (.of_forall fun _ => .throw rfl)
  | .fragment h => eventually_exec (fun _ => .fragment h) (.of_forall fun _ => .throw rfl)
  | .expression h h' he => by
    refine eventually_exec (fun _ => .expression h h')
      ((eventually_evaluates he).mono fun fuel he => ?_)
    exact .of_answers (he.bind (fun v σ₁ hv => .pure (hv ▸ rfl)) fun s σ₁ hs => hs ▸ rfl)
  | .sequence h => eventually_exec (fun _ => .sequence) (eventually_runsAll h)
  | .subject hsubject h => by
    obtain ⟨f, hf⟩ := execution_subject options hsubject
    exact eventually_exec hf ((eventually_evaluates h).mono fun fuel h => .bind_error h rfl)
  | .declare h =>
    eventually_exec (fun _ => .declare)
      ((eventually_evaluates h).mono fun fuel h => .bind_ok h (.of_answers (.onStore rfl)))
  | .location h hlocation =>
    eventually_exec (fun _ => .assign)
      ((eventually_evaluates h).mono fun fuel h => .bind_ok h (.bind_error (.locate hlocation) rfl))
  | .assign h hlocation =>
    eventually_exec (fun _ => .assign) ((eventually_evaluates h).mono fun fuel h =>
      .bind_ok h (.bind_ok (.locate hlocation) (.of_answers (.onStore rfl))))
  | .print h =>
    eventually_exec (fun _ => .print)
      ((eventually_evaluates h).mono fun fuel h => .bind_ok h (.printLine rfl))
  | .skip h htruthy => by
    refine eventually_exec (fun _ => .ifThen)
      ((eventually_evaluates h).mono fun fuel h => .bind_ok h ?_)
    simp only [htruthy]
    exact .pure rfl
  | .ifThen h htruthy h' => by
    refine eventually_exec (fun _ => .ifThen) ?_
    filter_upwards [eventually_evaluates h, eventually_runs h'] with fuel h h'
    refine .bind_ok h ?_
    rw [if_pos htruthy]
    exact .inScope h'
  | .ifElse (v := v) h h' => by
    refine eventually_exec (fun _ => .ifElse) ?_
    filter_upwards [eventually_evaluates h, eventually_runs h'] with fuel h h'
    refine .bind_ok h ?_
    cases htruthy : v.truthy with
    | true => exact .inScope (by simpa [htruthy] using h')
    | false => exact .inScope (by simpa [htruthy] using h')
  | .whileDo h => eventually_exec (fun _ => .whileDo) (eventually_loops h)
  | .stray => eventually_exec (fun _ => .ret) (.of_forall fun fuel => .get fun m hm => by
    rw [hm.depth]
    exact .throw rfl)
  | .ret h =>
    eventually_exec (fun _ => .ret) ((eventually_evaluates h).mono fun fuel h => .get fun m hm => by
      rw [hm.depth]
      exact .bind h (fun v σ₁ hv => .setOut (hv ▸ rfl)) fun s σ₁ hs => hs ▸ rfl)

theorem eventually_runsAll {d : Nat} {e : ScopeId} {ts : List Tree} {σ : State}
    {r : Outcome Completion} :
    RunsAll options.maxDepth d e ts σ r →
      ∀ᶠ fuel in atTop, Completes d e σ (execAll (exec options fuel) ts) (· = r)
  | .nil => .of_forall fun fuel => .pure rfl
  | .stop h hstop => by
    filter_upwards [eventually_runs h] with fuel h
    refine .poll (h.andThen (fun σ₁ hw => ?_) (fun _ _ hr => hr) fun m hm =>
      .inl (execAll_of_returning hm _))
    cases hw
    exact absurd rfl hstop
  | .next h h' => by
    filter_upwards [eventually_runs h, eventually_runsAll h'] with fuel h h'
    refine .poll (h.andThen (fun σ₁ hw => ?_) (fun r hstop hr => ?_) fun m hm =>
      .inl (execAll_of_returning hm _))
    · cases hw
      exact h'
    · cases hr
      exact absurd rfl hstop

theorem eventually_loops {d : Nat} {e : ScopeId} {cond body : Tree} {σ : State}
    {r : Outcome Completion} :
    Loops options.maxDepth d e cond body σ r →
      ∀ᶠ fuel in atTop, Completes d e σ (loop options fuel cond body) (· = r)
  | .failed h => eventually_loop ((eventually_evaluates h).mono fun fuel h => .bind_error h rfl)
  | .done h htruthy => eventually_loop ((eventually_evaluates h).mono fun fuel h => .bind_ok h (by
    simp only [htruthy]
    exact .pure rfl))
  | .stop h htruthy h' hstop => by
    refine eventually_loop ?_
    filter_upwards [eventually_evaluates h, eventually_runs h', eventually_gt_atTop 0]
      with fuel h h' hfuel
    obtain ⟨n, rfl⟩ := Nat.exists_eq_succ_of_ne_zero (Nat.pos_iff_ne_zero.mp hfuel)
    refine .bind_ok h ?_
    rw [if_pos htruthy]
    refine (Completes.inScope h').andThen (fun σ₁ hw => ?_) (fun _ _ hr => hr) fun m hm =>
      .inl (loop_of_returning hm _ _)
    cases hw
    exact absurd rfl hstop
  | .next h htruthy h' hloop => by
    refine eventually_loop ?_
    filter_upwards [eventually_evaluates h, eventually_runs h', eventually_loops hloop,
      eventually_gt_atTop 0] with fuel h h' hloop hfuel
    obtain ⟨n, rfl⟩ := Nat.exists_eq_succ_of_ne_zero (Nat.pos_iff_ne_zero.mp hfuel)
    refine .bind_ok h ?_
    rw [if_pos htruthy]
    refine (Completes.inScope h').andThen (fun σ₁ hw => ?_) (fun r hstop hr => ?_) fun m hm =>
      .inl (loop_of_returning hm _ _)
    · cases hw
      exact hloop
    · cases hr
      exact absurd rfl hstop

end

end Completeness

/-- What is to be seen of an ending, unless fuel ran out. -/
def outcome? (answer : α → Machine → β) : EStateM.Result Stop Machine α → Option (Outcome β)
  | .ok a m => some (.ok (answer a m), m.state)
  | .error .outOfFuel _ => none
  | .error s m => some (.error s, m.state)

def evaluation (options : Options) (fuel : Nat) (t : Tree) (m : Machine) : Option (Outcome Value) :=
  outcome? (fun v _ => v) (eval options fuel t m)

def execution (options : Options) (fuel : Nat) (t : Tree) (m : Machine) :
    Option (Outcome Completion) :=
  outcome? (fun _ m' => m'.completion) (exec options fuel t m)

section ReadOff

variable {m : Machine} {answer : α → Machine → β} {Q : Outcome β → Prop}

/-- An ending is seen, or fuel ran out. -/
theorem seen_or_outOfFuel (x : EStateM.Result Stop Machine α)
    (hok : ∀ a m', x = .ok a m' → Q (.ok (answer a m'), m'.state))
    (herror : ∀ s m', x = .error s m' → Q (.error s, m'.state)) :
    (∃ r, Proper r ∧ Q r ∧ outcome? answer x = some r) ∨
      (∃ σ', Q (.error .outOfFuel, σ')) ∧ outcome? answer x = none := by
  cases x with
  | ok a m' =>
    refine .inl ⟨_, ?_, hok a m' rfl, rfl⟩
    nofun
  | error s m' =>
    have hQ := herror s m' rfl
    cases s with
    | outOfFuel => exact .inr ⟨⟨_, hQ⟩, rfl⟩
    | condition | unknownNode | absentNode =>
      refine .inl ⟨_, ?_, hQ, rfl⟩
      nofun

theorem Answers.seen {x : Action α} {Q : Outcome α → Prop}
    (h : Answers m.depth m.scope m.state x Q) (hm : m.returning = false) :
    (∃ r, Proper r ∧ Q r ∧ outcome? (fun v _ => v) (x m) = some r) ∨
      (∃ σ', Q (.error .outOfFuel, σ')) ∧ outcome? (fun v _ => v) (x m) = none := by
  have hx := h m ⟨rfl, rfl, rfl, hm⟩
  refine seen_or_outOfFuel (x m) (fun a m' hxm => ?_) fun s m' hxm => ?_
  · rw [hxm] at hx
    exact hx.2
  · rw [hxm] at hx
    exact hx

theorem Completes.seen {x : Action Unit} {Q : Outcome Completion → Prop}
    (h : Completes m.depth m.scope m.state x Q) (hm : m.returning = false) :
    (∃ r, Proper r ∧ Q r ∧ outcome? (fun _ m' => m'.completion) (x m) = some r) ∨
      (∃ σ', Q (.error .outOfFuel, σ')) ∧ outcome? (fun _ m' => m'.completion) (x m) = none := by
  have hx := h m ⟨rfl, rfl, rfl, hm⟩
  refine seen_or_outOfFuel (x m) (fun a m' hxm => ?_) fun s m' hxm => ?_
  · rw [hxm] at hx
    exact hx.2.2
  · rw [hxm] at hx
    exact hx

/-- What finishes is seen with some fuel, and what is seen with some fuel finishes. -/
theorem settled {seen : Nat → Option (Outcome β)} {R : Outcome β → Prop}
    (hsound : ∀ fuel r, seen fuel = some r → R r)
    (hcomplete : ∀ r, R r → ∀ᶠ fuel in Filter.atTop, seen fuel = some r) (r : Outcome β) :
    (R r ↔ ∃ fuel, seen fuel = some r) ∧
      (R r ↔ ∃ enough, ∀ fuel, enough ≤ fuel → seen fuel = some r) := by
  have heventually : R r → ∃ enough, ∀ fuel, enough ≤ fuel → seen fuel = some r :=
    fun h => Filter.eventually_atTop.mp (hcomplete r h)
  refine ⟨⟨fun h => ?_, fun ⟨fuel, h⟩ => hsound fuel r h⟩, heventually, fun ⟨enough, h⟩ => ?_⟩
  · obtain ⟨enough, henough⟩ := heventually h
    exact ⟨enough, henough enough (Nat.le_refl _)⟩
  · exact hsound enough r (h enough (Nat.le_refl _))

end ReadOff

/-- From a machine without a return on its way, evaluation and execution come to an outcome with
some fuel exactly if the expression or statement does so without a flag, and to the same one: the
value or the completion, or the condition and the node; the scopes and closures; and the output.
More fuel changes nothing. -/
theorem structured_return (options : Options) (t : Tree) {m : Machine} (hm : m.returning = false) :
    (∀ r, (Evaluates options.maxDepth m.depth m.scope t m.state r ↔
        ∃ fuel, evaluation options fuel t m = some r) ∧
      (Evaluates options.maxDepth m.depth m.scope t m.state r ↔
        ∃ enough, ∀ fuel, enough ≤ fuel → evaluation options fuel t m = some r)) ∧
    ∀ r, (Runs options.maxDepth m.depth m.scope t m.state r ↔
        ∃ fuel, execution options fuel t m = some r) ∧
      (Runs options.maxDepth m.depth m.scope t m.state r ↔
        ∃ enough, ∀ fuel, enough ≤ fuel → execution options fuel t m = some r) := by
  constructor
  · refine settled (fun fuel r hr => ?_) fun r h =>
      (eventually_evaluates h).mono fun fuel hfuel => ?_
    · obtain ⟨r', hproper, hR, hseen⟩ | ⟨-, hseen⟩ := ((sound options fuel).1 _ _ t _).seen hm
      · cases hseen.symm.trans hr
        exact hR hproper
      · cases hseen.symm.trans hr
    · obtain ⟨r', -, rfl, hseen⟩ | ⟨⟨σ', rfl⟩, -⟩ := hfuel.seen hm
      · exact hseen
      · exact absurd rfl h.proper
  · refine settled (fun fuel r hr => ?_) fun r h => (eventually_runs h).mono fun fuel hfuel => ?_
    · obtain ⟨r', hproper, hR, hseen⟩ | ⟨-, hseen⟩ := ((sound options fuel).2.1 _ _ t _).seen hm
      · cases hseen.symm.trans hr
        exact hR hproper
      · cases hseen.symm.trans hr
    · obtain ⟨r', -, rfl, hseen⟩ | ⟨⟨σ', rfl⟩, -⟩ := hfuel.seen hm
      · exact hseen
      · exact absurd rfl h.proper

/-- A return leaves a loop that has no other end. -/
theorem structured_return_loop :
    ∃ t r, Grammar.parseProgram "print func()\x7bwhile(1)\x7bret 7;\x7d\x7d();" = .ok t ∧
      Runs 0 0 Store.root t ⟨.initial, ""⟩ r ∧ r.2.out = "7\n" := by
  have hcheck : (Grammar.parseProgram "print func()\x7bwhile(1)\x7bret 7;\x7d\x7d();").toOption.any
      (fun t => (execution {} 20 t {}).any fun r => r.2.out = "7\n") = true := by
    decide +kernel
  obtain ⟨t, hparse, hcheck⟩ := Grammar.exists_ok_of_any hcheck
  simp only [Option.any_eq_true, decide_eq_true_eq] at hcheck
  obtain ⟨r, hr, hout⟩ := hcheck
  exact ⟨t, r, hparse, ((structured_return {} t (m := {}) rfl).2 r).1.mpr ⟨20, hr⟩, hout⟩

end ClosureLang

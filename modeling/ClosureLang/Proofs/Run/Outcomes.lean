import ClosureLang.Proofs.Run.BigStep

/-! What actions come to, step by step: the rules by which the outcome of a node follows from those
of its parts. -/
namespace ClosureLang

open ClosureLang.Action ClosureLang.Tree

namespace Machine

def state (m : Machine) : State := ⟨m.store, m.out⟩

/-- How the execution of a statement ended that did not fail. -/
def completion (m : Machine) : Completion := if m.returning then .returned m.result else .normal

/-- In the scope `e`, with `d` calls active and no return on its way. -/
structure Shows (d : Nat) (e : ScopeId) (σ : State) (m : Machine) : Prop where
  depth : m.depth = d
  scope : m.scope = e
  state : m.state = σ
  returning : m.returning = false

end Machine

variable {α β : Type} {options : Options} {d : Nat} {e : ScopeId} {σ σ₁ : State}

/-- From every machine that shows `σ`, an action comes to an outcome in `Q`, and no return is on its
way then. -/
def Answers (d : Nat) (e : ScopeId) (σ : State) (x : Action α) (Q : Outcome α → Prop) : Prop :=
  ∀ m : Machine, m.Shows d e σ → match x m with
    | .ok a m' => m'.Shows d e m'.state ∧ Q (.ok a, m'.state)
    | .error s m' => Q (.error s, m'.state)

/-- From every machine that shows `σ`, a statement completes with an outcome in `Q`. -/
def Completes (d : Nat) (e : ScopeId) (σ : State) (x : Action Unit)
    (Q : Outcome Completion → Prop) : Prop :=
  ∀ m : Machine, m.Shows d e σ → match x m with
    | .ok () m' => m'.depth = d ∧ m'.scope = e ∧ Q (.ok m'.completion, m'.state)
    | .error s m' => Q (.error s, m'.state)

namespace Answers

variable {x : Action α} {P Q : Outcome α → Prop} {R : Outcome β → Prop}

theorem pure {a : α} (h : Q (.ok a, σ)) : Answers d e σ (Pure.pure a) Q := by
  intro m hm
  rw [← hm.state] at h
  exact ⟨{ hm with state := rfl }, h⟩

theorem throw {s : Stop} (h : Q (.error s, σ)) : Answers d e σ (MonadExcept.throw s) Q := by
  intro m hm
  rw [← hm.state] at h
  exact h

theorem mono (h : Answers d e σ x P) (hPQ : ∀ r, P r → Q r) : Answers d e σ x Q := by
  intro m hm
  have hx := h m hm
  cases hxm : x m with
  | ok a m' =>
    rw [hxm] at hx
    exact ⟨hx.1, hPQ _ hx.2⟩
  | error s m' =>
    rw [hxm] at hx
    exact hPQ _ hx

theorem bind {f : α → Action β} (hx : Answers d e σ x P)
    (hf : ∀ a σ₁, P (.ok a, σ₁) → Answers d e σ₁ (f a) R)
    (hfail : ∀ s σ₁, P (.error s, σ₁) → R (.error s, σ₁)) : Answers d e σ (x >>= f) R := by
  intro m hm
  have hxm := hx m hm
  simp only [Bind.bind, EStateM.bind]
  cases hxa : x m with
  | ok a m' =>
    rw [hxa] at hxm
    exact hf a _ hxm.2 m' hxm.1
  | error s m' =>
    rw [hxa] at hxm
    exact hfail s _ hxm

theorem onStore {f : ScopeId → Store → Except Stop (α × Store)} (h : Q (σ.perform e f)) :
    Answers d e σ (onStore f) Q := by
  intro m hm
  have hscope := hm.scope
  have hstate := hm.state
  subst hscope hstate
  simp only [State.perform, Machine.state] at h
  simp only [Action.onStore]
  cases hf : f m.scope m.store with
  | ok r =>
    rw [hf] at h
    exact ⟨⟨hm.depth, rfl, rfl, hm.returning⟩, h⟩
  | error s =>
    rw [hf] at h
    exact h

theorem locate {node : Tree} {Q : Outcome (ScopeId × String) → Prop}
    (h : Q (σ.perform e node.locateAt)) : Answers d e σ (locate options node) Q := by
  intro m hm
  obtain ⟨events, hstep⟩ := traceStep_eq_ok options "locate" node m
  rw [locate_eq]
  simp only [Bind.bind, EStateM.bind, hstep]
  exact onStore h _ ⟨hm.depth, hm.scope, hm.state, hm.returning⟩

theorem traced {what : String} {node : Tree} (h : Answers d e σ x Q) :
    Answers d e σ (traced options what node x) Q := by
  intro m hm
  obtain ⟨events, htraced⟩ := traced_eq options what node m
  have hx := h { m with events, level := m.level + 1 } ⟨hm.depth, hm.scope, hm.state, hm.returning⟩
  rw [htraced]
  cases hxm : x { m with events, level := m.level + 1 } with
  | ok a m' =>
    rw [hxm] at hx
    exact ⟨⟨hx.1.depth, hx.1.scope, rfl, hx.1.returning⟩, hx.2⟩
  | error s m' =>
    rw [hxm] at hx
    exact hx

theorem get {g : Machine → Action α} (h : ∀ m : Machine, m.Shows d e σ → Answers d e σ (g m) Q) :
    Answers d e σ (MonadState.get >>= g) Q := fun m hm => h m hm m hm

theorem checkCall {node : Tree} {c : Closure} {args : List Value} {f : Unit → Action β}
    (hmade : refusal? options.maxDepth d c args = none → Answers d e σ (f ()) R)
    (hrefused : ∀ condition, refusal? options.maxDepth d c args = some condition →
      R (.error (.condition condition node), σ)) :
    Answers d e σ (checkCall options node c args >>= f) R := by
  unfold ClosureLang.checkCall
  unfold refusal? at hmade hrefused
  by_cases hlength : args.length ≠ c.params.length
  · rw [if_pos hlength]
    exact throw (hrefused _ (if_pos hlength))
  · rw [if_neg hlength] at hmade hrefused ⊢
    rw [bind_assoc]
    refine get fun m hm => ?_
    rw [hm.depth]
    by_cases hdepth : 0 < options.maxDepth ∧ options.maxDepth ≤ d
    · rw [if_pos hdepth]
      exact throw (hrefused _ (if_pos hdepth))
    · rw [if_neg hdepth]
      exact hmade (if_neg hdepth)

theorem evalAll_cons {g : Tree → Action Value} {t : Tree} {ts : List Tree}
    {P : Outcome Value → Prop} {Q : Outcome (List Value) → Prop} (ht : Answers d e σ (g t) P)
    (hts : ∀ v σ₁, P (.ok v, σ₁) → Answers d e σ₁ (evalAll g ts) fun r => Q (r.map (v :: ·)))
    (hfail : ∀ s σ₁, P (.error s, σ₁) → Q (.error s, σ₁)) : Answers d e σ (evalAll g (t :: ts)) Q :=
  ht.bind (fun v σ₁ hv => (hts v σ₁ hv).bind (fun _ _ h => pure h) fun _ _ h => h) hfail

theorem evalArguments {g : Tree → Action Value} {node : Tree} {Q : Outcome (List Value) → Prop}
    (habsent : node.child 1 = .absent → Q (.error .absentNode, σ))
    (hpresent : ∀ l o cs, node.child 1 = .node l o cs → Answers d e σ (evalAll g cs) Q) :
    Answers d e σ (evalArguments g node) Q := by
  unfold ClosureLang.evalArguments
  cases hchild : node.child 1 with
  | absent => exact throw (habsent hchild)
  | node l o cs => exact hpresent l o cs hchild

/-- A call is worth what its body completes with. -/
theorem enterCall {id : ClosureId} {c : Closure} {args : List Value} {g : Tree → Action Unit}
    {Q : Outcome Value → Prop}
    (h : Completes (d + 1) (σ.store.enter c args).1 (σ.call c args) (g c.body)
      fun r => Q (r.map Completion.value)) :
    Answers d e σ (enterCall options id c args g) Q := by
  intro m hm
  have hstate := hm.state
  subst hstate
  obtain ⟨events, finish, hobserved⟩ := observed_eq_mapEnd options id c
    (inCall (m.store.enter c args).1 (m.store.enter c args).2 (g c.body)) m
  have hbody := h { m with
    store := (m.store.enter c args).2, scope := (m.store.enter c args).1
    events, returning := false, result := .int 0, depth := m.depth + 1 }
    ⟨by rw [hm.depth], rfl, rfl, rfl⟩
  rw [enterCall_eq, hobserved]
  simp only [inCall]
  generalize g c.body _ = r at hbody
  cases r with
  | ok u m' =>
    have hvalue : (if m'.returning = true then m'.result else .int 0) = m'.completion.value := by
      cases hreturning : m'.returning <;> simp [Machine.completion, Completion.value, hreturning]
    refine ⟨⟨Nat.sub_eq_of_eq_add hbody.1, hm.scope, rfl, hm.returning⟩, ?_⟩
    rw [hvalue]
    exact hbody.2.2
  | error s m' => exact hbody

end Answers

namespace Completes

variable {x y : Action Unit} {P Q : Outcome Completion → Prop} {R : Outcome α → Prop}

theorem of_answers (h : Answers d e σ x fun r => Q (r.map fun _ => .normal)) :
    Completes d e σ x Q := by
  intro m hm
  have hx := h m hm
  cases hxm : x m with
  | ok u m' =>
    rw [hxm] at hx
    obtain ⟨hshows, hQ⟩ := hx
    refine ⟨hshows.depth, hshows.scope, ?_⟩
    simp only [Machine.completion, hshows.returning]
    exact hQ
  | error s m' =>
    rw [hxm] at hx
    exact hx

theorem mono (h : Completes d e σ x P) (hPQ : ∀ r, P r → Q r) : Completes d e σ x Q := by
  intro m hm
  have hx := h m hm
  cases hxm : x m with
  | ok u m' =>
    rw [hxm] at hx
    exact ⟨hx.1, hx.2.1, hPQ _ hx.2.2⟩
  | error s m' =>
    rw [hxm] at hx
    exact hPQ _ hx

/-- A statement begins with the evaluation of an expression. -/
theorem bind {z : Action α} {f : α → Action Unit} (hz : Answers d e σ z R)
    (hf : ∀ a σ₁, R (.ok a, σ₁) → Completes d e σ₁ (f a) Q)
    (hfail : ∀ s σ₁, R (.error s, σ₁) → Q (.error s, σ₁)) : Completes d e σ (z >>= f) Q := by
  intro m hm
  have hzm := hz m hm
  simp only [Bind.bind, EStateM.bind]
  cases hza : z m with
  | ok a m' =>
    rw [hza] at hzm
    exact hf a _ hzm.2 m' hzm.1
  | error s m' =>
    rw [hza] at hzm
    exact hfail s _ hzm

theorem pure (h : Q (.ok .normal, σ)) : Completes d e σ (Pure.pure ()) Q := of_answers (.pure h)

theorem throw {s : Stop} (h : Q (.error s, σ)) : Completes d e σ (MonadExcept.throw s) Q :=
  of_answers (.throw h)

theorem get {g : Machine → Action Unit}
    (h : ∀ m : Machine, m.Shows d e σ → Completes d e σ (g m) Q) :
    Completes d e σ (MonadState.get >>= g) Q := fun m hm => h m hm m hm

/-- No return is on its way when a statement begins. -/
theorem poll (h : Completes d e σ x Q) :
    Completes d e σ (MonadState.get >>= fun m => if m.returning then Pure.pure () else x) Q := by
  refine get fun m hm => ?_
  rw [hm.returning]
  exact h

theorem printLine {v : Value} (h : Q (.ok .normal, σ.print v)) :
    Completes d e σ (printLine v.text) Q := by
  intro m hm
  have hstate := hm.state
  subst hstate
  refine ⟨hm.depth, hm.scope, ?_⟩
  simp only [Machine.completion, hm.returning]
  exact h

theorem setOut {v : Value} (h : Q (.ok (.returned v), σ)) : Completes d e σ (setOut v) Q := by
  intro m hm
  have hstate := hm.state
  subst hstate
  exact ⟨hm.depth, hm.scope, h⟩

theorem inScope (h : Completes d (σ.store.newScope e).1 (σ.block e) x Q) :
    Completes d e σ (inScope x) Q := by
  intro m hm
  obtain ⟨hdepth, hscope, hstate, hreturning⟩ := hm
  subst hscope hstate
  have hx := h { m with
    store := (m.store.newScope m.scope).2, scope := (m.store.newScope m.scope).1 }
    ⟨hdepth, rfl, rfl, hreturning⟩
  rw [inScope_eq]
  generalize x _ = r at hx
  cases r with
  | ok u m' => exact ⟨hx.1, rfl, hx.2.2⟩
  | error s m' => exact hx

theorem traced {what : String} {node : Tree} (h : Completes d e σ x Q) :
    Completes d e σ (traced options what node x) Q := by
  intro m hm
  obtain ⟨events, htraced⟩ := traced_eq options what node m
  have hx := h { m with events, level := m.level + 1 } ⟨hm.depth, hm.scope, hm.state, hm.returning⟩
  rw [htraced]
  generalize x _ = r at hx
  cases r <;> exact hx

/-- A statement follows that does nothing if a return is on its way. It may run out of fuel before
it finds out. -/
theorem andThen (hx : Completes d e σ x P)
    (hnext : ∀ σ₁, P (.ok .normal, σ₁) → Completes d e σ₁ y Q)
    (hstop : ∀ r, r.1 ≠ .ok .normal → P r → Q r)
    (hy : ∀ m : Machine, m.returning = true →
      y m = .ok () m ∨ y m = .error .outOfFuel m ∧ ∀ σ₁, Q (.error .outOfFuel, σ₁)) :
    Completes d e σ (x >>= fun _ => y) Q := by
  intro m hm
  have hxm := hx m hm
  simp only [Bind.bind, EStateM.bind]
  cases hxu : x m with
  | error s m' =>
    rw [hxu] at hxm
    exact hstop _ nofun hxm
  | ok u m' =>
    rw [hxu] at hxm
    obtain ⟨hdepth, hscope, hP⟩ := hxm
    cases hreturning : m'.returning with
    | false =>
      have hnormal : m'.completion = .normal := by simp [Machine.completion, hreturning]
      rw [hnormal] at hP
      exact hnext _ hP m' ⟨hdepth, hscope, rfl, hreturning⟩
    | true =>
      have hreturned : m'.completion = .returned m'.result := by
        simp [Machine.completion, hreturning]
      rcases hy m' hreturning with hdone | ⟨hfuel, hQ⟩
      · simp only [hdone]
        refine ⟨hdepth, hscope, hstop _ ?_ hP⟩
        simp [hreturned]
      · simp only [hfuel]
        exact hQ _

end Completes

end ClosureLang

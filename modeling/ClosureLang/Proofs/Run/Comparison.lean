import ClosureLang.Proofs.Run.Effects
import ClosureLang.Proofs.Run.Observation

/-! Two runs of one tree that differ in what is reported of them and in how deep calls may go. -/
namespace ClosureLang

open ClosureLang.Action

variable {α β : Type}

/-- The machine without what was reported of its run. -/
def Machine.silent (m : Machine) : Machine := { m with events := #[] }

/-- The second action ends as the first does, up to the events, unless the first one stops in a way
that is excused. -/
def MirrorsAt (E : Stop → Prop) (x y : Action α) (m n : Machine) : Prop :=
  (∃ s, x.stop? m = some s ∧ E s) ∨ mapEnd Machine.silent (x m) = mapEnd Machine.silent (y n)

/-- The actions do so from any two machines that differ in the events at most. -/
def Mirrors (E : Stop → Prop) (x y : Action α) : Prop :=
  ∀ m n, m.silent = n.silent → MirrorsAt E x y m n

section Primitives

variable {E : Stop → Prop} {x y : Action α} {m n : Machine}

theorem Machine.eq_behind_silent (m : Machine) : m = m.silent.behind "" m.events := by
  simp [silent, behind]

theorem Action.mapEnd_mapEnd (f g : Machine → Machine) (r : EStateM.Result Stop Machine α) :
    mapEnd f (mapEnd g r) = mapEnd (f ∘ g) r := by
  cases r <;> rfl

namespace Mirrors

/-- What goes on from any events in the same way mirrors itself. -/
theorem of_oblivious (h : Oblivious x) : Mirrors E x x := by
  refine fun m n hmn => .inr ?_
  have hsilent : ∀ m : Machine,
      mapEnd Machine.silent (x m) = mapEnd Machine.silent (x m.silent) := by
    intro m
    conv_lhs => rw [m.eq_behind_silent, h, mapEnd_mapEnd]
    congr 1
  rw [hsilent m, hmn, ← hsilent n]

theorem bind {f g : α → Action β} (hx : Mirrors E x y) (hf : ∀ a, Mirrors E (f a) (g a)) :
    Mirrors E (x >>= f) (y >>= g) := by
  intro m n hmn
  simp only [MirrorsAt, stop?, Bind.bind, EStateM.bind]
  obtain ⟨s, hs, hE⟩ | heq := hx m n hmn
  · refine .inl ⟨s, ?_, hE⟩
    simp only [stop?] at hs
    cases hxm : x m with
    | ok a m' => simp [hxm] at hs
    | error s' m' => simpa [hxm] using hs
  · cases hxm : x m with
    | ok a m' =>
      cases hyn : y n with
      | ok b n' =>
        simp only [hxm, hyn, mapEnd, EStateM.Result.ok.injEq] at heq
        obtain ⟨rfl, heq⟩ := heq
        exact hf a m' n' heq
      | error s n' => simp [hxm, hyn, mapEnd] at heq
    | error s m' =>
      cases hyn : y n with
      | ok b n' => simp [hxm, hyn, mapEnd] at heq
      | error s' n' =>
        simp only [hxm, hyn, mapEnd, EStateM.Result.error.injEq] at heq
        exact .inr (by simp [mapEnd, heq])

/-- The actions may depend on the machine, but not on the events. -/
theorem get {f g : Machine → Action α} (h : ∀ m n, m.silent = n.silent → Mirrors E (f m) (g n)) :
    Mirrors E (MonadState.get >>= f) (MonadState.get >>= g) := fun m n hmn => h m n hmn m n hmn

theorem ite {c d : Prop} [Decidable c] [Decidable d] {x' y' : Action α} (hcd : c ↔ d)
    (hx : Mirrors E x y) (hx' : Mirrors E x' y') :
    Mirrors E (if c then x else x') (if d then y else y') := by
  by_cases hc : c
  · rwa [if_pos hc, if_pos (hcd.mp hc)]
  · rwa [if_neg hc, if_neg fun hd => hc (hcd.mpr hd)]

/-- Actions between a change of the machine and the restoration of a part of it. -/
theorem of_mapEnd {x' y' : Action α} {f g : Machine → Machine} {m₀ n₀ : Machine} (h : Mirrors E x y)
    (hx : x' m = mapEnd f (x m₀)) (hy : y' n = mapEnd g (y n₀)) (hstart : m₀.silent = n₀.silent)
    (hfinish : ∀ m' n', m'.silent = n'.silent → (f m').silent = (g n').silent) :
    MirrorsAt E x' y' m n := by
  obtain ⟨s, hs, hE⟩ | heq := h m₀ n₀ hstart
  · exact .inl ⟨s, by rwa [stop?_of_eq_mapEnd hx], hE⟩
  · refine .inr ?_
    rw [hx, hy]
    cases hxm : x m₀ with
    | ok a m' =>
      cases hyn : y n₀ with
      | ok b n' =>
        simp only [hxm, hyn, mapEnd, EStateM.Result.ok.injEq] at heq ⊢
        exact ⟨heq.1, hfinish m' n' heq.2⟩
      | error s n' => simp [hxm, hyn, mapEnd] at heq
    | error s m' =>
      cases hyn : y n₀ with
      | ok b n' => simp [hxm, hyn, mapEnd] at heq
      | error s' n' =>
        simp only [hxm, hyn, mapEnd, EStateM.Result.error.injEq] at heq ⊢
        exact ⟨heq.1, hfinish m' n' heq.2⟩

variable {options options' : Options}

theorem traced {what : String} {node : Tree} (h : Mirrors E x y) :
    Mirrors E (traced options what node x) (traced options' what node y) := by
  intro m n hmn
  obtain ⟨events, hm⟩ := traced_eq options what node m
  obtain ⟨events', hn⟩ := traced_eq options' what node n
  refine of_mapEnd h (hm x) (hn y) ?_ fun m' n' h => ?_
  · simp only [Machine.silent, Machine.mk.injEq] at hmn ⊢
    simp [hmn]
  · simp only [Machine.silent, Machine.mk.injEq] at h ⊢
    simp [h]

theorem inScope (h : Mirrors E x y) : Mirrors E (inScope x) (inScope y) := by
  intro m n hmn
  refine of_mapEnd h (inScope_eq x m) (inScope_eq y n) ?_ fun m' n' h => ?_
  · simp only [Machine.silent, Machine.mk.injEq] at hmn ⊢
    simp [hmn]
  · simp only [Machine.silent, Machine.mk.injEq] at hmn h ⊢
    simp [hmn, h]

theorem traceStep (what : String) (node : Tree) :
    Mirrors E (traceStep options what node) (Action.traceStep options' what node) := by
  intro m n hmn
  obtain ⟨events, hm⟩ := traceStep_eq_ok options what node m
  obtain ⟨events', hn⟩ := traceStep_eq_ok options' what node n
  refine .inr ?_
  rw [hm, hn]
  exact congrArg (EStateM.Result.ok ()) hmn

theorem locate (node : Tree) : Mirrors E (locate options node) (Action.locate options' node) := by
  rw [locate_eq, locate_eq]
  exact (traceStep "locate" node).bind fun _ => of_oblivious (.onStore _)

theorem inCall {x y : Action Unit} {scope : ScopeId} {store : Store} (h : Mirrors E x y) :
    Mirrors E (inCall scope store x) (Action.inCall scope store y) := by
  intro m n hmn
  have hbody := h { m with
    store, scope, returning := false, result := .int 0, depth := m.depth + 1 }
    { n with store, scope, returning := false, result := .int 0, depth := n.depth + 1 } (by
      simp only [Machine.silent, Machine.mk.injEq] at hmn ⊢
      simp [hmn])
  simp only [MirrorsAt, stop?_inCall]
  simp only [MirrorsAt] at hbody
  refine hbody.imp_right fun heq => ?_
  simp only [Action.inCall]
  generalize x _ = r at heq
  generalize y _ = r' at heq
  cases r with
  | ok u m' =>
    cases r' with
    | ok v n' =>
      simp only [mapEnd, EStateM.Result.ok.injEq, true_and] at heq ⊢
      simp only [Machine.silent, Machine.mk.injEq] at hmn heq ⊢
      simp [hmn, heq]
    | error s n' => simp [mapEnd] at heq
  | error s m' =>
    cases r' with
    | ok v n' => simp [mapEnd] at heq
    | error s' n' =>
      simp only [mapEnd, EStateM.Result.error.injEq] at heq ⊢
      refine ⟨heq.1, ?_⟩
      have hsilent := heq.2
      simp only [Machine.silent, Machine.mk.injEq] at hmn hsilent ⊢
      simp [hmn, hsilent]

theorem enterCall {id : ClosureId} {c : Closure} {args : List Value} {f g : Tree → Action Unit}
    (h : Mirrors E (f c.body) (g c.body)) :
    Mirrors E (enterCall options id c args f) (ClosureLang.enterCall options' id c args g) := by
  intro m n hmn
  have hstore : m.store = n.store := by
    show m.silent.store = n.silent.store
    rw [hmn]
  have hcall : Mirrors E
      (Action.inCall (m.store.enter c args).1 (m.store.enter c args).2 (f c.body))
      (Action.inCall (n.store.enter c args).1 (n.store.enter c args).2 (g c.body)) :=
        hstore ▸ inCall h
  obtain ⟨events, finish, hm⟩ := observed_eq_mapEnd options id c
    (Action.inCall (m.store.enter c args).1 (m.store.enter c args).2 (f c.body)) m
  obtain ⟨events', finish', hn⟩ := observed_eq_mapEnd options' id c
    (Action.inCall (n.store.enter c args).1 (n.store.enter c args).2 (g c.body)) n
  exact of_mapEnd hcall ((enterCall_eq id c args f m).trans hm)
    ((enterCall_eq id c args g n).trans hn) hmn fun m' n' h => h

theorem out_eq {m n : Machine} (h : m.silent = n.silent) : m.out = n.out := by
  show m.silent.out = n.silent.out
  rw [h]

theorem evalAll {f g : Tree → Action Value} (h : ∀ t, Mirrors E (f t) (g t)) (ts : List Tree) :
    Mirrors E (evalAll f ts) (ClosureLang.evalAll g ts) := by
  induction ts with
  | nil => exact of_oblivious (.pure [])
  | cons t ts ih => exact (h t).bind fun v => ih.bind fun vs => of_oblivious (.pure (v :: vs))

theorem evalArguments {f g : Tree → Action Value} (h : ∀ t, Mirrors E (f t) (g t)) (node : Tree) :
    Mirrors E (evalArguments f node) (ClosureLang.evalArguments g node) := by
  unfold ClosureLang.evalArguments
  cases node.child 1 with
  | absent => exact of_oblivious (.throw _)
  | node l o cs => exact evalAll h cs

theorem returning_iff {m n : Machine} (h : m.silent = n.silent) :
    m.returning = true ↔ n.returning = true := by
  show m.silent.returning = true ↔ n.silent.returning = true
  rw [h]

theorem depth_eq {m n : Machine} (h : m.silent = n.silent) : m.depth = n.depth := by
  show m.silent.depth = n.silent.depth
  rw [h]

theorem execAll {f g : Tree → Action Unit} (h : ∀ t, Mirrors E (f t) (g t)) (ts : List Tree) :
    Mirrors E (execAll f ts) (ClosureLang.execAll g ts) := by
  induction ts with
  | nil => exact of_oblivious (.pure ())
  | cons t ts ih =>
    exact get fun m n hmn =>
      ite (returning_iff hmn) (of_oblivious (.pure ())) ((h t).bind fun _ => ih)

end Mirrors

end Primitives

section Steps

variable {E : Stop → Prop} {options options' : Options} {fuel : Nat}

/-- Calls that one run admits and the other one does not are excused. -/
def MirrorsChecks (E : Stop → Prop) (options options' : Options) : Prop :=
  ∀ node c args, Mirrors E (checkCall options node c args) (checkCall options' node c args)

theorem mirrors_eval_succ (hcheck : MirrorsChecks E options options')
    (heval : ∀ t, Mirrors E (eval options fuel t) (eval options' fuel t))
    (hexec : ∀ t, Mirrors E (exec options fuel t) (exec options' fuel t)) (t : Tree) :
    Mirrors E (eval options (fuel + 1) t) (eval options' (fuel + 1) t) := by
  obtain ⟨x, hx, heq⟩ := eval_succ options fuel t
  rw [heq]
  cases hx with
  | absent =>
    rw [(Evaluation.absent : Evaluation options' fuel _ _).eq]
    exact .traced (.of_oblivious (.throw _))
  | other h =>
    rw [(Evaluation.other h : Evaluation options' fuel _ _).eq]
    exact .traced (.of_oblivious (.throw _))
  | integer =>
    rw [(Evaluation.integer : Evaluation options' fuel _ _).eq]
    exact .traced (.of_oblivious (.pure _))
  | lookup =>
    rw [(Evaluation.lookup : Evaluation options' fuel _ _).eq]
    exact .traced (.of_oblivious (.onStore _))
  | binary =>
    rw [(Evaluation.binary : Evaluation options' fuel _ _).eq]
    exact .traced ((heval _).bind fun v => (heval _).bind fun w => .of_oblivious (.onStore _))
  | not =>
    rw [(Evaluation.not : Evaluation options' fuel _ _).eq]
    exact .traced ((heval _).bind fun v => .of_oblivious (.pure _))
  | function =>
    rw [(Evaluation.function : Evaluation options' fuel _ _).eq]
    exact .traced (.of_oblivious (.onStore _))
  | call =>
    rw [(Evaluation.call : Evaluation options' fuel _ _).eq]
    exact .traced ((heval _).bind fun v => (Mirrors.of_oblivious (.onStore _)).bind fun callee =>
      (Mirrors.evalArguments heval _).bind fun args => (hcheck _ _ args).bind fun _ =>
        .enterCall (hexec _))

theorem mirrors_exec_succ (heval : ∀ t, Mirrors E (eval options fuel t) (eval options' fuel t))
    (hexec : ∀ t, Mirrors E (exec options fuel t) (exec options' fuel t))
    (hloop : ∀ cond body, Mirrors E (loop options fuel cond body) (loop options' fuel cond body))
    (t : Tree) :
    Mirrors E (exec options (fuel + 1) t) (exec options' (fuel + 1) t) := by
  obtain ⟨x, hx, heq⟩ := exec_succ options fuel t
  rw [heq]
  cases hx with
  | absent =>
    rw [(Execution.absent : Execution options' fuel _ _).eq]
    exact .traced (.of_oblivious (.throw _))
  | fragment h =>
    rw [(Execution.fragment h : Execution options' fuel _ _).eq]
    exact .traced (.of_oblivious (.throw _))
  | expression h h' =>
    rw [(Execution.expression h h' : Execution options' fuel _ _).eq]
    exact .traced ((heval _).bind fun _ => .of_oblivious (.pure ()))
  | sequence =>
    rw [(Execution.sequence : Execution options' fuel _ _).eq]
    exact .traced (.execAll hexec _)
  | declare =>
    rw [(Execution.declare : Execution options' fuel _ _).eq]
    exact .traced ((heval _).bind fun v => .of_oblivious (.onStore _))
  | assign =>
    rw [(Execution.assign : Execution options' fuel _ _).eq]
    exact .traced
      ((heval _).bind fun v => (Mirrors.locate _).bind fun target => .of_oblivious (.onStore _))
  | print =>
    rw [(Execution.print : Execution options' fuel _ _).eq]
    exact .traced ((heval _).bind fun v => .of_oblivious (.printLine _))
  | ifThen =>
    rw [(Execution.ifThen : Execution options' fuel _ _).eq]
    exact .traced
      ((heval _).bind fun v => .ite Iff.rfl (.inScope (hexec _)) (.of_oblivious (.pure ())))
  | ifElse =>
    rw [(Execution.ifElse : Execution options' fuel _ _).eq]
    exact .traced ((heval _).bind fun v => .ite Iff.rfl (.inScope (hexec _)) (.inScope (hexec _)))
  | whileDo =>
    rw [(Execution.whileDo : Execution options' fuel _ _).eq]
    exact .traced (hloop _ _)
  | ret =>
    rw [(Execution.ret : Execution options' fuel _ _).eq]
    refine .traced
      (.get fun m n hmn => .ite (by rw [Mirrors.depth_eq hmn]) (.of_oblivious (.throw _)) ?_)
    exact (heval _).bind fun v => .of_oblivious (.setOut v)

theorem mirrors_loop_succ (heval : ∀ t, Mirrors E (eval options fuel t) (eval options' fuel t))
    (hexec : ∀ t, Mirrors E (exec options fuel t) (exec options' fuel t))
    (hloop : ∀ cond body, Mirrors E (loop options fuel cond body) (loop options' fuel cond body))
    (cond body : Tree) :
    Mirrors E (loop options (fuel + 1) cond body) (loop options' (fuel + 1) cond body) := by
  refine .get fun m n hmn => .ite (Mirrors.returning_iff hmn) (.of_oblivious (.pure ())) ?_
  refine (heval cond).bind fun v => .ite Iff.rfl ?_ (.of_oblivious (.pure ()))
  exact (Mirrors.inScope (hexec body)).bind fun _ => hloop cond body

/-- The run lemma: whatever runs, the other run mirrors it. -/
theorem mirrors (hcheck : MirrorsChecks E options options') (fuel : Nat) :
    (∀ t, Mirrors E (eval options fuel t) (eval options' fuel t)) ∧
    (∀ t, Mirrors E (exec options fuel t) (exec options' fuel t)) ∧
    ∀ cond body, Mirrors E (loop options fuel cond body) (loop options' fuel cond body) := by
  induction fuel with
  | zero =>
    exact ⟨fun _ => .of_oblivious (.throw _), fun _ => .of_oblivious (.throw _),
      fun _ _ => .of_oblivious (.throw _)⟩
  | succ fuel ih =>
    obtain ⟨heval, hexec, hloop⟩ := ih
    exact ⟨mirrors_eval_succ hcheck heval hexec, mirrors_exec_succ heval hexec hloop,
      mirrors_loop_succ heval hexec hloop⟩

/-- Programs on machines with the same store: unless the first run is excused, the second one has
the same output and leaves the same machine, up to the events. -/
theorem runWith_mirrors (hcheck : MirrorsChecks E options options')
    (hfold : options.fold = options'.fold) (fuel : Nat) (t : Tree) (m : Machine) :
    (∃ s, (runWith fuel options t m).1.stop = some s ∧ E s) ∨
      (runWith fuel options t m).1 = (runWith fuel options' t m).1 ∧
        (runWith fuel options t m).2.silent = (runWith fuel options' t m).2.silent := by
  have hprepare : options'.prepare t = options.prepare t := by
    simp only [Options.prepare, hfold]
  cases ht : options.prepare t with
  | none =>
    refine .inr ?_
    simp only [runWith, hprepare, ht, true_and]
  | some t' =>
    obtain ⟨events, hm, hs⟩ := runWith_eq options fuel ht m
    refine ((mirrors hcheck fuel).2.1 t' m.ready m.ready rfl).imp (fun hended => ?_) fun heq => ?_
    · obtain ⟨s, hstop, hE⟩ := hended
      exact ⟨s, by rw [hs, hstop], hE⟩
    simp only [runWith, hprepare, ht]
    cases hr : exec options fuel t' m.ready with
    | ok u m₁ =>
      cases hr' : exec options' fuel t' m.ready with
      | ok u' m₂ =>
        simp only [hr, hr', mapEnd, EStateM.Result.ok.injEq, true_and] at heq
        have hout : m₁.out = m₂.out := Mirrors.out_eq heq
        simp only [hout, heq, and_self]
      | error s m₂ => simp [hr, hr', mapEnd] at heq
    | error s m₁ =>
      cases hr' : exec options' fuel t' m.ready with
      | ok u' m₂ => simp [hr, hr', mapEnd] at heq
      | error s' m₂ =>
        simp only [hr, hr', mapEnd, EStateM.Result.error.injEq] at heq
        obtain ⟨rfl, heq⟩ := heq
        have hout : m₁.out = m₂.out := Mirrors.out_eq heq
        simp only [Machine.silent, Machine.mk.injEq] at heq
        cases s <;> simp [hout, heq, Machine.silent]

end Steps

end ClosureLang

import ClosureLang.Proofs.Run.Placement

/-! What is reported of a run: every call that starts ends, and calls end in the opposite order. -/
namespace ClosureLang

open ClosureLang.Action

/-- Sequences in which what opens is closed again, the last first. -/
inductive Nested {α : Type} (passes : α → Prop) (closes : α → α → Prop) : List α → Prop where
  | nil : Nested passes closes []
  | pass {a as} : passes a → Nested passes closes as → Nested passes closes (a :: as)
  | pair {a b inner rest} : closes a b → Nested passes closes inner → Nested passes closes rest →
      Nested passes closes (a :: (inner ++ b :: rest))

namespace Nested

variable {α β : Type} {passes : α → Prop} {closes : α → α → Prop} {as bs : List α}

theorem append (h : Nested passes closes as) (h' : Nested passes closes bs) :
    Nested passes closes (as ++ bs) := by
  induction h with
  | nil => exact h'
  | pass ha _ ih => exact .pass ha ih
  | pair hab hinner _ _ ih =>
    rw [List.cons_append, List.append_assoc, List.cons_append]
    exact .pair hab hinner ih

/-- What goes back to where it was with every pair does so with the whole sequence. -/
theorem foldl {R : β → β → Prop} [Std.Refl R] [IsTrans β R] {f : β → α → β}
    (hpass : ∀ p a, passes a → R p (f p a))
    (hpair : ∀ p q a b, closes a b → R (f p a) q → R p (f q b))
    (h : Nested passes closes as) (p : β) :
    R p (as.foldl f p) := by
  induction h generalizing p with
  | nil => exact Std.Refl.refl p
  | pass ha _ ih => exact IsTrans.trans _ _ _ (hpass p _ ha) (ih _)
  | pair hab _ _ ihinner ih =>
    rw [List.foldl_cons, List.foldl_append, List.foldl_cons]
    exact IsTrans.trans _ _ _ (hpair p _ _ _ hab (ihinner _)) (ih _)

end Nested

/-- A later state of a closure: it may have got a name. -/
def Closure.Became (c c' : Closure) : Prop := c' = c ∨ c.name = "" ∧ c' = { c with name := c'.name }

theorem Closure.Became.refl (c : Closure) : c.Became c := .inl rfl

theorem Closure.Became.trans {c₁ c₂ c₃ : Closure} (h : c₁.Became c₂) (h' : c₂.Became c₃) :
    c₁.Became c₃ := by
  obtain rfl | ⟨hname, h⟩ := h
  · exact h'
  · obtain rfl | ⟨-, h'⟩ := h'
    · exact .inr ⟨hname, h⟩
    · rw [h] at h'
      exact .inr ⟨hname, h'⟩

/-- The events that belong to no call. -/
def Event.Passes : Event → Prop
  | .step _ | .internalError _ => True
  | .enter _ | .leave _ => False

/-- The end of a call behind its start: the function is the same one. -/
def Event.Closes : Event → Event → Prop
  | .enter c, .leave c' => c.Became c'
  | _, _ => False

namespace Store

variable {s s₁ s₂ : Store}

/-- Every closure is still there. -/
def Retains (s s' : Store) : Prop :=
  ∀ id c, s.closure? id = some c → ∃ c', s'.closure? id = some c' ∧ c.Became c'

theorem Retains.of_closures (h : s₁.closures = s.closures) : s.Retains s₁ := by
  intro id c hc
  refine ⟨c, ?_, .refl c⟩
  rwa [closure?, h]

theorem Retains.trans (h : s.Retains s₁) (h' : s₁.Retains s₂) : s.Retains s₂ := by
  intro id c hc
  obtain ⟨c₁, hc₁, hbecame⟩ := h id c hc
  obtain ⟨c₂, hc₂, hbecame'⟩ := h' id c₁ hc₁
  exact ⟨c₂, hc₂, hbecame.trans hbecame'⟩

theorem Retains.newClosure (c : Closure) : s.Retains (s.newClosure c).2 := by
  intro id d hd
  refine ⟨d, ?_, .refl d⟩
  obtain ⟨hlt, rfl⟩ := Array.getElem?_eq_some_iff.mp hd
  exact Array.getElem?_push_lt hlt

theorem Retains.nameClosure (id : ClosureId) (name : String) :
    s.Retains (s.nameClosure id name) := by
  intro i c hc
  simp only [closure?, Store.nameClosure] at hc ⊢
  rw [Array.getElem?_modify, hc]
  by_cases hi : id = i
  · by_cases hname : c.name = ""
    · exact ⟨{ c with name }, by simp [hi, hname], .inr ⟨hname, rfl⟩⟩
    · exact ⟨c, by simp [hi, hname], .refl c⟩
  · exact ⟨c, by simp [hi], .refl c⟩

theorem closures_define {e : ScopeId} {x type : String} {v : Value}
    (h : s.define e x v type = some s₁) : s₁.closures = s.closures := by
  rw [(eq_of_define h).2]

theorem closures_enter (c : Closure) (args : List Value) :
    (s.enter c args).2.closures = s.closures :=
  bindParams_induction (I := fun s' => s'.closures = s.closures) rfl fun _ _ _ _ _ _ h hdefine =>
    (closures_define hdefine).trans h

/-- A closure that is there is later what it became. -/
theorem Retains.current {id : ClosureId} {c d : Closure} (h : s.Retains s₁)
    (hd : s.closure? id = some d) : (s.current id c).Became (s₁.current id c) := by
  obtain ⟨d', hd', hbecame⟩ := h id d hd
  rwa [Store.current, hd, Store.current, hd']

end Store

/-- What may be reported, and what happens to closures in the meantime. -/
structure Machine.Reports (m m' : Machine) : Prop where
  events : ∃ es, m'.events.toList = m.events.toList ++ es ∧ Nested Event.Passes Event.Closes es
  store : m.store.Retains m'.store

open Machine

instance : Std.Refl Reports := ⟨fun m => ⟨⟨[], by simp, .nil⟩, .of_closures rfl⟩⟩

instance : IsTrans Machine Reports where
  trans m m₁ m₂ h h' := by
    obtain ⟨es, hes, hnested⟩ := h.events
    obtain ⟨es', hes', hnested'⟩ := h'.events
    exact ⟨⟨es ++ es', by rw [hes', hes, List.append_assoc], hnested.append hnested'⟩,
      h.store.trans h'.store⟩

variable {α β : Type} {x : Action α} {f : α → Action β} {m m' : Machine} {options : Options}

/-- Whatever is reported of the inner part is reported of the whole. -/
theorem Machine.Reports.congr {m₁ m₁' : Machine} (h : Reports m m') (hevents : m₁.events = m.events)
    (hstore : m₁.store.Retains m.store) (hevents' : m₁'.events = m'.events)
    (hstore' : m'.store.Retains m₁'.store) :
    Reports m₁ m₁' := by
  obtain ⟨es, hes, hnested⟩ := h.events
  exact ⟨⟨es, by rw [hevents, hevents', hes], hnested⟩, (hstore.trans h.store).trans hstore'⟩

namespace Leads

theorem bind_of_ok {I : Machine → Machine → Prop} [IsTrans Machine I] (hx : I m (x.after m))
    (hf : ∀ a m', x m = .ok a m' → I m' ((f a).after m')) : I m ((x >>= f).after m) := by
  rw [after_bind]
  simp only [after] at hx
  cases hxm : x m with
  | ok a m' =>
    rw [hxm] at hx
    exact IsTrans.trans _ _ _ hx (hf a m' hxm)
  | error s m' =>
    rw [hxm] at hx
    exact hx

end Leads

namespace Reports

theorem traceStep (what : String) (node : Tree) : Leads Reports (traceStep options what node) := by
  intro m
  by_cases htrace : options.trace = true
  · rw [show Action.traceStep options what node = _ from if_pos htrace]
    exact ⟨⟨[.step (stepLine what node m)], Array.toList_push, .pass trivial .nil⟩,
      .of_closures rfl⟩
  · rw [show Action.traceStep options what node = _ from if_neg htrace]
    exact Std.Refl.refl m

theorem traced {what : String} {node : Tree} (h : Leads Reports x) :
    Leads Reports (traced options what node x) := by
  refine (traceStep what node).bind fun _ m => ?_
  have hx := h { m with level := m.level + 1 }
  have hnested : nested x m =
      mapEnd (fun m' => { m' with level := m'.level - 1 }) (x { m with level := m.level + 1 }) :=
    restoring_eq ..
  rw [after_of_eq_mapEnd hnested]
  exact hx.congr rfl (.of_closures rfl) rfl (.of_closures rfl)

theorem onStore {g : ScopeId → Store → Except Stop (α × Store)}
    (h : ∀ e s a s', g e s = .ok (a, s') → s.Retains s') : Leads Reports (onStore g) := by
  intro m
  simp only [after, Action.onStore]
  cases hg : g m.scope m.store with
  | ok r => exact ⟨⟨[], by simp, .nil⟩, h _ _ _ _ hg⟩
  | error s => exact Std.Refl.refl m

theorem still {g : ScopeId → Store → Except Stop (α × Store)}
    (h : ∀ e s a s', g e s = .ok (a, s') → s' = s) : Leads Reports (Action.onStore g) :=
  onStore fun e s a s' hg => by
    rw [h e s a s' hg]
    exact .of_closures rfl

theorem makeClosure (node : Tree) : Leads Reports (Action.onStore node.closureAt) := by
  refine onStore fun e s v s' h => ?_
  obtain ⟨c, -, -, rfl⟩ := Tree.closureAt_eq_ok h
  exact .newClosure c

theorem declare (node : Tree) (v : Value) : Leads Reports (Action.onStore (node.declareAt v)) := by
  refine onStore fun e s u s' h => ?_
  obtain ⟨x, type, s₁, -, hdefine, hnamed⟩ := Tree.declareAt_eq_ok h
  have hholds : s.Retains s₁ := .of_closures (Store.closures_define hdefine)
  obtain rfl | ⟨id, rfl⟩ := hnamed
  · exact hholds
  · exact hholds.trans (.nameClosure id x)

theorem assign (target : ScopeId × String) (v : Value) :
    Leads Reports (Action.onStore (Store.assignAt target v)) := by
  refine onStore fun e s u s' h => ?_
  obtain rfl : s.set target.1 target.2 v = s' := congrArg Prod.snd (Except.ok.inj h)
  exact .of_closures rfl

theorem locate (node : Tree) : Leads Reports (locate options node) := by
  rw [locate_eq]
  exact (traceStep "locate" node).bind fun _ => still fun _ _ _ _ h => Tree.locateAt_eq_ok h

theorem unchanging (h : ∀ m, (x.after m).events = m.events ∧ (x.after m).store = m.store) :
    Leads Reports x := by
  intro m
  obtain ⟨hevents, hstore⟩ := h m
  exact ⟨⟨[], by simp [hevents], .nil⟩, .of_closures (by rw [hstore])⟩

theorem checkCall (node : Tree) (c : Closure) (args : List Value) :
    Leads Reports (checkCall options node c args) := by
  unfold ClosureLang.checkCall
  exact .ite (.throw _) (.get fun m => Leads.ite (.throw _) (.pure ()) m)

theorem evalArguments {g : Tree → Action Value} (h : ∀ t, Leads Reports (g t)) (node : Tree) :
    Leads Reports (evalArguments g node) := by
  unfold ClosureLang.evalArguments
  split
  · exact .throw _
  · exact .evalAll h _

theorem inScope (h : Leads Reports x) : Leads Reports (inScope x) := by
  intro m
  rw [after_of_eq_mapEnd (inScope_eq x m)]
  have hx :=
    h { m with store := (m.store.newScope m.scope).2, scope := (m.store.newScope m.scope).1 }
  exact hx.congr rfl (.of_closures rfl) rfl (.of_closures rfl)

theorem inCall (scope : ScopeId) {store : Store} {body : Action Unit} (h : Leads Reports body)
    (hstore : m.store.Retains store) : Reports m ((inCall scope store body).after m) := by
  rw [after_inCall]
  have hbody :=
    h { m with store, scope, returning := false, result := .int 0, depth := m.depth + 1 }
  exact hbody.congr rfl hstore rfl (.of_closures rfl)

/-- The start and the end of a call enclose what is reported of it. -/
theorem enterCall {id : ClosureId} {c d : Closure} {args : List Value} {g : Tree → Action Unit}
    (h : Leads Reports (g c.body)) (hd : m.store.closure? id = some d) :
    Reports m ((enterCall options id c args g).after m) := by
  have hstore : m.store.Retains (m.store.enter c args).2 :=
    .of_closures (Store.closures_enter c args)
  by_cases hcalls : options.calls = true
  · rw [after_of_eq_mapEnd ((enterCall_eq id c args g m).trans (observed_of_calls hcalls id c _ m))]
    have hbody := inCall (m := { m with events := m.events.push (.enter (m.store.current id c)) })
      (m.store.enter c args).1 h hstore
    obtain ⟨es, hes, hnested⟩ := hbody.events
    have hcloses : Event.Closes (.enter (m.store.current id c)) (.leave (Store.current _ id c)) :=
      hbody.store.current hd
    refine ⟨⟨_ :: (es ++ [_]), ?_, .pair hcloses hnested .nil⟩, hbody.store⟩
    simp [hes]
  · have hcall : ClosureLang.enterCall options id c args g m = _ :=
      (enterCall_eq id c args g m).trans (congrFun (observed_of_not_calls hcalls id c _) m)
    rw [after, hcall]
    exact inCall _ h hstore

end Reports

section Runs

variable {fuel : Nat}

theorem reports_eval_succ (heval : ∀ t, Leads Reports (eval options fuel t))
    (hexec : ∀ t, Leads Reports (exec options fuel t)) (t : Tree) :
    Leads Reports (eval options (fuel + 1) t) := by
  obtain ⟨x, hx, heq⟩ := eval_succ options fuel t
  rw [heq]
  refine Reports.traced ?_
  cases hx with
  | absent => exact .throw _
  | other => exact .throw _
  | integer => exact .pure _
  | lookup => exact Reports.still fun _ _ _ _ h => (Tree.lookupAt_eq_ok h).1
  | binary =>
    exact (heval _).bind fun v => (heval _).bind fun w => Reports.still fun _ _ _ _ h =>
      (Tree.operateAt_eq_ok h).1
  | not => exact (heval _).bind fun v => .pure _
  | function => exact Reports.makeClosure _
  | @call o cs =>
    refine (heval _).bind fun v m => ?_
    refine Leads.bind_of_ok (Reports.still (fun _ _ _ _ h => (Tree.calleeAt_eq_ok h).1) m)
      fun callee m₁ hcallee => ?_
    obtain ⟨rfl, hthere⟩ := Task.onStore_calleeAt_ok hcallee
    -- the function is still there when the arguments have their values
    have harguments := Reports.evalArguments heval (.form .call o cs)
    refine Leads.bind_of_ok (harguments m₁) fun args m₂ hargs => ?_
    have hargs' := harguments m₁
    rw [after_of_ok hargs] at hargs'
    obtain ⟨d, hd, -⟩ := hargs'.store _ _ hthere
    refine Leads.bind_of_ok (Reports.checkCall _ _ args m₂) fun u m₃ hcheck => ?_
    obtain rfl := checkCall_ok hcheck
    exact Reports.enterCall (hexec _) hd

theorem reports_exec_succ (heval : ∀ t, Leads Reports (eval options fuel t))
    (hexec : ∀ t, Leads Reports (exec options fuel t))
    (hloop : ∀ cond body, Leads Reports (loop options fuel cond body)) (t : Tree) :
    Leads Reports (exec options (fuel + 1) t) := by
  obtain ⟨x, hx, heq⟩ := exec_succ options fuel t
  rw [heq]
  refine Reports.traced ?_
  cases hx with
  | absent => exact .throw _
  | fragment => exact .throw _
  | expression => exact (heval _).bind fun _ => .pure ()
  | sequence => exact .execAll fun c _ => hexec c
  | declare => exact (heval _).bind fun v => Reports.declare _ v
  | assign =>
    exact (heval _).bind fun v => (Reports.locate _).bind fun target => Reports.assign target v
  | print => exact (heval _).bind fun v => Reports.unchanging fun _ => ⟨rfl, rfl⟩
  | ifThen => exact (heval _).bind fun v => .ite (Reports.inScope (hexec _)) (.pure ())
  | ifElse =>
    exact (heval _).bind fun v => .ite (Reports.inScope (hexec _)) (Reports.inScope (hexec _))
  | whileDo => exact hloop _ _
  | ret =>
    refine .get fun m => Leads.ite (.throw _) ?_ m
    exact (heval _).bind fun v => Reports.unchanging fun _ => ⟨rfl, rfl⟩

theorem reports_loop_succ (heval : ∀ t, Leads Reports (eval options fuel t))
    (hexec : ∀ t, Leads Reports (exec options fuel t))
    (hloop : ∀ cond body, Leads Reports (loop options fuel cond body)) (cond body : Tree) :
    Leads Reports (loop options (fuel + 1) cond body) := by
  refine .get fun m => Leads.ite (.pure ()) ((heval cond).bind fun v => .ite ?_ (.pure ())) m
  exact (Reports.inScope (hexec body)).bind fun _ => hloop cond body

/-- The run lemma. -/
theorem reports (options : Options) (fuel : Nat) :
    (∀ t, Leads Reports (eval options fuel t)) ∧ (∀ t, Leads Reports (exec options fuel t)) ∧
    ∀ cond body, Leads Reports (loop options fuel cond body) := by
  induction fuel with
  | zero => exact ⟨fun _ => .throw _, fun _ => .throw _, fun _ _ => .throw _⟩
  | succ fuel ih =>
    obtain ⟨heval, hexec, hloop⟩ := ih
    exact ⟨reports_eval_succ heval hexec, reports_exec_succ heval hexec hloop,
      reports_loop_succ heval hexec hloop⟩

/-- However a program ends, the calls that were reported of it have ended. -/
theorem nested_runWith (fuel : Nat) (options : Options) (t : Tree) (m : Machine) :
    ∃ events, (runWith fuel options t m).2.events.toList = m.events.toList ++ events ∧
      Nested Event.Passes Event.Closes events := by
  cases ht : options.prepare t with
  | none =>
    simp only [runWith, ht]
    exact ⟨[], (List.append_nil _).symm, .nil⟩
  | some t' =>
    obtain ⟨es, hes, hnested⟩ := ((reports options fuel).2.1 t' m.ready).events
    rw [after] at hes
    simp only [runWith, ht]
    cases hr : exec options fuel t' m.ready with
    | ok u m' =>
      rw [hr] at hes
      exact ⟨es, hes, hnested⟩
    | error s m' =>
      rw [hr] at hes
      cases s with
      | unknownNode kind =>
        have hmessage : ∀ message, ∃ events,
            (m'.events.push (.internalError message)).toList = m.events.toList ++ events ∧
            Nested Event.Passes Event.Closes events := by
          intro message
          have hlast : Nested Event.Passes Event.Closes [.internalError message] :=
            .pass trivial .nil
          refine ⟨es ++ [.internalError message], ?_, hnested.append hlast⟩
          rw [Array.toList_push, ← List.append_assoc]
          exact congrArg (· ++ _) hes
        exact hmessage _
      | condition | absentNode | outOfFuel => exact ⟨es, hes, hnested⟩

end Runs

end ClosureLang

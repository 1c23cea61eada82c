import ClosureLang.Proofs.Run.Growth
import ClosureLang.Proofs.Run.Steps
import ClosureLang.Run.Program

/-! What running a tree leaves as it was, whatever the outcome. -/
namespace ClosureLang

open ClosureLang.Action

variable {α β : Type} {x : Action α} {f : α → Action β} {m m' : Machine} {options : Options}

namespace Action

theorem after_bind (x : Action α) (f : α → Action β) (m : Machine) :
    (x >>= f).after m = match x m with
      | .ok a m' => (f a).after m'
      | .error _ m' => m' := by
  simp only [after, bind, EStateM.bind]
  cases x m <;> rfl

theorem after_of_eq_mapEnd {f : Machine → Machine} {x y : Action α} {m m' : Machine}
    (h : y m = mapEnd f (x m')) : y.after m = f (x.after m') := by
  simp only [after, h]
  cases x m' <;> rfl

theorem stop?_of_eq_mapEnd {f : Machine → Machine} {x y : Action α} {m m' : Machine}
    (h : y m = mapEnd f (x m')) : y.stop? m = x.stop? m' := by
  simp only [stop?, h]
  cases x m' <;> rfl

theorem after_inCall (scope : ScopeId) (store : Store) (body : Action Unit) (m : Machine) :
    (inCall scope store body).after m =
      let m' := body.after { m with
        store, scope, returning := false, result := .int 0, depth := m.depth + 1 }
      { m' with
        scope := m.scope, returning := m.returning, result := m.result,
        depth := m'.depth - 1 } := by
  simp only [after, inCall]
  generalize body _ = r
  cases r <;> rfl

theorem stop?_inCall (scope : ScopeId) (store : Store) (body : Action Unit) (m : Machine) :
    (inCall scope store body).stop? m = body.stop? { m with
      store, scope, returning := false, result := .int 0, depth := m.depth + 1 } := by
  simp only [stop?, inCall]
  generalize body _ = r
  cases r <;> rfl

end Action

/-- An action leads only to machines in the given relation to the one it starts from. -/
def Leads (I : Machine → Machine → Prop) (x : Action α) : Prop := ∀ m, I m (x.after m)

namespace Leads

variable {I J : Machine → Machine → Prop}

theorem mono (h : Leads I x) (himp : ∀ m m', I m m' → J m m') : Leads J x := fun m => himp _ _ (h m)

/-- Actions that change nothing. -/
theorem still [Std.Refl I] (h : ∀ m, x.after m = m) : Leads I x := by
  intro m
  rw [h m]
  exact Std.Refl.refl m

theorem pure [Std.Refl I] (a : α) : Leads I (Pure.pure a : Action α) := still fun _ => rfl

theorem throw [Std.Refl I] (s : Stop) : Leads I (MonadExcept.throw s : Action α) :=
  still fun _ => rfl

theorem bind_from (hx : I m (x.after m)) (hf : ∀ a m', I m m' → I m ((f a).after m')) :
    I m ((x >>= f).after m) := by
  rw [after_bind]
  simp only [after] at hx
  cases hxm : x m with
  | ok a m' =>
    rw [hxm] at hx
    exact hf a m' hx
  | error s m' =>
    rw [hxm] at hx
    exact hx

theorem bind [IsTrans Machine I] (hx : Leads I x) (hf : ∀ a, Leads I (f a)) : Leads I (x >>= f) :=
  fun m => bind_from (hx m) fun a m' hm => IsTrans.trans _ _ _ hm (hf a m')

theorem get {g : Machine → Action α} (h : ∀ m, I m ((g m).after m)) :
    Leads I (MonadState.get >>= g) := h

theorem ite {c : Prop} [Decidable c] {x y : Action α} (hx : Leads I x) (hy : Leads I y) :
    Leads I (if c then x else y) := by
  split
  · exact hx
  · exact hy

theorem evalAll [Std.Refl I] [IsTrans Machine I] {g : Tree → Action Value} (h : ∀ t, Leads I (g t))
    (ts : List Tree) : Leads I (evalAll g ts) := by
  induction ts with
  | nil => exact pure []
  | cons t ts ih => exact (h t).bind fun v => ih.bind fun vs => pure (v :: vs)

theorem execAll [Std.Refl I] [IsTrans Machine I] {g : Tree → Action Unit} {ts : List Tree}
    (h : ∀ t ∈ ts, Leads I (g t)) : Leads I (execAll g ts) := by
  induction ts with
  | nil => exact pure ()
  | cons t ts ih =>
    rw [List.forall_mem_cons] at h
    refine get fun m => ?_
    exact ite (pure ()) (h.1.bind fun _ => ih h.2) m

end Leads

/-- Where the evaluation of an expression may lead. -/
structure Machine.Evaluated (m m' : Machine) : Prop where
  scope : m'.scope = m.scope
  depth : m'.depth = m.depth
  level : m'.level = m.level
  returning : m'.returning = m.returning
  result : m'.result = m.result
  store : m.store.Grows (fun _ => []) m'.store

/-- Where the execution of a statement may lead that declares only the given names in its scope. -/
structure Machine.Executed (names : List String) (m m' : Machine) : Prop where
  scope : m'.scope = m.scope
  depth : m'.depth = m.depth
  level : m'.level = m.level
  /-- A return that is on its way stays so. -/
  returning : m.returning = true → m'.returning = true
  /-- Outside calls no return sets out. -/
  outside : m.depth = 0 → m'.returning = m.returning ∧ m'.result = m.result
  store : m.store.Grows (Store.only m.scope names) m'.store

open Machine

instance : Std.Refl Evaluated := ⟨fun m => ⟨rfl, rfl, rfl, rfl, rfl, .refl _ m.store⟩⟩

instance : IsTrans Machine Evaluated :=
  ⟨fun _ _ _ h h' => ⟨h'.scope.trans h.scope, h'.depth.trans h.depth, h'.level.trans h.level,
    h'.returning.trans h.returning, h'.result.trans h.result, h.store.trans h'.store⟩⟩

variable {names names' : List String}

instance : Std.Refl (Executed names) :=
  ⟨fun m => ⟨rfl, rfl, rfl, id, fun _ => ⟨rfl, rfl⟩, .refl _ m.store⟩⟩

instance : IsTrans Machine (Executed names) where
  trans m m₁ m₂ h h' := by
    have hstore := h'.store
    rw [h.scope] at hstore
    refine ⟨h'.scope.trans h.scope, h'.depth.trans h.depth, h'.level.trans h.level,
      h'.returning ∘ h.returning, fun hm => ?_, h.store.trans hstore⟩
    obtain ⟨hreturning, hresult⟩ := h.outside hm
    obtain ⟨hreturning', hresult'⟩ := h'.outside (h.depth.trans hm)
    exact ⟨hreturning'.trans hreturning, hresult'.trans hresult⟩

theorem Machine.Executed.mono (hnames : names ⊆ names') (h : m.Executed names m') :
    m.Executed names' m' :=
  { h with store := h.store.mono (Store.only_mono hnames) }

theorem Machine.Evaluated.executed (h : m.Evaluated m') : m.Executed names m' :=
  ⟨h.scope, h.depth, h.level, fun hm => h.returning.trans hm, fun _ => ⟨h.returning, h.result⟩,
    h.store.mono fun _ => List.nil_subset _⟩

namespace Leads

theorem executed (h : Leads Evaluated x) : Leads (Executed names) x :=
  h.mono fun _ _ => Evaluated.executed

theorem widen (hnames : names ⊆ names') (h : Leads (Executed names) x) :
    Leads (Executed names') x :=
  h.mono fun _ _ => Executed.mono hnames

theorem traced_evaluated {what : String} {node : Tree} (h : Leads Evaluated x) :
    Leads Evaluated (traced options what node x) := by
  intro m
  obtain ⟨events, htraced⟩ := traced_eq options what node m
  have hx := h { m with events, level := m.level + 1 }
  rw [after_of_eq_mapEnd (htraced x)]
  exact ⟨hx.scope, hx.depth, Nat.sub_eq_of_eq_add hx.level, hx.returning, hx.result, hx.store⟩

theorem traced_executed {what : String} {node : Tree} (h : Leads (Executed names) x) :
    Leads (Executed names) (traced options what node x) := by
  intro m
  obtain ⟨events, htraced⟩ := traced_eq options what node m
  have hx := h { m with events, level := m.level + 1 }
  rw [after_of_eq_mapEnd (htraced x)]
  exact ⟨hx.scope, hx.depth, Nat.sub_eq_of_eq_add hx.level, hx.returning, hx.outside, hx.store⟩

theorem traceStep (what : String) (node : Tree) :
    Leads Evaluated (traceStep options what node) := by
  intro m
  obtain ⟨events, hstep⟩ := traceStep_eq_ok options what node m
  simp only [after, hstep]
  exact ⟨rfl, rfl, rfl, rfl, rfl, .refl _ m.store⟩

theorem onStore_executed {f : ScopeId → Store → Except Stop (α × Store)}
    (h : ∀ e s a s', f e s = .ok (a, s') → s.Grows (Store.only e names) s') :
    Leads (Executed names) (onStore f) := by
  intro m
  simp only [after, onStore]
  cases hf : f m.scope m.store with
  | ok r => exact ⟨rfl, rfl, rfl, id, fun _ => ⟨rfl, rfl⟩, h _ _ _ _ hf⟩
  | error s => exact Std.Refl.refl m

theorem onStore {f : ScopeId → Store → Except Stop (α × Store)}
    (h : ∀ e s a s', f e s = .ok (a, s') → s.Grows (fun _ => []) s') :
    Leads Evaluated (onStore f) := by
  intro m
  simp only [after, Action.onStore]
  cases hf : f m.scope m.store with
  | ok r => exact ⟨rfl, rfl, rfl, rfl, rfl, h _ _ _ _ hf⟩
  | error s => exact Std.Refl.refl m

theorem lookup (node : Tree) : Leads Evaluated (Action.onStore node.lookupAt) := by
  refine onStore fun e s v s' h => ?_
  obtain ⟨rfl, -⟩ := Tree.lookupAt_eq_ok h
  exact .refl _ _

theorem locate (node : Tree) : Leads Evaluated (locate options node) := by
  rw [locate_eq]
  refine (traceStep "locate" node).bind fun _ => onStore fun e s target s' h => ?_
  obtain rfl := Tree.locateAt_eq_ok h
  exact .refl _ _

theorem makeClosure (node : Tree) : Leads Evaluated (Action.onStore node.closureAt) := by
  refine onStore fun e s v s' h => ?_
  obtain ⟨c, -, -, rfl⟩ := Tree.closureAt_eq_ok h
  exact .of_scopes rfl

theorem operate (node : Tree) (op : BinaryOp) (v w : Value) :
    Leads Evaluated (Action.onStore (node.operateAt op v w)) := by
  refine onStore fun e s u s' h => ?_
  obtain ⟨rfl, -⟩ := Tree.operateAt_eq_ok h
  exact .refl _ _

theorem calleeOf (node : Tree) (v : Value) :
    Leads Evaluated (Action.onStore (node.calleeAt v)) := by
  refine onStore fun e s callee s' h => ?_
  obtain ⟨rfl, -⟩ := Tree.calleeAt_eq_ok h
  exact .refl _ _

theorem assign (target : ScopeId × String) (v : Value) :
    Leads Evaluated (Action.onStore (Store.assignAt target v)) := by
  refine onStore fun e s u s' h => ?_
  obtain rfl : s.set target.1 target.2 v = s' := congrArg Prod.snd (Except.ok.inj h)
  exact Store.Grows.set target.1 target.2 v

theorem declare (node : Tree) (v : Value) :
    Leads (Executed (node.child 0).name?.toList) (Action.onStore (node.declareAt v)) := by
  refine onStore_executed fun e s u s' h => ?_
  obtain ⟨x, type, s₁, hx, hdefine, hnamed⟩ := Tree.declareAt_eq_ok h
  have hscopes : s'.scopes = s₁.scopes := by
    obtain rfl | ⟨id, rfl⟩ := hnamed <;> rfl
  rw [hx]
  exact (Store.Grows.define hdefine).trans (.of_scopes hscopes)

theorem printLine (text : String) : Leads Evaluated (printLine text) :=
  fun m => ⟨rfl, rfl, rfl, rfl, rfl, .refl _ m.store⟩

theorem checkCall (node : Tree) (c : Closure) (args : List Value) :
    Leads Evaluated (checkCall options node c args) := by
  unfold ClosureLang.checkCall
  refine ite (throw _) (get fun m => ?_)
  exact ite (throw _) (pure ()) m

theorem evalArguments {g : Tree → Action Value} (h : ∀ t, Leads Evaluated (g t)) (node : Tree) :
    Leads Evaluated (evalArguments g node) := by
  unfold ClosureLang.evalArguments
  split
  · exact throw _
  · exact evalAll h _

theorem inScope (h : Leads (Executed names) x) : Leads (Executed []) (inScope x) := by
  intro m
  have hx := h { m with
    store := (m.store.newScope m.scope).2, scope := (m.store.newScope m.scope).1 }
  rw [after_of_eq_mapEnd (inScope_eq x m)]
  have hstore : m.store.Grows (fun _ => []) _ :=
    Store.Grows.into_new (.newScope m.scope) (Nat.le_refl _) hx.store
  exact ⟨rfl, hx.depth, hx.level, hx.returning, hx.outside, hstore.mono fun _ => List.nil_subset _⟩

/-- A call puts back what its body changes outside the store. -/
theorem enterCall {id : ClosureId} {c : Closure} {args : List Value} {g : Tree → Action Unit}
    (h : Leads (Executed names) (g c.body)) : Leads Evaluated (enterCall options id c args g) := by
  intro m
  obtain ⟨events, finish, hobserved⟩ := observed_eq_mapEnd options id c
    (inCall (m.store.enter c args).1 (m.store.enter c args).2 (g c.body)) m
  rw [after_of_eq_mapEnd ((enterCall_eq id c args g m).trans hobserved), after_inCall]
  have hbody := h { m with
    store := (m.store.enter c args).2, scope := (m.store.enter c args).1
    events, returning := false, result := .int 0, depth := m.depth + 1 }
  exact ⟨rfl, Nat.sub_eq_of_eq_add hbody.depth, hbody.level, rfl, rfl,
    (Store.Grows.enter c args).into_new (Nat.le_refl _) hbody.store⟩

theorem setOut (v : Value) (hm : m.depth ≠ 0) : m.Executed names ((setOut v).after m) :=
  ⟨rfl, rfl, rfl, fun _ => rfl, fun h => absurd h hm, .refl _ m.store⟩

end Leads

namespace Tree

mutual

/-- The names that a statement declares in its own scope. -/
def declared : Tree → List String
  | node (.form .sequence) _ cs => declaredAll cs
  | node (.form .declare) o cs => ((node (.form .declare) o cs).child 0).name?.toList
  | _ => []

def declaredAll : List Tree → List String
  | [] => []
  | c :: cs => declared c ++ declaredAll cs

end

theorem declared_subset {c : Tree} {cs : List Tree} (h : c ∈ cs) : c.declared ⊆ declaredAll cs := by
  induction h with
  | head => exact List.subset_append_left ..
  | tail _ _ ih => exact List.Subset.trans ih (List.subset_append_right ..)

end Tree

variable (options) (fuel : Nat)

theorem leads_eval_succ (heval : ∀ t, Leads Evaluated (eval options fuel t))
    (hexec : ∀ t, Leads (Executed t.declared) (exec options fuel t)) (t : Tree) :
    Leads Evaluated (eval options (fuel + 1) t) := by
  obtain ⟨x, hx, heq⟩ := eval_succ options fuel t
  rw [heq]
  refine .traced_evaluated ?_
  cases hx with
  | absent => exact .throw _
  | other => exact .throw _
  | integer => exact .pure _
  | lookup => exact .lookup _
  | binary => exact (heval _).bind fun v => (heval _).bind fun w => .operate _ _ v w
  | not => exact (heval _).bind fun v => .pure _
  | function => exact .makeClosure _
  | call =>
    exact (heval _).bind fun v => (Leads.calleeOf _ v).bind fun callee =>
      (Leads.evalArguments heval _).bind fun args =>
        (Leads.checkCall _ _ args).bind fun _ => .enterCall (hexec _)

theorem leads_exec_succ (heval : ∀ t, Leads Evaluated (eval options fuel t))
    (hexec : ∀ t, Leads (Executed t.declared) (exec options fuel t))
    (hloop : ∀ cond body, Leads (Executed []) (loop options fuel cond body)) (t : Tree) :
    Leads (Executed t.declared) (exec options (fuel + 1) t) := by
  obtain ⟨x, hx, heq⟩ := exec_succ options fuel t
  rw [heq]
  refine .traced_executed ?_
  cases hx with
  | absent => exact .throw _
  | fragment => exact .throw _
  | expression => exact (heval _).executed.bind fun _ => .pure ()
  | sequence => exact .execAll fun c hc => (hexec c).widen (Tree.declared_subset hc)
  | declare => exact (heval _).executed.bind fun v => .declare _ v
  | assign =>
    exact (heval _).executed.bind fun v => (Leads.locate _).executed.bind fun target =>
      (Leads.assign target v).executed
  | print => exact (heval _).executed.bind fun v => (Leads.printLine _).executed
  | ifThen => exact (heval _).executed.bind fun v => .ite (.inScope (hexec _)) (.pure ())
  | ifElse => exact (heval _).executed.bind fun v => .ite (.inScope (hexec _)) (.inScope (hexec _))
  | whileDo => exact hloop _ _
  | ret =>
    refine .get fun m => ?_
    split
    · exact Leads.throw _ m
    · rename_i hdepth
      refine Leads.bind_from (Leads.executed (heval _) m) fun v m' hm => ?_
      exact IsTrans.trans _ _ _ hm (Leads.setOut v (hm.depth ▸ hdepth))

theorem leads_loop_succ (heval : ∀ t, Leads Evaluated (eval options fuel t))
    (hexec : ∀ t, Leads (Executed t.declared) (exec options fuel t))
    (hloop : ∀ cond body, Leads (Executed []) (loop options fuel cond body)) (cond body : Tree) :
    Leads (Executed []) (loop options (fuel + 1) cond body) := by
  refine .get fun m => ?_
  refine Leads.ite (.pure ()) ((heval cond).executed.bind fun v => .ite ?_ (.pure ())) m
  exact (Leads.inScope (hexec body)).bind fun _ => hloop cond body

/-- Whatever the outcome, evaluation and execution lead only where they may. -/
theorem leads : (∀ t, Leads Evaluated (eval options fuel t)) ∧
    (∀ t, Leads (Executed t.declared) (exec options fuel t)) ∧
    ∀ cond body, Leads (Executed []) (loop options fuel cond body) := by
  induction fuel with
  | zero => exact ⟨fun _ => .throw _, fun _ => .throw _, fun _ _ => .throw _⟩
  | succ fuel ih =>
    obtain ⟨heval, hexec, hloop⟩ := ih
    exact ⟨leads_eval_succ options fuel heval hexec, leads_exec_succ options fuel heval hexec hloop,
      leads_loop_succ options fuel heval hexec hloop⟩

/-- A run executes the prepared tree; what it may report at its end is an event only. -/
theorem runWith_eq {t t' : Tree} (h : options.prepare t = some t') (m : Machine) :
    ∃ events, (runWith fuel options t m).2 = { (exec options fuel t').after m.ready with events } ∧
      (runWith fuel options t m).1.stop = (exec options fuel t').stop? m.ready := by
  simp only [runWith, h, after, stop?]
  cases exec options fuel t' m.ready with
  | ok u m' => exact ⟨m'.events, rfl, rfl⟩
  | error s m' => cases s <;> exact ⟨_, rfl, rfl⟩

theorem evaluated (t : Tree) (m : Machine) : m.Evaluated ((eval options fuel t).after m) :=
  (leads options fuel).1 t m

theorem executed (t : Tree) (m : Machine) : m.Executed t.declared ((exec options fuel t).after m) :=
  (leads options fuel).2.1 t m

end ClosureLang

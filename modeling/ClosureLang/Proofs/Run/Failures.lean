import ClosureLang.Proofs.Run.Origins

/-! Failing runs of two programs side by side, whose closures have different trees: the second one
fails with the same condition, after the same output. -/
namespace ClosureLang

open ClosureLang.Action ClosureLang.Tree

variable {R : Tree → Tree → Prop} {α β : Type} {m n : Machine} {c : Condition} {out : String}

/-- With enough fuel, an action fails with a condition, and all in all `out` is printed. -/
def FailsAt (y : Nat → Action α) (m : Machine) (c : Condition) (out : String) : Prop :=
  ∃ enough, ∀ fuel, enough ≤ fuel →
    ∃ node m₁, y fuel m = .error (.condition c node) m₁ ∧ m₁.out = out

/-- An action fails on the machines that correspond to `m`. -/
def Fails (R : Tree → Tree → Prop) (y : Nat → Action α) (m : Machine) (c : Condition)
    (out : String) : Prop :=
  ∀ m', Corresponds R m m' → FailsAt y m' c out

/-- If the first action fails with a condition, the second does, too, given enough fuel. -/
def Breaks (R : Tree → Tree → Prop) (x : Action α) (y : Nat → Action α) (m : Machine) : Prop :=
  ∀ c node m₁, x m = .error (.condition c node) m₁ → Fails R y m c m₁.out

namespace Action

theorem bind_eq_error {x : Action α} {f : α → Action β} {s : Stop} {m₂ : Machine} :
    (x >>= f) m = .error s m₂ ↔
      x m = .error s m₂ ∨ ∃ a m₁, x m = .ok a m₁ ∧ f a m₁ = .error s m₂ := by
  show EStateM.bind x f m = _ ↔ _
  unfold EStateM.bind
  cases x m with
  | ok a m₁ => simp [and_assoc]
  | error e m₁ => simp

theorem mapEnd_eq_error {f : Machine → Machine} {r : EStateM.Result Stop Machine α} {s : Stop}
    {m₁ : Machine} (h : mapEnd f r = .error s m₁) : ∃ m₂, r = .error s m₂ ∧ m₁ = f m₂ := by
  cases r with
  | ok a m₂ => cases h
  | error e m₂ =>
    cases h
    exact ⟨m₂, rfl, rfl⟩

end Action

theorem inCall_of_error {scope : ScopeId} {store : Store} {body : Action Unit} {s : Stop}
    {m₂ : Machine}
    (h : body { m with store, scope, returning := false, result := .int 0, depth := m.depth + 1 } =
      .error s m₂) :
    inCall scope store body m = .error s
      { m₂ with
        scope := m.scope, returning := m.returning, result := m.result,
        depth := m₂.depth - 1 } := by
  simp only [inCall, h]

/-- A call fails just if the body of its function does. -/
theorem error_of_enterCall {options : Options} {id : ClosureId} {f : Closure} {args : List Value}
    {g : Tree → Action Unit} {s : Stop} {m₁ : Machine}
    (h : enterCall options id f args g m = .error s m₁) :
    ∃ m₂, g f.body (m.calling options id f args) = .error s m₂ ∧ m₁.out = m₂.out := by
  obtain ⟨finish, hobserved⟩ := observed_eq_entered options id f
    (inCall (m.store.enter f args).1 (m.store.enter f args).2 (g f.body)) m
  rw [enterCall_eq, hobserved] at h
  obtain ⟨m₂, hcall, rfl⟩ := mapEnd_eq_error h
  simp only [inCall] at hcall
  split at hcall
  · cases hcall
  · rename_i s' m₃ hbody
    cases hcall
    exact ⟨m₃, hbody, rfl⟩

theorem enterCall_of_error {options : Options} {id : ClosureId} {f : Closure} {args : List Value}
    {g : Tree → Action Unit} {s : Stop} {m₂ : Machine}
    (h : g f.body (m.calling options id f args) = .error s m₂) :
    ∃ m₁, enterCall options id f args g m = .error s m₁ ∧ m₁.out = m₂.out := by
  obtain ⟨finish, hobserved⟩ := observed_eq_entered options id f
    (inCall (m.store.enter f args).1 (m.store.enter f args).2 (g f.body)) m
  rw [enterCall_eq, hobserved, inCall_of_error h]
  exact ⟨_, rfl, rfl⟩

namespace FailsAt

variable {y : Nat → Action α}

theorem succ (h : FailsAt (fun n => y (n + 1)) m c out) : FailsAt y m c out := by
  obtain ⟨k, hk⟩ := h
  refine ⟨k + 1, fun fuel hfuel => ?_⟩
  obtain ⟨n, rfl⟩ : ∃ n, fuel = n + 1 := ⟨fuel - 1, by omega⟩
  exact hk n (by omega)

theorem bind (h : FailsAt y m c out) (g : Nat → α → Action β) :
    FailsAt (fun n => y n >>= g n) m c out := by
  obtain ⟨k, hk⟩ := h
  refine ⟨k, fun fuel hfuel => ?_⟩
  obtain ⟨node, m₁, hy, hout⟩ := hk fuel hfuel
  exact ⟨node, m₁, bind_eq_error.mpr (.inl hy), hout⟩

theorem mapEnd {z : Nat → Action α} {m' : Machine} {f : Machine → Machine} (h : FailsAt y m' c out)
    (hz : ∀ fuel, z fuel m = Action.mapEnd f (y fuel m')) (hf : ∀ m, (f m).out = m.out) :
    FailsAt z m c out := by
  obtain ⟨k, hk⟩ := h
  refine ⟨k, fun fuel hfuel => ?_⟩
  obtain ⟨node, m₁, hy, rfl⟩ := hk fuel hfuel
  exact ⟨node, f m₁, by rw [hz, hy]; rfl, hf m₁⟩

end FailsAt

/-- What comes behind an action that goes well. -/
theorem Settles.fails {y : Nat → Action α} {g : Nat → α → Action β} {a : α} {m₁ : Machine}
    (hy : Settles y m a m₁) (hg : FailsAt (fun n => g n a) m₁ c out) :
    FailsAt (fun n => y n >>= g n) m c out := by
  obtain ⟨k, hk⟩ := hy
  obtain ⟨l, hl⟩ := hg
  refine ⟨max k l, fun fuel hfuel => ?_⟩
  obtain ⟨node, m₂, hg, hout⟩ := hl fuel (by omega)
  exact ⟨node, m₂, bind_eq_error.mpr (.inr ⟨a, m₁, hk fuel (by omega), hg⟩), hout⟩

namespace Fails

variable {y : Nat → Action α}

theorem succ (h : Fails R (fun n => y (n + 1)) m c out) : Fails R y m c out :=
  fun m' hm => (h m' hm).succ

theorem bind (h : Fails R y m c out) (g : Nat → α → Action β) :
    Fails R (fun n => y n >>= g n) m c out :=
  fun m' hm => (h m' hm).bind g

theorem congr (h : Fails R y m c out) (hm : Alike n m) : Fails R y n c out :=
  fun m' hn => h m' (hn.congr hm (.refl m'))

theorem raise (node : Tree) : Fails R (fun _ => (Action.raise c node : Action α)) m c m.out :=
  fun m' hm => ⟨0, fun _ _ => ⟨node, m', rfl, hm.out⟩⟩

theorem traced (h : Fails R y m c out) (options : Options) (what : String) (node : Tree) :
    Fails R (fun n => Action.traced options what node (y n)) m c out := by
  intro m' hm
  obtain ⟨events, hwithin⟩ := Machine.within_eq options what node m'
  have hinside : Corresponds R m (m'.within options what node) := by
    rw [hwithin]
    exact hm.congr (.refl m) ((Alike.events m' events).trans (.level _ _))
  exact (h _ hinside).mapEnd (fun _ => traced_eq_within ..) fun _ => rfl

end Fails

theorem Follows.fails {y : Nat → Action α} {g : Nat → α → Action β} {a : α} {m₁ : Machine}
    (hy : Follows R y m a m₁) (hg : Fails R (fun n => g n a) m₁ c out) :
    Fails R (fun n => y n >>= g n) m c out := by
  intro m' hm
  obtain ⟨m₁', hm₁, hsettles⟩ := hy m' hm
  exact hsettles.fails (hg m₁' hm₁)

theorem alike_within (options : Options) (what : String) (node : Tree) (m : Machine) :
    Alike m (m.within options what node) := by
  obtain ⟨events, hwithin⟩ := Machine.within_eq options what node m
  rw [hwithin]
  exact (Alike.events m events).trans (.level _ _)

/-- Two parameters share a name in both function nodes. -/
theorem Closure.ofNode?_congr_error {fn fn' : Tree} {e : ScopeId} {c : Condition}
    (hparams : fn'.child 0 = fn.child 0) (hsignature : fn'.child 2 = fn.child 2)
    (h : ofNode? fn e = some (.error c)) : ofNode? fn' e = some (.error c) := by
  have hnames : fn'.paramNames? = fn.paramNames? := by simp only [paramNames?, hparams]
  obtain ⟨names, hps, hcases⟩ := ofNode?_cases h
  have hnodup : ¬ names.Nodup ∧ c = .duplicateParameter := by
    obtain ⟨hnodup, hr⟩ | ⟨f, hr, -⟩ := hcases
    · exact ⟨hnodup, Except.error.inj hr⟩
    · cases hr
  simp only [ofNode?, hnames, hps, hsignature, Option.bind_eq_bind, Option.bind_some, hnodup.1,
    if_false] at h ⊢
  exact h

namespace Breaks

variable {x : Action α} {y : Nat → Action α} {options options' : Options} {node node' : Tree}

theorem succ (h : Breaks R x (fun n => y (n + 1)) m) : Breaks R x y m :=
  fun c node m₁ hx => (h c node m₁ hx).succ

theorem pure (a : α) : Breaks R (Pure.pure a) y m := nofun

theorem raise : Breaks R (Action.raise c node : Action α) (fun _ => Action.raise c node') m := by
  rintro c node m₁ ⟨⟩
  exact .raise node'

theorem bind {f : α → Action β} {g : Nat → α → Action β} (hx : Simulates R x y) (h : Breaks R x y m)
    (hf : ∀ a m₁, x m = .ok a m₁ → Breaks R (f a) (fun n => g n a) m₁) :
    Breaks R (x >>= f) (fun n => y n >>= g n) m := by
  intro c node m₂ hbind
  obtain hfail | ⟨a, m₁, hok, hfail⟩ := bind_eq_error.mp hbind
  · exact (h c node m₂ hfail).bind g
  · exact (hx m a m₁ hok).fails (hf a m₁ hok c node m₂ hfail)

theorem traced {what : String} (h : Breaks R x y (m.within options what node)) :
    Breaks R (traced options what node x) (fun n => Action.traced options' what node' (y n)) m := by
  intro c u m₁ hx
  rw [traced_eq_within] at hx
  obtain ⟨m₂, hrun, rfl⟩ := mapEnd_eq_error hx
  exact ((h c u m₂ hrun).congr (alike_within options what node m)).traced options' what node'

theorem get {f : Machine → Action α} {g : Nat → Machine → Action α}
    (h : ∀ m', Corresponds R m m' → Breaks R (f m) (fun n => g n m') m) :
    Breaks R (MonadState.get >>= f) (fun n => MonadState.get >>= g n) m :=
  fun c node m₁ hf m' hm => h m' hm c node m₁ hf m' hm

theorem ite {p : Prop} [Decidable p] {x₁ x₂ : Action α} {y₁ y₂ : Nat → Action α}
    (h₁ : p → Breaks R x₁ y₁ m) (h₂ : ¬ p → Breaks R x₂ y₂ m) :
    Breaks R (if p then x₁ else x₂) (fun n => if p then y₁ n else y₂ n) m := by
  split
  · exact h₁ ‹_›
  · exact h₂ ‹_›

theorem inScope (h : Breaks R x y m.inBlock) :
    Breaks R (inScope x) (fun n => Action.inScope (y n)) m := by
  intro c node m₁ hx m' hm
  rw [inScope_eq] at hx
  obtain ⟨m₂, hrun, rfl⟩ := mapEnd_eq_error hx
  exact (h c node m₂ hrun _ (hm.newScope hm.scope)).mapEnd (fun _ => inScope_eq ..) fun _ => rfl

theorem onStore {f g : ScopeId → Store → Except Stop (α × Store)}
    (h : ∀ m', Corresponds R m m' → ∀ c node, f m.scope m.store = .error (.condition c node) →
      ∃ node', g m'.scope m'.store = .error (.condition c node')) :
    Breaks R (onStore f) (fun _ => Action.onStore g) m := by
  intro c node m₁ hf m' hm
  simp only [Action.onStore] at hf
  cases hfm : f m.scope m.store with
  | ok r =>
    rw [hfm] at hf
    cases hf
  | error s =>
    rw [hfm] at hf
    cases hf
    obtain ⟨node', hg⟩ := h m' hm c node hfm
    exact ⟨0, fun _ _ => ⟨node', m', by simp only [Action.onStore, hg], hm.out⟩⟩

theorem lookup (hname : node'.child 0 = node.child 0) :
    Breaks R (Action.onStore node.lookupAt) (fun _ => Action.onStore node'.lookupAt) m := by
  refine onStore fun m' hm c u h => ?_
  obtain ⟨x, hx, h⟩ := named_eq_error h
  refine ⟨node', ?_⟩
  simp only [lookupAt, hname, Tree.named, hx, Store.get?_congr hm.scopes, hm.scope]
  split at h
  · cases h
  · cases h
    rfl

theorem locate : Breaks R (locate options node) (fun _ => Action.locate options' node) m := by
  simp only [locate_eq]
  have htrace : Simulates R (traceStep options "locate" node)
      fun _ => traceStep options' "locate" node :=
    fun m a m₁ h => .traced options' "locate" node (traceStep_ok h)
  refine Breaks.bind htrace (fun c u m₁ h => ?_) fun _ m₁ _ => ?_
  · obtain ⟨events, hstep⟩ := traceStep_eq_ok options "locate" node m
    cases hstep.symm.trans h
  · refine onStore fun m' hm c u h => ⟨node, ?_⟩
    unfold locateAt at h ⊢
    split at h
    · cases h
    · obtain ⟨x, hx, h⟩ := named_eq_error h
      simp only [Tree.named, hx, Store.locate_congr hm.scopes, hm.scope]
      split at h
      · cases h
      · cases h
        rfl
    · cases h

theorem declare (hname : node'.child 0 = node.child 0) (v : Value) :
    Breaks R (Action.onStore (node.declareAt v))
      (fun _ => Action.onStore (node'.declareAt v)) m := by
  refine onStore fun m' hm c u h => ⟨node', ?_⟩
  obtain ⟨rfl, -, x, hx, hbound⟩ := declareAt_eq_error h
  have hbound' : (m'.store.binding? m'.scope x).isSome := by
    rw [Store.binding?_congr hm.scopes, hm.scope]
    exact hbound
  simp only [declareAt, hname, Tree.named, hx, Store.define, hbound', if_true]

theorem function (hparams : node'.child 0 = node.child 0)
    (hsignature : node'.child 2 = node.child 2) :
    Breaks R (Action.onStore node.closureAt) (fun _ => Action.onStore node'.closureAt) m := by
  refine onStore fun m' hm c u h => ⟨node', ?_⟩
  unfold closureAt at h
  split at h
  · cases h
  · rename_i r hr
    cases h
    simp only [closureAt, hm.scope, Closure.ofNode?_congr_error hparams hsignature hr]
  · cases h

theorem operate {op : BinaryOp} {v w : Value} :
    Breaks R (Action.onStore (node.operateAt op v w))
      (fun _ => Action.onStore (node'.operateAt op v w))
      m := by
  refine onStore fun m' hm c u h => ⟨node', ?_⟩
  unfold operateAt at h ⊢
  cases hop : op.apply v w with
  | ok r => simp [hop] at h
  | error d =>
    simp only [hop] at h ⊢
    cases h
    rfl

/-- The function that is called, which may not be one. -/
theorem callee {v : Value} {f : ClosureId × Closure → Action α}
    {g : Nat → ClosureId × Closure → Action α}
    (h : ∀ id c c', Action.onStore (node.calleeAt v) m = .ok (id, c) m → c.Related R c' →
      Breaks R (f (id, c)) (fun n => g n (id, c')) m) :
    Breaks R (Action.onStore (node.calleeAt v) >>= f)
      (fun n => Action.onStore (node'.calleeAt v) >>= g n)
      m := by
  intro c u m₁ hbind m' hm
  cases v with
  | int w =>
    obtain hfail | ⟨_, _, hok, -⟩ := bind_eq_error.mp hbind
    · cases hfail
      exact ⟨0, fun _ _ => ⟨node', m', rfl, hm.out⟩⟩
    · cases hok
  | closure id =>
    cases hc : m.store.closure? id with
    | none =>
      obtain hfail | ⟨_, _, hok, -⟩ := bind_eq_error.mp hbind
      · simp [Action.onStore, calleeAt, hc] at hfail
      · simp [Action.onStore, calleeAt, hc] at hok
    | some d =>
      obtain ⟨d', hd'⟩ := hm.closure?_some hc
      have hcallee : ∀ (node : Tree) (m : Machine) (d : Closure), m.store.closure? id = some d →
          Action.onStore (node.calleeAt (.closure id)) m = .ok (id, d) m := by
        intro node m d hd
        simp only [Action.onStore, calleeAt, hd]
      obtain hfail | ⟨p, m₂, hok, hf⟩ := bind_eq_error.mp hbind
      · cases (hcallee node m d hc).symm.trans hfail
      · cases (hcallee node m d hc).symm.trans hok
        have hsettles :
            Settles (fun _ => Action.onStore (node'.calleeAt (.closure id))) m' (id, d') m' :=
          ⟨0, fun _ _ => hcallee node' m' d' hd'⟩
        exact hsettles.fails
          (h id d d' (hcallee node m d hc) (hm.closures id d d' hc hd') c u m₁ hf m' hm)

/-- The depth of calls and the numbers of parameters are the same. -/
theorem checkCall (hdepth : options'.maxDepth = options.maxDepth) {f f' : Closure}
    (hf : f.Related R f') (args : List Value) :
    Breaks R (checkCall options node f args)
      (fun _ => ClosureLang.checkCall options' node' f' args) m := by
  have hparams : f'.params = f.params := by rw [hf.rest]
  unfold ClosureLang.checkCall
  rw [hparams, hdepth]
  refine ite (fun _ => raise) fun _ => get fun m' hm => ?_
  rw [hm.depth]
  exact ite (fun _ => raise) fun _ => pure ()

theorem enterCall {id : ClosureId} {f f' : Closure} (hf : f.Related R f') (args : List Value)
    {x : Tree → Action Unit} {y : Nat → Tree → Action Unit}
    (h : Breaks R (x f.body) (fun n => y n f'.body) (m.calling options id f args)) :
    Breaks R (enterCall options id f args x)
      (fun n => ClosureLang.enterCall options' id f' args (y n)) m := by
  intro c node m₁ hx m' hm
  obtain ⟨m₂, hbody, hout⟩ := error_of_enterCall hx
  rw [hout]
  have hstart : Corresponds R (m.calling options id f args) (m'.calling options' id f' args) :=
    (hm.enter hf args).congr ⟨rfl, rfl, rfl, rfl, rfl, rfl⟩ ⟨rfl, rfl, rfl, rfl, rfl, rfl⟩
  obtain ⟨k, hk⟩ := h c node m₂ hbody _ hstart
  refine ⟨k, fun fuel hfuel => ?_⟩
  obtain ⟨node', m₂', hbody', hout'⟩ := hk fuel hfuel
  obtain ⟨m₁', hcall, hm₁⟩ := enterCall_of_error hbody'
  exact ⟨node', m₁', hcall, hm₁.trans hout'⟩

end Breaks

end ClosureLang

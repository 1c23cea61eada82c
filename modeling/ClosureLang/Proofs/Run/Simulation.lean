import ClosureLang.Proofs.Tree.Everywhere
import ClosureLang.Run.Eval
import Mathlib.Data.List.Forall2

/-! Runs of two programs side by side, whose closures have different trees. The machines agree in
all but the trees, the events and the nesting of the trace. -/
namespace ClosureLang

open ClosureLang.Action

variable {R : Tree → Tree → Prop} {α β : Type}

/-- Closures that agree in all but their trees. -/
structure Closure.Related (R : Tree → Tree → Prop) (c c' : Closure) : Prop where
  body : R c.body c'.body
  node : R c.node c'.node
  rest : c' = { c with body := c'.body, node := c'.node }

structure Corresponds (R : Tree → Tree → Prop) (m m' : Machine) : Prop where
  scopes : m'.store.scopes = m.store.scopes
  count : m'.store.closures.size = m.store.closures.size
  closures : ∀ id c c', m.store.closure? id = some c → m'.store.closure? id = some c' →
    c.Related R c'
  scope : m'.scope = m.scope
  returning : m'.returning = m.returning
  result : m'.result = m.result
  depth : m'.depth = m.depth
  out : m'.out = m.out

/-- Machines that differ in the events and the nesting of the trace at most. -/
structure Alike (m n : Machine) : Prop where
  store : n.store = m.store
  scope : n.scope = m.scope
  returning : n.returning = m.returning
  result : n.result = m.result
  depth : n.depth = m.depth
  out : n.out = m.out

namespace Alike

theorem refl (m : Machine) : Alike m m := ⟨rfl, rfl, rfl, rfl, rfl, rfl⟩

theorem symm {m n : Machine} (h : Alike m n) : Alike n m :=
  ⟨h.store.symm, h.scope.symm, h.returning.symm, h.result.symm, h.depth.symm, h.out.symm⟩

theorem trans {m n k : Machine} (h : Alike m n) (h' : Alike n k) : Alike m k :=
  ⟨h'.store.trans h.store, h'.scope.trans h.scope, h'.returning.trans h.returning,
    h'.result.trans h.result, h'.depth.trans h.depth, h'.out.trans h.out⟩

theorem level (m : Machine) (l : Nat) : Alike m { m with level := l } :=
  ⟨rfl, rfl, rfl, rfl, rfl, rfl⟩

theorem events (m : Machine) (es : Array Event) : Alike m { m with events := es } :=
  ⟨rfl, rfl, rfl, rfl, rfl, rfl⟩

/-- A call starts alike. -/
theorem entered {m n : Machine} (h : Alike m n) (store : Store) (scope : ScopeId) :
    Alike { m with store, scope, returning := false, result := .int 0, depth := m.depth + 1 }
      { n with store, scope, returning := false, result := .int 0, depth := n.depth + 1 } :=
  ⟨rfl, rfl, rfl, rfl, congrArg (· + 1) h.depth, h.out⟩

end Alike

theorem Corresponds.congr {m n m' n' : Machine} (h : Corresponds R m m') (hm : Alike m n)
    (hm' : Alike m' n') : Corresponds R n n' where
  scopes := by rw [hm'.store, hm.store, h.scopes]
  count := by rw [hm'.store, hm.store, h.count]
  closures id c c' hc hc' := h.closures id c c' (hm.store ▸ hc) (hm'.store ▸ hc')
  scope := by rw [hm'.scope, hm.scope, h.scope]
  returning := by rw [hm'.returning, hm.returning, h.returning]
  result := by rw [hm'.result, hm.result, h.result]
  depth := by rw [hm'.depth, hm.depth, h.depth]
  out := by rw [hm'.out, hm.out, h.out]

/-- With enough fuel, an action goes well. -/
def Settles (y : Nat → Action α) (m : Machine) (a : α) (m₁ : Machine) : Prop :=
  ∃ enough, ∀ fuel, enough ≤ fuel → y fuel m = .ok a m₁

/-- An action leads from the machines that correspond to `m` to such as correspond to `m₁`. -/
def Follows (R : Tree → Tree → Prop) (y : Nat → Action α) (m : Machine) (a : α)
    (m₁ : Machine) : Prop :=
  ∀ m', Corresponds R m m' → ∃ m₁', Corresponds R m₁ m₁' ∧ Settles y m' a m₁'

/-- Whenever the first action goes well, the second does, too, given enough fuel. -/
def Simulates (R : Tree → Tree → Prop) (x : Action α) (y : Nat → Action α) : Prop :=
  ∀ m a m₁, x m = .ok a m₁ → Follows R y m a m₁

/-- An action leaves the machine as it is. -/
def Still (x : Action α) : Prop := ∀ m a m₁, x m = .ok a m₁ → Alike m m₁

theorem bind_ok {x : Action α} {f : α → Action β} {m m₂ : Machine} {b : β} :
    (x >>= f) m = .ok b m₂ ↔ ∃ a m₁, x m = .ok a m₁ ∧ f a m₁ = .ok b m₂ := by
  show EStateM.bind x f m = _ ↔ _
  unfold EStateM.bind
  cases x m with
  | ok a m₁ => simp [and_assoc]
  | error e m₁ => simp

theorem settles_succ {y : Nat → Action α} {m m₁ : Machine} {a : α}
    (h : Settles (fun n => y (n + 1)) m a m₁) : Settles y m a m₁ := by
  obtain ⟨k, hk⟩ := h
  refine ⟨k + 1, fun fuel hfuel => ?_⟩
  obtain ⟨n, rfl⟩ : ∃ n, fuel = n + 1 := ⟨fuel - 1, by omega⟩
  exact hk n (by omega)

theorem Settles.bind {y : Nat → Action α} {g : Nat → α → Action β} {m m₁ m₂ : Machine} {a : α}
    {b : β} (hy : Settles y m a m₁) (hg : Settles (fun n => g n a) m₁ b m₂) :
    Settles (fun n => y n >>= g n) m b m₂ := by
  obtain ⟨k, hk⟩ := hy
  obtain ⟨l, hl⟩ := hg
  exact ⟨max k l, fun fuel hfuel =>
    bind_ok.mpr ⟨a, m₁, hk fuel (by omega), hl fuel (by omega)⟩⟩

theorem traceStep_eq (options : Options) (step : String) (node : Tree) (m : Machine) :
    ∃ m₁, traceStep options step node m = .ok () m₁ ∧ Alike m m₁ := by
  by_cases htrace : options.trace = true
  · have heq : traceStep options step node = fun m => emit (.step (stepLine step node m)) m :=
      if_pos htrace
    exact ⟨_, by rw [heq]; rfl, .events m _⟩
  · have heq : traceStep options step node = pure () := if_neg htrace
    exact ⟨_, by rw [heq]; rfl, .refl m⟩

namespace Follows

variable {y : Nat → Action α} {m n m₁ n₁ m₂ : Machine} {a : α} {b : β}

theorem succ (h : Follows R (fun n => y (n + 1)) m a m₁) : Follows R y m a m₁ := by
  intro m' hm
  obtain ⟨m₁', hm₁, hs⟩ := h m' hm
  exact ⟨m₁', hm₁, settles_succ hs⟩

theorem bind {g : Nat → α → Action β} (hy : Follows R y m a m₁)
    (hg : Follows R (fun n => g n a) m₁ b m₂) : Follows R (fun n => y n >>= g n) m b m₂ := by
  intro m' hm
  obtain ⟨m₁', hm₁, hs⟩ := hy m' hm
  obtain ⟨m₂', hm₂, hs'⟩ := hg m₁' hm₁
  exact ⟨m₂', hm₂, hs.bind hs'⟩

theorem pure (hm : Alike m m₁) : Follows R (fun _ => (Pure.pure a : Action α)) m a m₁ := by
  intro m' h
  exact ⟨m', h.congr hm (.refl m'), 0, fun _ _ => rfl⟩

theorem congr (h : Follows R y m a m₁) (hm : Alike n m) (hm₁ : Alike m₁ n₁) :
    Follows R y n a n₁ := by
  intro m' hn
  obtain ⟨m₁', hm₁', hs⟩ := h m' (hn.congr hm (.refl m'))
  exact ⟨m₁', hm₁'.congr hm₁ (.refl m₁'), hs⟩

theorem traced (options : Options) (step : String) (node : Tree) (hm : Alike m m₁) :
    Follows R (fun _ => traceStep options step node) m () m₁ := by
  intro m' h
  obtain ⟨m₁', htrace, hm'⟩ := traceStep_eq options step node m'
  exact ⟨m₁', h.congr hm hm', 0, fun _ _ => htrace⟩

theorem deeper (h : Follows R y m a m₁) : Follows R (fun n => nested (y n)) m a m₁ := by
  intro m' hm
  obtain ⟨m₁', hm₁, k, hk⟩ := h { m' with level := m'.level + 1 } (hm.congr (.refl m) (.level m' _))
  refine ⟨{ m₁' with level := m₁'.level - 1 }, hm₁.congr (.refl m₁) (.level m₁' _), k,
    fun fuel hfuel => ?_⟩
  simp only [nested, restoring, hk fuel hfuel]

end Follows

theorem traceStep_ok {options : Options} {step : String} {node : Tree} {m m₁ : Machine} {u : Unit}
    (h : traceStep options step node m = .ok u m₁) : Alike m m₁ := by
  obtain ⟨m₂, htrace, hm₂⟩ := traceStep_eq options step node m
  rw [htrace] at h
  cases h
  exact hm₂

theorem restoring_ok {restore : Machine → Machine} {x : Action α} {m m₁ : Machine} {a : α}
    (h : restoring restore x m = .ok a m₁) : ∃ m₂, x m = .ok a m₂ ∧ m₁ = restore m₂ := by
  simp only [restoring] at h
  cases hx : x m with
  | ok b m₂ =>
    rw [hx] at h
    cases h
    exact ⟨m₂, rfl, rfl⟩
  | error e m₂ =>
    rw [hx] at h
    cases h

theorem restoring_of_ok {restore : Machine → Machine} {x : Action α} {m m₁ : Machine} {a : α}
    (h : x m = .ok a m₁) : restoring restore x m = .ok a (restore m₁) := by
  simp only [restoring, h]

theorem nested_ok {x : Action α} {m m₁ : Machine} {a : α} (h : nested x m = .ok a m₁) :
    ∃ m₂, x { m with level := m.level + 1 } = .ok a m₂ ∧ Alike m₂ m₁ := by
  obtain ⟨m₂, hx, rfl⟩ := restoring_ok h
  exact ⟨m₂, hx, .level m₂ _⟩

/-- Every step is traced and then made one level deeper in the trace. -/
theorem step_ok {options : Options} {step : String} {node : Tree} {x : Action α} {m m₁ : Machine}
    {a : α} (h : (do traceStep options step node; nested x) m = .ok a m₁) :
    ∃ n n₁, Alike m n ∧ x n = .ok a n₁ ∧ Alike n₁ m₁ := by
  obtain ⟨_, m₀, htrace, hnested⟩ := bind_ok.mp h
  obtain ⟨n₁, hx, hn₁⟩ := nested_ok hnested
  exact ⟨_, n₁, (traceStep_ok htrace).trans (.level m₀ _), hx, hn₁⟩

theorem Follows.step {options : Options} {what : String} {node : Tree} {y : Nat → Action α}
    {m m₁ : Machine} {a : α} (h : Follows R y m a m₁) :
    Follows R (fun n => do traceStep options what node; nested (y n)) m a m₁ :=
  (Follows.traced options what node (.refl m)).bind h.deeper

namespace Simulates

variable {x : Action α} {y : Nat → Action α}

theorem succ (h : Simulates R x fun n => y (n + 1)) : Simulates R x y :=
  fun m a m₁ hx => (h m a m₁ hx).succ

theorem bind {f : α → Action β} {g : Nat → α → Action β} (hx : Simulates R x y)
    (hf : ∀ a, Simulates R (f a) fun n => g n a) :
    Simulates R (x >>= f) fun n => y n >>= g n := by
  intro m b m₂ h
  obtain ⟨a, m₁, ha, hb⟩ := bind_ok.mp h
  exact (hx m a m₁ ha).bind (hf a m₁ b m₂ hb)

theorem pure (a : α) : Simulates R (Pure.pure a : Action α) fun _ => Pure.pure a := by
  rintro m b m₁ ⟨⟩
  exact .pure (.refl m)

/-- Nothing is asked where the first action fails. -/
theorem throw {e : Stop} : Simulates R (MonadExcept.throw e : Action α) y := by
  rintro m a m₁ ⟨⟩

theorem raise {c : Condition} {node : Tree} : Simulates R (raise c node : Action α) y := throw

theorem step {options options' : Options} {what : String} {node node' : Tree}
    (h : Simulates R x y) :
    Simulates R (do traceStep options what node; nested x)
      (fun n => do traceStep options' what node'; nested (y n)) := by
  intro m a m₁ hx
  obtain ⟨n, n₁, hn, hx, hn₁⟩ := step_ok hx
  exact ((h n a n₁ hx).step).congr hn hn₁

theorem get {f : Machine → Action α} {g : Nat → Machine → Action α}
    (h : ∀ m m', Corresponds R m m' → Simulates R (f m) fun n => g n m') :
    Simulates R (MonadState.get >>= f) fun n => MonadState.get >>= g n := by
  intro m a m₁ hf m' hm
  exact h m m' hm m a m₁ hf m' hm

theorem changes {f g : Machine → Machine}
    (h : ∀ m m', Corresponds R m m' → Corresponds R (f m) (g m')) :
    Simulates R (modify f : Action Unit) fun _ => modify g := by
  rintro m a m₁ ⟨⟩ m' hm
  exact ⟨g m', h m m' hm, 0, fun _ _ => rfl⟩

theorem ite {c : Prop} [Decidable c] {x₁ x₂ : Action α} {y₁ y₂ : Nat → Action α}
    (h₁ : Simulates R x₁ y₁) (h₂ : Simulates R x₂ y₂) :
    Simulates R (if c then x₁ else x₂) fun n => if c then y₁ n else y₂ n := by
  split
  · exact h₁
  · exact h₂

end Simulates

namespace Store

variable {s s' : Store}

theorem binding?_congr (h : s'.scopes = s.scopes) (e : ScopeId) (x : String) :
    s'.binding? e x = s.binding? e x := by
  simp only [binding?, h]

theorem chainUpTo_congr (h : s'.scopes = s.scopes) (limit : Nat) (e : ScopeId) :
    s'.chainUpTo limit e = s.chainUpTo limit e := by
  induction limit generalizing e with
  | zero => rfl
  | succ limit ih =>
    simp only [chainUpTo, h]
    cases s.scopes[e]? with
    | none => rfl
    | some scope => cases hp : scope.parent <;> simp [hp, ih]

theorem locate_congr (h : s'.scopes = s.scopes) (e : ScopeId) (x : String) :
    s'.locate e x = s.locate e x := by
  simp only [locate, chain, chainUpTo_congr h, binding?_congr h]

theorem get?_congr (h : s'.scopes = s.scopes) (e : ScopeId) (x : String) :
    s'.get? e x = s.get? e x := by
  simp only [get?, locate_congr h, binding?_congr h]

theorem define_congr (h : s'.scopes = s.scopes) {e : ScopeId} {x type : String} {v : Value}
    {d : Store} (hd : s.define e x v type = some d) :
    ∃ d', s'.define e x v type = some d' ∧ d'.scopes = d.scopes ∧ d.closures = s.closures ∧
      d'.closures = s'.closures := by
  simp only [define, binding?_congr h] at hd ⊢
  split at hd
  · cases hd
  · rename_i hfree
    cases hd
    exact ⟨_, if_neg hfree, by simp only [h], rfl, rfl⟩

end Store

/-- The scopes may change alike. -/
theorem Corresponds.withStore {m m' : Machine} (h : Corresponds R m m') {store store' : Store}
    (hscopes : store'.scopes = store.scopes) (hstore : store.closures = m.store.closures)
    (hstore' : store'.closures = m'.store.closures) :
    Corresponds R { m with store } { m' with store := store' } where
  scopes := hscopes
  count := by simp only [hstore, hstore', h.count]
  closures id c c' hc hc' := by
    simp only [Store.closure?, hstore, hstore'] at hc hc'
    exact h.closures id c c' hc hc'
  scope := h.scope
  returning := h.returning
  result := h.result
  depth := h.depth
  out := h.out

theorem Corresponds.withScope {m m' : Machine} (h : Corresponds R m m') (scope : ScopeId) :
    Corresponds R { m with scope } { m' with scope } :=
  { h with scope := rfl, closures := h.closures }

namespace Simulates

variable {x : Action α} {y : Nat → Action α}

theorem nameOf (t : Tree) : Simulates R (nameOf t) fun _ => Action.nameOf t := by
  unfold Action.nameOf
  cases t.name? with
  | none => exact throw
  | some name => exact pure name

theorem printLine (text : String) :
    Simulates R (printLine text) fun _ => Action.printLine text := by
  refine changes fun m m' h => { h with out := ?_, closures := h.closures }
  simp only [h.out]

theorem lookup {node node' : Tree} (h : node'.child 0 = node.child 0) :
    Simulates R (lookup node) fun _ => Action.lookup node' := by
  unfold Action.lookup
  rw [h]
  refine (nameOf _).bind fun name => get fun m m' hm => ?_
  rw [Store.get?_congr hm.scopes, hm.scope]
  cases m.store.get? m.scope name with
  | none => exact raise
  | some v => exact pure v

theorem set {m m' : Machine} (h : Corresponds R m m') :
    Simulates R (MonadState.set m : Action PUnit) fun _ => MonadState.set m' := by
  rintro n a n₁ ⟨⟩ n' -
  exact ⟨m', h, 0, fun _ _ => rfl⟩

theorem locate {options options' : Options} (node : Tree) :
    Simulates R (locate options node) fun _ => Action.locate options' node := by
  unfold Action.locate
  refine bind (y := fun _ => traceStep options' "locate" node) ?_ fun _ => ?_
  · intro m a m₁ h
    exact .traced options' "locate" node (traceStep_ok h)
  · cases node with
    | absent => exact throw
    | node label offset cs =>
      split
      · exact throw
      · refine (nameOf _).bind fun name => get fun m m' hm => ?_
        rw [Store.locate_congr hm.scopes, hm.scope]
        cases m.store.locate m.scope name with
        | none => exact raise
        | some scope => exact pure (scope, name)
      · exact throw

end Simulates

theorem Corresponds.closure?_some {m m' : Machine} (h : Corresponds R m m') {id : ClosureId}
    {c : Closure} (hc : m.store.closure? id = some c) : ∃ c', m'.store.closure? id = some c' := by
  obtain ⟨hid, -⟩ := Array.getElem?_eq_some_iff.mp hc
  exact ⟨_, Array.getElem?_eq_getElem (h.count ▸ hid)⟩

theorem Corresponds.newScope {m m' : Machine} (h : Corresponds R m m') {parent parent' : ScopeId}
    (hparent : parent' = parent) :
    Corresponds R
      { m with store := (m.store.newScope parent).2, scope := (m.store.newScope parent).1 }
      { m' with
        store := (m'.store.newScope parent').2, scope := (m'.store.newScope parent').1 } := by
  subst hparent
  have hid : (m'.store.newScope parent').1 = (m.store.newScope parent').1 := by
    simp only [Store.newScope, h.scopes]
  rw [hid]
  have hstore : Corresponds R { m with store := (m.store.newScope parent').2 }
      { m' with store := (m'.store.newScope parent').2 } :=
    h.withStore (by simp only [Store.newScope, h.scopes]) rfl rfl
  exact hstore.withScope (m.store.newScope parent').1

theorem Corresponds.nameClosure {m m' : Machine} (h : Corresponds R m m') (id : ClosureId)
    (name : String) :
    Corresponds R { m with store := m.store.nameClosure id name }
      { m' with store := m'.store.nameClosure id name } := by
  refine { h with scopes := h.scopes, count := ?_, closures := ?_ }
  · simp [Store.nameClosure, h.count]
  · intro i c c' hc hc'
    simp only [Store.nameClosure, Store.closure?, Array.getElem?_modify] at hc hc'
    by_cases hid : id = i
    · simp only [hid, if_true, Option.map_eq_some_iff] at hc hc'
      obtain ⟨d, hd, rfl⟩ := hc
      obtain ⟨d', hd', rfl⟩ := hc'
      have hrel := h.closures i d d' hd hd'
      have hname : d'.name = d.name := by rw [hrel.rest]
      rw [hname]
      by_cases hempty : d.name = ""
      · simp only [hempty, if_true]
        refine ⟨hrel.body, hrel.node, ?_⟩
        rw [hrel.rest]
      · simpa only [hempty, if_false] using hrel
    · simp only [hid, if_false] at hc hc'
      exact h.closures i c c' hc hc'

theorem Corresponds.newClosure {m m' : Machine} (h : Corresponds R m m') {c c' : Closure}
    (hc : c.Related R c') :
    Corresponds R { m with store := (m.store.newClosure c).2 }
      { m' with store := (m'.store.newClosure c').2 } := by
  refine { h with scopes := h.scopes, count := ?_, closures := ?_ }
  · simp [Store.newClosure, h.count]
  · intro i d d' hd hd'
    simp only [Store.newClosure, Store.closure?, Array.getElem?_push, h.count] at hd hd'
    split at hd
    · cases hd
      simp_all
    · simp_all [h.closures i d d', Store.closure?]

namespace Simulates

variable {x : Action α} {y : Nat → Action α}

theorem declare {node node' : Tree} (hname : node'.child 0 = node.child 0)
    (htype : node'.child 2 = node.child 2) (v : Value) :
    Simulates R (declare node v) fun _ => Action.declare node' v := by
  unfold Action.declare
  rw [hname, htype]
  refine (nameOf _).bind fun name => get fun m m' hm => ?_
  cases hd : m.store.define m.scope name v (((node.child 2).name?).getD "") with
  | none => exact raise
  | some store =>
    obtain ⟨store', hd', hscopes, hstore, hstore'⟩ := Store.define_congr hm.scopes hd
    simp only [hm.scope ▸ hd']
    have hstores := hm.withStore hscopes hstore hstore'
    cases v with
    | int w => exact set hstores
    | closure id => exact set (hstores.nameClosure id name)

theorem inScope (h : Simulates R x y) : Simulates R (inScope x) fun n => Action.inScope (y n) := by
  intro m a m₁ hx m' hm
  obtain ⟨m₂, hrun, rfl⟩ := restoring_ok hx
  obtain ⟨m₂', hm₂, k, hk⟩ := h _ _ _ hrun _ (hm.newScope hm.scope)
  refine ⟨{ m₂' with scope := m'.scope }, hm.scope ▸ hm₂.withScope m.scope, k, fun fuel hfuel => ?_⟩
  exact restoring_of_ok (hk fuel hfuel)

theorem execAll {f : Tree → Action Unit} {g : Nat → Tree → Action Unit} {ts ts' : List Tree}
    (h : List.Forall₂ (fun t t' => Simulates R (f t) fun n => g n t') ts ts') :
    Simulates R (execAll f ts) fun n => ClosureLang.execAll (g n) ts' := by
  induction h with
  | nil => exact pure ()
  | cons ht _ ih =>
    refine get fun m m' hm => ?_
    rw [hm.returning]
    exact ite (pure ()) (ht.bind fun _ => ih)

theorem evalAll {f : Tree → Action Value} {g : Nat → Tree → Action Value} {ts ts' : List Tree}
    (h : List.Forall₂ (fun t t' => Simulates R (f t) fun n => g n t') ts ts') :
    Simulates R (evalAll f ts) fun n => ClosureLang.evalAll (g n) ts' := by
  induction h with
  | nil => exact pure []
  | cons ht _ ih => exact ht.bind fun v => ih.bind fun vs => pure (v :: vs)

theorem calleeOf {node node' : Tree} (v : Value) {f : ClosureId × Closure → Action α}
    {g : Nat → ClosureId × Closure → Action α}
    (h : ∀ id c c', c.Related R c' → Simulates R (f (id, c)) fun n => g n (id, c')) :
    Simulates R (calleeOf node v >>= f) fun n => ClosureLang.calleeOf node' v >>= g n := by
  intro m a m₁ hx m' hm
  obtain ⟨p, m₂, hcallee, hf⟩ := bind_ok.mp hx
  cases v with
  | int w => cases hcallee
  | closure id =>
    obtain ⟨_, _, ⟨⟩, hfind⟩ := bind_ok.mp hcallee
    cases hc : m.store.closure? id with
    | none =>
      rw [hc] at hfind
      cases hfind
    | some c =>
      rw [hc] at hfind
      cases hfind
      obtain ⟨c', hc'⟩ := hm.closure?_some hc
      obtain ⟨m₁', hm₁, k, hk⟩ := h id c c' (hm.closures id c c' hc hc') m a m₁ hf m' hm
      refine ⟨m₁', hm₁, k, fun fuel hfuel => bind_ok.mpr ⟨(id, c'), m', ?_, hk fuel hfuel⟩⟩
      exact bind_ok.mpr ⟨m', m', rfl, by rw [hc']; rfl⟩

/-- The depth of calls and the numbers of parameters are the same. -/
theorem checkCall {options options' : Options} (hdepth : options'.maxDepth = options.maxDepth)
    {node node' : Tree} {c c' : Closure} (hc : c.Related R c') (args : List Value) :
    Simulates R (checkCall options node c args) fun _ =>
      ClosureLang.checkCall options' node' c' args := by
  have hparams : c'.params = c.params := by rw [hc.rest]
  unfold ClosureLang.checkCall
  rw [hparams, hdepth]
  refine ite raise (get fun m m' hm => ?_)
  rw [hm.depth]
  exact ite raise (pure ())

end Simulates

theorem observed_ok {options : Options} {id : ClosureId} {c : Closure} {x : Action α}
    {m m₁ : Machine} {a : α} (h : observed options id c x m = .ok a m₁) :
    ∃ n n₁, Alike m n ∧ x n = .ok a n₁ ∧ Alike n₁ m₁ := by
  by_cases hcalls : options.calls = true
  · rw [show observed options id c x = _ from if_pos hcalls] at h
    obtain ⟨m₂, hx, rfl⟩ := restoring_ok h
    exact ⟨_, m₂, .events m _, hx, .events m₂ _⟩
  · rw [show observed options id c x = x from if_neg hcalls] at h
    exact ⟨m, m₁, .refl m, h, .refl m₁⟩

theorem observed_eq (options : Options) (id : ClosureId) (c : Closure) (m : Machine) :
    ∃ n, Alike m n ∧ ∃ done : Machine → Machine, (∀ k, Alike k (done k)) ∧
      ∀ {x : Action α} {a n₁}, x n = .ok a n₁ → observed options id c x m = .ok a (done n₁) := by
  by_cases hcalls : options.calls = true
  · refine ⟨{ m with events := m.events.push (.enter (m.store.current id c)) }, .events m _,
      fun k => { k with events := k.events.push (.leave (k.store.current id c)) },
      fun k => .events k _, fun {x a n₁} hx => ?_⟩
    rw [show observed options id c x = _ from if_pos hcalls]
    exact restoring_of_ok hx
  · refine ⟨m, .refl m, fun k => k, .refl, fun {x a n₁} hx => ?_⟩
    rw [show observed options id c x = x from if_neg hcalls]
    exact hx

theorem inCall_ok {scope : ScopeId} {store : Store} {body : Action Unit} {m m₁ : Machine}
    {v : Value} (h : inCall scope store body m = .ok v m₁) :
    ∃ m₂, body { m with store, scope, returning := false, result := .int 0, depth := m.depth + 1 } =
        .ok () m₂ ∧
      v = (if m₂.returning then m₂.result else .int 0) ∧
      m₁ = { m₂ with
        scope := m.scope, returning := m.returning, result := m.result,
        depth := m₂.depth - 1 } := by
  simp only [inCall] at h
  split at h
  · rename_i m₂ hbody
    cases h
    exact ⟨m₂, hbody, rfl, rfl⟩
  · cases h

theorem inCall_of_ok {scope : ScopeId} {store : Store} {body : Action Unit} {m m₂ : Machine}
    (h : body { m with store, scope, returning := false, result := .int 0, depth := m.depth + 1 } =
      .ok () m₂) :
    inCall scope store body m = .ok (if m₂.returning then m₂.result else .int 0)
      { m₂ with
        scope := m.scope, returning := m.returning, result := m.result,
        depth := m₂.depth - 1 } := by
  simp only [inCall, h]

/-- Parameters are bound alike. -/
theorem bindParams_congr {c c' : Closure} (hparams : c'.params = c.params)
    (hsignature : c'.signature = c.signature) (scope : ScopeId) (args : List Value) {s s' : Store}
    (h : s'.scopes = s.scopes) :
    (bindParams c' scope args s').scopes = (bindParams c scope args s).scopes ∧
    (bindParams c scope args s).closures = s.closures ∧
    (bindParams c' scope args s').closures = s'.closures := by
  have htype : c'.paramType = c.paramType := by
    funext i
    simp only [Closure.paramType, hsignature]
  simp only [bindParams, hparams, htype]
  generalize (c.params.zip args).zipIdx = bindings
  induction bindings generalizing s s' with
  | nil => exact ⟨h, rfl, rfl⟩
  | cons b bindings ih =>
    obtain ⟨⟨x, v⟩, i⟩ := b
    simp only [List.foldl_cons]
    cases hd : s.define scope x v (c.paramType i) with
    | none =>
      have hd' : s'.define scope x v (c.paramType i) = none := by
        simp only [Store.define, Store.binding?_congr h] at hd ⊢
        split at hd
        · rename_i hbound
          exact if_pos hbound
        · cases hd
      simpa only [hd', Option.getD_none] using ih h
    | some d =>
      obtain ⟨d', hd', hscopes, hclosures, hclosures'⟩ := Store.define_congr h hd
      obtain ⟨h₁, h₂, h₃⟩ := ih hscopes
      simp only [hd', Option.getD_some]
      exact ⟨h₁, h₂.trans hclosures, h₃.trans hclosures'⟩

/-- What a call puts back at its end. -/
theorem Corresponds.restore {m m' n n' : Machine} (h : Corresponds R m m')
    (hn : Corresponds R n n') :
    Corresponds R
      { m with
        scope := n.scope, returning := n.returning, result := n.result,
        depth := m.depth - 1 } { m' with
        scope := n'.scope, returning := n'.returning, result := n'.result,
        depth := m'.depth - 1 } where
  scopes := h.scopes
  count := h.count
  closures := h.closures
  scope := hn.scope
  returning := hn.returning
  result := hn.result
  depth := congrArg (· - 1) h.depth
  out := h.out

theorem Corresponds.enter {m m' : Machine} (h : Corresponds R m m') {c c' : Closure}
    (hc : c.Related R c') (args : List Value) :
    let entry := m.store.newScope c.scope
    let entry' := m'.store.newScope c'.scope
    Corresponds R
      { m with store := bindParams c entry.1 args entry.2, scope := entry.1, returning := false,
               result := .int 0, depth := m.depth + 1 }
      { m' with
        store := bindParams c' entry'.1 args entry'.2, scope := entry'.1, returning := false,
                result := .int 0, depth := m'.depth + 1 } := by
  have hscope : c'.scope = c.scope := by rw [hc.rest]
  have hparams : c'.params = c.params := by rw [hc.rest]
  have hsignature : c'.signature = c.signature := by rw [hc.rest]
  have hstart := h.newScope hscope
  have hid : (m'.store.newScope c'.scope).1 = (m.store.newScope c.scope).1 := hstart.scope
  obtain ⟨h₁, h₂, h₃⟩ :=
    bindParams_congr hparams hsignature (m.store.newScope c.scope).1 args hstart.scopes
  have hbound := (hstart.withStore h₁ h₂ h₃)
  simp only [hid]
  refine { hbound with
    scope := rfl, returning := rfl, result := rfl, depth := ?_, closures := hbound.closures }
  simp only [h.depth]

theorem Closure.ofNode?_congr {node node' : Tree} {scope : ScopeId} {c : Closure}
    (hparams : node'.child 0 = node.child 0) (hsignature : node'.child 2 = node.child 2)
    (h : Closure.ofNode? node scope = some (.ok c)) :
    c.body = node.child 1 ∧ c.node = node ∧ Closure.ofNode? node' scope =
      some (.ok { c with body := node'.child 1, node := node' }) := by
  simp only [Closure.ofNode?, Tree.paramNames?, hparams, hsignature, Option.bind_eq_bind,
    Option.bind_eq_some_iff] at h ⊢
  obtain ⟨params, hps, h⟩ := h
  simp only [hps]
  -- both ways of giving a signature end in the same test of the names
  cases hsig : node.child 2 with
  | absent =>
    simp only [hsig, Option.bind_some] at h ⊢
    split at h
    · cases h
      exact ⟨rfl, rfl, params, rfl, if_pos ‹_›⟩
    · cases h
  | node label offset cs =>
    simp only [hsig, Option.bind_eq_some_iff] at h ⊢
    obtain ⟨signature, htags, h⟩ := h
    split at h
    · cases h
      exact ⟨rfl, rfl, params, rfl, signature, htags, if_pos ‹_›⟩
    · cases h

namespace Simulates

variable {x : Action α} {y : Nat → Action α}

theorem enterCall {options options' : Options} {id : ClosureId} {c c' : Closure}
    (hc : c.Related R c') (args : List Value) {f : Tree → Action Unit}
    {g : Nat → Tree → Action Unit} (h : Simulates R (f c.body) fun n => g n c'.body) :
    Simulates R (enterCall options id c args f) fun n =>
      ClosureLang.enterCall options' id c' args (g n) := by
  intro m v m₁ hx m' hm
  obtain ⟨_, _, ⟨⟩, hx⟩ := bind_ok.mp hx
  obtain ⟨n, n₁, hn, hx, hn₁⟩ := observed_ok hx
  obtain ⟨n₂, hbody, rfl, rfl⟩ := inCall_ok hx
  obtain ⟨n', hn', done, hdone, hobserved⟩ := observed_eq options' id c' m'
  have hstart := (hm.enter hc args).congr (hn.entered _ _) (hn'.entered _ _)
  obtain ⟨n₂', hn₂, k, hk⟩ := h _ _ _ hbody _ hstart
  have hend := (hn₂.restore (hm.congr hn hn')).congr hn₁ (hdone _)
  refine ⟨_, hend, k, fun fuel hfuel => bind_ok.mpr ⟨m', m', rfl, hobserved ?_⟩⟩
  rw [← hn₂.returning, ← hn₂.result]
  exact inCall_of_ok (hk fuel hfuel)

theorem makeClosure {node node' : Tree} (hnode : R node node')
    (hbody : R (node.child 1) (node'.child 1)) (hparams : node'.child 0 = node.child 0)
    (hsignature : node'.child 2 = node.child 2) :
    Simulates R (makeClosure node) fun _ => Action.makeClosure node' := by
  intro m v m₁ hx m' hm
  unfold Action.makeClosure at hx
  cases hc : Closure.ofNode? node m.scope with
  | none =>
    rw [hc] at hx
    cases hx
  | some r =>
    cases r with
    | error e =>
      rw [hc] at hx
      cases hx
    | ok c =>
      rw [hc] at hx
      cases hx
      obtain ⟨hcbody, hcnode, hc'⟩ := Closure.ofNode?_congr hparams hsignature hc
      have hrel : c.Related R { c with body := node'.child 1, node := node' } :=
        ⟨hcbody ▸ hbody, hcnode ▸ hnode, rfl⟩
      refine ⟨_, hm.newClosure hrel, 0, fun _ _ => ?_⟩
      simp only [Action.makeClosure, hm.scope, hc', Store.newClosure, hm.count]

end Simulates

/-! Expressions that call nothing and make no functions leave the machine as it is. -/

namespace Still

open ClosureLang.Tree

variable {x : Action α} {P : Int64 → Prop} {options : Options}

theorem pure (a : α) : Still (Pure.pure a : Action α) := by
  rintro m b m₁ ⟨⟩
  exact .refl m

theorem throw {e : Stop} : Still (MonadExcept.throw e : Action α) := by
  rintro m a m₁ ⟨⟩

theorem get : Still (MonadState.get : Action Machine) := by
  rintro m a m₁ ⟨⟩
  exact .refl m

theorem bind {f : α → Action β} (hx : Still x) (hf : ∀ a, Still (f a)) : Still (x >>= f) := by
  intro m b m₂ h
  obtain ⟨a, m₁, ha, hb⟩ := bind_ok.mp h
  exact (hx m a m₁ ha).trans (hf a m₁ b m₂ hb)

theorem step {what : String} {node : Tree} (h : Still x) :
    Still (do traceStep options what node; nested x) := by
  intro m a m₁ hx
  obtain ⟨n, n₁, hn, hx, hn₁⟩ := step_ok hx
  exact (hn.trans (h n a n₁ hx)).trans hn₁

theorem lookup (node : Tree) : Still (lookup node) := by
  unfold Action.lookup nameOf
  refine bind ?_ fun name => bind get fun m => ?_
  · cases (node.child 0).name? with
    | none => exact throw
    | some name => exact pure name
  · cases m.store.get? m.scope name with
    | none => exact throw
    | some v => exact pure v

/-- The step lemma of evaluation, for expressions without calls. -/
theorem eval {t : Tree} (h : WellSorted P .expression t) (ht : Inert t) (fuel : Nat) :
    Still (eval options fuel t) := by
  induction h using WellSorted.expression_induction generalizing fuel with
  | int o w =>
    cases fuel with
    | zero => exact throw
    | succ fuel => exact (pure _).step
  | lookup o x =>
    cases fuel with
    | zero => exact throw
    | succ fuel => exact (lookup _).step
  | binary op o lhs rhs hl hr ihl ihr =>
    cases fuel with
    | zero => exact throw
    | succ fuel =>
      have hinert := (inert_node.mp ht).2
      refine step (bind (ihl (hinert lhs (by simp)) fuel) fun v =>
        bind (ihr (hinert rhs (by simp)) fuel) fun w => ?_)
      cases op.apply v w with
      | ok result => exact pure result
      | error c => exact throw
  | not o t _ ih =>
    cases fuel with
    | zero => exact throw
    | succ fuel =>
      have hinert := (inert_node.mp ht).2
      exact step (bind (ih (hinert t (by simp)) fuel) fun v => pure _)
  | call => exact absurd rfl (inert_node.mp ht).1.1
  | function => exact absurd rfl (inert_node.mp ht).1.2

end Still

end ClosureLang

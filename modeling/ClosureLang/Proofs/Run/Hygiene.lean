import ClosureLang.Proofs.Run.Effects
import ClosureLang.Proofs.Run.Simulation

/-! Scopes are kept by whatever runs in or below them: only declarations add variables, and only to
their own scope. -/
namespace ClosureLang

open ClosureLang.Action Machine ClosureLang.Tree

variable {α β : Type} {x : Action α} {options : Options} {fuel : Nat}

/-- An action that leaves the store as it is if it fails. -/
def Tidy (x : Action α) : Prop := ∀ m, x.stop? m = none ∨ (x.after m).store = m.store

theorem tidy_onStore (f : ScopeId → Store → Except Stop (α × Store)) : Tidy (onStore f) := by
  intro m
  simp only [stop?, after, onStore]
  cases f m.scope m.store with
  | ok r => exact .inl rfl
  | error s => exact .inr rfl

theorem Tidy.store_after_bind {f : α → Action β} (hf : ∀ a, Tidy (f a)) (m : Machine) :
    (x >>= f).stop? m = none ∨ ((x >>= f).after m).store = (x.after m).store := by
  simp only [stop?, after, bind, EStateM.bind]
  cases x m with
  | ok a m' => exact hf a m'
  | error s m' => exact .inr rfl

theorem store_after_locate (options : Options) (node : Tree) (m : Machine) :
    ((locate options node).after m).store = m.store := by
  obtain ⟨events, hstep⟩ := traceStep_eq_ok options "locate" node m
  rw [locate_eq, after_bind, hstep]
  simp only [after, onStore]
  cases hlocate : node.locateAt m.scope m.store with
  | ok r => exact locateAt_eq_ok hlocate
  | error s => rfl

theorem tidy_assign (node : Tree) (v : Value) :
    Tidy (locate options node >>= fun target => onStore (Store.assignAt target v)) := by
  intro m
  rw [← store_after_locate options node m]
  exact Tidy.store_after_bind (fun target => tidy_onStore _) m

/-- A statement that fails by itself, after its value was found, changes nothing: the store is the
one that the evaluation of the value left. -/
def FailsTidily (options : Options) (fuel : Nat) (t : Tree) : Prop :=
  ∀ m, (exec options (fuel + 1) t).stop? m = none ∨
    ∃ n, Alike m n ∧
      ((exec options (fuel + 1) t).after m).store = ((eval options fuel (t.child 1)).after n).store

theorem failsTidily_of_tidy {t : Tree} {f : Value → Action Unit} (hf : ∀ v, Tidy (f v))
    (h : exec options (fuel + 1) t =
      traced options "execute" t (eval options fuel (t.child 1) >>= f)) :
    FailsTidily options fuel t := by
  intro m
  obtain ⟨events, htraced⟩ := traced_eq options "execute" t m
  rw [h, stop?_of_eq_mapEnd (htraced _), after_of_eq_mapEnd (htraced _)]
  obtain hnone | hstore := Tidy.store_after_bind (x := eval options fuel (t.child 1)) hf
    { m with events, level := m.level + 1 }
  · exact .inl hnone
  · exact .inr ⟨{ m with events, level := m.level + 1 }, ⟨rfl, rfl, rfl, rfl, rfl, rfl⟩, hstore⟩

theorem declare_failsTidily (o : Int) (cs : List Tree) :
    FailsTidily options fuel (form .declare o cs) := by
  refine failsTidily_of_tidy (fun v => tidy_onStore (declareAt (form .declare o cs) v)) ?_
  simp only [← declare_eq]
  rfl

theorem assign_failsTidily (o : Int) (cs : List Tree) :
    FailsTidily options fuel (form .assign o cs) :=
  failsTidily_of_tidy (fun v => tidy_assign _ v) rfl

theorem framed_exec {t : Tree} (ht : t.declared = []) (m : Machine) :
    m.store.Framed ((exec options fuel t).after m).store := by
  have hstore := (executed options fuel t m).store
  rw [ht] at hstore
  refine Store.Grows.framed (hstore.mono fun i => ?_)
  simp [Store.only]

/-- Whatever the outcome, the scopes that were there keep their parents and their variables with
their types. Evaluation and branching add no variable to them, execution adds the declared ones to
the current scope alone, and a declaration or an assignment that fails by itself changes nothing. -/
theorem scopes_kept_by_runs (options : Options) (fuel : Nat) :
    (∀ t (m : Machine), m.store.Framed ((eval options fuel t).after m).store) ∧
    (∀ o cs (m : Machine), m.store.Framed ((exec options fuel (form .ifThen o cs)).after m).store ∧
      m.store.Framed ((exec options fuel (form .ifElse o cs)).after m).store ∧
      m.store.Framed ((exec options fuel (form .whileDo o cs)).after m).store) ∧
    (∀ t (m : Machine),
      m.store.Grows (Store.only m.scope t.declared) ((exec options fuel t).after m).store) ∧
    (∀ o cs, FailsTidily options fuel (form .declare o cs) ∧
      FailsTidily options fuel (form .assign o cs)) ∧
    ∀ t (m : Machine),
      m.store.Grows (Store.only Store.root (((options.prepare t).map declared).getD []))
        (runWith fuel options t m).2.store := by
  refine ⟨fun t m => (evaluated options fuel t m).store.framed,
    fun o cs m => ⟨framed_exec rfl m, framed_exec rfl m, framed_exec rfl m⟩,
    fun t m => (executed options fuel t m).store,
    fun o cs => ⟨declare_failsTidily o cs, assign_failsTidily o cs⟩, fun t m => ?_⟩
  cases hprepare : options.prepare t with
  | none =>
    simp only [runWith, hprepare]
    exact .refl _ m.store
  | some t' =>
    obtain ⟨events, heq, -⟩ := runWith_eq options fuel hprepare m
    rw [heq]
    exact (executed options fuel t' m.ready).store

end ClosureLang

import ClosureLang.Proofs.Run.Safety
import ClosureLang.Proofs.Run.Scoping

/-! Whatever a run gets to stands where the machine is: the step from a task to the tasks that it
starts, and the whole run. -/
namespace ClosureLang

open ClosureLang.Action ClosureLang.Tree

namespace Action

variable {α β : Type} {x : Action α} {m m' : Machine} {a : α} {options : Options}

theorem after_of_ok (h : x m = .ok a m') : x.after m = m' := by simp only [after, h]

theorem mapEnd_ok {f : Machine → Machine} {r : EStateM.Result Stop Machine α}
    (h : mapEnd f r = .ok a m') : ∃ m₁, r = .ok a m₁ ∧ m' = f m₁ := by
  cases r with
  | ok b m₁ =>
    cases h
    exact ⟨m₁, rfl, rfl⟩
  | error s m₁ => cases h

theorem traced_ok {what : String} {node : Tree} (h : traced options what node x m = .ok a m') :
    ∃ m₁, x (m.within options what node) = .ok a m₁ ∧ m' = { m₁ with level := m₁.level - 1 } :=
  mapEnd_ok (traced_eq_within .. ▸ h)

theorem inScope_ok (h : inScope x m = .ok a m') :
    ∃ m₁, x m.inBlock = .ok a m₁ ∧ m' = { m₁ with scope := m.scope } :=
  mapEnd_ok (inScope_eq .. ▸ h)

theorem onStore_ok {f : ScopeId → Store → Except Stop (α × Store)} (h : onStore f m = .ok a m') :
    ∃ store, f m.scope m.store = .ok (a, store) ∧ m' = { m with store } := by
  simp only [onStore] at h
  cases hf : f m.scope m.store with
  | ok r =>
    rw [hf] at h
    cases h
    exact ⟨r.2, rfl, rfl⟩
  | error s =>
    rw [hf] at h
    cases h

theorem checkCall_ok {node : Tree} {c : Closure} {args : List Value} {u : Unit}
    (h : checkCall options node c args m = .ok u m') : m' = m := by
  unfold checkCall at h
  split at h
  · cases h
  · change (if 0 < options.maxDepth ∧ options.maxDepth ≤ m.depth then raise .stackOverflow node
      else pure () : Action Unit) m = .ok u m' at h
    split at h
    · cases h
    · cases h
      rfl

/-- A call leaves the store that its body leaves. -/
theorem enterCall_ok {id : ClosureId} {c : Closure} {args : List Value} {g : Tree → Action Unit}
    {v : Value} (h : enterCall options id c args g m = .ok v m') :
    ∃ m₁, g c.body (m.calling options id c args) = .ok () m₁ ∧ m'.store = m₁.store := by
  obtain ⟨finish, hobserved⟩ := observed_eq_entered options id c
    (inCall (m.store.enter c args).1 (m.store.enter c args).2 (g c.body)) m
  obtain ⟨m₂, hcall, rfl⟩ := mapEnd_ok (hobserved ▸ enterCall_eq id c args g m ▸ h)
  obtain ⟨m₁, hbody, -, rfl⟩ := inCall_ok hcall
  exact ⟨m₁, hbody, rfl⟩

theorem locate_ok {node : Tree} {target : ScopeId × String}
    (h : locate options node m = .ok target m') : Alike m m' := by
  rw [locate_eq] at h
  obtain ⟨_, m₁, hstep, hlocate⟩ := bind_ok.mp h
  obtain ⟨store, hstore, rfl⟩ := onStore_ok hlocate
  obtain rfl := locateAt_eq_ok hstore
  exact traceStep_ok hstep

end Action

theorem evaluated_of_ok {options : Options} {fuel : Nat} {t : Tree} {m m' : Machine} {v : Value}
    (h : eval options fuel t m = .ok v m') : m.Evaluated m' := by
  have hm := evaluated options fuel t m
  rwa [after_of_ok h] at hm

theorem executed_of_ok {options : Options} {fuel : Nat} {t : Tree} {m m' : Machine} {u : Unit}
    (h : exec options fuel t m = .ok u m') : m.Executed t.declared m' := by
  have hm := executed options fuel t m
  rwa [after_of_ok h] at hm

/-- A function node makes a closure just if its parameters are distinct. -/
theorem Closure.ofNode?_cases {fn : Tree} {e : ScopeId} {r : Except Condition Closure}
    (h : ofNode? fn e = some r) :
    ∃ names, fn.paramNames? = some names ∧ ((¬ names.Nodup ∧ r = .error .duplicateParameter) ∨
      ∃ f, r = .ok f ∧ names.Nodup ∧ f.params = names ∧ f.body = fn.child 1 ∧ f.scope = e) := by
  simp only [ofNode?, Option.bind_eq_bind, Option.bind_eq_some_iff] at h
  obtain ⟨names, hnames, h⟩ := h
  obtain ⟨signature, h⟩ : ∃ signature, (if names.Nodup then
      some (.ok { params := names, body := fn.child 1, scope := e, signature, node := fn })
      else some (.error .duplicateParameter)) = some r := by
    split at h
    · exact ⟨none, h⟩
    · obtain ⟨signature, -, h⟩ := Option.bind_eq_some_iff.mp h
      exact ⟨signature, h⟩
  refine ⟨names, hnames, ?_⟩
  split at h
  · rename_i hnodup
    cases h
    exact .inr ⟨_, rfl, hnodup, rfl, rfl, rfl⟩
  · rename_i hnodup
    cases h
    exact .inl ⟨hnodup, rfl⟩

/-! Declarations that were executed bind their names. -/

section Declarations

variable {options : Options} {m m' : Machine} {x : String}

theorem binds_of_declareAt {node : Tree} {v : Value} {u : Unit}
    (h : onStore (node.declareAt v) m = .ok u m') (hm : m.scope < m.store.scopes.size)
    (hx : x ∈ (node.child 0).name?.toList) : m'.store.Binds m.scope x := by
  obtain ⟨store, hstore, rfl⟩ := onStore_ok h
  obtain ⟨y, type, s₁, hy, hdefine, hnamed⟩ := declareAt_eq_ok hstore
  rw [hy, Option.toList_some, List.mem_singleton] at hx
  have hbinds : s₁.Binds m.scope y := Store.binds_define hdefine hm
  subst hx
  obtain rfl | ⟨id, rfl⟩ := hnamed
  · exact hbinds
  · exact (Store.binds_congr rfl).mpr hbinds

/-- The declarations in a statement that is executed well are made, unless a return is on its
way. -/
def Declares (g : Tree → Action Unit) : Prop :=
  ∀ t m m', g t m = .ok () m' → m.scope < m.store.scopes.size → m'.returning = false →
    ∀ x ∈ t.declared, m'.store.Binds m.scope x

theorem declares_execAll {g : Tree → Action Unit} (hg : Declares g)
    (hleads : ∀ t, Leads (Machine.Executed t.declared) (g t)) :
    ∀ ts m m', execAll g ts m = .ok () m' → m.scope < m.store.scopes.size → m'.returning = false →
      ∀ x ∈ declaredAll ts, m'.store.Binds m.scope x := by
  intro ts
  induction ts with
  | nil => exact fun _ _ _ _ _ _ hx => nomatch hx
  | cons t ts ih =>
    intro m m' h hm hreturning x hx
    change (if m.returning then pure () else g t >>= fun _ => execAll g ts : Action Unit) m = _ at h
    split at h
    · rename_i hm'
      cases h
      rw [hreturning] at hm'
      contradiction
    · obtain ⟨u, m₁, ht, hts⟩ := bind_ok.mp h
      have hfirst := hleads t m
      rw [after_of_ok ht] at hfirst
      have hrest : m₁.Executed (declaredAll ts) m' := by
        have hall : Leads (Machine.Executed (declaredAll ts)) (execAll g ts) :=
          .execAll fun c hc => (hleads c).widen (declared_subset hc)
        have hm := hall m₁
        rwa [after_of_ok hts] at hm
      have hm₁ : m₁.scope < m₁.store.scopes.size := by
        rw [hfirst.scope]
        exact Nat.lt_of_lt_of_le hm hfirst.store.size_le
      have hrunning : m₁.returning = false := by
        by_contra hne
        rw [hrest.returning (by simpa using hne)] at hreturning
        contradiction
      rcases List.mem_append.mp hx with hx | hx
      · exact hrest.store.binds (hg t m m₁ ht hm hrunning x hx)
      · exact hfirst.scope ▸ ih m₁ m' hts hm₁ hreturning x hx

theorem declares_exec (options : Options) (fuel : Nat) : Declares (exec options fuel) := by
  induction fuel with
  | zero => exact fun _ _ _ h => nomatch h
  | succ fuel ih =>
    intro t m m' h hm hreturning x hx
    obtain ⟨y, hy, heq⟩ := exec_succ options fuel t
    rw [heq] at h
    obtain ⟨m₁, hstep, rfl⟩ := traced_ok h
    cases hy with
    | @sequence o cs =>
      have hall :=
        declares_execAll ih (leads options fuel).2.1 cs _ m₁ hstep (by simpa using hm) hreturning
      simpa using hall x hx
    | declare =>
      obtain ⟨v, m₂, hv, hdeclare⟩ := bind_ok.mp hstep
      have hevaluated := evaluated_of_ok hv
      have hscope : m₂.scope = m.scope := by rw [hevaluated.scope, Machine.within_scope]
      have hm₂ : m₂.scope < m₂.store.scopes.size := by
        have := hevaluated.store.size_le
        rw [Machine.within_store] at this
        rw [hscope]
        exact Nat.lt_of_lt_of_le hm this
      have hbinds := binds_of_declareAt hdeclare hm₂ hx
      rwa [hscope] at hbinds
    | @expression l o cs _ hl =>
      cases l with
      | form f => cases f <;> first | cases hx | cases hl
      | _ => cases hx
    | @fragment l o cs hl =>
      cases l with
      | form f => cases f <;> first | cases hx | cases hl
      | _ => cases hx
    | _ => cases hx

end Declarations

namespace Task

/-- The machine that a task starts on. -/
def machine : Task → Machine
  | eval _ _ m | exec _ _ m | evalAll _ _ m | execAll _ _ m | loop _ _ _ m | locate _ m => m

/-- The machine that an action ends on if it ends well. -/
def endOf {α : Type} (x : Action α) (m : Machine) : Option Machine :=
  match x m with
  | .ok _ m' => some m'
  | .error _ _ => none

/-- The machine that a task ends on if it ends well. -/
def end? (options : Options) : Task → Option Machine
  | eval fuel t m => endOf (ClosureLang.eval options fuel t) m
  | exec fuel t m => endOf (ClosureLang.exec options fuel t) m
  | evalAll fuel ts m => endOf (ClosureLang.evalAll (ClosureLang.eval options fuel) ts) m
  | execAll fuel ts m => endOf (ClosureLang.execAll (ClosureLang.exec options fuel) ts) m
  | loop fuel cond body m => endOf (ClosureLang.loop options fuel cond body) m
  | locate t m => endOf (Action.locate options t) m

/-- What a task is about stands where the machine is. -/
def Placed (P : Context → Tree → Prop) (φ : Finals) : Task → Prop
  | eval _ t m => ∃ c, m.Scoped P φ c ∧ InPlace .expression t ∧ Sited P c t
  | exec _ t m => ∃ c role, m.Scoped P φ c ∧ InPlace role t ∧ Sited P c t ∧ t.declared ⊆ c.final
  | evalAll _ ts m => ∃ c, m.Scoped P φ c ∧ ∀ t ∈ ts, InPlace .expression t ∧ Sited P c t
  | execAll _ ts m => ∃ c, m.Scoped P φ c ∧ (∀ t ∈ ts, InPlace .statement t) ∧ SitedInOrder P c ts ∧
      declaredAll ts ⊆ c.final
  | loop _ cond body m => ∃ c, m.Scoped P φ c ∧ InPlace .expression cond ∧ InPlace .block body ∧
      Sited P c cond ∧ Sited P (c.block body) body
  | locate t m => ∃ c, m.Scoped P φ c ∧ Sited P c t

/-- A task leaves a typed store. -/
def Keeps (options : Options) (P : Context → Tree → Prop) (φ : Finals) (τ : Task) : Prop :=
  ∀ m', τ.end? options = some m' → ∃ φ', τ.machine.store.Agrees φ φ' ∧ m'.store.Typed P φ'

/-- Whatever a placed task starts leaves a typed store, if it is placed itself. -/
def StartedKeep (options : Options) (P : Context → Tree → Prop) (τ : Task) : Prop :=
  ∀ τ', Starts options τ τ' → ∀ φ, Placed P φ τ' → Keeps options P φ τ'

theorem end?_of_ok {α : Type} {x : Action α} {m m' : Machine} {a : α} (h : x m = .ok a m') :
    endOf x m = some m' := by simp only [endOf, h]

variable {options : Options} {P : Context → Tree → Prop} {φ φ' : Finals} {c : Context} {fuel : Nat}
  {t : Tree} {ts : List Tree} {m m₁ : Machine}

/-- The machine behind an expression is where the machine before it was. -/
theorem scoped_of_evaluated (hkeeps : ∃ φ', m.store.Agrees φ φ' ∧ m₁.store.Typed P φ')
    (hm : m.Scoped P φ c) (hm₁ : m.Evaluated m₁) :
    ∃ φ', m.store.Agrees φ φ' ∧ m₁.Scoped P φ' c := by
  obtain ⟨φ', hφ, htyped⟩ := hkeeps
  exact ⟨φ', hφ, htyped, hm.here.evaluated hm.typed.older htyped.older hm₁ hφ⟩

theorem scoped_of_eval {v : Value} (hkeeps : Keeps options P φ (eval fuel t m))
    (hm : m.Scoped P φ c) (h : ClosureLang.eval options fuel t m = .ok v m₁) :
    ∃ φ', m.store.Agrees φ φ' ∧ m₁.Scoped P φ' c :=
  scoped_of_evaluated (hkeeps m₁ (end?_of_ok h)) hm (evaluated_of_ok h)

theorem grows_of_evalAll {vs : List Value}
    (h : ClosureLang.evalAll (ClosureLang.eval options fuel) ts m = .ok vs m₁) :
    m.store.Grows (fun _ => []) m₁.store := by
  have hevaluated := Leads.evalAll (evaluated options fuel) ts m
  rw [after_of_ok h] at hevaluated
  exact hevaluated.store

/-- The first part of a node is evaluated on the store that the node starts with. -/
theorem grows_of_part {what : String} {node : Tree} {v : Value}
    (h : ClosureLang.eval options fuel t (m.within options what node) = .ok v m₁) :
    m.store.Grows (fun _ => []) m₁.store := by
  have hgrows := (evaluated_of_ok h).store
  rwa [Machine.within_store] at hgrows

theorem scoped_of_evalAll {vs : List Value} (hkeeps : Keeps options P φ (evalAll fuel ts m))
    (hm : m.Scoped P φ c)
    (h : ClosureLang.evalAll (ClosureLang.eval options fuel) ts m = .ok vs m₁) :
    ∃ φ', m.store.Agrees φ φ' ∧ m₁.Scoped P φ' c := by
  refine scoped_of_evaluated (hkeeps m₁ (end?_of_ok h)) hm ?_
  have hevaluated := Leads.evalAll (evaluated options fuel) ts m
  rwa [after_of_ok h] at hevaluated

/-- The machine behind a statement is where the next statement stands. -/
theorem scoped_of_exec {u : Unit} (hkeeps : Keeps options P φ (exec fuel t m)) (hm : m.Scoped P φ c)
    (h : ClosureLang.exec options fuel t m = .ok u m₁) :
    ∃ φ', m.store.Agrees φ φ' ∧ m₁.Scoped P φ' (c.declare t.declared) := by
  obtain ⟨φ', hφ, htyped⟩ := hkeeps m₁ (end?_of_ok h)
  have hexecuted := executed_of_ok h
  refine ⟨φ', hφ, htyped, hm.here.executed hm.typed.older htyped.older hexecuted hφ fun ho => ?_⟩
  have hrunning : m₁.returning = false := by
    rw [(hexecuted.outside (hm.here.outside.mp ho)).1]
    exact hm.here.running ho
  exact declares_exec options fuel t m m₁ h hm.here.scope hrunning

/-- The machine behind a block is where the machine before it was. -/
theorem scoped_of_block {u : Unit}
    (hkeeps : Keeps options P (φ.extend m.store.scopes.size t.declared) (exec fuel t m.inBlock))
    (hm : m.Scoped P φ c) (h : inScope (ClosureLang.exec options fuel t) m = .ok u m₁) :
    ∃ φ', m.store.Agrees φ φ' ∧ m₁.Scoped P φ' c := by
  obtain ⟨m₂, hbody, rfl⟩ := inScope_ok h
  obtain ⟨φ', hφ, htyped⟩ := hkeeps m₂ (end?_of_ok hbody)
  have hgrows : m.store.Grows (fun _ => []) m.inBlock.store := .newScope m.scope
  have hagrees : m.store.Agrees φ φ' := (m.store.agrees_extend φ t.declared).trans hgrows hφ
  have hexecuted : m.Executed [] { m₂ with scope := m.scope } := by
    have hblock := Leads.inScope (executed options fuel t) m
    rwa [after_of_ok h] at hblock
  have hdeclare : c.declare [] = c := by
    obtain ⟨f, fs, es, hframes, -⟩ := hm.here.innermost hm.typed.older
    obtain ⟨frames, outside⟩ := c
    cases hframes
    simp only [Context.declare, List.append_nil]
  have hhere : Machine.At φ' (c.declare []) { m₂ with scope := m.scope } :=
    hm.here.executed hm.typed.older htyped.older hexecuted hagrees fun _ _ hx =>
      absurd hx List.not_mem_nil
  exact ⟨φ', hagrees, htyped, hdeclare ▸ hhere⟩

/-! The parts of a node that stand where it does. -/

theorem placed_operand {u : Tree} (hu : t.operand? = some u) (ht : InPlace .expression t)
    (hsited : Sited P c t) : InPlace .expression u ∧ Sited P c u := by
  cases ht with
  | @binary op o lhs rhs hl hr =>
    obtain rfl : lhs = u := Option.some.inj hu
    exact ⟨hl, hsited.expression (by simp) nofun nofun hl⟩
  | @not o e he =>
    obtain rfl : e = u := Option.some.inj hu
    exact ⟨he, hsited.expression (by simp) nofun nofun he⟩
  | @call o o' callee args hc hargs =>
    obtain rfl : callee = u := Option.some.inj hu
    exact ⟨hc, hsited.expression (by simp) nofun nofun hc⟩
  | _ => cases hu

theorem placed_subject {role : Role} {u : Tree} (hu : t.subject? = some u) (ht : InPlace role t)
    (hsited : Sited P c t) : InPlace .expression u ∧ Sited P c u := by
  cases ht with
  | @declare o x value type hx he =>
    obtain rfl : value = u := Option.some.inj hu
    exact ⟨he, hsited.expression (by simp) nofun nofun he⟩
  | @assign o o' x value hx he =>
    obtain rfl : value = u := Option.some.inj hu
    exact ⟨he, hsited.expression (by simp) nofun nofun he⟩
  | @print o e he =>
    obtain rfl : e = u := Option.some.inj hu
    exact ⟨he, hsited.expression (by simp) nofun nofun he⟩
  | @ifThen o cond body hc =>
    obtain rfl : cond = u := Option.some.inj hu
    exact ⟨hc, hsited.expression (by simp) nofun nofun hc⟩
  | @ifElse o cond body alternative hc =>
    obtain rfl : cond = u := Option.some.inj hu
    exact ⟨hc, hsited.expression (by simp) nofun nofun hc⟩
  | expression he => cases he <;> cases hu
  | _ => cases hu

theorem inPlace_expression {role : Role} {l : Label} {o : Int} {cs : List Tree}
    (h : InPlace role (.node l o cs)) (hl : l.kind.isStatement = false) :
    InPlace .expression (.node l o cs) := by
  have hpart : (Tree.node l o cs).IsPart (fun _ => True) role := ⟨h, fun _ _ => trivial⟩
  exact (hpart.expression hl).inPlace

theorem scoped_of_operand {n : Nat} {u : Tree} {v : Value}
    (hkeep : StartedKeep options P (eval (n + 1) t m)) (hm : m.Scoped P φ c)
    (ht : InPlace .expression t) (hsited : Sited P c t) (hu : t.operand? = some u)
    (h : ClosureLang.eval options n u (m.within options "evaluate" t) = .ok v m₁) :
    ∃ φ', m.store.Agrees φ φ' ∧ m₁.Scoped P φ' c := by
  obtain ⟨hplace, hsited'⟩ := placed_operand hu ht hsited
  obtain ⟨φ', hφ, hm₁⟩ :=
    scoped_of_eval (hkeep _ (.operand hu) φ ⟨c, hm.within, hplace, hsited'⟩) hm.within h
  exact ⟨φ', by simpa using hφ, hm₁⟩

theorem scoped_of_subject {n : Nat} {role : Role} {u : Tree} {v : Value}
    (hkeep : StartedKeep options P (exec (n + 1) t m)) (hm : m.Scoped P φ c) (ht : InPlace role t)
    (hsited : Sited P c t) (hu : t.subject? = some u)
    (h : ClosureLang.eval options n u (m.within options "execute" t) = .ok v m₁) :
    ∃ φ', m.store.Agrees φ φ' ∧ m₁.Scoped P φ' c := by
  obtain ⟨hplace, hsited'⟩ := placed_subject hu ht hsited
  obtain ⟨φ', hφ, hm₁⟩ :=
    scoped_of_eval (hkeep _ (.subject hu) φ ⟨c, hm.within, hplace, hsited'⟩) hm.within h
  exact ⟨φ', by simpa using hφ, hm₁⟩

theorem placed_block {n : Nat} (hm : m.Scoped P φ c) (ht : InPlace .block t)
    (hsited : Sited P (c.block t) t) :
    Placed P (φ.extend m.store.scopes.size t.declared) (exec n t m.inBlock) :=
  ⟨c.block t, .block, hm.inBlock t, ht, hsited, List.Subset.refl _⟩

theorem onStore_calleeAt_ok {node : Tree} {v : Value} {callee : ClosureId × Closure}
    (h : onStore (node.calleeAt v) m = .ok callee m₁) :
    m₁ = m ∧ m.store.closure? callee.1 = some callee.2 := by
  obtain ⟨store, hstore, rfl⟩ := onStore_ok h
  obtain ⟨rfl, hclosure⟩ := calleeAt_eq_ok hstore
  exact ⟨rfl, hclosure⟩

/-- The body of a function that is called stands where the call leads. -/
theorem placed_body {n : Nat} {id : ClosureId} {f : Closure} (hm : m.store.Typed P φ)
    (hid : m.store.closure? id = some f) (hφ : m.store.Agrees φ φ') (hm₁ : m₁.store.Typed P φ')
    (hgrows : m.store.Grows (fun _ => []) m₁.store) (args : List Value) :
    ∃ φ'', m₁.store.Agrees φ' φ'' ∧
      Placed P φ'' (exec n f.body (m₁.calling options id f args)) := by
  have hscope := hm.scopes id f hid
  obtain ⟨hplace, hsited⟩ := hm.bodies id f hid
  have hcontext := Store.context_congr hgrows hm.older hm₁.older hφ hscope
  have hcalling :=
    Machine.Scoped.calling options id hm₁ (Nat.lt_of_lt_of_le hscope hgrows.size_le) args
  exact ⟨_, m₁.store.agrees_extend φ' _, f.context φ' m₁.store, .block, hcalling, hplace,
    hcontext ▸ hsited, List.subset_append_right ..⟩

/-- The step lemma: what a placed task starts is placed. -/
theorem placed_of_starts {τ τ' : Task} (hkeep : StartedKeep options P τ) (hτ : Placed P φ τ)
    (h : Starts options τ τ') : ∃ φ', τ.machine.store.Agrees φ φ' ∧ Placed P φ' τ' := by
  cases h with
  | operand hu =>
    obtain ⟨c, hm, hplace, hsited⟩ := hτ
    obtain ⟨hplace', hsited'⟩ := placed_operand hu hplace hsited
    exact ⟨φ, .refl _ φ, c, hm.within, hplace', hsited'⟩
  | right hv =>
    obtain ⟨c, hm, hplace, hsited⟩ := hτ
    obtain ⟨φ₁, hφ, hm₁⟩ := scoped_of_operand hkeep hm hplace hsited rfl hv
    cases hplace with
    | binary hl hr =>
      exact ⟨φ₁, hφ, c, hm₁, hr, hsited.expression (by simp [child]) (by simp) (by simp) hr⟩
  | arguments hv hcallee =>
    obtain ⟨c, hm, hplace, hsited⟩ := hτ
    obtain ⟨φ₁, hφ, hm₁⟩ := scoped_of_operand hkeep hm hplace hsited rfl hv
    obtain ⟨rfl, -⟩ := onStore_calleeAt_ok hcallee
    cases hplace with
    | @call o o' callee args hc hargs =>
      have harguments : Sited P c (form .arguments o' args) :=
        hsited.part (by simp) (by simp) (by simp) rfl
      exact ⟨φ₁, hφ, c, hm₁, fun t ht =>
        ⟨hargs t ht, harguments.expression ht (by simp) (by simp) (hargs t ht)⟩⟩
  | @body n o cs m v m₁ f m₂ vs m₃ m₄ hv hcallee hargs hcheck =>
    obtain ⟨c, hm, hplace, hsited⟩ := hτ
    obtain ⟨φ₁, hφ, hm₁⟩ := scoped_of_operand hkeep hm hplace hsited rfl hv
    obtain ⟨rfl, hclosure⟩ := onStore_calleeAt_ok hcallee
    obtain rfl := checkCall_ok hcheck
    cases hplace with
    | @call o o' callee args hc hall =>
      have harguments : Sited P c (form .arguments o' args) :=
        hsited.part (by simp) (by simp) (by simp) rfl
      have hplaced : Placed P φ₁ (evalAll n args m₂) := ⟨c, hm₁, fun t ht =>
        ⟨hall t ht, harguments.expression ht (by simp) (by simp) (hall t ht)⟩⟩
      obtain ⟨φ₂, hφ₂, hm₃⟩ :=
        scoped_of_evalAll (hkeep _ (.arguments hv hcallee rfl) φ₁ hplaced) hm₁ hargs
      have hgrows := grows_of_evalAll hargs
      obtain ⟨φ₃, hφ₃, hbody⟩ := placed_body hm₁.typed hclosure hφ₂ hm₃.typed hgrows _
      exact ⟨φ₃,
        (hφ.trans (grows_of_part hv) hφ₂).trans ((grows_of_part hv).trans hgrows) hφ₃, hbody⟩
  | subject hu =>
    obtain ⟨c, role, hm, hplace, hsited, -⟩ := hτ
    obtain ⟨hplace', hsited'⟩ := placed_subject hu hplace hsited
    exact ⟨φ, .refl _ φ, c, hm.within, hplace', hsited'⟩
  | expression _ hstatement =>
    obtain ⟨c, role, hm, hplace, hsited, -⟩ := hτ
    exact ⟨φ, .refl _ φ, c, hm.within, inPlace_expression hplace hstatement, hsited⟩
  | statements =>
    obtain ⟨c, role, hm, hplace, hsited, hfinal⟩ := hτ
    cases hplace with
    | block hts => exact ⟨φ, .refl _ φ, c, hm.within, hts, (sited_sequence.mp hsited).2, hfinal⟩
    | expression he => cases he
  | target hv =>
    obtain ⟨c, role, hm, hplace, hsited, -⟩ := hτ
    obtain ⟨φ₁, hφ, hm₁⟩ := scoped_of_subject hkeep hm hplace hsited rfl hv
    cases hplace with
    | assign => exact ⟨φ₁, hφ, c, hm₁, hsited.part (by simp [child]) (by simp) (by simp) rfl⟩
    | expression he => cases he
  | branch hv htruthy =>
    obtain ⟨c, role, hm, hplace, hsited, -⟩ := hτ
    obtain ⟨φ₁, hφ, hm₁⟩ := scoped_of_subject hkeep hm hplace hsited rfl hv
    cases hplace with
    | ifThen _ hb =>
      exact ⟨_, hφ.trans (grows_of_part hv) (Store.agrees_extend _ _ _),
        placed_block hm₁ hb (hsited.block (by simp [child]) (by simp) (by simp) hb)⟩
    | expression he => cases he
  | @alternative n o cs m v m₁ hv =>
    obtain ⟨c, role, hm, hplace, hsited, -⟩ := hτ
    obtain ⟨φ₁, hφ, hm₁⟩ := scoped_of_subject hkeep hm hplace hsited rfl hv
    cases hplace with
    | @ifElse _ cond body alternative _ hb ha =>
      by_cases htruthy : v.truthy = true
      · rw [if_pos htruthy]
        exact ⟨_, hφ.trans (grows_of_part hv) (Store.agrees_extend _ _ _),
          placed_block hm₁ hb (hsited.block (by simp [child]) (by simp) (by simp) hb)⟩
      · rw [if_neg htruthy]
        exact ⟨_, hφ.trans (grows_of_part hv) (Store.agrees_extend _ _ _),
          placed_block hm₁ ha (hsited.block (by simp [child]) (by simp) (by simp) ha)⟩
    | expression he => cases he
  | repetition =>
    obtain ⟨c, role, hm, hplace, hsited, -⟩ := hτ
    cases hplace with
    | whileDo hc hb =>
      exact ⟨φ, .refl _ φ, c, hm.within, hc, hb,
        hsited.expression (by simp [child]) (by simp) (by simp) hc,
        hsited.block (by simp [child]) (by simp) (by simp) hb⟩
    | expression he => cases he
  | result =>
    obtain ⟨c, role, hm, hplace, hsited, -⟩ := hτ
    cases hplace with
    | ret he =>
      exact ⟨φ, .refl _ φ, c, hm.within, he,
        hsited.expression (by simp [child]) (by simp) (by simp) he⟩
    | expression he => cases he
  | condition =>
    obtain ⟨c, hm, hc, hb, hsc, hsb⟩ := hτ
    exact ⟨φ, .refl _ φ, c, hm, hc, hsc⟩
  | iteration hreturning hv =>
    obtain ⟨c, hm, hc, hb, hsc, hsb⟩ := hτ
    obtain ⟨φ₁, hφ, hm₁⟩ :=
      scoped_of_eval (hkeep _ (.condition hreturning) φ ⟨c, hm, hc, hsc⟩) hm hv
    exact ⟨_, hφ.trans (evaluated_of_ok hv).store (Store.agrees_extend _ _ _),
      placed_block hm₁ hb hsb⟩
  | again hreturning hv htruthy hbody =>
    obtain ⟨c, hm, hc, hb, hsc, hsb⟩ := hτ
    obtain ⟨φ₁, hφ, hm₁⟩ :=
      scoped_of_eval (hkeep _ (.condition hreturning) φ ⟨c, hm, hc, hsc⟩) hm hv
    obtain ⟨φ₂, hφ₂, hm₂⟩ :=
      scoped_of_block
        (hkeep _ (.iteration hreturning hv htruthy) _ (placed_block hm₁ hb hsb)) hm₁ hbody
    exact ⟨φ₂, hφ.trans (evaluated_of_ok hv).store hφ₂, c, hm₂, hc, hb, hsc, hsb⟩
  | argument =>
    obtain ⟨c, hm, hts⟩ := hτ
    exact ⟨φ, .refl _ φ, c, hm, (List.forall_mem_cons.mp hts).1⟩
  | laterArguments hv =>
    obtain ⟨c, hm, hts⟩ := hτ
    rw [List.forall_mem_cons] at hts
    obtain ⟨φ₁, hφ, hm₁⟩ := scoped_of_eval (hkeep _ .argument φ ⟨c, hm, hts.1⟩) hm hv
    exact ⟨φ₁, hφ, c, hm₁, hts.2⟩
  | statement hreturning =>
    obtain ⟨c, hm, hts, hsited, hfinal⟩ := hτ
    rw [List.forall_mem_cons] at hts
    exact ⟨φ, .refl _ φ, c, .statement, hm, hts.1, (sitedInOrder_cons.mp hsited).1,
      List.Subset.trans (List.subset_append_left ..) hfinal⟩
  | @laterStatements n t ts m m₁ hreturning ht =>
    obtain ⟨c, hm, hts, hsited, hfinal⟩ := hτ
    rw [List.forall_mem_cons] at hts
    rw [sitedInOrder_cons] at hsited
    have hfirst : Placed P φ (exec n t m) := ⟨c, .statement, hm, hts.1, hsited.1,
      List.Subset.trans (List.subset_append_left ..) hfinal⟩
    obtain ⟨φ₁, hφ, hm₁⟩ := scoped_of_exec (hkeep _ (.statement hreturning) φ hfirst) hm ht
    refine ⟨φ₁, hφ, _, hm₁, hts.2, hsited.2, ?_⟩
    rw [Context.final_declare]
    exact List.Subset.trans (List.subset_append_right ..) hfinal

theorem exists_of_end? {α : Type} {x : Action α} {m m' : Machine} (h : endOf x m = some m') :
    ∃ a, x m = .ok a m' := by
  simp only [endOf] at h
  cases hx : x m with
  | ok a m₁ =>
    rw [hx] at h
    cases h
    exact ⟨a, rfl⟩
  | error s m₁ =>
    rw [hx] at h
    cases h

/-- Scopes that are there when a task starts another one are there then. -/
theorem grows_of_starts {τ τ' : Task} (h : Starts options τ τ') :
    ∃ names, τ.machine.store.Grows names τ'.machine.store := by
  have hwithin : ∀ {what node} {m : Machine},
      m.store.Grows (fun _ => []) (m.within options what node).store := by
    intro what node m
    rw [Machine.within_store]
    exact .refl _ _
  cases h with
  | operand => exact ⟨_, hwithin⟩
  | right hv => exact ⟨_, grows_of_part hv⟩
  | arguments hv hcallee =>
    obtain ⟨rfl, -⟩ := onStore_calleeAt_ok hcallee
    exact ⟨_, grows_of_part hv⟩
  | @body n o cs m v m₁ f m₂ vs m₃ m₄ hv hcallee hargs hcheck =>
    obtain ⟨rfl, -⟩ := onStore_calleeAt_ok hcallee
    obtain rfl := checkCall_ok hcheck
    have harguments := (Leads.evalArguments (evaluated options n) (form .call o cs)) m₂
    rw [after_of_ok hargs] at harguments
    exact ⟨_, ((grows_of_part hv).trans harguments.store).trans (.enter f.2 vs)⟩
  | subject => exact ⟨_, hwithin⟩
  | expression => exact ⟨_, hwithin⟩
  | statements => exact ⟨_, hwithin⟩
  | target hv => exact ⟨_, grows_of_part hv⟩
  | branch hv => exact ⟨_, (grows_of_part hv).trans (.newScope _)⟩
  | alternative hv => exact ⟨_, (grows_of_part hv).trans (.newScope _)⟩
  | repetition => exact ⟨_, hwithin⟩
  | result => exact ⟨_, hwithin⟩
  | condition => exact ⟨fun _ => [], .refl _ _⟩
  | iteration _ hv => exact ⟨_, (evaluated_of_ok hv).store.trans (.newScope _)⟩
  | @again n cond body m v m₁ m₂ _ hv _ hbody =>
    have hblock := Leads.inScope (executed options n body) m₁
    rw [after_of_ok hbody] at hblock
    have hgrows : m₁.store.Grows (fun _ => []) m₂.store := by
      refine hblock.store.mono fun i => ?_
      simp [Store.only]
    exact ⟨_, (evaluated_of_ok hv).store.trans hgrows⟩
  | argument => exact ⟨fun _ => [], .refl _ _⟩
  | laterArguments hv => exact ⟨_, (evaluated_of_ok hv).store⟩
  | statement => exact ⟨fun _ => [], .refl _ _⟩
  | laterStatements _ ht => exact ⟨_, (executed_of_ok ht).store⟩

/-- A task that is started leaves a typed store. -/
theorem typed_of_started {τ τ' : Task} (hkeep : StartedKeep options P τ) (hτ : Placed P φ τ)
    (h : Starts options τ τ') (hend : τ'.end? options = some m₁) :
    ∃ φ', τ.machine.store.Agrees φ φ' ∧ m₁.store.Typed P φ' := by
  obtain ⟨names, hgrows⟩ := grows_of_starts h
  obtain ⟨φ₁, hφ, hplaced⟩ := placed_of_starts hkeep hτ h
  obtain ⟨φ₂, hφ₂, htyped⟩ := hkeep τ' h φ₁ hplaced m₁ hend
  exact ⟨φ₂, hφ.trans hgrows hφ₂, htyped⟩

theorem keeps_eval {n : Nat} (hkeep : StartedKeep options P (eval (n + 1) t m))
    (hτ : Placed P φ (eval (n + 1) t m)) : Keeps options P φ (eval (n + 1) t m) := by
  intro m' hend
  obtain ⟨u, hu⟩ := exists_of_end? hend
  obtain ⟨x, hx, heq⟩ := eval_succ options n t
  rw [heq] at hu
  obtain ⟨m₁, hstep, rfl⟩ := traced_ok hu
  have hscoped := hτ
  obtain ⟨c, hm, hplace, hsited⟩ := hscoped
  have hwithin : (m.within options "evaluate" t).store.Typed P φ := hm.within.typed
  show ∃ φ', m.store.Agrees φ φ' ∧ m₁.store.Typed P φ'
  cases hx with
  | absent => cases hstep
  | other => cases hstep
  | integer =>
    cases hstep
    exact ⟨φ, .refl _ φ, hwithin⟩
  | lookup =>
    obtain ⟨store, hstore, rfl⟩ := onStore_ok hstep
    obtain ⟨rfl, -⟩ := lookupAt_eq_ok hstore
    exact ⟨φ, .refl _ φ, hwithin⟩
  | binary =>
    obtain ⟨v, m₂, hv, hrest⟩ := bind_ok.mp hstep
    obtain ⟨w, m₃, hw, hoperate⟩ := bind_ok.mp hrest
    obtain ⟨store, hstore, rfl⟩ := onStore_ok hoperate
    obtain ⟨rfl, -⟩ := operateAt_eq_ok hstore
    exact typed_of_started hkeep hτ (.right hv) (end?_of_ok hw)
  | not =>
    obtain ⟨v, m₂, hv, hrest⟩ := bind_ok.mp hstep
    cases hrest
    exact typed_of_started hkeep hτ (.operand rfl) (end?_of_ok hv)
  | function =>
    obtain ⟨store, hstore, rfl⟩ := onStore_ok hstep
    obtain ⟨f, hf, -, rfl⟩ := closureAt_eq_ok hstore
    obtain ⟨names, hnames, ⟨-, hr⟩ | ⟨f', hr, -, rfl, hbody, hscope⟩⟩ := Closure.ofNode?_cases hf
    · cases hr
    obtain rfl : f = f' := Except.ok.inj hr
    cases hplace with
    | @function o o' params body sig _ hblock _ =>
      obtain rfl : body = f.body := hbody.symm
      have hcontext := hm.within.here.context_function hscope
      refine ⟨φ, .refl _ φ, hwithin.newClosure ?_ hblock ?_⟩
      · rw [hscope]
        exact hm.within.here.scope
      · rw [hcontext]
        exact hsited.body hnames (by simp)
  | call =>
    obtain ⟨v, m₂, hv, hrest⟩ := bind_ok.mp hstep
    obtain ⟨callee, m₃, hcallee, hrest⟩ := bind_ok.mp hrest
    obtain ⟨args, m₄, hargs, hrest⟩ := bind_ok.mp hrest
    obtain ⟨⟨⟩, m₅, hcheck, hcall⟩ := bind_ok.mp hrest
    obtain ⟨m₆, hbody, hstore⟩ := enterCall_ok hcall
    rw [hstore]
    exact typed_of_started hkeep hτ (.body hv hcallee hargs hcheck) (end?_of_ok hbody)

theorem keeps_exec {n : Nat} (hkeep : StartedKeep options P (exec (n + 1) t m))
    (hτ : Placed P φ (exec (n + 1) t m)) : Keeps options P φ (exec (n + 1) t m) := by
  intro m' hend
  obtain ⟨u, hu⟩ := exists_of_end? hend
  obtain ⟨x, hx, heq⟩ := exec_succ options n t
  rw [heq] at hu
  obtain ⟨m₁, hstep, rfl⟩ := traced_ok hu
  have hscoped := hτ
  obtain ⟨c, role, hm, hplace, hsited, hfinal⟩ := hscoped
  have hwithin : (m.within options "execute" t).store.Typed P φ := hm.within.typed
  show ∃ φ', m.store.Agrees φ φ' ∧ m₁.store.Typed P φ'
  cases hx with
  | absent => cases hstep
  | fragment => cases hstep
  | expression hfragment hstatement =>
    obtain ⟨v, m₂, hv, hrest⟩ := bind_ok.mp hstep
    cases hrest
    exact typed_of_started hkeep hτ (.expression hfragment hstatement) (end?_of_ok hv)
  | sequence => exact typed_of_started hkeep hτ .statements (end?_of_ok hstep)
  | @declare o cs =>
    obtain ⟨v, m₂, hv, hdeclare⟩ := bind_ok.mp hstep
    obtain ⟨φ₁, hφ, hm₂⟩ := scoped_of_subject hkeep hm hplace hsited rfl hv
    obtain ⟨store, hstore, rfl⟩ := onStore_ok hdeclare
    obtain ⟨y, type, s₁, hy, hdefine, hnamed⟩ := declareAt_eq_ok hstore
    have hmem : y ∈ c.final :=
      hfinal (show y ∈ ((form .declare o cs).child 0).name?.toList by simp [hy])
    rw [← hm₂.here.final hm₂.typed.older] at hmem
    have htyped := hm₂.typed.define hmem hdefine
    obtain rfl | ⟨id, rfl⟩ := hnamed
    · exact ⟨φ₁, hφ, htyped⟩
    · exact ⟨φ₁, hφ, htyped.nameClosure id y⟩
  | assign =>
    obtain ⟨v, m₂, hv, hrest⟩ := bind_ok.mp hstep
    obtain ⟨φ₁, hφ, hm₂⟩ := scoped_of_subject hkeep hm hplace hsited rfl hv
    obtain ⟨target, m₃, hlocate, hassign⟩ := bind_ok.mp hrest
    obtain ⟨store, hstore, rfl⟩ := onStore_ok hassign
    obtain rfl : m₃.store.set target.1 target.2 v = store :=
      congrArg Prod.snd (Except.ok.inj hstore)
    refine ⟨φ₁, hφ, Store.Typed.set ?_ _ _ _⟩
    rw [(locate_ok hlocate).store]
    exact hm₂.typed
  | print =>
    obtain ⟨v, m₂, hv, hprint⟩ := bind_ok.mp hstep
    cases hprint
    have htyped := typed_of_started hkeep hτ (.subject rfl) (end?_of_ok hv)
    exact htyped
  | ifThen =>
    obtain ⟨v, m₂, hv, hrest⟩ := bind_ok.mp hstep
    split at hrest
    · rename_i htruthy
      obtain ⟨m₃, hbody, rfl⟩ := inScope_ok hrest
      have htyped := typed_of_started hkeep hτ (.branch hv htruthy) (end?_of_ok hbody)
      exact htyped
    · cases hrest
      exact typed_of_started hkeep hτ (.subject rfl) (end?_of_ok hv)
  | ifElse =>
    obtain ⟨v, m₂, hv, hrest⟩ := bind_ok.mp hstep
    have hstart := Starts.alternative hv
    split at hrest
    · rename_i htruthy
      rw [if_pos htruthy] at hstart
      obtain ⟨m₃, hbody, rfl⟩ := inScope_ok hrest
      have htyped := typed_of_started hkeep hτ hstart (end?_of_ok hbody)
      exact htyped
    · rename_i htruthy
      rw [if_neg htruthy] at hstart
      obtain ⟨m₃, hbody, rfl⟩ := inScope_ok hrest
      have htyped := typed_of_started hkeep hτ hstart (end?_of_ok hbody)
      exact htyped
  | whileDo => exact typed_of_started hkeep hτ .repetition (end?_of_ok hstep)
  | @ret o cs =>
    change (if (m.within options "execute" (form .ret o cs)).depth = 0 then
      raise .illegalReturn (form .ret o cs)
      else ClosureLang.eval options n ((form .ret o cs).child 0) >>= setOut : Action Unit)
        _ = _ at hstep
    split at hstep
    · cases hstep
    · rename_i hdepth
      obtain ⟨v, m₂, hv, hout⟩ := bind_ok.mp hstep
      cases hout
      have htyped := typed_of_started hkeep hτ (.result (by simpa using hdepth)) (end?_of_ok hv)
      exact htyped

theorem keeps_loop {n : Nat} {cond body : Tree}
    (hkeep : StartedKeep options P (loop (n + 1) cond body m))
    (hτ : Placed P φ (loop (n + 1) cond body m)) :
    Keeps options P φ (loop (n + 1) cond body m) := by
  intro m' hend
  obtain ⟨u, hu⟩ := exists_of_end? hend
  have hscoped := hτ
  obtain ⟨c, hm, -⟩ := hscoped
  change (if m.returning then pure () else ClosureLang.eval options n cond >>= fun v =>
    if v.truthy then inScope (ClosureLang.exec options n body) >>= fun _ =>
      ClosureLang.loop options n cond body
    else pure () : Action Unit) m = _ at hu
  split at hu
  · cases hu
    exact ⟨φ, .refl _ φ, hm.typed⟩
  · rename_i hreturning
    rw [Bool.not_eq_true] at hreturning
    obtain ⟨v, m₁, hv, hrest⟩ := bind_ok.mp hu
    split at hrest
    · rename_i htruthy
      obtain ⟨⟨⟩, m₂, hbody, hagain⟩ := bind_ok.mp hrest
      exact typed_of_started hkeep hτ (.again hreturning hv htruthy hbody) (end?_of_ok hagain)
    · cases hrest
      exact typed_of_started hkeep hτ (.condition hreturning) (end?_of_ok hv)

theorem keeps_evalAll (hkeep : StartedKeep options P (evalAll fuel ts m))
    (hτ : Placed P φ (evalAll fuel ts m)) : Keeps options P φ (evalAll fuel ts m) := by
  intro m' hend
  obtain ⟨vs, hvs⟩ := exists_of_end? hend
  cases ts with
  | nil =>
    obtain ⟨c, hm, -⟩ := hτ
    cases hvs
    exact ⟨φ, .refl _ φ, hm.typed⟩
  | cons t ts =>
    obtain ⟨v, m₁, hv, hrest⟩ := bind_ok.mp hvs
    obtain ⟨vs', m₂, hvs', hpure⟩ := bind_ok.mp hrest
    cases hpure
    exact typed_of_started hkeep hτ (.laterArguments hv) (end?_of_ok hvs')

theorem keeps_execAll (hkeep : StartedKeep options P (execAll fuel ts m))
    (hτ : Placed P φ (execAll fuel ts m)) : Keeps options P φ (execAll fuel ts m) := by
  intro m' hend
  obtain ⟨u, hu⟩ := exists_of_end? hend
  have hscoped := hτ
  obtain ⟨c, hm, -⟩ := hscoped
  cases ts with
  | nil =>
    cases hu
    exact ⟨φ, .refl _ φ, hm.typed⟩
  | cons t ts =>
    change (if m.returning then pure () else ClosureLang.exec options fuel t >>= fun _ =>
      ClosureLang.execAll (ClosureLang.exec options fuel) ts : Action Unit) m = _ at hu
    split at hu
    · cases hu
      exact ⟨φ, .refl _ φ, hm.typed⟩
    · rename_i hreturning
      rw [Bool.not_eq_true] at hreturning
      obtain ⟨⟨⟩, m₁, ht, hts⟩ := bind_ok.mp hu
      exact typed_of_started hkeep hτ (.laterStatements hreturning ht) (end?_of_ok hts)

/-- A placed task leaves a typed store. -/
theorem keeps (τ : Task) : ∀ φ, Placed P φ τ → Keeps options P φ τ := by
  induction τ using induction options with
  | h τ ih =>
    intro φ hτ
    have hkeep : StartedKeep options P τ := ih
    cases τ with
    | eval fuel t m =>
      cases fuel with
      | zero => exact fun _ hend => nomatch hend
      | succ n => exact keeps_eval hkeep hτ
    | exec fuel t m =>
      cases fuel with
      | zero => exact fun _ hend => nomatch hend
      | succ n => exact keeps_exec hkeep hτ
    | loop fuel cond body m =>
      cases fuel with
      | zero => exact fun _ hend => nomatch hend
      | succ n => exact keeps_loop hkeep hτ
    | evalAll => exact keeps_evalAll hkeep hτ
    | execAll => exact keeps_execAll hkeep hτ
    | locate t m =>
      intro m' hend
      obtain ⟨target, htarget⟩ := exists_of_end? hend
      obtain ⟨c, hm, -⟩ := hτ
      refine ⟨φ, .refl _ φ, ?_⟩
      rw [(locate_ok htarget).store]
      exact hm.typed

/-- The run lemma: whatever a placed task gets to is placed. -/
theorem placed_of_reaches {τ τ' : Task} (hτ : Placed P φ τ) (h : Reaches options τ τ') :
    ∃ φ', Placed P φ' τ' := by
  induction h with
  | refl => exact ⟨φ, hτ⟩
  | tail _ hstart ih =>
    obtain ⟨φ₁, hplaced⟩ := ih
    obtain ⟨φ₂, -, hplaced'⟩ := placed_of_starts (fun τ _ => keeps τ) hplaced hstart
    exact ⟨φ₂, hplaced'⟩

/-- A program is placed where it is run. -/
theorem placed_program {t : Tree} (ht : InPlace .block t) (hsited : Sited P (.program t) t)
    (fuel : Nat) : ∃ φ, Placed P φ (exec fuel t (Machine.ready {})) := by
  refine ⟨fun _ => t.declared, .program t, .block, ⟨Store.typed_initial, ?_, ?_, ?_, ?_⟩, ht,
    hsited, List.Subset.refl _⟩
  · decide
  · have hchain : Store.initial.chain Store.root = [Store.root] := rfl
    show List.Forall₂ _ (Store.initial.chain Store.root) _
    rw [hchain]
    exact .cons ⟨fun x hx => absurd hx Store.not_binds_initial, fun _ _ => nofun, rfl⟩ .nil
  · simp [Context.program, Machine.ready]
  · exact fun _ => rfl

end Task

end ClosureLang

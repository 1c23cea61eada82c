import ClosureLang.Proofs.Run.Integrity
import ClosureLang.Proofs.Run.Steps
import ClosureLang.Proofs.Tree.Shapes

/-! Parts of programs, once they run, end well or with a condition of the language. -/
namespace ClosureLang

open ClosureLang.Action ClosureLang.Tree

variable {α β : Type} {x y : Action α} {P : Tree → Prop} {A : Stop → Prop} {options : Options}
  {m m' : Machine} {Q : α → Nat → Prop} {R : β → Nat → Prop}

structure Machine.Sound (P : Tree → Prop) (m : Machine) : Prop where
  store : m.store.Sound P
  result : m.result.Below m.store.count

/-- The machine is still sound, and the closures that were there are there. -/
structure Machine.Stays (P : Tree → Prop) (m m' : Machine) : Prop where
  sound : m'.Sound P
  count : m.store.count ≤ m'.store.count

theorem Machine.Stays.trans {m'' : Machine} (h : m.Stays P m') (h' : m'.Stays P m'') :
    m.Stays P m'' :=
  ⟨h'.sound, Nat.le_trans h.count h'.count⟩

/-- An action ends in a sound machine, well or as it may; if well, with an answer that satisfies `Q`
for the number of closures at the end. -/
def Safe (P : Tree → Prop) (A : Stop → Prop) (x : Action α) (m : Machine)
    (Q : α → Nat → Prop) : Prop :=
  match x m with
  | .ok a m' => m.Stays P m' ∧ Q a m'.store.count
  | .error s m' => m.Stays P m' ∧ A s

/-- Operators have integers for values. -/
theorem int_of_apply {op : BinaryOp} {v w u : Value} (h : op.apply v w = .ok u) :
    ∃ n, u = .int n := by
  unfold BinaryOp.apply at h
  repeat' split at h
  all_goals first | cases h; exact ⟨_, rfl⟩ | cases h

theorem apply_ne_stackOverflow (op : BinaryOp) (v w : Value) :
    op.apply v w ≠ .error .stackOverflow := by
  unfold BinaryOp.apply
  repeat' split
  all_goals nofun

/-- A function node makes a closure, unless two parameters share a name. -/
theorem ofNode?_function {params sig : List Tree} (o o' : Int) (body : Tree) (e : ScopeId)
    (hparams : ∀ x ∈ params, IsTagLeaf x) (hsig : IsTagging params.length sig) :
    let fn := form .function o (form .parameters o' params :: body :: sig)
    (∃ c, c.body = body ∧ Closure.ofNode? fn e = some (.ok c)) ∨
      Closure.ofNode? fn e = some (.error .duplicateParameter) := by
  intro fn
  obtain ⟨names, hnames⟩ := mapM_name?_of_leaves hparams
  have hparamNames : fn.paramNames? = some names := hnames
  obtain ⟨signature, hsignature⟩ : ∃ signature, Closure.ofNode? fn e =
      if names.Nodup then some (.ok { params := names, body, scope := e, signature, node := fn })
      else some (.error .duplicateParameter) := by
    obtain rfl | ⟨offset, tags, rfl, -, htags⟩ := hsig
    · refine ⟨none, ?_⟩
      simp only [Closure.ofNode?, hparamNames, Option.bind_eq_bind, Option.bind_some]
      rfl
    · obtain ⟨tagNames, htagNames⟩ := mapM_name?_of_leaves htags
      have hchild : fn.child 2 = .node (.form .signature) offset tags := rfl
      have htypes : typeTags? (.node (.form .signature) offset tags) = some tagNames := htagNames
      refine ⟨some tagNames, ?_⟩
      simp only [Closure.ofNode?, hparamNames, hchild, htypes, Option.bind_eq_bind,
        Option.bind_some, Option.map_some]
      rfl
  rw [hsignature]
  split
  · exact .inl ⟨_, rfl, rfl⟩
  · exact .inr rfl

namespace Safe

theorem sound_after (h : Safe P A x m Q) : (x.after m).Sound P := by
  simp only [Safe] at h
  simp only [after]
  cases hx : x m with
  | ok a m' =>
    rw [hx] at h
    exact h.1.sound
  | error s m' =>
    rw [hx] at h
    exact h.1.sound

theorem allowed_stop (h : Safe P A x m Q) {s : Stop} (hs : x.stop? m = some s) : A s := by
  simp only [Safe] at h
  simp only [stop?] at hs
  cases hx : x m with
  | ok a m' =>
    rw [hx] at hs
    cases hs
  | error s' m' =>
    rw [hx] at h hs
    cases hs
    exact h.2

theorem pure (hm : m.Sound P) {a : α} (ha : Q a m.store.count) : Safe P A (Pure.pure a) m Q :=
  ⟨⟨hm, Nat.le_refl _⟩, ha⟩

theorem throw (hm : m.Sound P) {s : Stop} (hs : A s) :
    Safe P A (MonadExcept.throw s) m Q :=
  ⟨⟨hm, Nat.le_refl _⟩, hs⟩

theorem bind {f : α → Action β} (hx : Safe P A x m Q)
    (hf : ∀ a m', m.Stays P m' → Q a m'.store.count → Safe P A (f a) m' R) :
    Safe P A (x >>= f) m R := by
  simp only [Safe, Bind.bind, EStateM.bind] at hx ⊢
  cases hxm : x m with
  | error s m' =>
    rw [hxm] at hx
    exact hx
  | ok a m' =>
    rw [hxm] at hx
    obtain ⟨hstays, ha⟩ := hx
    have hfm := hf a m' hstays ha
    simp only [Safe] at hfm ⊢
    cases hfa : f a m' with
    | ok b m₂ =>
      rw [hfa] at hfm
      exact ⟨hstays.trans hfm.1, hfm.2⟩
    | error s m₂ =>
      rw [hfa] at hfm
      exact ⟨hstays.trans hfm.1, hfm.2⟩

theorem get {g : Machine → Action α} (h : Safe P A (g m) m Q) :
    Safe P A (MonadState.get >>= g) m Q := h

theorem ite {c : Prop} [Decidable c] (hx : c → Safe P A x m Q) (hy : ¬ c → Safe P A y m Q) :
    Safe P A (if c then x else y) m Q := by
  split
  · exact hx ‹_›
  · exact hy ‹_›

/-- The action runs between a change of the machine and the restoration of a part of it. -/
theorem of_mapEnd {f : Machine → Machine} {n : Machine} (h : y m = mapEnd f (x n))
    (hx : Safe P A x n Q) (hf : ∀ m', n.Stays P m' → m.Stays P (f m'))
    (hcount : ∀ m', (f m').store.count = m'.store.count) : Safe P A y m Q := by
  simp only [Safe] at hx
  simp only [Safe, h]
  cases hxn : x n with
  | ok a m' =>
    rw [hxn] at hx
    exact ⟨hf m' hx.1, by rw [hcount]; exact hx.2⟩
  | error s m' =>
    rw [hxn] at hx
    exact ⟨hf m' hx.1, hx.2⟩

theorem traced {what : String} {node : Tree}
    (hx : ∀ n, n.Sound P → Safe P A x n Q) (hm : m.Sound P) :
    Safe P A (traced options what node x) m Q := by
  obtain ⟨events, htraced⟩ := traced_eq options what node m
  refine of_mapEnd (htraced x) (hx _ ⟨hm.store, hm.result⟩) (fun m' h => ?_) fun _ => rfl
  exact ⟨⟨h.sound.store, h.sound.result⟩, h.count⟩

theorem inScope (hx : ∀ n, n.Sound P → Safe P A x n Q) (hm : m.Sound P) :
    Safe P A (inScope x) m Q := by
  refine of_mapEnd (inScope_eq x m) (hx _ ⟨hm.store.newScope m.scope, hm.result⟩) (fun m' h => ?_)
    fun _ => rfl
  exact ⟨⟨h.sound.store, h.sound.result⟩, h.count⟩

theorem onStore {f : ScopeId → Store → Except Stop (α × Store)} (hm : m.Sound P)
    (hok : ∀ a s, f m.scope m.store = .ok (a, s) →
      s.Sound P ∧ m.store.count ≤ s.count ∧ Q a s.count)
    (herror : ∀ s, f m.scope m.store = .error s → A s) :
    Safe P A (onStore f) m Q := by
  simp only [Safe, Action.onStore]
  cases hf : f m.scope m.store with
  | error s => exact ⟨⟨hm, Nat.le_refl _⟩, herror s hf⟩
  | ok r =>
    obtain ⟨hs, hcount, ha⟩ := hok r.1 r.2 hf
    exact ⟨⟨⟨hs, hm.result.mono hcount⟩, hcount⟩, ha⟩

theorem traceStep (hm : m.Sound P) {what : String} {node : Tree} :
    Safe P A (traceStep options what node) m fun _ _ => True := by
  obtain ⟨events, hstep⟩ := traceStep_eq_ok options what node m
  simp only [Safe, hstep]
  exact ⟨⟨⟨hm.store, hm.result⟩, Nat.le_refl _⟩, trivial⟩

theorem named_eq_error {t : Tree} (ht : t.name?.isSome) {f : String → Except Stop β} {s : Stop}
    (h : t.named f = .error s) : ∃ x, f x = .error s := by
  obtain ⟨x, hx⟩ := Option.isSome_iff_exists.mp ht
  exact ⟨x, by rw [← h, named, hx]⟩

theorem lookup (hm : m.Sound P) {node : Tree} (hx : (node.child 0).name?.isSome)
    (hA : A (.condition .undefinedVariable node)) :
    Safe P A (Action.onStore node.lookupAt) m Value.Below := by
  refine onStore hm (fun v s h => ?_) fun s h => ?_
  · obtain ⟨rfl, y, hget⟩ := lookupAt_eq_ok h
    exact ⟨hm.store, Nat.le_refl _, hm.store.get? hget⟩
  · obtain ⟨y, hy⟩ := named_eq_error hx h
    split at hy
    · cases hy
    · cases hy
      exact hA

theorem locate (hm : m.Sound P) {o : Int} {cs : List Tree}
    (hx : ((form .varLoc o cs).child 0).name?.isSome)
    (hA : A (.condition .undefinedVariable (form .varLoc o cs))) :
    Safe P A (locate options (form .varLoc o cs)) m fun _ _ => True := by
  rw [locate_eq]
  refine (traceStep hm).bind fun _ m₁ hm₁ _ => onStore hm₁.sound (fun v s h => ?_) fun s h => ?_
  · obtain rfl := locateAt_eq_ok h
    exact ⟨hm₁.sound.store, Nat.le_refl _, trivial⟩
  · obtain ⟨y, hy⟩ := named_eq_error hx h
    split at hy
    · cases hy
    · cases hy
      exact hA

theorem declare (hm : m.Sound P) {node : Tree} {v : Value} (hx : (node.child 0).name?.isSome)
    (hv : v.Below m.store.count) (hA : A (.condition .variableAlreadyDefined node)) :
    Safe P A (Action.onStore (node.declareAt v)) m fun _ _ => True := by
  refine onStore hm (fun u s h => ?_) fun s h => ?_
  · obtain ⟨y, tag, s₁, -, hdefine, hnamed⟩ := declareAt_eq_ok h
    obtain ⟨hsound, hcount⟩ := hm.store.define hv hdefine
    obtain rfl | ⟨id, rfl⟩ := hnamed
    · exact ⟨hsound, Nat.le_of_eq hcount.symm, trivial⟩
    · obtain ⟨hsound', hcount'⟩ := hsound.nameClosure id y
      exact ⟨hsound', Nat.le_of_eq (hcount'.trans hcount).symm, trivial⟩
  · obtain ⟨y, hy⟩ := named_eq_error hx h
    split at hy
    · cases hy
      exact hA
    · split at hy <;> cases hy

theorem assign (hm : m.Sound P) {target : ScopeId × String} {v : Value}
    (hv : v.Below m.store.count) :
    Safe P A (Action.onStore (Store.assignAt target v)) m fun _ _ => True := by
  refine onStore hm (fun u s h => ?_) nofun
  cases h
  exact ⟨hm.store.set hv, Nat.le_refl _, trivial⟩

theorem calleeOf (hm : m.Sound P) {node : Tree} {v : Value} (hv : v.Below m.store.count)
    (hA : A (.condition .callingNonFunction node)) :
    Safe P A (Action.onStore (node.calleeAt v)) m fun callee _ => P callee.2.body := by
  refine onStore hm (fun callee s h => ?_) fun s h => ?_
  · obtain ⟨rfl, hclosure⟩ := calleeAt_eq_ok h
    exact ⟨hm.store, Nat.le_refl _, hm.store.bodies _ _ hclosure⟩
  · cases v with
    | int n =>
      cases h
      exact hA
    | closure id =>
      have hid : m.store.closure? id = some _ := Array.getElem?_eq_getElem hv
      simp [calleeAt, hid] at h

theorem operate (hm : m.Sound P) {node : Tree} {op : BinaryOp} {v w : Value}
    (hA : ∀ c ≠ .stackOverflow, A (.condition c node)) :
    Safe P A (Action.onStore (node.operateAt op v w)) m Value.Below := by
  refine onStore hm (fun u s h => ?_) fun s h => ?_
  · obtain ⟨rfl, happly⟩ := operateAt_eq_ok h
    obtain ⟨n, rfl⟩ := int_of_apply happly
    exact ⟨hm.store, Nat.le_refl _, trivial⟩
  · unfold operateAt at h
    split at h
    · cases h
    · rename_i c happly
      cases h
      exact hA c fun hc => apply_ne_stackOverflow op v w (hc ▸ happly)

theorem makeClosure (hm : m.Sound P) {fn : Tree}
    (hfn : (∃ c : Closure, P c.body ∧ Closure.ofNode? fn m.scope = some (.ok c)) ∨
      Closure.ofNode? fn m.scope = some (.error .duplicateParameter))
    (hA : A (.condition .duplicateParameter fn)) :
    Safe P A (Action.onStore fn.closureAt) m Value.Below := by
  refine onStore hm (fun v s h => ?_) fun s h => ?_
  · obtain ⟨c, hc, rfl, rfl⟩ := closureAt_eq_ok h
    obtain ⟨c', hbody, hc'⟩ | hduplicate := hfn
    · cases hc'.symm.trans hc
      obtain ⟨hsound, hcount⟩ := hm.store.newClosure hbody
      exact ⟨hsound, hcount ▸ Nat.le_succ _, hcount ▸ Nat.lt_succ_self _⟩
    · cases hduplicate.symm.trans hc
  · unfold closureAt at h
    obtain ⟨c', -, hc'⟩ | hduplicate := hfn
    · simp [hc'] at h
    · simp only [hduplicate, Except.error.injEq] at h
      subst h
      exact hA

theorem checkCall (hm : m.Sound P) {node : Tree} {c : Closure} {args : List Value}
    (hA : ∀ c ≠ .stackOverflow, A (.condition c node))
    (hdeep : 0 < options.maxDepth → A (.condition .stackOverflow node)) :
    Safe P A (checkCall options node c args) m fun _ _ => True := by
  unfold ClosureLang.checkCall
  refine ite (fun _ => throw hm (hA _ nofun)) fun _ => get (ite (fun hdepth => ?_) fun _ => ?_)
  · exact throw hm (hdeep hdepth.1)
  · exact pure hm trivial

theorem evalAll {g : Tree → Action Value} {ts : List Tree} (hm : m.Sound P)
    (h : ∀ t ∈ ts, ∀ n, n.Sound P → Safe P A (g t) n Value.Below) :
    Safe P A (evalAll g ts) m fun vs n => ∀ v ∈ vs, v.Below n := by
  induction ts generalizing m with
  | nil => exact pure hm nofun
  | cons t ts ih =>
    rw [List.forall_mem_cons] at h
    refine (h.1 m hm).bind fun v m₁ hm₁ hv => (ih hm₁.sound h.2).bind fun vs m₂ hm₂ hvs => ?_
    exact pure hm₂.sound (List.forall_mem_cons.mpr ⟨hv.mono hm₂.count, hvs⟩)

theorem execAll {g : Tree → Action Unit} {ts : List Tree} (hm : m.Sound P)
    (h : ∀ t ∈ ts, ∀ n, n.Sound P → Safe P A (g t) n fun _ _ => True) :
    Safe P A (execAll g ts) m fun _ _ => True := by
  induction ts generalizing m with
  | nil => exact pure hm trivial
  | cons t ts ih =>
    rw [List.forall_mem_cons] at h
    refine get (ite (fun _ => pure hm trivial) fun _ => ?_)
    exact (h.1 m hm).bind fun _ m₁ hm₁ _ => ih hm₁.sound h.2

theorem inCall {scope : ScopeId} {store : Store} {body : Action Unit} (hm : m.Sound P)
    (hstore : store.Sound P) (hcount : m.store.count ≤ store.count)
    (h : ∀ n, n.Sound P → Safe P A body n fun _ _ => True) :
    Safe P A (inCall scope store body) m Value.Below := by
  have hbody := h { m with
    store, scope, returning := false, result := .int 0, depth := m.depth + 1 } ⟨hstore, trivial⟩
  simp only [Safe] at hbody
  simp only [Safe, Action.inCall]
  generalize body _ = r at hbody
  cases r with
  | ok u m' =>
    obtain ⟨⟨hstays, hgrown⟩, -⟩ := hbody
    have hm' := Nat.le_trans hcount hgrown
    refine ⟨⟨⟨hstays.store, hm.result.mono hm'⟩, hm'⟩, ?_⟩
    split
    · exact hstays.result
    · trivial
  | error s m' =>
    obtain ⟨⟨hstays, hgrown⟩, hs⟩ := hbody
    have hm' := Nat.le_trans hcount hgrown
    exact ⟨⟨⟨hstays.store, hm.result.mono hm'⟩, hm'⟩, hs⟩

theorem enterCall {id : ClosureId} {c : Closure} {args : List Value} {g : Tree → Action Unit}
    (hm : m.Sound P) (hargs : ∀ v ∈ args, v.Below m.store.count)
    (h : ∀ n, n.Sound P → Safe P A (g c.body) n fun _ _ => True) :
    Safe P A (enterCall options id c args g) m Value.Below := by
  obtain ⟨events, finish, hobserved⟩ := observed_eq_mapEnd options id c
    (Action.inCall (m.store.enter c args).1 (m.store.enter c args).2 (g c.body)) m
  obtain ⟨hstore, hcount⟩ := hm.store.enter (c := c) hargs
  refine of_mapEnd ((enterCall_eq id c args g m).trans hobserved)
    (inCall ⟨hm.store, hm.result⟩ hstore (Nat.le_of_eq hcount.symm) h) (fun m' h => ?_) fun _ => rfl
  exact ⟨⟨h.sound.store, h.sound.result⟩, h.count⟩

theorem printLine (hm : m.Sound P) {text : String} :
    Safe P A (printLine text) m fun _ _ => True :=
  ⟨⟨⟨hm.store, hm.result⟩, Nat.le_refl _⟩, trivial⟩

theorem setOut (hm : m.Sound P) {v : Value} (hv : v.Below m.store.count) :
    Safe P A (setOut v) m fun _ _ => True :=
  ⟨⟨⟨hm.store, hv⟩, Nat.le_refl _⟩, trivial⟩

theorem evalArguments {g : Tree → Action Value} {node : Tree} (hm : m.Sound P)
    (hpresent : (node.child 1).isAbsent = false)
    (h : ∀ t ∈ (node.child 1).children, ∀ n, n.Sound P → Safe P A (g t) n Value.Below) :
    Safe P A (evalArguments g node) m fun vs n => ∀ v ∈ vs, v.Below n := by
  unfold ClosureLang.evalArguments
  cases hargs : node.child 1 with
  | absent => simp [hargs, isAbsent] at hpresent
  | node l o cs => exact evalAll hm (by rwa [hargs] at h)

end Safe

section Steps

variable {B : Tree → Prop} {limit : Nat} {role : Role} {l : Label} {o : Int} {cs : List Tree}
  {fuel : Nat}

/-- The ways in which a program may stop: at a node in `B`, and too deep only below a limit. -/
def Stop.Allowed (B : Tree → Prop) (limit : Nat) : Stop → Prop
  | .condition c u => B u ∧ (c = .stackOverflow → 0 < limit)
  | .outOfFuel => True
  | .unknownNode _ | .absentNode => False

theorem Stop.Allowed.condition {u : Tree} (hB : B u) (c : Condition) (hc : c ≠ .stackOverflow) :
    Stop.Allowed B limit (.condition c u) := ⟨hB, fun h => absurd h hc⟩

theorem Tree.IsPart.here (h : (node l o cs).IsPart B role) : B (node l o cs) :=
  (forall_nodes_node.mp h.nodes).1

theorem Tree.IsPart.child (h : (node l o cs).IsPart B role) {role' : Role} {c : Tree} (hc : c ∈ cs)
    (hsorted : InPlace role' c) : c.IsPart B role' :=
  ⟨hsorted, (forall_nodes_node.mp h.nodes).2 c hc⟩

theorem Tree.IsPart.argument {o' : Int} {callee : Tree} {args : List Tree}
    (h : (form .call o [callee, form .arguments o' args]).IsPart B .expression) :
    ∀ t ∈ args, t.IsPart B .expression := by
  intro t ht
  have harguments := (forall_nodes_node.mp h.nodes).2 (form .arguments o' args) (by simp)
  cases h.inPlace with
  | call _ hargs => exact ⟨hargs t ht, (forall_nodes_node.mp harguments).2 t ht⟩

theorem isSome_name {x : Tree} (hx : IsIdent x) : x.name?.isSome := by
  obtain ⟨o, y, rfl, -⟩ := hx
  rfl

theorem isFragment_eq_false {P : Int64 → Prop} (h : WellSorted P role (node l o cs)) :
    l.kind.isFragment = false := by
  cases h with
  | expression he => cases he <;> rfl
  | _ => rfl

/-- What stands in the place of a statement and is none is an expression. -/
theorem Tree.IsPart.expression (h : (node l o cs).IsPart B role) (hl : l.kind.isStatement = false) :
    (node l o cs).IsPart B .expression := by
  obtain ⟨hsorted, hnodes⟩ := h
  refine ⟨?_, hnodes⟩
  cases hsorted with
  | expression he => exact he
  | int hw => exact .int hw
  | lookup hx => exact .lookup hx
  | binary hlhs hrhs => exact .binary hlhs hrhs
  | not ht => exact .not ht
  | call hc hargs => exact .call hc hargs
  | function hparams hb hsig => exact .function hparams hb hsig
  | _ => cases hl

def EvalSafe (B : Tree → Prop) (options : Options) (fuel : Nat) : Prop :=
  ∀ ⦃t⦄, t.IsPart B .expression → ∀ m, m.Sound (IsPart B .block) →
    Safe (IsPart B .block) (Stop.Allowed B options.maxDepth) (eval options fuel t) m Value.Below

def ExecSafe (B : Tree → Prop) (options : Options) (fuel : Nat) : Prop :=
  ∀ ⦃role t⦄, t.IsPart B role → ∀ m, m.Sound (IsPart B .block) →
    Safe (IsPart B .block) (Stop.Allowed B options.maxDepth) (exec options fuel t) m fun _ _ => True

def LoopSafe (B : Tree → Prop) (options : Options) (fuel : Nat) : Prop :=
  ∀ ⦃cond body⦄, cond.IsPart B .expression → body.IsPart B .block → ∀ m, m.Sound (IsPart B .block) →
    Safe (IsPart B .block) (Stop.Allowed B options.maxDepth) (loop options fuel cond body) m
      fun _ _ => True

open Stop.Allowed (condition)

theorem evalSafe_succ (heval : EvalSafe B options fuel) (hexec : ExecSafe B options fuel) :
    EvalSafe B options (fuel + 1) := by
  intro t ht m hm
  obtain ⟨x, hx, heq⟩ := eval_succ options fuel t
  rw [heq]
  refine .traced (fun n hn => ?_) hm
  have hsorted := ht.inPlace
  cases hx with
  | absent => cases hsorted
  | other h => cases hsorted <;> cases h
  | integer => exact .pure hn trivial
  | lookup =>
    cases hsorted with
    | lookup hx => exact .lookup hn (isSome_name hx) (condition ht.here _ nofun)
  | binary =>
    cases hsorted with
    | binary hl hr =>
      exact (heval (ht.child (by simp) hl) n hn).bind fun v m₁ hm₁ _ =>
        (heval (ht.child (by simp) hr) m₁ hm₁.sound).bind fun w m₂ hm₂ _ =>
          .operate hm₂.sound (condition ht.here)
  | not =>
    cases hsorted with
    | not he =>
      exact (heval (ht.child (by simp) he) n hn).bind fun v m₁ hm₁ _ => .pure hm₁.sound trivial
  | function =>
    cases hsorted with
    | @function _ o' _ body _ hparams hbody hsig =>
      have hpart : body.IsPart B .block := ht.child (by simp) hbody
      refine .makeClosure hn ?_ (condition ht.here _ nofun)
      have hleaves : ∀ x ∈ _, IsTagLeaf x := fun x hx => (hparams x hx).leaf
      refine (ofNode?_function _ o' body n.scope hleaves hsig.tagging).imp_left
        fun ⟨c, hc, hnode⟩ => ?_
      exact ⟨c, hc ▸ hpart, hnode⟩
  | call =>
    cases hsorted with
    | @call _ o' fn args hc hargs =>
      refine (heval (ht.child (by simp) hc) n hn).bind fun v m₁ hm₁ hv => ?_
      refine (Safe.calleeOf hm₁.sound hv (condition ht.here _ nofun)).bind
        fun callee m₂ hm₂ hbody => ?_
      refine Safe.bind (.evalArguments hm₂.sound rfl fun t h => heval (ht.argument t h))
        fun vs m₃ hm₃ hvs => ?_
      exact (Safe.checkCall hm₃.sound (condition ht.here) fun h => ⟨ht.here, fun _ => h⟩).bind
          fun _ m₄ hm₄ _ =>
        .enterCall hm₄.sound (fun v hv => (hvs v hv).mono hm₄.count) (hexec hbody)

theorem execSafe_succ (heval : EvalSafe B options fuel) (hexec : ExecSafe B options fuel)
    (hloop : LoopSafe B options fuel) : ExecSafe B options (fuel + 1) := by
  intro role t ht m hm
  obtain ⟨x, hx, heq⟩ := exec_succ options fuel t
  rw [heq]
  refine .traced (fun n hn => ?_) hm
  have hsorted := ht.inPlace
  cases hx with
  | absent => exact nomatch hsorted.whole.present
  | fragment h => exact absurd h (by simp [isFragment_eq_false hsorted])
  | expression _ h =>
    exact (heval (ht.expression h) n hn).bind fun _ m₁ hm₁ _ => .pure hm₁.sound trivial
  | sequence =>
    cases hsorted with
    | block hts => exact .execAll hn fun t h => hexec (ht.child h (hts t h))
    | expression he => cases he
  | declare =>
    cases hsorted with
    | declare hx he =>
      exact (heval (ht.child (by simp) he) n hn).bind fun v m₁ hm₁ hv =>
        .declare hm₁.sound (isSome_name hx) hv (condition ht.here _ nofun)
    | expression he => cases he
  | assign =>
    cases hsorted with
    | @assign _ o' x _ hx he =>
      have hname : ((form .varLoc o' [x]).child 0).name?.isSome := isSome_name hx
      have hloc : B (form .varLoc o' [x]) :=
        (forall_nodes_node.mp ((forall_nodes_node.mp ht.nodes).2 (form .varLoc o' [x]) (by simp))).1
      exact (heval (ht.child (by simp) he) n hn).bind fun v m₁ hm₁ hv =>
        (Safe.locate hm₁.sound hname (condition hloc _ nofun)).bind fun target m₂ hm₂ _ =>
          .assign hm₂.sound (hv.mono hm₂.count)
    | expression he => cases he
  | print =>
    cases hsorted with
    | print he =>
      exact (heval (ht.child (by simp) he) n hn).bind fun v m₁ hm₁ _ => .printLine hm₁.sound
    | expression he => cases he
  | ifThen =>
    cases hsorted with
    | @ifThen _ _ body hc hb =>
      have hbody : body.IsPart B .block := ht.child (by simp) hb
      exact (heval (ht.child (by simp) hc) n hn).bind fun v m₁ hm₁ _ =>
        .ite (fun _ => .inScope (hexec hbody) hm₁.sound) fun _ => .pure hm₁.sound trivial
    | expression he => cases he
  | ifElse =>
    cases hsorted with
    | @ifElse _ _ body alternative hc hb ha =>
      have hbody : body.IsPart B .block := ht.child (by simp) hb
      have halternative : alternative.IsPart B .block := ht.child (by simp) ha
      exact (heval (ht.child (by simp) hc) n hn).bind fun v m₁ hm₁ _ =>
        .ite (fun _ => .inScope (hexec hbody) hm₁.sound)
          fun _ => .inScope (hexec halternative) hm₁.sound
    | expression he => cases he
  | whileDo =>
    cases hsorted with
    | whileDo hc hb => exact hloop (ht.child (by simp) hc) (ht.child (by simp) hb) n hn
    | expression he => cases he
  | ret =>
    cases hsorted with
    | ret he =>
      refine .get (.ite (fun _ => .throw hn (condition ht.here _ nofun)) fun _ => ?_)
      exact (heval (ht.child (by simp) he) n hn).bind fun v m₁ hm₁ hv => .setOut hm₁.sound hv
    | expression he => cases he

theorem loopSafe_succ (heval : EvalSafe B options fuel) (hexec : ExecSafe B options fuel)
    (hloop : LoopSafe B options fuel) : LoopSafe B options (fuel + 1) := by
  intro cond body hc hb m hm
  refine .get (.ite (fun _ => .pure hm trivial) fun _ => ?_)
  refine (heval hc m hm).bind fun v m₁ hm₁ _ => .ite (fun _ => ?_) fun _ => .pure hm₁.sound trivial
  exact (Safe.inScope (hexec hb) hm₁.sound).bind fun _ m₂ hm₂ _ => hloop hc hb m₂ hm₂.sound

/-- The run lemma: whatever part of a program runs on a sound machine, it is safe. -/
theorem safe (B : Tree → Prop) (options : Options) (fuel : Nat) :
    EvalSafe B options fuel ∧ ExecSafe B options fuel ∧ LoopSafe B options fuel := by
  induction fuel with
  | zero =>
    exact ⟨fun _ _ _ hm => .throw hm trivial, fun _ _ _ _ hm => .throw hm trivial,
      fun _ _ _ _ _ hm => .throw hm trivial⟩
  | succ fuel ih =>
    obtain ⟨heval, hexec, hloop⟩ := ih
    exact ⟨evalSafe_succ heval hexec, execSafe_succ heval hexec hloop,
      loopSafe_succ heval hexec hloop⟩

end Steps

end ClosureLang

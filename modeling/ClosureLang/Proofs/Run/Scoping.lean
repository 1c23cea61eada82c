import Mathlib.Data.List.Forall2
import ClosureLang.Proofs.Run.Chains
import ClosureLang.Proofs.Run.Contexts
import ClosureLang.Proofs.Run.Tasks

/-! Machines that are where a context says: the scopes around the current one bind the names that
the blocks of the context do. -/
namespace ClosureLang

open ClosureLang.Tree

/-- The names that every scope binds in the end. -/
abbrev Finals := ScopeId → List String

variable {P : Context → Tree → Prop} {φ φ' : Finals} {s s' : Store} {e : ScopeId} {x : String}
  {names : ScopeId → List String}

/-- The scopes that are there bind the same names in the end. -/
def Store.Agrees (s : Store) (φ φ' : Finals) : Prop := ∀ e : Nat, e < s.scopes.size → φ' e = φ e

theorem Store.Agrees.refl (s : Store) (φ : Finals) : s.Agrees φ φ := fun _ _ => rfl

theorem Store.Agrees.trans {φ'' : Finals} (h : s.Agrees φ φ') (hgrows : s.Grows names s')
    (h' : s'.Agrees φ' φ'') : s.Agrees φ φ'' :=
  fun e he => (h' e (Nat.lt_of_lt_of_le he hgrows.size_le)).trans (h e he)

/-- The finals with those of one more scope. -/
def Finals.extend (φ : Finals) (e : ScopeId) (xs : List String) : Finals :=
  fun i => if i = e then xs else φ i

theorem Store.agrees_extend (s : Store) (φ : Finals) (xs : List String) :
    s.Agrees φ (φ.extend s.scopes.size xs) := fun _ he => if_neg (Nat.ne_of_lt he)

/-- Where the body of a function runs: in the scope of the call, inside the scope in which the
function was made. -/
def Closure.context (c : Closure) (φ : Finals) (s : Store) : Context :=
  { frames := ⟨c.params, c.params ++ c.body.declared⟩ :: (s.chain c.scope).map fun e => ⟨φ e, φ e⟩
    outside := false }

namespace Store

/-- Scopes bind names that they bind in the end, and `P` holds of the bodies of functions. -/
structure Typed (P : Context → Tree → Prop) (φ : Finals) (s : Store) : Prop where
  older : s.Older
  bound : ∀ e x, s.Binds e x → x ∈ φ e
  scopes : ∀ id c, s.closure? id = some c → c.scope < s.scopes.size
  bodies : ∀ id c, s.closure? id = some c → InPlace .block c.body ∧ Sited P (c.context φ s) c.body

theorem context_congr {c : Closure} (hgrows : s.Grows names s') (hs : s.Older) (hs' : s'.Older)
    (hφ : s.Agrees φ φ') (hc : c.scope < s.scopes.size) : c.context φ' s' = c.context φ s := by
  have hframes : (s.chain c.scope).map (fun e => Frame.mk (φ' e) (φ' e)) =
      (s.chain c.scope).map fun e => Frame.mk (φ e) (φ e) :=
    List.map_congr_left fun e he => by rw [hφ e (lt_of_mem_chain hs _ e he).1]
  simp only [Closure.context, hgrows.chain_eq hs hs' _ hc, hframes]

theorem context_of_scopes {c : Closure} (hscopes : s'.scopes = s.scopes) (hs : s.Older)
    (hc : c.scope < s.scopes.size) : c.context φ s' = c.context φ s := by
  have hgrows : s.Grows (fun _ => []) s' := .of_scopes hscopes
  exact context_congr hgrows hs (by rwa [Older, hscopes]) (.refl s φ) hc

theorem not_binds_initial : ¬ initial.Binds e x := by
  intro hx
  obtain ⟨scope, hscope, htag⟩ := binds_iff.mp hx
  have hmem : scope ∈ initial.scopes := Array.mem_of_getElem? hscope
  simp only [initial, List.mem_toArray, List.mem_singleton] at hmem
  simp [hmem, Scope.tags] at htag

theorem typed_initial : initial.Typed P φ where
  older e scope hscope p hp := by
    have hmem : scope ∈ initial.scopes := Array.mem_of_getElem? hscope
    simp only [initial, List.mem_toArray, List.mem_singleton] at hmem
    simp [hmem] at hp
  bound e x hx := absurd hx not_binds_initial
  scopes id c hc := by simp [closure?, initial] at hc
  bodies id c hc := by simp [closure?, initial] at hc

namespace Typed

/-- The scopes may grow. -/
theorem of_grows (h : s.Typed P φ) (hgrows : s.Grows names s')
    (hclosures : s'.closures = s.closures) (hφ : s.Agrees φ φ') (holder : s'.Older)
    (hbound : ∀ e x, s'.Binds e x → x ∈ φ' e) :
    s'.Typed P φ' := by
  have hclosure : ∀ id, s'.closure? id = s.closure? id :=
    fun id => by rw [closure?, closure?, hclosures]
  refine ⟨holder, hbound, fun id c hc => ?_, fun id c hc => ?_⟩
  · exact Nat.lt_of_lt_of_le (h.scopes id c (hclosure id ▸ hc)) hgrows.size_le
  · rw [hclosure] at hc
    rw [context_congr hgrows h.older holder hφ (h.scopes id c hc)]
    exact h.bodies id c hc

theorem set (h : s.Typed P φ) (e : ScopeId) (x : String) (v : Value) : (s.set e x v).Typed P φ := by
  have hgrows : s.Grows (fun _ => []) (s.set e x v) := .set e x v
  have hsize : (s.set e x v).scopes.size = s.scopes.size := by simp [Store.set]
  refine h.of_grows hgrows rfl (.refl s φ) (h.older.modify fun _ => rfl) fun i y hy => ?_
  have hi := lt_of_binds hy
  rw [hsize] at hi
  rcases hgrows.of_binds hi hy with hy | hy
  · exact h.bound i y hy
  · contradiction

theorem define {v : Value} {type : String} (h : s.Typed P φ) (hx : x ∈ φ e)
    (hdefine : s.define e x v type = some s') : s'.Typed P φ := by
  have hgrows := Grows.define hdefine
  obtain ⟨-, rfl⟩ := eq_of_define hdefine
  refine h.of_grows hgrows rfl (.refl s φ) (h.older.modify fun _ => rfl) fun i y hy => ?_
  have hi := lt_of_binds hy
  simp only [Array.size_modify] at hi
  rcases hgrows.of_binds hi hy with hy | hy
  · exact h.bound i y hy
  · by_cases hie : i = e
    · simp only [only, hie, if_true, List.mem_singleton] at hy
      exact hie ▸ hy ▸ hx
    · simp [only, hie] at hy

theorem nameClosure (h : s.Typed P φ) (id : ClosureId) (name : String) :
    (s.nameClosure id name).Typed P φ := by
  have hclosure : ∀ i c, (s.nameClosure id name).closure? i = some c →
      ∃ c₀, s.closure? i = some c₀ ∧ c.scope = c₀.scope ∧ c.params = c₀.params ∧
        c.body = c₀.body := by
    intro i c hc
    simp only [Store.nameClosure, closure?, Array.getElem?_modify] at hc
    split at hc
    · obtain ⟨c₀, hc₀, rfl⟩ := Option.map_eq_some_iff.mp hc
      refine ⟨c₀, hc₀, ?_⟩
      split <;> exact ⟨rfl, rfl, rfl⟩
    · exact ⟨c, hc, rfl, rfl, rfl⟩
  refine ⟨h.older, h.bound, fun i c hc => ?_, fun i c hc => ?_⟩
  · obtain ⟨c₀, hc₀, hscope, -⟩ := hclosure i c hc
    rw [hscope]
    exact h.scopes i c₀ hc₀
  · obtain ⟨c₀, hc₀, hscope, hparams, hbody⟩ := hclosure i c hc
    have hsame : c.context φ (s.nameClosure id name) = c₀.context φ (s.nameClosure id name) := by
      simp only [Closure.context, hscope, hparams, hbody]
    have hcontext : c₀.context φ (s.nameClosure id name) = c₀.context φ s :=
      context_of_scopes rfl h.older (h.scopes i c₀ hc₀)
    rw [hsame, hcontext, hbody]
    exact h.bodies i c₀ hc₀

theorem newClosure {c : Closure} (h : s.Typed P φ) (hscope : c.scope < s.scopes.size)
    (hplace : InPlace .block c.body) (hbody : Sited P (c.context φ s) c.body) :
    (s.newClosure c).2.Typed P φ := by
  have hclosure : ∀ i c', (s.newClosure c).2.closure? i = some c' →
      c' = c ∨ s.closure? i = some c' := by
    intro i c' hc
    simp only [Store.newClosure, closure?, Array.getElem?_push] at hc
    split at hc
    · exact .inl (Option.some.inj hc).symm
    · exact .inr hc
  have hcontext : ∀ c' : Closure, c'.scope < s.scopes.size →
      c'.context φ (s.newClosure c).2 = c'.context φ s :=
    fun _ hc' => context_of_scopes rfl h.older hc'
  refine ⟨h.older, h.bound, fun i c' hc => ?_, fun i c' hc => ?_⟩
  · obtain rfl | hc := hclosure i c' hc
    · exact hscope
    · exact h.scopes i c' hc
  · obtain rfl | hc := hclosure i c' hc
    · rw [hcontext _ hscope]
      exact ⟨hplace, hbody⟩
    · rw [hcontext _ (h.scopes i c' hc)]
      exact h.bodies i c' hc

theorem newScope {p : ScopeId} (h : s.Typed P φ) (hp : p < s.scopes.size) (xs : List String) :
    (s.newScope p).2.Typed P (φ.extend s.scopes.size xs) := by
  have hgrows : s.Grows (fun _ => []) (s.newScope p).2 := .newScope p
  have hφ := s.agrees_extend φ xs
  refine h.of_grows hgrows rfl hφ (h.older.newScope hp) fun i y hy => ?_
  by_cases hi : i < s.scopes.size
  · rcases hgrows.of_binds hi hy with hy | hy
    · rw [hφ i hi]
      exact h.bound i y hy
    · contradiction
  · obtain ⟨scope, hscope, hmem⟩ := binds_iff.mp hy
    simp only [Store.newScope, Array.getElem?_push] at hscope
    split at hscope
    · cases hscope
      contradiction
    · exact absurd (Array.getElem?_eq_some_iff.mp hscope).1 hi

theorem enter {c : Closure} (h : s.Typed P φ) (hc : c.scope < s.scopes.size) (args : List Value)
    {xs : List String} (hxs : c.params ⊆ xs) :
    (s.enter c args).2.Typed P (φ.extend s.scopes.size xs) := by
  refine bindParams_induction (h.newScope hc xs) fun s₁ s₂ x v type hx hs hdefine => ?_
  refine hs.define ?_ hdefine
  rw [Finals.extend, Store.newScope, if_pos rfl]
  exact hxs (List.of_mem_zip hx).1

end Typed

/-- A scope is like a block: it binds no more names, and just those if the block is outside all
functions. -/
structure Holds (s : Store) (φ : Finals) (outside : Bool) (e : ScopeId) (f : Frame) : Prop where
  bound : ∀ x, s.Binds e x → x ∈ f.bound
  exact : outside = true → ∀ x ∈ f.bound, s.Binds e x
  final : φ e = f.final

theorem Holds.of_grows {outside : Bool} {f : Frame} (h : s.Holds φ outside e f)
    (hgrows : s.Grows names s') (hφ : s.Agrees φ φ') (he : e < s.scopes.size)
    (hnames : names e = []) :
    s'.Holds φ' outside e f := by
  refine ⟨fun x hx => ?_, fun ho x hx => hgrows.binds (h.exact ho x hx), (hφ e he).trans h.final⟩
  rcases hgrows.of_binds he hx with hx | hx
  · exact h.bound x hx
  · rw [hnames] at hx
    contradiction

end Store

/-- A machine is where a context says. -/
structure Machine.At (φ : Finals) (c : Context) (m : Machine) : Prop where
  scope : m.scope < m.store.scopes.size
  frames : List.Forall₂ (m.store.Holds φ c.outside) (m.store.chain m.scope) c.frames
  outside : c.outside = true ↔ m.depth = 0
  running : c.outside = true → m.returning = false

/-- A machine is where a context says, with a store that is typed. -/
structure Machine.Scoped (P : Context → Tree → Prop) (φ : Finals) (c : Context)
    (m : Machine) : Prop where
  typed : m.store.Typed P φ
  here : m.At φ c

namespace Machine

variable {c : Context} {m m' : Machine} {xs : List String}

theorem At.congr (h : m.At φ c) (hstore : m'.store = m.store) (hscope : m'.scope = m.scope)
    (hdepth : m'.depth = m.depth) (hreturning : m'.returning = m.returning) : m'.At φ c := by
  refine ⟨?_, ?_, ?_, ?_⟩
  · rw [hscope, hstore]
    exact h.scope
  · rw [hscope, hstore]
    exact h.frames
  · rw [hdepth]
    exact h.outside
  · rw [hreturning]
    exact h.running

/-- The body of a function that is made now stands in a block inside the blocks that are around. -/
theorem At.context_function (h : m.At φ c) {f : Closure} (hf : f.scope = m.scope) :
    f.context φ m.store = c.function f.params f.body := by
  have hframes : ∀ {es : List ScopeId} {fs : List Frame},
      List.Forall₂ (m.store.Holds φ c.outside) es fs →
      (es.map fun e => Frame.mk (φ e) (φ e)) = fs.map Frame.finished := by
    intro es fs h
    induction h with
    | nil => rfl
    | cons hf _ ih => rw [List.map_cons, List.map_cons, ih, Frame.finished, hf.final]
  simp only [Closure.context, Context.function, hf, hframes h.frames]

/-- The current scope is like the innermost block of the context. -/
theorem At.innermost (h : m.At φ c) (hs : m.store.Older) :
    ∃ f fs es, c.frames = f :: fs ∧ m.store.chain m.scope = m.scope :: es ∧
      m.store.Holds φ c.outside m.scope f ∧ List.Forall₂ (m.store.Holds φ c.outside) es fs ∧
      ∀ e ∈ es, e < m.store.scopes.size ∧ e ≠ m.scope := by
  obtain ⟨scope, hscope⟩ : ∃ scope, m.store.scopes[m.scope]? = some scope :=
    ⟨_, Array.getElem?_eq_getElem h.scope⟩
  have hchain := Store.chain_eq hs hscope
  have hframes := h.frames
  rw [hchain] at hframes
  cases hfs : c.frames with
  | nil =>
    rw [hfs] at hframes
    cases hframes
  | cons f fs =>
    rw [hfs] at hframes
    obtain ⟨hf, hrest⟩ := List.forall₂_cons.mp hframes
    refine ⟨f, fs, _, rfl, hchain, hf, hrest, fun e he => ?_⟩
    cases hparent : scope.parent with
    | none => simp [hparent] at he
    | some p =>
      have hp := hs _ _ hscope p hparent
      simp only [hparent, Option.map_some, Option.getD_some] at he
      obtain ⟨hsize, hle⟩ := Store.lt_of_mem_chain hs p e he
      exact ⟨hsize, Nat.ne_of_lt (Nat.lt_of_le_of_lt hle hp)⟩

/-- The current scope binds in the end what the innermost block does. -/
theorem At.final (h : m.At φ c) (hs : m.store.Older) : φ m.scope = c.final := by
  obtain ⟨f, fs, es, hframes, -, hf, -⟩ := h.innermost hs
  rw [hf.final, Context.final, hframes]
  rfl

/-- What the current scope binds, the innermost block does. -/
theorem At.bound (h : m.At φ c) (hs : m.store.Older) (hx : m.store.Binds m.scope x) :
    x ∈ c.bound := by
  obtain ⟨f, fs, es, hframes, -, hf, -⟩ := h.innermost hs
  rw [Context.bound, hframes]
  exact hf.bound x hx

/-- Where a statement leads that was executed well. -/
theorem At.executed (h : m.At φ c) (hs : m.store.Older) (hs' : m'.store.Older)
    (hm : m.Executed xs m') (hφ : m.store.Agrees φ φ')
    (hbinds : c.outside = true → ∀ x ∈ xs, m'.store.Binds m.scope x) :
    m'.At φ' (c.declare xs) := by
  obtain ⟨f, fs, es, hframes, hchain, hf, hrest, hes⟩ := h.innermost hs
  have hcontext : c.declare xs = { c with frames := ⟨f.bound ++ xs, f.final⟩ :: fs } := by
    simp only [Context.declare, hframes]
  have hgrows := hm.store
  refine ⟨?_, ?_, ?_, ?_⟩
  · rw [hm.scope]
    exact Nat.lt_of_lt_of_le h.scope hgrows.size_le
  · rw [hm.scope, hgrows.chain_eq hs hs' _ h.scope, hchain, hcontext]
    refine .cons ⟨fun x hx => ?_, fun ho x hx => ?_, (hφ _ h.scope).trans hf.final⟩ ?_
    · rcases hgrows.of_binds h.scope hx with hx | hx
      · exact List.mem_append_left _ (hf.bound x hx)
      · exact List.mem_append_right _ (by simpa [Store.only] using hx)
    · rcases List.mem_append.mp hx with hx | hx
      · exact hgrows.binds (hf.exact ho x hx)
      · exact hbinds ho x hx
    · refine ((List.forall₂_and_left _ _).mpr ⟨hes, hrest⟩).imp fun e f he => ?_
      exact he.2.of_grows hgrows hφ he.1.1 (by simp [Store.only, he.1.2])
  · rw [hcontext, hm.depth]
    exact h.outside
  · rw [hcontext]
    intro ho
    rw [(hm.outside (h.outside.mp ho)).1]
    exact h.running ho

/-- Where an expression leads. -/
theorem At.evaluated (h : m.At φ c) (hs : m.store.Older) (hs' : m'.store.Older)
    (hm : m.Evaluated m') (hφ : m.store.Agrees φ φ') : m'.At φ' c := by
  have hexecuted : m.Executed [] m' := hm.executed
  have hat := h.executed hs hs' hexecuted hφ fun _ => nofun
  rwa [Context.declare_nil] at hat

/-- A new scope is like a block in which nothing is bound yet. -/
theorem At.inBlock (h : m.At φ c) (hs : m.store.Older) (t : Tree) :
    m.inBlock.At (φ.extend m.store.scopes.size t.declared) (c.block t) := by
  have hgrows : m.store.Grows (fun _ => []) (m.store.newScope m.scope).2 := .newScope m.scope
  have hφ := m.store.agrees_extend φ t.declared
  have hlt : ∀ e ∈ m.store.chain m.scope, e < m.store.scopes.size := fun e he =>
    (Store.lt_of_mem_chain hs _ e he).1
  have hnew : (m.store.newScope m.scope).2.scopes[m.store.scopes.size]? =
      some { parent := some m.scope } := by simp [Store.newScope]
  refine ⟨?_, ?_, h.outside, h.running⟩
  · exact (Array.getElem?_eq_some_iff.mp hnew).1
  · show List.Forall₂ _ ((m.store.newScope m.scope).2.chain m.store.scopes.size)
      (⟨[], t.declared⟩ :: c.frames)
    rw [Store.chain_newScope hs h.scope]
    refine .cons ⟨fun x hx => ?_, fun _ _ hx => absurd hx List.not_mem_nil, if_pos rfl⟩ ?_
    · obtain ⟨scope, hscope, hmem⟩ := Store.binds_iff.mp hx
      cases hnew.symm.trans hscope
      exact hmem
    · refine ((List.forall₂_and_left _ _).mpr ⟨hlt, h.frames⟩).imp fun e f he => ?_
      exact he.2.of_grows hgrows hφ he.1 rfl

theorem Scoped.inBlock (h : m.Scoped P φ c) (t : Tree) :
    m.inBlock.Scoped P (φ.extend m.store.scopes.size t.declared) (c.block t) :=
  ⟨h.typed.newScope h.here.scope _, h.here.inBlock h.typed.older t⟩

/-- The scope of a call is like the body of its function with the parameters bound. -/
theorem Scoped.calling (options : Options) (id : ClosureId) {f : Closure} (h : m.store.Typed P φ)
    (hf : f.scope < m.store.scopes.size) (args : List Value) :
    (m.calling options id f args).Scoped P
      (φ.extend m.store.scopes.size (f.params ++ f.body.declared)) (f.context φ m.store) := by
  have hφ := m.store.agrees_extend φ (f.params ++ f.body.declared)
  have hnew : (m.store.newScope f.scope).2.scopes[m.store.scopes.size]? =
      some { parent := some f.scope } := by simp [Store.newScope]
  have hbinds : (m.store.newScope f.scope).2.Grows (Store.only m.store.scopes.size f.params)
      (m.store.enter f args).2 := .bindParams f _ args _
  have hgrows : m.store.Grows (fun _ => []) (m.store.enter f args).2 := .enter f args
  have htyped : (m.store.enter f args).2.Typed P
      (φ.extend m.store.scopes.size (f.params ++ f.body.declared)) :=
    h.enter hf args (List.subset_append_left ..)
  have hlt := (Array.getElem?_eq_some_iff.mp hnew).1
  have hchain : (m.store.enter f args).2.chain m.store.scopes.size =
      m.store.scopes.size :: m.store.chain f.scope := by
    rw [hbinds.chain_eq (h.older.newScope hf) htyped.older _ hlt, Store.chain_newScope h.older hf]
  have hinside : (f.context φ m.store).outside ≠ true := Bool.false_ne_true
  refine ⟨htyped, Nat.lt_of_lt_of_le hlt hbinds.size_le, ?_, ?_,
    fun houtside => absurd houtside hinside⟩
  · show List.Forall₂ _ ((m.store.enter f args).2.chain m.store.scopes.size) _
    rw [hchain]
    refine .cons ⟨fun x hx => ?_, fun houtside => absurd houtside hinside, if_pos rfl⟩ ?_
    · rcases hbinds.of_binds hlt hx with hx | hx
      · obtain ⟨scope, hscope, hmem⟩ := Store.binds_iff.mp hx
        cases hnew.symm.trans hscope
        contradiction
      · simpa [Store.only] using hx
    · refine List.forall₂_map_right_iff.mpr (List.forall₂_same.mpr fun e he => ?_)
      have hlt := (Store.lt_of_mem_chain h.older _ e he).1
      refine ⟨fun x hx => ?_, fun houtside => absurd houtside hinside, hφ e hlt⟩
      rcases hgrows.of_binds hlt hx with hx | hx
      · exact h.bound e x hx
      · contradiction
  · simp [Closure.context, Machine.calling]

theorem Scoped.within {options : Options} {what : String} {node : Tree} (h : m.Scoped P φ c) :
    (m.within options what node).Scoped P φ c :=
  ⟨by simpa using h.typed, h.here.congr (by simp) (by simp) (by simp) (by simp)⟩

end Machine

end ClosureLang

import ClosureLang.Grammar.Lexis
import ClosureLang.Proofs.Run.Chains
import ClosureLang.Proofs.Run.Tasks
import ClosureLang.Proofs.Tree.Names

/-! Programs in which another name stands in some places, and the stores and machines of their runs,
which differ in the names of variables at most. -/
namespace ClosureLang

open ClosureLang.Tree

/-- The same reason to stop, at another node. -/
def Stop.mapNode (f : Tree → Tree) : Stop → Stop
  | condition c u => condition c (f u)
  | s => s

/-- A new name for an old one in some places of a program, and the new place of everything. -/
structure Respelling where
  program : Tree
  old : String
  new : String
  /-- The name for a name at an offset. -/
  name : Int → String → String
  place : Int → Int
  unreserved : Grammar.isReserved old = false
  fresh : ∀ m ∈ program.marks, m.name ≠ new
  name_eq : ∀ o x, name o x = x ∨ x = old ∧ name o x = new

namespace Respelling

variable {ρ : Respelling} {x x' y y' : String} {o : Int} {f : Form} {ts : List Tree} {w : Int64}

def tree (ρ : Respelling) (t : Tree) : Tree := t.relabel ρ.name ρ.place

/-- The same reason to stop, at the node of the other program. -/
def stop (ρ : Respelling) (s : Stop) : Stop := s.mapNode ρ.tree

@[simp] theorem tree_form : ρ.tree (form f o ts) = form f (ρ.place o) (ts.map ρ.tree) :=
  relabel_form

@[simp] theorem tree_ident : ρ.tree (ident o x) = ident (ρ.place o) (ρ.name o x) := relabel_ident

@[simp] theorem tree_int : ρ.tree (int o w) = int (ρ.place o) w := relabel_int

/-- Names that no respelling concerns stay. -/
theorem name_of_ne (hx : x ≠ ρ.old) (o : Int) : ρ.name o x = x :=
  (ρ.name_eq o x).resolve_right fun h => hx h.1

/-- A name and what may stand for it. The new name does not occur so far. -/
inductive Spells (ρ : Respelling) : String → String → Prop where
  | kept {x : String} : x ≠ ρ.new → Spells ρ x x
  | changed : Spells ρ ρ.old ρ.new

theorem spells (hx : x ≠ ρ.new) (o : Int) : ρ.Spells x (ρ.name o x) := by
  obtain hkept | ⟨rfl, hchanged⟩ := ρ.name_eq o x
  · rw [hkept]
    exact .kept hx
  · rw [hchanged]
    exact .changed

/-- Different names stay different. -/
theorem Spells.injective (h : ρ.Spells x x') (h' : ρ.Spells y y') (heq : x' = y') : x = y := by
  cases h with
  | kept hx =>
    cases h' with
    | kept => exact heq
    | changed => exact absurd heq hx
  | changed =>
    cases h' with
    | kept hy => exact absurd heq.symm hy
    | changed => rfl

theorem mem_of_spells {xs xs' : List String} (h : List.Forall₂ ρ.Spells xs xs') (hx' : x' ∈ xs') :
    ∃ x ∈ xs, ρ.Spells x x' := by
  induction h with
  | nil => cases hx'
  | @cons x y' xs xs' hspells _ ih =>
    rcases List.mem_cons.mp hx' with rfl | hx'
    · exact ⟨x, List.mem_cons_self, hspells⟩
    · obtain ⟨y, hy, hspells⟩ := ih hx'
      exact ⟨y, List.mem_cons_of_mem _ hy, hspells⟩

theorem nodup_of_spells {xs xs' : List String} (h : List.Forall₂ ρ.Spells xs xs') (hxs : xs.Nodup) :
    xs'.Nodup := by
  induction h with
  | nil => exact .nil
  | @cons x x' xs xs' hx hrest ih =>
    rw [List.nodup_cons] at hxs ⊢
    refine ⟨fun hmem => hxs.1 ?_, ih hxs.2⟩
    obtain ⟨y, hy, hspells⟩ := mem_of_spells hrest hmem
    rwa [hx.injective hspells rfl]

/-- The program declares a name at an offset. -/
def DeclaresAt (ρ : Respelling) (x : String) (o : Int) : Prop := ⟨o, x, true⟩ ∈ ρ.program.marks

/-- A name and what stands for it where the program declares it and `D` holds. -/
def Declares (ρ : Respelling) (D : String → Int → Prop) (x x' : String) : Prop :=
  ∃ o, ρ.DeclaresAt x o ∧ D x o ∧ x' = ρ.name o x

theorem Declares.spells {D : String → Int → Prop} (h : ρ.Declares D x x') : ρ.Spells x x' := by
  obtain ⟨o, ho, -, rfl⟩ := h
  exact ρ.spells (ρ.fresh _ ho) o

end Respelling

/-! Scopes with respelled names. -/

namespace Scope

variable {ρ : Respelling} {D : String → Int → Prop} {s s' : Scope} {x x' : String}

/-- Scopes with the same bindings, up to the names. `D` says which names were declared in the first
one, and where. -/
structure Respelled (ρ : Respelling) (D : String → Int → Prop) (s s' : Scope) : Prop where
  parent : s'.parent = s.parent
  vars : List.Forall₂ (fun p p' => ρ.Declares D p.1 p'.1 ∧ p'.2 = p.2) s.vars s'.vars

/-- Where the name `x` is bound in the first scope, `x'` is in the second one. -/
def Matches (s s' : Scope) (x x' : String) : Prop :=
  ∀ q ∈ s.vars.zip s'.vars, q.1.1 = x → q.2.1 = x'

/-- A name matches where it is not bound. -/
theorem matches_of_free (hfree : s.find? x = none) (s' : Scope) (x' : String) :
    s.Matches s' x x' := by
  intro q hq hqx
  rw [find?, List.lookup_eq_none_iff] at hfree
  simpa [hqx] using hfree q.1 (List.of_mem_zip hq).1

namespace Respelled

variable (h : s.Respelled ρ D s')

include h

/-- Names match if the second one stands for the first one wherever that is declared. -/
theorem matches_of_declared (hname : ∀ o, ρ.DeclaresAt x o → D x o → ρ.name o x = x') :
    s.Matches s' x x' := by
  rintro q hq rfl
  obtain ⟨o, hmark, ho, hname'⟩ := (List.forall₂_zip h.vars hq).1
  rw [hname', hname o hmark ho]

theorem find?_eq (hx : ρ.Spells x x') (hmatch : s.Matches s' x x') : s'.find? x' = s.find? x := by
  obtain ⟨-, hvars⟩ := h
  unfold Matches at hmatch
  unfold find?
  generalize s.vars = vars at hvars hmatch
  generalize s'.vars = vars' at hvars hmatch
  induction hvars with
  | nil => rfl
  | @cons p p' vars vars' hp _ ih =>
    obtain ⟨hpx, hrest⟩ := List.forall_mem_cons.mp hmatch
    rw [List.lookup_cons, List.lookup_cons, ih hrest, hp.2]
    by_cases heq : x = p.1
    · rw [← hpx heq.symm, heq, beq_self_eq_true, beq_self_eq_true]
    · have hne : x' ≠ p'.1 := fun heq' => heq (hx.injective hp.1.spells heq')
      rw [beq_false_of_ne heq, beq_false_of_ne hne]

theorem update (hx : ρ.Spells x x') (hmatch : s.Matches s' x x') (v : Value) :
    (s.update x v).Respelled ρ D (s'.update x' v) := by
  refine ⟨h.parent,
    List.forall₂_map_left_iff.mpr (List.forall₂_map_right_iff.mpr (List.forall₂_iff_zip.mpr ?_))⟩
  refine ⟨h.vars.length_eq, fun {p p'} hq => ?_⟩
  obtain ⟨hdeclares, hbinding⟩ := List.forall₂_zip h.vars hq
  obtain ⟨y, b⟩ := p
  obtain ⟨y', b'⟩ := p'
  cases hbinding
  by_cases heq : y = x
  · have heq' : y' = x' := hmatch _ hq heq
    subst heq heq'
    simpa using hdeclares
  · have hne : y' ≠ x' := fun heq' => heq (hdeclares.spells.injective hx heq')
    simpa only [heq, hne, if_false, and_true] using hdeclares

end Respelled

end Scope

/-- The function of the other program. Its name is for reports only. -/
structure Closure.Respelled (ρ : Respelling) (c c' : Closure) : Prop where
  params :
      List.Forall₂ (ρ.Declares fun x o => ident o x ∈ (c.node.child 0).children) c.params c'.params
  distinct : c.params.Nodup
  body : c'.body = ρ.tree c.body
  scope : c'.scope = c.scope
  signature : c'.signature = c.signature

/-! Stores with respelled scopes and functions. -/

namespace Store

variable {ρ : Respelling} {D : ScopeId → String → Int → Prop} {s s' : Store} {x x' : String}
  {e i : ScopeId}

structure Respelled (ρ : Respelling) (D : ScopeId → String → Int → Prop) (s s' : Store) : Prop where
  scopes : ∀ e : Nat, Option.Rel (Scope.Respelled ρ (D e)) s.scopes[e]? s'.scopes[e]?
  closures : ∀ id : Nat, Option.Rel (Closure.Respelled ρ) s.closures[id]? s'.closures[id]?

def Matches (s s' : Store) (e : ScopeId) (x x' : String) : Prop :=
  ∀ scope ∈ s.scopes[e]?, ∀ scope' ∈ s'.scopes[e]?, Scope.Matches scope scope' x x'

theorem matches_of_free (hfree : ¬ s.Binds e x) (s' : Store) (x' : String) :
    s.Matches s' e x x' := by
  intro scope hscope scope' _
  rw [Option.mem_def] at hscope
  refine Scope.matches_of_free ?_ scope' x'
  simpa [Binds, binding?, hscope] using hfree

theorem eq_none_iff_of_rel {α : Type} {R : α → α → Prop} {a b : Option α} (h : Option.Rel R a b) :
    a = none ↔ b = none := by
  cases h <;> simp

theorem size_eq_of_rel {α : Type} {R : Nat → α → α → Prop} {xs xs' : Array α}
    (h : ∀ i : Nat, Option.Rel (R i) xs[i]? xs'[i]?) : xs'.size = xs.size := by
  have hle : ∀ i : Nat, xs.size ≤ i ↔ xs'.size ≤ i := by
    intro i
    rw [← Array.getElem?_eq_none_iff, ← Array.getElem?_eq_none_iff]
    exact eq_none_iff_of_rel (h i)
  exact Nat.le_antisymm ((hle _).mp (Nat.le_refl _)) ((hle _).mpr (Nat.le_refl _))

theorem rel_push {α : Type} {R : Nat → α → α → Prop} {xs xs' : Array α} {a a' : α}
    (h : ∀ i : Nat, Option.Rel (R i) xs[i]? xs'[i]?) (ha : R xs.size a a') (i : Nat) :
    Option.Rel (R i) (xs.push a)[i]? (xs'.push a')[i]? := by
  rw [Array.getElem?_push, Array.getElem?_push, size_eq_of_rel h]
  split
  · rename_i hi
    subst hi
    exact .some ha
  · exact h i

theorem rel_modify {α : Type} {R : Nat → α → α → Prop} {xs xs' : Array α} {f f' : α → α} {j : Nat}
    (h : ∀ i : Nat, Option.Rel (R i) xs[i]? xs'[i]?)
    (hf : ∀ a ∈ xs[j]?, ∀ a' ∈ xs'[j]?, R j a a' → R j (f a) (f' a')) (i : Nat) :
    Option.Rel (R i) (xs.modify j f)[i]? (xs'.modify j f')[i]? := by
  rw [Array.getElem?_modify, Array.getElem?_modify]
  split
  · rename_i hij
    subst hij
    have hi := h j
    revert hi hf
    generalize xs[j]? = a
    generalize xs'[j]? = b
    rintro hf (hR | _)
    · exact .some (hf _ rfl _ rfl hR)
    · exact .none
  · exact h i

namespace Respelled

variable (h : s.Respelled ρ D s')

include h

theorem size_scopes : s'.scopes.size = s.scopes.size := size_eq_of_rel h.scopes

theorem size_closures : s'.closures.size = s.closures.size := size_eq_of_rel h.closures

theorem parents_eq : s'.parents = s.parents := by
  funext e
  have he := h.scopes e
  simp only [parents]
  revert he
  generalize s.scopes[e]? = a
  generalize s'.scopes[e]? = b
  rintro (hscope | _)
  · exact congrArg some hscope.parent
  · rfl

theorem chain_eq (e : ScopeId) : s'.chain e = s.chain e := by
  rw [chain_eq_lineage, chain_eq_lineage, h.parents_eq]

theorem binding?_eq (hx : ρ.Spells x x') (hmatch : s.Matches s' e x x') :
    s'.binding? e x' = s.binding? e x := by
  have he := h.scopes e
  unfold Matches at hmatch
  unfold binding?
  revert he hmatch
  generalize s.scopes[e]? = a
  generalize s'.scopes[e]? = b
  rintro hmatch (hscope | _)
  · exact hscope.find?_eq hx (hmatch _ rfl _ rfl)
  · rfl

theorem matches_of_declared (hname : ∀ o, ρ.DeclaresAt x o → D e x o → ρ.name o x = x') :
    s.Matches s' e x x' := by
  intro scope hscope scope' hscope'
  have he := h.scopes e
  rw [hscope, hscope'] at he
  cases he with
  | some he => exact he.matches_of_declared hname

/-- If the names match in the scope where the first one is found, the other one is found there,
too. -/
theorem locate_eq (hx : ρ.Spells x x') (hmatch : ∀ e, s.locate i x = some e → s.Matches s' e x x') :
    s'.locate i x' = s.locate i x := by
  unfold locate at hmatch ⊢
  rw [h.chain_eq]
  generalize s.chain i = es at hmatch ⊢
  induction es with
  | nil => rfl
  | cons e es ih =>
    by_cases hbinds : (s.binding? e x).isSome = true
    · rw [List.find?_cons_of_pos (p := fun e => (s.binding? e x).isSome) hbinds] at hmatch ⊢
      refine List.find?_cons_of_pos (p := fun e => (s'.binding? e x').isSome) ?_
      rwa [h.binding?_eq hx (hmatch e rfl)]
    · rw [List.find?_cons_of_neg (p := fun e => (s.binding? e x).isSome) hbinds] at hmatch ⊢
      rw [List.find?_cons_of_neg (p := fun e => (s'.binding? e x').isSome), ih hmatch]
      rwa [h.binding?_eq hx (matches_of_free hbinds s' x')]

theorem get?_eq (hx : ρ.Spells x x') (hmatch : ∀ e, s.locate i x = some e → s.Matches s' e x x') :
    s'.get? i x' = s.get? i x := by
  unfold get?
  rw [h.locate_eq hx hmatch]
  cases hlocate : s.locate i x with
  | none => rfl
  | some e => simp only [Option.bind_eq_bind, Option.bind_some, h.binding?_eq hx (hmatch e hlocate)]

theorem set (hx : ρ.Spells x x') (hmatch : s.Matches s' e x x') (v : Value) :
    (s.set e x v).Respelled ρ D (s'.set e x' v) where
  scopes := rel_modify h.scopes fun scope hscope scope' hscope' hrel =>
    hrel.update hx (hmatch scope hscope scope' hscope') v
  closures := h.closures

/-- Names that are not bound yet are declared alike. -/
theorem define (hx : ρ.Declares (D e) x x') (hfree : ¬ s.Binds e x) (v : Value) (type : String) :
    Option.Rel (Respelled ρ D) (s.define e x v type) (s'.define e x' v type) := by
  unfold Store.define
  rw [h.binding?_eq hx.spells (matches_of_free hfree s' x')]
  split
  · exact .none
  · refine .some ⟨rel_modify h.scopes fun scope _ scope' _ hrel => ?_, h.closures⟩
    exact ⟨hrel.parent, List.rel_append hrel.vars (.cons ⟨hx, rfl⟩ .nil)⟩

theorem nameClosure (id : ClosureId) (x x' : String) :
    (s.nameClosure id x).Respelled ρ D (s'.nameClosure id x') where
  scopes := h.scopes
  closures := by
    refine rel_modify h.closures fun c _ c' _ hrel => ?_
    split <;> split <;> exact ⟨hrel.params, hrel.distinct, hrel.body, hrel.scope, hrel.signature⟩

theorem newScope (p : ScopeId) : (s.newScope p).2.Respelled ρ D (s'.newScope p).2 where
  scopes := rel_push h.scopes ⟨rfl, .nil⟩
  closures := h.closures

theorem newClosure {c c' : Closure} (hc : c.Respelled ρ c') :
    (s.newClosure c).2.Respelled ρ D (s'.newClosure c').2 where
  scopes := h.scopes
  closures := rel_push h.closures hc

/-- Distinct names are bound alike. -/
theorem bindAll {xs xs' : List String} (hxs : List.Forall₂ (ρ.Declares (D e)) xs xs')
    (hdistinct : xs.Nodup) (he : e < s.scopes.size) (hfree : ∀ x ∈ xs, ¬ s.Binds e x)
    (args : List Value) (type : Nat → String) (k : Nat) :
    (((xs.zip args).zipIdx k).foldl (fun s b => (s.define e b.1.1 b.1.2 (type b.2)).getD s)
      s).Respelled ρ D
      (((xs'.zip args).zipIdx k).foldl
        (fun s b => (s.define e b.1.1 b.1.2 (type b.2)).getD s) s') := by
  induction hxs generalizing args s s' k with
  | nil => exact h
  | @cons x x' xs xs' hx _ ih =>
    rw [List.forall_mem_cons] at hfree
    rw [List.nodup_cons] at hdistinct
    cases args with
    | nil => exact h
    | cons v args =>
      simp only [List.zip_cons_cons, List.zipIdx_cons, List.foldl_cons]
      have hdefine := h.define hx hfree.1 v (type k)
      generalize hd : s.define e x v (type k) = d at hdefine ⊢
      generalize s'.define e x' v (type k) = d' at hdefine ⊢
      cases hdefine with
      | none => exact ih h hdistinct.2 he hfree.2 args (k + 1)
      | some hrel =>
        have hgrows := Grows.define hd
        refine ih hrel hdistinct.2 (Nat.lt_of_lt_of_le he hgrows.size_le) (fun y hy hbinds => ?_)
          args (k + 1)
        rcases hgrows.of_binds he hbinds with hbinds | hmem
        · exact hfree.2 y hy hbinds
        · rw [only, if_pos rfl, List.mem_singleton] at hmem
          exact hdistinct.1 (hmem ▸ hy)

/-- A call starts in a scope of its own, with the parameters bound. -/
theorem enter {c c' : Closure} (hc : c.Respelled ρ c') (args : List Value)
    (hparams : ∀ x o, ident o x ∈ (c.node.child 0).children → D (s.enter c args).1 x o) :
    (s'.enter c' args).1 = (s.enter c args).1 ∧
    (s.enter c args).2.Respelled ρ D (s'.enter c' args).2 := by
  have htype : c'.paramType = c.paramType := by
    funext i
    simp only [Closure.paramType, hc.signature]
  have hscope : (s'.newScope c.scope).1 = (s.newScope c.scope).1 := h.size_scopes
  have hlt : (s.newScope c.scope).1 < (s.newScope c.scope).2.scopes.size := by simp [Store.newScope]
  have hdeclares : List.Forall₂ (ρ.Declares (D (s.newScope c.scope).1)) c.params c'.params :=
    hc.params.imp fun x x' hx => by
      obtain ⟨o, hmark, ho, heq⟩ := hx
      exact ⟨o, hmark, hparams x o ho, heq⟩
  rw [Store.enter, Store.enter, hc.scope]
  refine ⟨hscope, ?_⟩
  simp only [Action.bindParams, hscope, htype]
  refine (h.newScope c.scope).bindAll hdeclares hc.distinct hlt (fun x _ hbinds => ?_)
    args c.paramType 0
  obtain ⟨scope, hnew, hmem⟩ := binds_iff.mp hbinds
  simp only [Store.newScope, Array.getElem?_push, if_true, Option.some.injEq] at hnew
  rw [← hnew] at hmem
  cases hmem

end Respelled

end Store

namespace Machine

variable {ρ : Respelling} {D : ScopeId → String → Int → Prop}

/-- Machines that differ in the names of variables, in their events and in the nesting of the trace
at most. -/
structure Respelled (ρ : Respelling) (D : ScopeId → String → Int → Prop)
    (m m' : Machine) : Prop where
  store : m.store.Respelled ρ D m'.store
  scope : m'.scope = m.scope
  returning : m'.returning = m.returning
  result : m'.result = m.result
  depth : m'.depth = m.depth
  out : m'.out = m.out

namespace Respelled

variable {m m' n n' : Machine}

theorem congr (h : m.Respelled ρ D m') (hm : Alike m n) (hm' : Alike m' n') :
    n.Respelled ρ D n' where
  store := by
    rw [hm.store, hm'.store]
    exact h.store
  scope := by rw [hm'.scope, hm.scope, h.scope]
  returning := by rw [hm'.returning, hm.returning, h.returning]
  result := by rw [hm'.result, hm.result, h.result]
  depth := by rw [hm'.depth, hm.depth, h.depth]
  out := by rw [hm'.out, hm.out, h.out]

theorem within (h : m.Respelled ρ D m') (options options' : Options) (what what' : String)
    (node node' : Tree) :
    (m.within options what node).Respelled ρ D (m'.within options' what' node') := by
  obtain ⟨events, hm⟩ := within_eq options what node m
  obtain ⟨events', hm'⟩ := within_eq options' what' node' m'
  rw [hm, hm']
  exact ⟨h.store, h.scope, h.returning, h.result, h.depth, h.out⟩

theorem inBlock (h : m.Respelled ρ D m') : m.inBlock.Respelled ρ D m'.inBlock where
  store := by
    simp only [Machine.inBlock, h.scope]
    exact h.store.newScope m.scope
  scope := h.store.size_scopes
  returning := h.returning
  result := h.result
  depth := h.depth
  out := h.out

theorem calling (h : m.Respelled ρ D m') {c c' : Closure} (hc : c.Respelled ρ c')
    (options : Options) (id : ClosureId) (args : List Value)
    (hparams : ∀ x o, ident o x ∈ (c.node.child 0).children →
      D (m.calling options id c args).scope x o) :
    (m.calling options id c args).Respelled ρ D (m'.calling options id c' args) where
  store := (h.store.enter hc args hparams).2
  scope := (h.store.enter hc args hparams).1
  returning := rfl
  result := rfl
  depth := congrArg (· + 1) h.depth
  out := h.out

end Respelled

end Machine

end ClosureLang

import Mathlib.Data.List.Basic
import ClosureLang.Run.Machine

/-! How a store grows in a run: no scope goes away, and a scope keeps its variables with their
types. Values may change, and declarations add variables. -/
namespace ClosureLang

/-- The variables of a scope with their type tags, in the order of their declarations. -/
def Scope.tags (s : Scope) : List (String × String) := s.vars.map fun (x, b) => (x, b.type)

/-- What a scope may become if only the given names are declared in it. -/
structure Scope.Extends (names : List String) (s s' : Scope) : Prop where
  parent : s'.parent = s.parent
  tags : ∃ new, s'.tags = s.tags ++ new ∧ ∀ p ∈ new, p.1 ∈ names

namespace Scope.Extends

variable {names names' : List String} {s s₁ s₂ : Scope}

theorem refl (names : List String) (s : Scope) : s.Extends names s := ⟨rfl, [], by simp⟩

theorem trans (h : s.Extends names s₁) (h' : s₁.Extends names s₂) : s.Extends names s₂ := by
  obtain ⟨new, hnew, hmem⟩ := h.tags
  obtain ⟨new', hnew', hmem'⟩ := h'.tags
  refine ⟨h'.parent.trans h.parent, new ++ new', ?_, List.forall_mem_append.mpr ⟨hmem, hmem'⟩⟩
  rw [hnew', hnew, List.append_assoc]

theorem mono (hnames : names ⊆ names') (h : s.Extends names s₁) : s.Extends names' s₁ := by
  obtain ⟨new, hnew, hmem⟩ := h.tags
  exact ⟨h.parent, new, hnew, fun p hp => hnames (hmem p hp)⟩

theorem update (x : String) (v : Value) : s.Extends names (s.update x v) := by
  refine ⟨rfl, [], ?_, by simp⟩
  simp only [Scope.tags, Scope.update, List.map_map, List.append_nil]
  refine List.map_congr_left fun (y, b) _ => ?_
  by_cases hy : y = x <;> simp [hy]

theorem declared (x type : String) (v : Value) :
    s.Extends [x] { s with vars := s.vars ++ [(x, ⟨v, type⟩)] } :=
  ⟨rfl, [(x, type)], by simp [Scope.tags], by simp⟩

end Scope.Extends

namespace Store

variable {names names' : ScopeId → List String} {s s₁ s₂ : Store} {e : ScopeId}

/-- Every scope is still there, and only the given names were declared in it. -/
def Grows (names : ScopeId → List String) (s s' : Store) : Prop :=
  ∀ (i : ScopeId) (scope : Scope), s.scopes[i]? = some scope →
    ∃ scope' : Scope, s'.scopes[i]? = some scope' ∧ scope.Extends (names i) scope'

/-- Declarations in one scope. -/
def only (e : ScopeId) (names : List String) (i : ScopeId) : List String :=
  if i = e then names else []

theorem only_mono {xs ys : List String} (h : xs ⊆ ys) (i : ScopeId) :
    only e xs i ⊆ only e ys i := by
  by_cases hi : i = e <;> simp [only, hi, h]

/-- Every scope is still there, with the same parent and the same variables of the same types. -/
def Framed (s s' : Store) : Prop :=
  ∀ (i : ScopeId) (scope : Scope), s.scopes[i]? = some scope →
    ∃ scope' : Scope, s'.scopes[i]? = some scope' ∧ scope'.parent = scope.parent ∧
      scope'.tags = scope.tags

/-- A declaration that succeeds is of a name that the scope does not bind yet, and adds it there. -/
theorem eq_of_define {x type : String} {v : Value} (h : s.define e x v type = some s₁) :
    ¬ (s.binding? e x).isSome = true ∧ s₁ = { s with scopes := s.scopes.modify e fun scope =>
      { scope with vars := scope.vars ++ [(x, ⟨v, type⟩)] } } := by
  obtain ⟨hfree, h⟩ := Option.ite_none_left_eq_some.mp h
  exact ⟨hfree, (Option.some.inj h).symm⟩

/-- Binding parameters is a sequence of declarations. -/
theorem bindParams_induction {I : Store → Prop} {c : Closure} {args : List Value} (hs : I s)
    (hstep : ∀ s s' x v type, (x, v) ∈ c.params.zip args → I s →
      s.define e x v type = some s' → I s') :
    I (Action.bindParams c e args s) := by
  have hfold : ∀ (bindings : List ((String × Value) × Nat)) (s : Store), I s →
      (∀ b ∈ bindings, b.1 ∈ c.params.zip args) →
      I (bindings.foldl (fun s b => (s.define e b.1.1 b.1.2 (c.paramType b.2)).getD s) s) := by
    intro bindings
    induction bindings with
    | nil => exact fun s hs _ => hs
    | cons b bindings ih =>
      intro s hs hb
      rw [List.forall_mem_cons] at hb
      refine ih _ ?_ hb.2
      cases hdefine : s.define e b.1.1 b.1.2 (c.paramType b.2) with
      | none => simpa only [hdefine, Option.getD_none] using hs
      | some s' => simpa only [hdefine, Option.getD_some] using hstep s s' _ _ _ hb.1 hs hdefine
  exact hfold _ s hs fun b hb => List.fst_mem_of_mem_zipIdx hb

namespace Grows

theorem refl (names : ScopeId → List String) (s : Store) : s.Grows names s :=
  fun _ scope h => ⟨scope, h, .refl _ _⟩

theorem trans (h : s.Grows names s₁) (h' : s₁.Grows names s₂) : s.Grows names s₂ := by
  intro i scope hi
  obtain ⟨scope₁, hi₁, hext⟩ := h i scope hi
  obtain ⟨scope₂, hi₂, hext'⟩ := h' i scope₁ hi₁
  exact ⟨scope₂, hi₂, hext.trans hext'⟩

theorem mono (hnames : ∀ i, names i ⊆ names' i) (h : s.Grows names s₁) : s.Grows names' s₁ := by
  intro i scope hi
  obtain ⟨scope₁, hi₁, hext⟩ := h i scope hi
  exact ⟨scope₁, hi₁, hext.mono (hnames i)⟩

theorem of_scopes (h : s₁.scopes = s.scopes) : s.Grows names s₁ :=
  fun _ scope hi => ⟨scope, h ▸ hi, .refl _ _⟩

/-- What is declared in scopes that are not there yet does not matter. -/
theorem beyond (h : s.Grows names s₁) (h' : s₁.Grows names' s₂)
    (hnew : ∀ i < s.scopes.size, names' i ⊆ names i) : s.Grows names s₂ := by
  intro i scope hi
  obtain ⟨hlt, -⟩ := Array.getElem?_eq_some_iff.mp hi
  obtain ⟨scope₁, hi₁, hext⟩ := h i scope hi
  obtain ⟨scope₂, hi₂, hext'⟩ := h' i scope₁ hi₁
  exact ⟨scope₂, hi₂, hext.trans (hext'.mono (hnew i hlt))⟩

theorem framed (h : s.Grows (fun _ => []) s₁) : s.Framed s₁ := by
  intro i scope hi
  obtain ⟨scope₁, hi₁, hparent, new, htags, hnew⟩ := h i scope hi
  obtain rfl : new = [] := List.eq_nil_iff_forall_not_mem.mpr fun p hp => by simpa using hnew p hp
  exact ⟨scope₁, hi₁, hparent, by rw [htags, List.append_nil]⟩

theorem newScope (parent : ScopeId) : s.Grows names (s.newScope parent).2 := by
  intro i scope hi
  obtain ⟨hlt, -⟩ := Array.getElem?_eq_some_iff.mp hi
  refine ⟨scope, ?_, .refl _ _⟩
  simpa [Store.newScope, Array.getElem?_push, Nat.ne_of_lt hlt] using hi

theorem set (e : ScopeId) (x : String) (v : Value) : s.Grows names (s.set e x v) := by
  intro i scope hi
  by_cases hie : e = i
  · exact ⟨scope.update x v, by simp [Store.set, Array.getElem?_modify, hie, hi], .update x v⟩
  · exact ⟨scope, by simp [Store.set, Array.getElem?_modify, hie, hi], .refl _ _⟩

theorem define {x type : String} {v : Value} (h : s.define e x v type = some s₁) :
    s.Grows (only e [x]) s₁ := by
  obtain ⟨-, rfl⟩ := eq_of_define h
  intro i scope hi
  by_cases hie : e = i
  · exact ⟨{ scope with vars := scope.vars ++ [(x, ⟨v, type⟩)] },
      by simp [Array.getElem?_modify, hie, hi], by simpa [only, hie] using .declared x type v⟩
  · exact ⟨scope, by simp [Array.getElem?_modify, hie, hi], .refl _ _⟩

theorem bindParams (c : Closure) (e : ScopeId) (args : List Value) (s : Store) :
    s.Grows (only e c.params) (Action.bindParams c e args s) := by
  refine bindParams_induction (refl _ s) fun s₁ s₂ x v type hxv h hdefine => ?_
  have hname : [x] ⊆ c.params := by simpa using (List.of_mem_zip hxv).1
  exact h.trans ((define hdefine).mono (only_mono hname))

/-- Entering a scope that is not there yet: what is declared in it does not matter. -/
theorem into_new {xs : List String} (h : s.Grows (fun _ => []) s₁) (he : s.scopes.size ≤ e)
    (h' : s₁.Grows (only e xs) s₂) : s.Grows (fun _ => []) s₂ := by
  refine h.beyond h' fun i hi => ?_
  simp [only, Nat.ne_of_lt (Nat.lt_of_lt_of_le hi he)]

end Grows

/-- The scope of a call, with the parameters bound to the arguments, and the store that holds it. -/
def enter (s : Store) (c : Closure) (args : List Value) : ScopeId × Store :=
  ((s.newScope c.scope).1, Action.bindParams c (s.newScope c.scope).1 args (s.newScope c.scope).2)

theorem Grows.enter (c : Closure) (args : List Value) : s.Grows (fun _ => []) (s.enter c args).2 :=
  (newScope c.scope).into_new (Nat.le_refl _) (bindParams c _ args _)

end Store

end ClosureLang

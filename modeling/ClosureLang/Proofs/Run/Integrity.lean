import ClosureLang.Proofs.Run.Growth
import ClosureLang.Proofs.Tree.Everywhere

/-! Stores whose values are there and whose functions have bodies of some sort. -/
namespace ClosureLang

open ClosureLang.Tree

/-- An integer or one of the first `n` closures. -/
def Value.Below : Value → Nat → Prop
  | int _, _ => True
  | closure id, n => id < n

theorem Value.Below.mono {v : Value} {n n' : Nat} (h : v.Below n) (hn : n ≤ n') : v.Below n' := by
  cases v with
  | int => trivial
  | closure id => exact Nat.lt_of_lt_of_le h hn

/-- A part of a program for the given place, with nodes in `B`. -/
structure Tree.IsPart (B : Tree → Prop) (role : Role) (t : Tree) : Prop where
  inPlace : InPlace role t
  nodes : ∀ u ∈ t.nodes, B u

theorem Tree.IsPart.mono {B B' : Tree → Prop} {role : Role} {t : Tree} (hB : ∀ u, B u → B' u)
    (h : t.IsPart B role) : t.IsPart B' role := ⟨h.inPlace, fun u hu => hB u (h.nodes u hu)⟩

namespace Store

variable {P : Tree → Prop} {s s' : Store} {e : ScopeId} {x : String} {v : Value}

/-- The number of closures made so far. -/
def count (s : Store) : Nat := s.closures.size

/-- The bodies of all closures satisfy `P`, and all closures in scopes are there. -/
structure Sound (P : Tree → Prop) (s : Store) : Prop where
  bodies : ∀ id c, s.closure? id = some c → P c.body
  values : ∀ (i : ScopeId) (scope : Scope), s.scopes[i]? = some scope →
      ∀ p ∈ scope.vars, p.2.value.Below s.count

theorem sound_initial (P : Tree → Prop) : initial.Sound P where
  bodies id c h := by simp [closure?, initial] at h
  values i scope h p hp := by
    have hscope : scope ∈ initial.scopes := Array.mem_of_getElem? h
    simp only [initial, List.mem_toArray, List.mem_singleton] at hscope
    simp [hscope] at hp

namespace Sound

theorem mono {P' : Tree → Prop} (hP : ∀ t, P t → P' t) (h : s.Sound P) : s.Sound P' where
  bodies id c hc := hP _ (h.bodies id c hc)
  values := h.values

theorem get? (h : s.Sound P) (hget : s.get? e x = some v) : v.Below s.count := by
  simp only [Store.get?, binding?, Option.bind_eq_bind, Option.bind_eq_some_iff, Option.pure_def,
    Option.some.injEq] at hget
  obtain ⟨i, -, b, ⟨scope, hscope, hb⟩, rfl⟩ := hget
  obtain ⟨before, after, hvars, -⟩ := List.lookup_eq_some_iff.mp hb
  exact h.values i scope hscope (x, b) (by simp [hvars])

theorem newScope (h : s.Sound P) (parent : ScopeId) : (s.newScope parent).2.Sound P where
  bodies := h.bodies
  values i scope hi p hp := by
    simp only [Store.newScope, Array.getElem?_push] at hi
    split at hi
    · cases hi
      cases hp
    · exact h.values i scope hi p hp

/-- One scope gets other values. -/
theorem modify {f : Scope → Scope} (h : s.Sound P)
    (hf : ∀ scope : Scope, (∀ p ∈ scope.vars, p.2.value.Below s.count) →
      ∀ p ∈ (f scope).vars, p.2.value.Below s.count) :
    Sound P { s with scopes := s.scopes.modify e f } where
  bodies := h.bodies
  values i scope hi p hp := by
    rw [Array.getElem?_modify] at hi
    split at hi
    · obtain ⟨scope, hscope, rfl⟩ := Option.map_eq_some_iff.mp hi
      exact hf scope (h.values i scope hscope) p hp
    · exact h.values i scope hi p hp

theorem set (h : s.Sound P) (hv : v.Below s.count) : (s.set e x v).Sound P := by
  refine h.modify fun scope hscope p hp => ?_
  obtain ⟨⟨y, b⟩, hb, rfl⟩ := List.mem_map.mp hp
  by_cases hy : y = x
  · simpa [hy] using hv
  · simpa [hy] using hscope (y, b) hb

theorem define {type : String} (h : s.Sound P) (hv : v.Below s.count)
    (hdefine : s.define e x v type = some s') : s'.Sound P ∧ s'.count = s.count := by
  obtain ⟨-, rfl⟩ := eq_of_define hdefine
  refine ⟨h.modify fun scope hscope => List.forall_mem_append.mpr ⟨hscope, ?_⟩, rfl⟩
  simpa using hv

theorem nameClosure (h : s.Sound P) (id : ClosureId) (name : String) :
    (s.nameClosure id name).Sound P ∧ (s.nameClosure id name).count = s.count := by
  have hcount : (s.nameClosure id name).count = s.count := by simp [Store.nameClosure, count]
  refine ⟨⟨fun i c hc => ?_, fun i scope hi p hp => ?_⟩, hcount⟩
  · simp only [Store.nameClosure, closure?, Array.getElem?_modify] at hc
    split at hc
    · obtain ⟨c₀, hc₀, rfl⟩ := Option.map_eq_some_iff.mp hc
      have hbody := h.bodies i c₀ hc₀
      split <;> exact hbody
    · exact h.bodies i c hc
  · rw [hcount]
    exact h.values i scope hi p hp

theorem newClosure {c : Closure} (h : s.Sound P) (hc : P c.body) :
    (s.newClosure c).2.Sound P ∧ (s.newClosure c).2.count = s.count + 1 := by
  have hcount : (s.newClosure c).2.count = s.count + 1 := by simp [Store.newClosure, count]
  refine ⟨⟨fun i c' hi => ?_, fun i scope hi p hp => ?_⟩, hcount⟩
  · simp only [Store.newClosure, closure?, Array.getElem?_push] at hi
    split at hi
    · cases hi
      exact hc
    · exact h.bodies i c' hi
  · rw [hcount]
    exact (h.values i scope hi p hp).mono (Nat.le_succ _)

theorem enter {c : Closure} {args : List Value} (h : s.Sound P)
    (hargs : ∀ v ∈ args, v.Below s.count) :
    (s.enter c args).2.Sound P ∧ (s.enter c args).2.count = s.count := by
  refine bindParams_induction (I := fun s' => s'.Sound P ∧ s'.count = s.count)
    ⟨h.newScope c.scope, rfl⟩ fun s₁ s₂ x v type hxv hs hdefine => ?_
  have hv : v.Below s₁.count := hs.2 ▸ hargs v (List.of_mem_zip hxv).2
  obtain ⟨hsound, hcount⟩ := hs.1.define hv hdefine
  exact ⟨hsound, hcount.trans hs.2⟩

end Sound

end Store

end ClosureLang

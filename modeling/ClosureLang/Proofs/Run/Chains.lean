import ClosureLang.Proofs.Run.Growth
import ClosureLang.Proofs.Run.Lineage

/-! The scopes around a scope, and how they stay the same while a store grows. -/
namespace ClosureLang.Store

variable {s s' : Store} {e p : ScopeId} {x : String} {names : ScopeId → List String}

/-- A name is bound in the scope itself. -/
def Binds (s : Store) (e : ScopeId) (x : String) : Prop := (s.binding? e x).isSome = true

/-- Every scope is younger than the one around it. -/
def Older (s : Store) : Prop :=
  ∀ (e : Nat) (scope : Scope), s.scopes[e]? = some scope → ∀ p : Nat, scope.parent = some p → p < e

theorem binds_iff : s.Binds e x ↔ ∃ scope : Scope, s.scopes[e]? = some scope ∧
    x ∈ scope.tags.map Prod.fst := by
  have hfind : ∀ scope : Scope, (scope.find? x).isSome = true ↔ x ∈ scope.tags.map Prod.fst := by
    intro scope
    simp only [Scope.find?, Scope.tags, List.map_map, Function.comp_def]
    induction scope.vars with
    | nil => simp
    | cons p vars ih =>
      by_cases hx : x = p.1
      · simp [hx]
      · have hne : (x == p.1) = false := by simpa using hx
        rw [List.lookup_cons, hne, ih, List.map_cons, List.mem_cons]
        simp [hx]
  simp only [Binds, binding?]
  cases s.scopes[e]? with
  | none => simp
  | some scope => simp [hfind]

/-- A name is found where it is bound. -/
theorem binds_of_locate {d : ScopeId} (h : s.locate e x = some d) : s.Binds d x :=
  List.find?_some (p := fun e => (s.binding? e x).isSome) h

theorem lt_of_binds (h : s.Binds e x) : e < s.scopes.size := by
  obtain ⟨scope, hscope, -⟩ := binds_iff.mp h
  exact (Array.getElem?_eq_some_iff.mp hscope).1

theorem binds_congr (h : s'.scopes = s.scopes) : s'.Binds e x ↔ s.Binds e x := by
  rw [Binds, binding?, h]
  rfl

theorem binds_define {v : Value} {type : String} (h : s.define e x v type = some s')
    (he : e < s.scopes.size) : s'.Binds e x := by
  obtain ⟨-, rfl⟩ := eq_of_define h
  refine binds_iff.mpr
    ⟨_, by rw [Array.getElem?_modify, if_pos rfl, Array.getElem?_eq_getElem he]; rfl, ?_⟩
  simp [Scope.tags]

theorem Grows.size_le (h : s.Grows names s') : s.scopes.size ≤ s'.scopes.size := by
  by_contra hlt
  have hlast : s'.scopes.size < s.scopes.size := by omega
  obtain ⟨scope', hscope', -⟩ := h _ _ (Array.getElem?_eq_getElem hlast)
  have := (Array.getElem?_eq_some_iff.mp hscope').1
  omega

theorem Grows.binds (h : s.Grows names s') (hx : s.Binds e x) : s'.Binds e x := by
  obtain ⟨scope, hscope, hmem⟩ := binds_iff.mp hx
  obtain ⟨scope', hscope', -, new, htags, -⟩ := h e scope hscope
  refine binds_iff.mpr ⟨scope', hscope', ?_⟩
  rw [htags, List.map_append]
  exact List.mem_append_left _ hmem

theorem Grows.of_binds (h : s.Grows names s') (he : e < s.scopes.size) (hx : s'.Binds e x) :
    s.Binds e x ∨ x ∈ names e := by
  have hscope := Array.getElem?_eq_getElem he
  obtain ⟨scope', hscope', -, new, htags, hnew⟩ := h e _ hscope
  obtain ⟨scope'', hscope'', hmem⟩ := binds_iff.mp hx
  cases hscope'.symm.trans hscope''
  rw [htags, List.map_append, List.mem_append] at hmem
  rcases hmem with hmem | hmem
  · exact .inl (binds_iff.mpr ⟨_, hscope, hmem⟩)
  · obtain ⟨p, hp, rfl⟩ := List.mem_map.mp hmem
    exact .inr (hnew p hp)

/-- What the scopes name as their parents. -/
def parents (s : Store) : Parents := fun e => (s.scopes[e]?).map Scope.parent

theorem chainUpTo_eq_lineageUpTo (s : Store) (limit : Nat) (e : ScopeId) :
    s.chainUpTo limit e = s.parents.lineageUpTo limit e := by
  induction limit generalizing e with
  | zero => rfl
  | succ limit ih =>
    simp only [chainUpTo, Parents.lineageUpTo, parents]
    cases s.scopes[e]? with
    | none => rfl
    | some scope =>
      simp only [Option.map_some]
      cases scope.parent with
      | none => rfl
      | some p => simp only [Option.map_some, ih]

theorem chain_eq_lineage (s : Store) (e : ScopeId) : s.chain e = s.parents.lineage e :=
  s.chainUpTo_eq_lineageUpTo (e + 1) e

theorem Older.parents (hs : s.Older) : s.parents.Older := by
  intro e p hparent
  obtain ⟨scope, hscope, hp⟩ := Option.map_eq_some_iff.mp hparent
  exact hs e scope hscope p hp

/-- A scope comes first on its chain, then the chain of the scope around it. -/
theorem chain_eq (hs : s.Older) {scope : Scope} (hscope : s.scopes[e]? = some scope) :
    s.chain e = e :: (scope.parent.map s.chain).getD [] := by
  have hlineage : s.chain = s.parents.lineage := funext s.chain_eq_lineage
  rw [hlineage]
  exact Parents.lineage_eq hs.parents (by simp only [Store.parents, hscope, Option.map_some])

theorem lt_of_mem_chain (hs : s.Older) (e : Nat) : ∀ i ∈ s.chain e, i < s.scopes.size ∧ i ≤ e := by
  intro i hi
  rw [chain_eq_lineage] at hi
  obtain ⟨hsome, hle⟩ := Parents.isSome_of_mem hs.parents e i hi
  exact ⟨by simpa [Store.parents] using hsome, hle⟩

/-- Growth does not move scopes that are there. -/
theorem Grows.chain_eq (h : s.Grows names s') (hs : s.Older) (hs' : s'.Older) (e : Nat)
    (he : e < s.scopes.size) : s'.chain e = s.chain e := by
  rw [chain_eq_lineage, chain_eq_lineage]
  refine Parents.lineage_congr hs.parents hs'.parents e fun i hi => ?_
  have hscope := Array.getElem?_eq_getElem (Nat.lt_of_le_of_lt hi he)
  obtain ⟨scope', hscope', hparent', -⟩ := h i _ hscope
  simp only [Store.parents, hscope, hscope', Option.map_some, hparent']

theorem Older.newScope (hs : s.Older) (hp : p < s.scopes.size) : (s.newScope p).2.Older := by
  intro e scope hscope q hq
  simp only [Store.newScope, Array.getElem?_push] at hscope
  split at hscope
  · rename_i he
    cases hscope
    cases hq
    exact he ▸ hp
  · exact hs e scope hscope q hq

/-- Nothing but the variables of a scope changes. -/
theorem Older.modify (hs : s.Older) {f : Scope → Scope}
    (hf : ∀ scope, (f scope).parent = scope.parent) :
    Older { s with scopes := s.scopes.modify e f } := by
  intro i scope hscope q hq
  rw [Array.getElem?_modify] at hscope
  split at hscope
  · obtain ⟨scope₀, hscope₀, rfl⟩ := Option.map_eq_some_iff.mp hscope
    exact hs i scope₀ hscope₀ q (hf scope₀ ▸ hq)
  · exact hs i scope hscope q hq

theorem Older.define {v : Value} {type : String} (hs : s.Older)
    (h : s.define e x v type = some s') : s'.Older := by
  obtain ⟨-, rfl⟩ := eq_of_define h
  exact hs.modify fun _ => rfl

theorem chain_newScope (hs : s.Older) (hp : p < s.scopes.size) :
    (s.newScope p).2.chain s.scopes.size = s.scopes.size :: s.chain p := by
  have hscope : (s.newScope p).2.scopes[s.scopes.size]? = some { parent := some p } := by
    simp [Store.newScope]
  have hgrows : s.Grows (fun _ => []) (s.newScope p).2 := .newScope p
  rw [Store.chain_eq (hs.newScope hp) hscope]
  simp only [Option.map_some, Option.getD_some]
  rw [hgrows.chain_eq hs (hs.newScope hp) p hp]

end ClosureLang.Store

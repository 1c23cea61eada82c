import ClosureLang.Proofs.Run.Chains

/-! Scopes as lexically nested maps: what assignments and declarations change, seen from every scope
of a forest. -/
namespace ClosureLang

namespace Scope

variable {s : Scope} {x : String}

theorem find?_update (s : Scope) (x : String) (v : Value) (y : String) :
    (s.update x v).find? y = if y = x then (s.find? y).map ({ · with value := v })
      else s.find? y := by
  simp only [find?, update]
  induction s.vars with
  | nil => simp
  | cons p vars ih =>
    obtain ⟨z, b⟩ := p
    rw [List.map_cons]
    by_cases hz : z = x
    · by_cases hy : y = z <;> simp_all [List.lookup_cons, beq_false_of_ne]
    · by_cases hy : y = z <;> simp_all [List.lookup_cons, beq_false_of_ne]

theorem find?_declared (hx : s.find? x = none) (b : Binding) (y : String) :
    find? { s with vars := s.vars ++ [(x, b)] } y = if y = x then some b else s.find? y := by
  simp only [find?] at hx ⊢
  rw [List.lookup_append]
  by_cases hy : y = x
  · subst hy
    simp [hx]
  · simp [hy, List.lookup_cons, beq_false_of_ne hy]

end Scope

namespace Store

/-- Stores that operations on scopes make, in any order, from a store without scopes. Assignments
are to slots that were found, and functions are made and named at any time. -/
inductive Forest : Store → Prop where
  | empty : Forest { scopes := #[] }
  | newRoot {s} : Forest s → Forest s.newRoot.2
  | newScope {s} {p : ScopeId} : Forest s → p < s.scopes.size → Forest (s.newScope p).2
  | define {s s'} {e : ScopeId} {x type : String} {v : Value} :
      Forest s → e < s.scopes.size → s.define e x v type = some s' → Forest s'
  | set {s} {e d : ScopeId} {x : String} (v : Value) :
      Forest s → s.locate e x = some d → Forest (s.set d x v)
  | functions {s} (closures : Array Closure) : Forest s → Forest { s with closures }

/-- The way outwards from a scope comes to `e` before any other scope that binds `x`. -/
inductive Sees (s : Store) (x : String) (e : ScopeId) : ScopeId → Prop where
  | here : Sees s x e e
  | outwards {i p : ScopeId} :
      s.parents i = some (some p) → ¬ s.Binds i x → Sees s x e p → Sees s x e i

variable {s s' : Store} {d e i p : ScopeId} {x y type : String} {v : Value}

/-! ### Slots -/

theorem binding?_set (s : Store) (d : ScopeId) (x : String) (v : Value) (i : ScopeId) (y : String) :
    (s.set d x v).binding? i y =
      if i = d ∧ y = x then (s.binding? i y).map ({ · with value := v }) else s.binding? i y := by
  simp only [binding?, set, Array.getElem?_modify]
  by_cases hi : d = i
  · subst hi
    cases s.scopes[d]? with
    | none => simp
    | some scope => simp [Scope.find?_update]
  · simp [hi, Ne.symm hi]

/-- A declaration fills the slot that it makes, and no other. -/
theorem binding?_define (h : s.define e x v type = some s') (he : e < s.scopes.size) (i : ScopeId)
    (y : String) : s'.binding? i y = if i = e ∧ y = x then some ⟨v, type⟩ else s.binding? i y := by
  obtain ⟨hfree, rfl⟩ := eq_of_define h
  have hscope := Array.getElem?_eq_getElem he
  have hnone : s.scopes[e].find? x = none := by simpa [binding?, hscope] using hfree
  simp only [binding?, Array.getElem?_modify]
  by_cases hi : e = i
  · subst hi
    simp [hscope, Scope.find?_declared hnone]
  · simp [hi, Ne.symm hi]

/-- An assignment keeps the type that a variable was declared with. -/
theorem type_set (s : Store) (d : ScopeId) (x : String) (v : Value) (i : ScopeId) (y : String) :
    ((s.set d x v).binding? i y).map Binding.type = (s.binding? i y).map Binding.type := by
  rw [binding?_set]
  split
  · rw [Option.map_map]
    rfl
  · rfl

theorem binds_set : (s.set d x v).Binds i y ↔ s.Binds i y := by
  rw [Binds, Binds, binding?_set]
  split <;> simp

theorem binds_define_iff (h : s.define e x v type = some s') (he : e < s.scopes.size) :
    s'.Binds i y ↔ i = e ∧ y = x ∨ s.Binds i y := by
  rw [Binds, Binds, binding?_define h he]
  split <;> simp [*]

theorem define_eq_none_iff : s.define e x v type = none ↔ s.Binds e x := by
  rw [define, Binds]
  split <;> simp [*]

theorem parents_modify (s : Store) (e : ScopeId) {f : Scope → Scope}
    (hf : ∀ scope, (f scope).parent = scope.parent) :
    parents { s with scopes := s.scopes.modify e f } = s.parents := by
  funext i
  simp only [parents, Array.getElem?_modify]
  split
  · simp only [Option.map_map, Function.comp_def, hf]
  · rfl

theorem parents_set (s : Store) (d : ScopeId) (x : String) (v : Value) :
    (s.set d x v).parents = s.parents :=
  s.parents_modify d fun _ => rfl

theorem parents_define (h : s.define e x v type = some s') : s'.parents = s.parents := by
  obtain ⟨-, rfl⟩ := eq_of_define h
  exact s.parents_modify e fun _ => rfl

/-! ### Places -/

/-- A name is looked up in the scope itself, then from the scope around it. -/
theorem locate_eq (hs : s.Older) (i : ScopeId) (x : String) :
    s.locate i x = if (s.binding? i x).isSome then some i
      else (s.parents i).join.bind (s.locate · x) := by
  rw [locate, chain_eq_lineage]
  cases hparent : s.parents i with
  | none =>
    have hscope : s.scopes[i]? = none := by simpa [parents] using hparent
    simp [Parents.lineage_eq_nil hparent, binding?, hscope]
  | some parent =>
    rw [Parents.lineage_eq hs.parents hparent, List.find?_cons]
    cases hbound : (s.binding? i x).isSome with
    | true => simp
    | false =>
      cases parent with
      | none => simp
      | some p => simp [locate, chain_eq_lineage]

theorem locate_of_binds (hs : s.Older) (hx : s.Binds i x) : s.locate i x = some i :=
  (locate_eq hs i x).trans (if_pos hx)

theorem locate_of_free (hs : s.Older) (hx : ¬ s.Binds i x) :
    s.locate i x = (s.parents i).join.bind (s.locate · x) :=
  (locate_eq hs i x).trans (if_neg hx)

/-- A name stands for the slot in the first scope outwards that binds it. -/
theorem locate_eq_some_iff (hs : s.Older) : s.locate i x = some d ↔ s.Sees x d i ∧ s.Binds d x := by
  constructor
  · intro h
    refine ⟨?_, binds_of_locate h⟩
    induction i using Nat.strongRecOn with
    | ind i ih =>
      by_cases hx : s.Binds i x
      · rw [locate_of_binds hs hx] at h
        exact Option.some.inj h ▸ .here
      · rw [locate_of_free hs hx] at h
        obtain ⟨p, hp, hd⟩ := Option.bind_eq_some_iff.mp h
        have hparent := Option.join_eq_some_iff.mp hp
        exact .outwards hparent hx (ih p (hs.parents i p hparent) hd)
  · rintro ⟨hsees, hd⟩
    induction hsees with
    | here => exact locate_of_binds hs hd
    | outwards hparent hx _ ih =>
      rw [locate_of_free hs hx, hparent, Option.join_some, Option.bind_some, ih]

/-- Where a name is found depends on nothing but the parents and on who binds the name. -/
theorem locate_congr_binds (hparents : s'.parents = s.parents)
    (hbinds : ∀ i, s'.Binds i y ↔ s.Binds i y) (i : ScopeId) : s'.locate i y = s.locate i y := by
  rw [locate, locate, chain_eq_lineage, chain_eq_lineage, hparents]
  congr 1
  funext i
  exact Bool.eq_iff_iff.mpr (hbinds i)

theorem locate_set (s : Store) (d : ScopeId) (x : String) (v : Value) (i : ScopeId) (y : String) :
    (s.set d x v).locate i y = s.locate i y :=
  locate_congr_binds (parents_set s d x v) (fun _ => binds_set) i

/-- An assignment is seen through all scopes that find the name in the same place, and by no other
name. -/
theorem get?_set (hd : s.Binds d x) (v : Value) (i : ScopeId) (y : String) :
    (s.set d x v).get? i y = if y = x ∧ s.locate i x = some d then some v else s.get? i y := by
  simp only [get?, locate_set, binding?_set, Option.bind_eq_bind, Option.pure_def]
  cases hy : s.locate i y with
  | none =>
    have hno : ¬ (y = x ∧ s.locate i x = some d) := by
      rintro ⟨rfl, h⟩
      cases hy.symm.trans h
    rw [if_neg hno, Option.bind_none, Option.bind_none]
  | some j =>
    obtain ⟨b, hb⟩ := Option.isSome_iff_exists.mp hd
    by_cases hyx : y = x
    · subst hyx
      by_cases hj : j = d
      · subst hj
        simp [hy, hb]
      · simp [hy, hj]
    · simp [hyx]

theorem locate_define_of_ne (h : s.define e x v type = some s') (he : e < s.scopes.size)
    (hy : y ≠ x) (i : ScopeId) : s'.locate i y = s.locate i y :=
  locate_congr_binds (parents_define h) (fun j => by simp [binds_define_iff h he, hy]) i

theorem locate_define_of_sees (hs : s.Older) (h : s.define e x v type = some s')
    (he : e < s.scopes.size) (hsees : s.Sees x e i) : s'.locate i x = some e := by
  have hs' := hs.define h
  have hbinds := binds_define h he
  induction hsees with
  | here => exact locate_of_binds hs' hbinds
  | @outwards i p hparent hx _ ih =>
    by_cases hi : i = e
    · rw [hi]
      exact locate_of_binds hs' hbinds
    · have hfree : ¬ s'.Binds i x := by simp [binds_define_iff h he, hi, hx]
      rw [locate_of_free hs' hfree, parents_define h, hparent, Option.join_some,
        Option.bind_some, ih]

/-- A new slot that is hidden, or away from the chain, is not found. -/
theorem locate_define_of_not_sees (hs : s.Older) (h : s.define e x v type = some s')
    (he : e < s.scopes.size) (hsees : ¬ s.Sees x e i) : s'.locate i x = s.locate i x := by
  have hs' := hs.define h
  induction i using Nat.strongRecOn with
  | ind i ih =>
    have hi : i ≠ e := fun hi => hsees (hi ▸ .here)
    have hbinds : s'.Binds i x ↔ s.Binds i x := by simp [binds_define_iff h he, hi]
    by_cases hx : s.Binds i x
    · rw [locate_of_binds hs hx, locate_of_binds hs' (hbinds.mpr hx)]
    · rw [locate_of_free hs hx, locate_of_free hs' (mt hbinds.mp hx), parents_define h]
      refine Option.bind_congr fun p hp => ?_
      have hparent := Option.join_eq_some_iff.mp hp
      exact ih p (hs.parents i p hparent) fun hp => hsees (.outwards hparent hx hp)

/-! ### Forests -/

theorem Older.newRoot (hs : s.Older) : s.newRoot.2.Older := by
  intro e scope hscope p hp
  simp only [Store.newRoot, Array.getElem?_push] at hscope
  split at hscope
  · cases hscope
    contradiction
  · exact hs e scope hscope p hp

theorem Forest.older (h : s.Forest) : s.Older := by
  induction h with
  | empty => exact fun e scope hscope => by simp at hscope
  | newRoot _ ih => exact ih.newRoot
  | newScope _ hp ih => exact ih.newScope hp
  | define _ _ hdefine ih => exact ih.define hdefine
  | set _ _ _ ih => exact ih.modify fun _ => rfl
  | functions _ _ ih => exact ih

/-- A name is found in the first scope outwards that binds it. Assigning to it changes what is read
through the scopes that find this name in the same place; other values, all types and all places
stay. Declaring a name is refused just where the scope itself binds it, with the store as it was;
else the name is found in the new slot by the scopes that see its scope past no other binding of the
name, and all other places stay. -/
theorem scopes_nest (hs : s.Forest) (he : e < s.scopes.size) (x : String) (v : Value)
    (type : String) :
    (∀ i y d, s.locate i y = some d ↔ s.Sees y d i ∧ s.Binds d y) ∧
    (∀ d, s.locate e x = some d →
      (∀ i y, (s.set d x v).get? i y = if y = x ∧ s.locate i x = some d then
        some v else s.get? i y) ∧
      (∀ i y, ((s.set d x v).binding? i y).map Binding.type = (s.binding? i y).map Binding.type) ∧
      ∀ i y, (s.set d x v).locate i y = s.locate i y) ∧
    (s.define e x v type = none ↔ s.Binds e x) ∧
    (s.Binds e x → (s.define e x v type).getD s = s) ∧
    ∀ s', s.define e x v type = some s' →
      (∀ i y, s'.binding? i y = if i = e ∧ y = x then some ⟨v, type⟩ else s.binding? i y) ∧
      ∀ i y, (y = x ∧ s.Sees x e i → s'.locate i y = some e) ∧
        (¬ (y = x ∧ s.Sees x e i) → s'.locate i y = s.locate i y) := by
  have holder := hs.older
  refine ⟨fun i y d => locate_eq_some_iff holder, fun d hd => ?assigned, define_eq_none_iff,
    fun hx => ?refused, fun s' h => ⟨binding?_define h he, fun i y => ⟨?seen, ?unseen⟩⟩⟩
  case assigned => exact ⟨get?_set (binds_of_locate hd) v, type_set s d x v, locate_set s d x v⟩
  case refused => rw [define_eq_none_iff.mpr hx, Option.getD_none]
  case seen =>
    rintro ⟨rfl, hsees⟩
    exact locate_define_of_sees holder h he hsees
  case unseen =>
    intro hno
    by_cases hy : y = x
    · subst hy
      exact locate_define_of_not_sees holder h he fun hsees => hno ⟨rfl, hsees⟩
    · exact locate_define_of_ne h he hy i

/-- A root that binds `x`, a scope inside it, and a scope inside that one which binds `x` again. -/
def nested : Store where
  scopes := #[⟨none, [("x", ⟨.int 1, "int"⟩)]⟩, ⟨some 0, []⟩, ⟨some 1, [("x", ⟨.int 3, ""⟩)]⟩]

theorem forest_nested : nested.Forest := by
  have hroot : Forest { scopes := #[⟨none, [("x", ⟨.int 1, "int"⟩)]⟩] } :=
    .define (e := 0) (.newRoot .empty) (by decide) rfl
  exact .define (e := 2) (.newScope (p := 1) (.newScope (p := 0) hroot (by decide)) (by decide))
    (by decide) rfl

/-- The scope in the middle assigns to the variable of the root; once it has a variable of its own,
the root keeps its one and the innermost scope goes on finding the one that it binds itself. -/
theorem scopes_nest_shadowed :
    nested.Forest ∧ 1 < nested.scopes.size ∧
      (nested.set 0 "x" (.int 9)).get? 0 "x" = some (.int 9) ∧
      (nested.set 0 "x" (.int 9)).get? 2 "x" = some (.int 3) ∧
      ∃ s', nested.define 1 "x" (.int 9) "" = some s' ∧ s'.locate 0 "x" = some 0 ∧
        s'.locate 1 "x" = some 1 ∧
        s'.locate 2 "x" = some 2 := by
  have hsize : 1 < nested.scopes.size := by decide
  obtain ⟨-, hset, -, -, hdefine⟩ := scopes_nest forest_nested hsize "x" (.int 9) ""
  obtain ⟨hget, -, -⟩ := hset 0 (by decide)
  refine ⟨forest_nested, hsize, (hget 0 "x").trans (by decide),
    (hget 2 "x").trans (by decide), _, rfl, ?_⟩
  obtain ⟨-, hlocate⟩ := hdefine _ rfl
  have hroot : ¬ nested.Sees "x" 1 0 := fun h => by
    cases h with
    | outwards hparent => cases hparent
  have hinner : ¬ nested.Sees "x" 1 2 := fun h => by
    cases h with
    | outwards _ hfree => exact hfree (by unfold Binds; decide)
  exact ⟨((hlocate 0 "x").2 fun h => hroot h.2).trans (by decide), (hlocate 1 "x").1 ⟨rfl, .here⟩,
    ((hlocate 2 "x").2 fun h => hinner h.2).trans (by decide)⟩

end Store
end ClosureLang

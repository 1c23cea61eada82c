import ClosureLang.Proofs.Editor.Nesting

/-! What is in scope at a place of a program. The innermost block around a use lies in the block in
which the use was resolved, so that every name that resolves can be completed where it stands. -/
namespace ClosureLang.Editor

open ClosureLang.Tree

variable {ix : Index} {b : BlockId} {block block' : Block} {o : Int} {id : SymbolId} {s : Symbol}

namespace Index

/-- A block is around an offset. The outermost one is around everything. -/
def Around (ix : Index) (b : BlockId) (o : Int) : Prop :=
  ∃ block : Block, ix.blocks[b]? = some block ∧ (b = 0 ∨ block.start ≤ o ∧ o ≤ block.stop)

/-- What holds at first and is kept by each step holds at the end of a loop. -/
theorem foldl_range {α : Type} {f : α → Nat → α} {P : Nat → α → Prop} {a : α} {n : Nat} (h : P 0 a)
    (hstep : ∀ k < n, ∀ a, P k a → P (k + 1) (f a k)) : P n ((List.range n).foldl f a) := by
  induction n with
  | zero => exact h
  | succ n ih =>
    rw [List.range_succ, List.foldl_append]
    exact hstep n (Nat.lt_succ_self n) _ (ih fun k hk => hstep k (Nat.lt_succ_of_lt hk))

namespace Embedded

variable (h : ix.Embedded)

include h

/-- The blocks around a block are around what it is around. -/
theorem around_of_mem : ∀ b, ix.Around b o → ∀ e ∈ ix.enclosing b, ix.Around e o := by
  intro b
  induction b using Nat.strongRecOn with
  | ind b ih =>
    intro hb e he
    obtain ⟨block, hblock, rfl | ⟨p, hp, he⟩⟩ := h.proper.mem_enclosing.mp he
    · exact hb
    · have hlt := h.proper.lt_of_parent hblock hp
      obtain ⟨_, hblock', rfl | ho⟩ := hb
      · cases hlt
      cases hblock.symm.trans hblock'
      have houter : p < ix.blocks.size := Nat.lt_trans hlt (Array.getElem?_eq_some_iff.mp hblock).1
      have hinside := h.inside b p _ _ hblock hp (Array.getElem?_eq_getElem houter)
      exact ih p hlt ⟨_, Array.getElem?_eq_getElem houter, .inr (by omega)⟩ e he

/-- Of two blocks around one offset, the older one is around the younger. -/
theorem mem_of_around : ∀ c, ∀ b < c, ix.Around b o → ix.Around c o → b ∈ ix.enclosing c := by
  intro c
  induction c using Nat.strongRecOn with
  | ind c ih =>
    intro b hlt hb hc
    obtain ⟨block, hblock, rfl | ho⟩ := hc
    · cases hlt
    cases hparent : block.parent with
    | none =>
      obtain rfl := h.root c _ hblock hparent
      cases hlt
    | some p =>
      have hp := h.proper.lt_of_parent hblock hparent
      have hself := h.proper.mem_of_parent hblock hparent (e := b)
      have haround : ix.Around p o := h.around_of_mem c ⟨block, hblock, .inr ho⟩ p
        (h.proper.mem_of_parent hblock hparent
          (h.proper.self_mem
            (Array.getElem?_eq_getElem (Nat.lt_trans hp (Array.getElem?_eq_some_iff.mp hblock).1))))
      rcases Nat.lt_trichotomy b p with hbp | rfl | hpb
      · exact hself (ih p hp b hbp hb haround)
      · exact hself (h.proper.self_mem haround.choose_spec.1)
      · -- a child of the parent is around the other block and around the offset, so it is not apart
        -- from this one
        exfalso
        obtain rfl | ⟨k, hk, child, hchild, hkp⟩ :=
          h.proper.exists_child b p (ih b hlt p hpb haround hb)
        · exact Nat.lt_irrefl _ hpb
        have hkc : k < c := Nat.lt_of_le_of_lt (h.proper.lt_of_mem_enclosing hk).2 hlt
        have hapart := h.apart k c child block hchild hblock (hkp.trans hparent.symm) hkc
        obtain ⟨_, hchild', rfl | hok⟩ := h.around_of_mem b hb k hk
        · cases h.proper.lt_of_parent hchild hkp
        · cases hchild.symm.trans hchild'
          omega

/-- If the search for the innermost block passes over a block that is around the offset, it has one
inside of it. -/
theorem mem_of_skipped {inner : BlockId} (hinner : ix.Around inner o) (hb : ix.Around b o)
    (hblock : ix.blocks[b]? = some block) (hfound : ix.blocks[inner]? = some block')
    (hskip : ¬(block.start ≤ o ∧ o ≤ block.stop ∧ block'.depth < block.depth ∧
      (ix.enclosing b).tail.contains inner = true)) : b ∈ ix.enclosing inner := by
  rcases Nat.lt_trichotomy b inner with hlt | rfl | hlt
  · exact h.mem_of_around inner b hlt hb hinner
  · exact h.proper.self_mem hblock
  · refine absurd ?_ hskip
    have hmem := h.mem_of_around b inner hlt hinner hb
    obtain ⟨_, hblock', rfl | ho⟩ := hb
    · cases hlt
    cases hblock.symm.trans hblock'
    rw [h.proper.enclosing_eq hblock, List.mem_cons] at hmem
    have hdepth := h.proper.depth b block hblock
    have hdepth' := h.proper.depth inner block' hfound
    rw [h.proper.enclosing_eq hblock] at hdepth ⊢
    obtain rfl | hmem := hmem
    · exact absurd hlt (Nat.lt_irrefl _)
    cases hparent : block.parent with
    | none => simp [hparent] at hmem
    | some p =>
      simp only [hparent, Option.map_some, Option.getD_some, List.length_cons] at hmem hdepth ⊢
      have hlength := (h.proper.enclosing_trans p inner hmem).2
      exact ⟨ho.1, ho.2, by omega, by simpa using hmem⟩

/-- The search for the innermost block finds one around the offset, inside of all others that are
around it. -/
theorem innermost_spec (hsize : 0 < ix.blocks.size) (o : Int) :
    ix.Around (ix.innermost o) o ∧ ∀ b, ix.Around b o → b ∈ ix.enclosing (ix.innermost o) := by
  have hroot : ix.blocks[0]? = some ix.blocks[0] := Array.getElem?_eq_getElem hsize
  -- of the blocks passed so far, those that are around the offset are around the one that has been
  -- found
  have hall : ix.Around (ix.innermost o) o ∧
      ∀ b < ix.blocks.size, ix.Around b o → b ∈ ix.enclosing (ix.innermost o) := by
    refine foldl_range (P := fun n inner => ix.Around inner o ∧ ∀ b < n, ix.Around b o →
      b ∈ ix.enclosing inner)
      ⟨⟨_, hroot, .inl rfl⟩, fun b hb => absurd hb (Nat.not_lt_zero b)⟩ fun k hk inner hinner => ?_
    obtain ⟨haround, hpassed⟩ := hinner
    have hblock : ix.blocks[k]? = some ix.blocks[k] := Array.getElem?_eq_getElem hk
    obtain ⟨found, hfound, hfoundAround⟩ := haround
    simp only [hblock, hfound]
    split
    · rename_i htake
      refine ⟨⟨_, hblock, .inr ⟨htake.1, htake.2.1⟩⟩, fun b hb hbo => ?_⟩
      rcases Nat.lt_succ_iff_lt_or_eq.mp hb with hb | rfl
      · have hinner := List.mem_of_mem_tail (List.contains_iff_mem.mp htake.2.2.2)
        exact (h.proper.enclosing_trans k inner hinner).1 (hpassed b hb hbo)
      · exact h.proper.self_mem hblock
    · rename_i hskip
      refine ⟨⟨found, hfound, hfoundAround⟩, fun b hb hbo => ?_⟩
      rcases Nat.lt_succ_iff_lt_or_eq.mp hb with hb | rfl
      · exact hpassed b hb hbo
      · exact h.mem_of_skipped ⟨found, hfound, hfoundAround⟩ hbo hblock hfound hskip
  exact ⟨hall.1, fun b hb => hall.2 b (Array.getElem?_eq_some_iff.mp hb.choose_spec.1).1 hb⟩

end Embedded

section Visible

variable {seen : List String} {ids : List SymbolId}

/-- What is kept of some symbols has names that have not been seen before, and no two have the
same. -/
theorem firstOfName_spec (ix : Index) (seen : List String) (ids : List SymbolId) :
    (∀ id ∈ ix.firstOfName seen ids, id ∈ ids ∧ ∃ s, ix.symbol? id = some s ∧ s.name ∉ seen) ∧
      ((ix.firstOfName seen ids).map fun id => (ix.symbol? id).map Symbol.name).Nodup := by
  induction ids generalizing seen with
  | nil => exact ⟨nofun, List.nodup_nil⟩
  | cons id ids ih =>
    unfold firstOfName
    cases hs : ix.symbol? id with
    | none =>
      obtain ⟨hmem, hnodup⟩ := ih seen
      exact ⟨fun i hi => ⟨List.mem_cons_of_mem _ (hmem i hi).1, (hmem i hi).2⟩, hnodup⟩
    | some s =>
      simp only
      split
      · obtain ⟨hmem, hnodup⟩ := ih seen
        exact ⟨fun i hi => ⟨List.mem_cons_of_mem _ (hmem i hi).1, (hmem i hi).2⟩, hnodup⟩
      · rename_i hnew
        obtain ⟨hmem, hnodup⟩ := ih (s.name :: seen)
        refine ⟨List.forall_mem_cons.mpr
          ⟨⟨List.mem_cons_self, s, hs, by simpa using hnew⟩, fun i hi => ?_⟩, ?_⟩
        · obtain ⟨hi, s', hs', hname⟩ := hmem i hi
          exact ⟨List.mem_cons_of_mem _ hi, s', hs', fun h => hname (List.mem_cons_of_mem _ h)⟩
        · rw [List.map_cons, List.nodup_cons]
          refine ⟨fun hname => ?_, hnodup⟩
          obtain ⟨i, hi, hname⟩ := List.mem_map.mp hname
          obtain ⟨-, s', hs', hfresh⟩ := hmem i hi
          rw [hs, hs', Option.map_some, Option.map_some, Option.some.injEq] at hname
          exact hfresh (hname ▸ List.mem_cons_self)

/-- Of each name that has not been seen before, one symbol is kept. -/
theorem exists_firstOfName (hid : id ∈ ids) (hs : ix.symbol? id = some s) (hseen : s.name ∉ seen) :
    ∃ i ∈ ix.firstOfName seen ids, ∃ s', ix.symbol? i = some s' ∧ s'.name = s.name := by
  induction ids generalizing seen with
  | nil => cases hid
  | cons i ids ih =>
    unfold firstOfName
    cases hi : ix.symbol? i with
    | none =>
      rcases List.mem_cons.mp hid with rfl | hid
      · cases hs.symm.trans hi
      · exact ih hid hseen
    | some s' =>
      simp only
      split
      · rename_i hold
        rcases List.mem_cons.mp hid with rfl | hid
        · cases hs.symm.trans hi
          exact absurd (by simpa using hold) hseen
        · exact ih hid hseen
      · by_cases hname : s'.name = s.name
        · exact ⟨i, List.mem_cons_self, s', hi, hname⟩
        · rcases List.mem_cons.mp hid with rfl | hid
          · cases hs.symm.trans hi
            exact absurd rfl hname
          · have hnew : s.name ∉ s'.name :: seen := by simp [hseen, Ne.symm hname]
            obtain ⟨j, hj, hsame⟩ := ih hid hnew
            exact ⟨j, List.mem_cons_of_mem _ hj, hsame⟩

/-- What is visible at a place is declared in a block around it. -/
theorem declared_of_visible (h : ix.Embedded) (hid : id ∈ ix.visible o) :
    ∃ b, ix.Around b o ∧ id ∈ ix.declared b := by
  obtain ⟨hmem, -⟩ := (ix.firstOfName_spec _ _).1 id hid
  obtain ⟨b, hb, hid⟩ := List.mem_flatMap.mp hmem
  have hsize : 0 < ix.blocks.size := Nat.zero_lt_of_lt (h.proper.lt_of_mem_enclosing hb).1
  exact ⟨b, h.around_of_mem _ (h.innermost_spec hsize o).1 b hb, (List.mem_filter.mp hid).1⟩

/-- The name of a use is visible where the use is. The innermost block around the use may lie in the
block in which it was found, but then it hides nothing. -/
theorem visible_of_found (h : ix.Embedded) {r : Reference} (hr : ix.Found r) :
    ∃ s, ix.symbol? r.symbol = some s ∧
      ∃ id ∈ ix.visible r.offset, ∃ s', ix.symbol? id = some s' ∧ s'.name = s.name := by
  obtain ⟨home, e, block, s, hhome, hstart, hstop, he, hid, hs, hbefore⟩ := hr
  have hsize : 0 < ix.blocks.size := Nat.zero_lt_of_lt (Array.getElem?_eq_some_iff.mp hhome).1
  have hinner := (h.innermost_spec hsize r.offset).2 home ⟨block, hhome, .inr ⟨hstart, hstop⟩⟩
  refine ⟨s, hs,
    exists_firstOfName (List.mem_flatMap.mpr ⟨e, ?_, List.mem_filter.mpr ⟨hid, ?_⟩⟩) hs (by simp)⟩
  · exact (h.proper.enclosing_trans _ home hinner).1 he
  · have hsymbol : ix.symbol? r.symbol = some s := hs
    simp only [hsymbol, Option.any_some, Bool.or_eq_true, decide_eq_true_eq]
    by_cases hne : e = ix.innermost r.offset
    · -- both blocks are around each other
      have hle := (h.proper.lt_of_mem_enclosing he).2
      have hle' := (h.proper.lt_of_mem_enclosing hinner).2
      exact .inl (hbefore (Nat.le_antisymm hle (hne ▸ hle')))
    · exact .inr hne

end Visible

end Index

/-- What can be completed: at every use a symbol of its name, and at every offset no name twice and
only what is declared in a block around the offset, of which the program is one. -/
structure Index.Completes (content : String) (t : Tree) (ix : Index) : Prop where
  uses : ∀ r ∈ ix.references, ∃ s, ix.symbol? r.symbol = some s ∧
    ∃ id ∈ ix.visible r.offset, ∃ s', ix.symbol? id = some s' ∧ s'.name = s.name
  distinct : ∀ o, ((ix.visible o).map fun id => (ix.symbol? id).map Symbol.name).Nodup
  declared : ∀ o, ∀ id ∈ ix.visible o, ∃ s, ix.symbol? id = some s ∧
    ∃ block ∈ t.nodes, s.mark ∈ block.binds ∧ (block = t ∨ block.Spans content o)

section Completion

variable {content : String} {t : Tree} (hparse : Grammar.parseProgram content = .ok t)
  (hbuild : Index.build? t content = some ix)

include hparse hbuild

/-- What a block declares is bound by a block of the program, which is as far around. -/
theorem Index.bound_of_declared {b : BlockId} (hb : ix.Around b o) (hid : id ∈ ix.declared b) :
    ∃ s, ix.symbol? id = some s ∧ ∃ block ∈ t.nodes, s.mark ∈ block.binds ∧
      (block = t ∨ block.Spans content o) := by
  have hplace := (sorted_of_parse hparse).inPlace
  obtain ⟨hembedded, -⟩ := Index.build?_drawn hparse hbuild
  obtain ⟨st, hrun, -⟩ :=
    Indexer.run_program (P := fun _ _ => True) hplace (fun _ _ => trivial) content
  rw [build?_eq hplace hrun] at hbuild
  cases hbuild
  obtain ⟨σ, hzero, hscoped⟩ := Indexer.program_scoped hplace hrun
  obtain ⟨block, hblock, hid⟩ := mem_declared.mp hid
  obtain ⟨s, hs, hbinds⟩ := hscoped.symbols b block hblock id hid
  refine ⟨s, hs, σ b, hscoped.blocks b, hbinds, ?_⟩
  obtain ⟨_, hblock', rfl | ho⟩ := hb
  · exact .inl hzero
  cases hblock.symm.trans hblock'
  by_cases hparent : block.parent = none
  · exact .inl (hembedded.root b block hblock hparent ▸ hzero)
  · refine .inr ?_
    rw [Tree.Spans, ← hscoped.extents b block hblock hparent]
    exact ho

end Completion

/-- The index of a program completes every name that it resolves. -/
theorem index_completes {content : String} {t : Tree}
    (hparse : Grammar.parseProgram content = .ok t) :
    ∃ ix, Index.build? t content = some ix ∧ ix.Completes content t := by
  obtain ⟨ix, hbuild, -⟩ :=
    Index.build?_notes (P := fun _ _ => True) (sorted_of_parse hparse).inPlace
    (fun _ _ => trivial) content
  obtain ⟨hembedded, hfound⟩ := Index.build?_drawn hparse hbuild
  refine ⟨ix, hbuild, fun r hr => Index.visible_of_found hembedded (hfound r hr), fun o => ?_,
    fun o id hid => ?_⟩
  · exact (ix.firstOfName_spec _ _).2
  · obtain ⟨b, hb, hdeclared⟩ := Index.declared_of_visible hembedded hid
    exact Index.bound_of_declared hparse hbuild hb hdeclared

/-- A body in a block uses a name that is declared in the block behind it. -/
theorem index_completes_closure :
    ∃ t ix, Grammar.parseProgram "if(1)\x7bfunc(a)\x7bb=a;\x7d;var b=1;\x7d" = .ok t ∧
    Index.build? t "if(1)\x7bfunc(a)\x7bb=a;\x7d;var b=1;\x7d" = some ix ∧
    ix.Completes "if(1)\x7bfunc(a)\x7bb=a;\x7d;var b=1;\x7d" t := by
  have hcheck :
      (Grammar.parseProgram "if(1)\x7bfunc(a)\x7bb=a;\x7d;var b=1;\x7d").toOption.isSome =
        true := by
    decide +kernel
  obtain ⟨t, hparse⟩ := Grammar.exists_ok_of_isSome hcheck
  obtain ⟨ix, hbuild, hcompletes⟩ := index_completes hparse
  exact ⟨t, ix, hparse, hbuild, hcompletes⟩

end ClosureLang.Editor

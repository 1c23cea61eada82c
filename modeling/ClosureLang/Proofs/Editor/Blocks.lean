import ClosureLang.Editor.Index
import ClosureLang.Proofs.Run.Contexts
import ClosureLang.Proofs.Run.Lineage
import ClosureLang.Proofs.Run.Scoping

/-! The blocks of an index, the names in them, and what looking up a name finds. -/
namespace ClosureLang

/-- Which of the blocks around a node, counted from the innermost, has bound a name there. -/
def Context.binder? (c : Context) (x : String) : Option Nat :=
  c.frames.findIdx? fun f => decide (x ∈ f.bound)

namespace Editor.Index

variable {ix ix' : Index} {b p : BlockId} {block : Block} {x : String} {φ φ' : Finals} {s : Symbol}

/-- What the blocks name as their parents. -/
def parents (ix : Index) : Parents := fun b => (ix.blocks[b]?).map Block.parent

theorem enclosingUpTo_eq_lineageUpTo (ix : Index) (limit : Nat) (b : BlockId) :
    ix.enclosingUpTo limit b = ix.parents.lineageUpTo limit b := by
  induction limit generalizing b with
  | zero => rfl
  | succ limit ih =>
    simp only [enclosingUpTo, Parents.lineageUpTo, parents]
    cases ix.blocks[b]? with
    | none => rfl
    | some block =>
      simp only [Option.map_some]
      cases block.parent with
      | none => rfl
      | some p => simp only [Option.map_some, ih]

theorem enclosing_eq_lineage (ix : Index) (b : BlockId) : ix.enclosing b = ix.parents.lineage b :=
  ix.enclosingUpTo_eq_lineageUpTo (b + 1) b

theorem enclosing_eq_nil (hb : ix.blocks[b]? = none) : ix.enclosing b = [] := by
  rw [enclosing_eq_lineage]
  exact Parents.lineage_eq_nil (by simp only [parents, hb, Option.map_none])

/-- The names declared in a block, in order. -/
def names (ix : Index) (b : BlockId) : List String :=
  ((ix.blocks[b]?).map fun block => block.symbols.filterMap
    fun id => (ix.symbols[id]?).map Symbol.name).getD []

/-- A block and what it is known to bind, as a frame of a context. -/
def frame (φ : Finals) (ix : Index) (b : BlockId) : Frame := ⟨ix.names b, φ b⟩

/-- The blocks from `b` outwards as the frames of a context. -/
def frames (φ : Finals) (ix : Index) (b : BlockId) : List Frame := (ix.enclosing b).map (ix.frame φ)

theorem mem_declared {id : SymbolId} : id ∈ ix.declared b ↔
    ∃ block : Block, ix.blocks[b]? = some block ∧ id ∈ block.symbols := by
  unfold declared
  cases ix.blocks[b]? <;> simp

/-- Blocks are younger than their parents and one deeper, and their symbols are as deep as they
are. -/
structure Proper (ix : Index) : Prop where
  older : ix.parents.Older
  depth : ∀ (b : Nat) (block : Block), ix.blocks[b]? = some block →
      (ix.enclosing b).length = block.depth + 1
  symbols : ∀ (b : Nat) (block : Block), ix.blocks[b]? = some block → ∀ id ∈ block.symbols,
    ∃ s : Symbol, ix.symbols[id]? = some s ∧ s.depth = block.depth

namespace Proper

theorem enclosing_eq (h : ix.Proper) (hb : ix.blocks[b]? = some block) :
    ix.enclosing b = b :: (block.parent.map ix.enclosing).getD [] := by
  have henclosing : ix.enclosing = ix.parents.lineage := funext ix.enclosing_eq_lineage
  rw [henclosing]
  exact Parents.lineage_eq h.older (by simp only [parents, hb, Option.map_some])

theorem lt_of_mem_enclosing (h : ix.Proper) {e : BlockId} (he : e ∈ ix.enclosing b) :
    e < ix.blocks.size ∧ e ≤ b := by
  rw [enclosing_eq_lineage] at he
  obtain ⟨hsome, hle⟩ := Parents.isSome_of_mem h.older b e he
  exact ⟨by simpa [parents] using hsome, hle⟩

/-- Only the blocks and the symbols matter. -/
theorem congr (h : ix.Proper) (hblocks : ix'.blocks = ix.blocks)
    (hsymbols : ix'.symbols = ix.symbols) : ix'.Proper := by
  have hparents : ix'.parents = ix.parents := by
    funext e
    rw [parents, hblocks, parents]
  have henclosing : ix'.enclosing = ix.enclosing := by
    funext e
    rw [enclosing_eq_lineage, enclosing_eq_lineage, hparents]
  refine ⟨by rw [hparents]; exact h.older, ?_, ?_⟩
  · rw [hblocks, henclosing]
    exact h.depth
  · rw [hblocks, hsymbols]
    exact h.symbols

section Enclosing

variable {e : BlockId} (h : ix.Proper)

include h

theorem lt_of_parent {p : BlockId} (hb : ix.blocks[b]? = some block)
    (hp : block.parent = some p) : p < b :=
  h.older b p (by simp only [parents, hb, Option.map_some, hp])

theorem mem_enclosing : e ∈ ix.enclosing b ↔ ∃ block : Block, ix.blocks[b]? = some block ∧
    (e = b ∨ ∃ p, block.parent = some p ∧ e ∈ ix.enclosing p) := by
  cases hb : ix.blocks[b]? with
  | none =>
    simp [enclosing_eq_nil hb]
  | some block =>
    rw [h.enclosing_eq hb, List.mem_cons]
    cases hparent : block.parent <;> simp [hparent]

theorem self_mem (hb : ix.blocks[b]? = some block) : b ∈ ix.enclosing b :=
  h.mem_enclosing.mpr ⟨block, hb, .inl rfl⟩

theorem mem_of_parent {p : BlockId} (hb : ix.blocks[b]? = some block) (hp : block.parent = some p)
    (he : e ∈ ix.enclosing p) : e ∈ ix.enclosing b :=
  h.mem_enclosing.mpr ⟨block, hb, .inr ⟨p, hp, he⟩⟩

/-- What is around a block that is around another one is around that one, and there is no more of
it. -/
theorem enclosing_trans : ∀ b, ∀ e ∈ ix.enclosing b,
    ix.enclosing e ⊆ ix.enclosing b ∧ (ix.enclosing e).length ≤ (ix.enclosing b).length := by
  intro b
  induction b using Nat.strongRecOn with
  | ind b ih =>
    intro e he
    obtain ⟨block, hb, rfl | ⟨p, hp, he⟩⟩ := h.mem_enclosing.mp he
    · exact ⟨List.Subset.refl _, Nat.le_refl _⟩
    · obtain ⟨hsubset, hlength⟩ := ih p (h.lt_of_parent hb hp) e he
      rw [h.enclosing_eq hb, hp, Option.map_some, Option.getD_some]
      exact ⟨List.subset_cons_of_subset _ hsubset, Nat.le_succ_of_le hlength⟩

/-- Between a block and one around it, there is a child of the outer one. -/
theorem exists_child : ∀ b, ∀ e ∈ ix.enclosing b,
    e = b ∨ ∃ c ∈ ix.enclosing b, ∃ child : Block, ix.blocks[c]? = some child ∧
      child.parent = some e := by
  intro b
  induction b using Nat.strongRecOn with
  | ind b ih =>
    intro e he
    obtain ⟨block, hb, rfl | ⟨p, hp, he⟩⟩ := h.mem_enclosing.mp he
    · exact .inl rfl
    · refine .inr ?_
      obtain rfl | ⟨c, hc, hchild⟩ := ih p (h.lt_of_parent hb hp) e he
      · exact ⟨b, h.self_mem hb, block, hb, hp⟩
      · exact ⟨c, h.mem_of_parent hb hp hc, hchild⟩

end Enclosing

/-- The symbols of one block are searched before those of the blocks around it. -/
theorem lookup_eq (h : ix.Proper) (hb : ix.blocks[b]? = some block) :
    ix.lookup b x =
      (block.symbols.reverse.find? fun id => (ix.symbols[id]?).any fun s => s.name = x).or
      (block.parent.bind fun p => ix.lookup p x) := by
  have hdeclared : ix.declared b = block.symbols.reverse := by
    simp only [declared, hb, Option.map_some, Option.getD_some]
  rw [lookup, h.enclosing_eq hb, List.flatMap_cons, List.find?_append, hdeclared]
  cases block.parent <;> rfl

/-- Looking up a name finds a symbol in the innermost block that has one. -/
theorem lookup_spec (h : ix.Proper) : ∀ b : Nat,
    (ix.lookup b x = none ∧ (ix.enclosing b).findIdx? (fun e => decide (x ∈ ix.names e)) = none) ∨
    ∃ id s k, ix.lookup b x = some id ∧ ix.symbols[id]? = some s ∧ s.name = x ∧
      (ix.enclosing b).findIdx? (fun e => decide (x ∈ ix.names e)) = some k ∧
      s.depth + k + 1 = (ix.enclosing b).length := by
  intro b
  induction b using Nat.strongRecOn with
  | ind b ih =>
    cases hb : ix.blocks[b]? with
    | none =>
      have hnil := enclosing_eq_nil hb
      exact .inl ⟨by simp [lookup, hnil], by simp [hnil]⟩
    | some block =>
      have hnames :
          ix.names b = block.symbols.filterMap fun id => (ix.symbols[id]?).map Symbol.name := by
        simp only [names, hb, Option.map_some, Option.getD_some]
      have hdepth := h.depth b block hb
      rw [h.lookup_eq hb]
      rw [h.enclosing_eq hb] at hdepth ⊢
      rw [List.findIdx?_cons]
      cases hfind : block.symbols.reverse.find? fun id => (ix.symbols[id]?).any fun s =>
        s.name = x with
      | some id =>
        have hid : id ∈ block.symbols := by simpa using List.mem_of_find?_eq_some hfind
        have hname := List.find?_some hfind
        obtain ⟨s, hs, hsdepth⟩ := h.symbols b block hb id hid
        simp only [hs, Option.any_some, decide_eq_true_eq] at hname
        have hmem : x ∈ ix.names b := by
          rw [hnames, List.mem_filterMap]
          exact ⟨id, hid, by simp [hs, hname]⟩
        exact .inr ⟨id, s, 0, rfl, hs, hname, by simp [hmem], by omega⟩
      | none =>
        have hmem : x ∉ ix.names b := by
          rw [hnames, List.mem_filterMap]
          rintro ⟨id, hid, hname⟩
          obtain ⟨s, hs, rfl⟩ := Option.map_eq_some_iff.mp hname
          have := List.find?_eq_none.mp hfind id (by simpa using hid)
          simp [hs] at this
        simp only [hmem, decide_false, Bool.false_eq_true, if_false, Option.none_or]
        cases hparent : block.parent with
        | none => exact .inl ⟨rfl, rfl⟩
        | some p =>
          have hp : p < b := h.older b p (by simp only [parents, hb, Option.map_some, hparent])
          simp only [hparent, Option.map_some, Option.getD_some, List.length_cons] at hdepth ⊢
          obtain ⟨hlookup, hfree⟩ | ⟨id, s, k, hlookup, hs, hname, hk, hsdepth⟩ := ih p hp
          · exact .inl ⟨hlookup, by simp [hfree]⟩
          · exact .inr ⟨id, s, k + 1, hlookup, hs, hname, by simp [hk], by omega⟩

end Proper

/-- An index with further blocks and symbols. The blocks that were there keep their names, except
for one. -/
structure Extends (ix ix' : Index) (b : BlockId) : Prop where
  size : ix.blocks.size ≤ ix'.blocks.size
  parents : ∀ i < ix.blocks.size, ix'.parents i = ix.parents i
  names : ∀ i < ix.blocks.size, i ≠ b → ix'.names i = ix.names i
  symbols : ∀ (id : Nat) (s : Symbol), ix.symbols[id]? = some s → ix'.symbols[id]? = some s

theorem Extends.enclosing (h : ix.Extends ix' b) (hix : ix.parents.Older) (hix' : ix'.parents.Older)
    {e : BlockId} (he : e < ix.blocks.size) : ix'.enclosing e = ix.enclosing e := by
  rw [enclosing_eq_lineage, enclosing_eq_lineage]
  exact Parents.lineage_congr hix hix' e fun i hi => h.parents i (Nat.lt_of_le_of_lt hi he)

section NewBlock

variable {outer : Block}

theorem getElem?_newBlock (block : Block) (i : Nat) : (ix.newBlock block).2.blocks[i]? =
    if i = ix.blocks.size then some block else ix.blocks[i]? := by
  rw [newBlock, Array.getElem?_push]

theorem extends_newBlock (block : Block) : ix.Extends (ix.newBlock block).2 b where
  size := by simp [newBlock]
  parents i hi := by rw [parents, getElem?_newBlock, if_neg (Nat.ne_of_lt hi), parents]
  names i hi _ := by
    rw [names, getElem?_newBlock, if_neg (Nat.ne_of_lt hi)]
    rfl
  symbols _ _ hs := hs

theorem names_newBlock (hblock : block.symbols = []) :
    (ix.newBlock block).2.names ix.blocks.size = [] := by
  rw [names, getElem?_newBlock, if_pos rfl, Option.map_some, hblock]
  rfl

theorem Proper.newBlock (h : ix.Proper) (hparent : block.parent = some p)
    (hp : ix.blocks[p]? = some outer) (hdepth : block.depth = outer.depth + 1)
    (hsymbols : block.symbols = []) :
    (ix.newBlock block).2.Proper ∧
      (ix.newBlock block).2.enclosing ix.blocks.size = ix.blocks.size :: ix.enclosing p := by
  have hlt : p < ix.blocks.size := (Array.getElem?_eq_some_iff.mp hp).1
  have hparents : (ix.newBlock block).2.parents ix.blocks.size = some (some p) := by
    rw [parents, getElem?_newBlock, if_pos rfl, Option.map_some, hparent]
  have holder : (ix.newBlock block).2.parents.Older := by
    intro i q hq
    rw [parents, getElem?_newBlock] at hq
    split at hq
    · rename_i hi
      rw [Option.map_some, hparent, Option.some.injEq, Option.some.injEq] at hq
      exact hq ▸ hi ▸ hlt
    · exact h.older i q hq
  have hkeep : ∀ i < ix.blocks.size, (ix.newBlock block).2.enclosing i = ix.enclosing i :=
    fun i hi => (extends_newBlock (b := 0) block).enclosing h.older holder hi
  have hnew :
      (ix.newBlock block).2.enclosing ix.blocks.size = ix.blocks.size :: ix.enclosing p := by
    rw [enclosing_eq_lineage, Parents.lineage_eq holder hparents, Option.map_some, Option.getD_some,
      ← enclosing_eq_lineage, hkeep p hlt]
  refine ⟨⟨holder, fun i block' hi => ?_, fun i block' hi => ?_⟩, hnew⟩
  · rw [getElem?_newBlock] at hi
    split at hi
    · rename_i hsize
      cases hi
      rw [hsize, hnew, List.length_cons, h.depth p outer hp, hdepth]
    · rw [hkeep i (Array.getElem?_eq_some_iff.mp hi).1]
      exact h.depth i block' hi
  · rw [getElem?_newBlock] at hi
    split at hi
    · cases hi
      rw [hsymbols]
      exact nofun
    · exact h.symbols i block' hi

end NewBlock

section Declare

theorem getElem?_declare (b : BlockId) (s : Symbol) (i : Nat) : (ix.declare b s).blocks[i]? =
    if b = i then (ix.blocks[i]?).map fun block =>
      { block with symbols := block.symbols ++ [ix.symbols.size] }
    else ix.blocks[i]? := by
  rw [declare, Array.getElem?_modify]

theorem parents_declare (b : BlockId) (s : Symbol) : (ix.declare b s).parents = ix.parents := by
  funext i
  rw [parents, getElem?_declare]
  split
  · rw [Option.map_map]
    rfl
  · rfl

theorem enclosing_declare (b : BlockId) (s : Symbol) :
    (ix.declare b s).enclosing = ix.enclosing := by
  funext e
  rw [enclosing_eq_lineage, enclosing_eq_lineage, parents_declare]

theorem symbols_declare (b : BlockId) (s : Symbol) (id : Nat) : (ix.declare b s).symbols[id]? =
    if id = ix.symbols.size then some s else ix.symbols[id]? := by
  rw [declare, Array.getElem?_push]

/-- The symbols that are there keep their places. -/
theorem symbols_of_lt (b : BlockId) (s s' : Symbol) (id : Nat) (h : ix.symbols[id]? = some s') :
    (ix.declare b s).symbols[id]? = some s' := by
  rw [symbols_declare, if_neg (Nat.ne_of_lt (Array.getElem?_eq_some_iff.mp h).1)]
  exact h

theorem names_declare (h : ix.Proper) (b : BlockId) (s : Symbol) (i : Nat)
    (hi : i < ix.blocks.size) :
    (ix.declare b s).names i = ix.names i ++ if b = i then [s.name] else [] := by
  have hblock : ix.blocks[i]? = some ix.blocks[i] := Array.getElem?_eq_getElem hi
  have hkeep : ∀ ids : List SymbolId, (∀ id ∈ ids, ∃ s' : Symbol, ix.symbols[id]? = some s') →
      (ids.filterMap fun id => ((ix.declare b s).symbols[id]?).map Symbol.name) =
        ids.filterMap fun id => (ix.symbols[id]?).map Symbol.name := by
    intro ids hids
    refine List.filterMap_congr fun id hid => ?_
    obtain ⟨s', hs'⟩ := hids id hid
    rw [hs', symbols_of_lt b s s' id hs']
  have hsymbols : ∀ id ∈ ix.blocks[i].symbols, ∃ s' : Symbol, ix.symbols[id]? = some s' := by
    intro id hid
    obtain ⟨s', hs', -⟩ := h.symbols i _ hblock id hid
    exact ⟨s', hs'⟩
  rw [names, names, getElem?_declare, hblock]
  split
  · simp only [Option.map_some, Option.getD_some, List.filterMap_append, hkeep _ hsymbols]
    simp [symbols_declare]
  · simp only [Option.map_some, Option.getD_some, hkeep _ hsymbols, List.append_nil]

theorem extends_declare (h : ix.Proper) (b : BlockId) (s : Symbol) :
    ix.Extends (ix.declare b s) b where
  size := by simp [declare]
  parents i _ := by rw [parents_declare]
  names i hi hne := by rw [names_declare h b s i hi, if_neg (Ne.symm hne), List.append_nil]
  symbols id s' hs' := symbols_of_lt b s s' id hs'

theorem Proper.declare (h : ix.Proper) (hb : ix.blocks[b]? = some block)
    (hs : s.depth = block.depth) : (ix.declare b s).Proper := by
  refine ⟨by rw [parents_declare]; exact h.older, fun i block' hi => ?_,
    fun i block' hi id hid => ?_⟩
  · rw [enclosing_declare]
    rw [getElem?_declare] at hi
    split at hi
    · obtain ⟨block₀, hblock₀, rfl⟩ := Option.map_eq_some_iff.mp hi
      exact h.depth i block₀ hblock₀
    · exact h.depth i block' hi
  · rw [getElem?_declare] at hi
    split at hi
    · rename_i hbi
      obtain ⟨block₀, hblock₀, rfl⟩ := Option.map_eq_some_iff.mp hi
      rcases List.mem_append.mp hid with hid | hid
      · obtain ⟨s', hs', hdepth⟩ := h.symbols i block₀ hblock₀ id hid
        exact ⟨s', symbols_of_lt b s s' id hs', hdepth⟩
      · rw [List.mem_singleton.mp hid]
        rw [← hbi, hb] at hblock₀
        cases hblock₀
        exact ⟨s, by rw [symbols_declare, if_pos rfl], hs⟩
    · obtain ⟨s', hs', hdepth⟩ := h.symbols i block' hi id hid
      exact ⟨s', symbols_of_lt b s s' id hs', hdepth⟩

end Declare

end Editor.Index

end ClosureLang

import ClosureLang.Proofs.Editor.Inventory
import ClosureLang.Proofs.Editor.Regions

/-! The blocks of an index lie in the text as they lie in one another. While a block is resolved,
what is behind a place of the text is drawn already: the blocks inside of it and the names that it
declares stand in front of that place. -/
namespace ClosureLang.Editor

open ClosureLang.Tree

variable {ix ix' ix'' : Index} {b c e : BlockId} {block block' : Block} {id : SymbolId} {s : Symbol}

namespace Index

/-- Blocks lie in the text as they lie in one another: a block inside of its parent, and apart from
the blocks that its parent has besides. -/
structure Embedded (ix : Index) : Prop where
  proper : ix.Proper
  root : ∀ (b : Nat) (block : Block), ix.blocks[b]? = some block → block.parent = none → b = 0
  inside : ∀ (b p : Nat) (block outer : Block), ix.blocks[b]? = some block → block.parent = some p →
    ix.blocks[p]? = some outer → outer.start ≤ block.start ∧ block.stop ≤ outer.stop
  apart : ∀ (b b' : Nat) (block block' : Block), ix.blocks[b]? = some block →
      ix.blocks[b']? = some block' →
    block.parent = block'.parent → b < b' → block.stop < block'.start

/-- A use is found as lookup has it: in a block around the block that it is in, in that one a
parameter or declared in front of the use. -/
def Found (ix : Index) (r : Reference) : Prop :=
  ∃ (home e : BlockId) (block : Block) (s : Symbol), ix.blocks[home]? = some block ∧
    block.start ≤ r.offset ∧ r.offset ≤ block.stop ∧ e ∈ ix.enclosing home ∧
    r.symbol ∈ ix.declared e ∧
    ix.symbols[r.symbol]? = some s ∧ (e = home → s.kind = .parameter ∨ s.offset ≤ r.offset)

end Index

/-- The same block, in which more may be declared. -/
structure Block.Grows (block block' : Block) : Prop where
  parent : block'.parent = block.parent
  start : block'.start = block.start
  stop : block'.stop = block.stop
  symbols : block.symbols ⊆ block'.symbols

theorem Block.Grows.refl (block : Block) : block.Grows block := ⟨rfl, rfl, rfl, List.Subset.refl _⟩

theorem Block.Grows.trans {block'' : Block} (h : block.Grows block') (h' : block'.Grows block'') :
    block.Grows block'' :=
  ⟨h'.parent.trans h.parent, h'.start.trans h.start, h'.stop.trans h.stop,
    List.Subset.trans h.symbols h'.symbols⟩

namespace Index

/-- What work in a block does to an index: of the blocks that were there, more is declared in this
one only, and new blocks are inside of it. -/
structure Grows (ix ix' : Index) (b : BlockId) : Prop where
  blocks : ∀ (e : Nat) (block : Block), ix.blocks[e]? = some block →
    ∃ block', ix'.blocks[e]? = some block' ∧ block.Grows block' ∧
      (e ≠ b → block'.symbols = block.symbols)
  fresh : ∀ (e : Nat) (block : Block), ix'.blocks[e]? = some block → ix.blocks.size ≤ e →
    ∃ p, block.parent = some p ∧ (p = b ∨ ix.blocks.size ≤ p)
  symbols : ∀ (id : Nat) (s : Symbol), ix.symbols[id]? = some s → ix'.symbols[id]? = some s

namespace Grows

theorem size (h : ix.Grows ix' b) : ix.blocks.size ≤ ix'.blocks.size := by
  by_contra hlt
  have hsize : ix'.blocks.size < ix.blocks.size := Nat.lt_of_not_le hlt
  obtain ⟨_, hb, -⟩ := h.blocks _ _ (Array.getElem?_eq_getElem hsize)
  exact Nat.lt_irrefl _ (Array.getElem?_eq_some_iff.mp hb).1

theorem old (h : ix.Grows ix' b) {e : Nat} (he : e < ix.blocks.size)
    (hb : ix'.blocks[e]? = some block') :
    ∃ block, ix.blocks[e]? = some block ∧ block.Grows block' ∧
      (e ≠ b → block'.symbols = block.symbols) := by
  have hblock : ix.blocks[e]? = some ix.blocks[e] := Array.getElem?_eq_getElem he
  obtain ⟨_, hb', hgrows⟩ := h.blocks e _ hblock
  cases hb.symm.trans hb'
  exact ⟨_, hblock, hgrows⟩

theorem of_eq (hblocks : ix'.blocks = ix.blocks) (hsymbols : ix'.symbols = ix.symbols)
    (b : BlockId) :
    ix.Grows ix' b where
  blocks e block hb := ⟨block, by rw [hblocks, hb], .refl block, fun _ => rfl⟩
  fresh e block hb hnew := by
    rw [hblocks, Array.getElem?_eq_none hnew] at hb
    cases hb
  symbols id s hs := by rw [hsymbols, hs]

/-- Work in a block, and then in this block or in one that is new. -/
theorem trans (h : ix.Grows ix' b) (h' : ix'.Grows ix'' c) (hc : c = b ∨ ix.blocks.size ≤ c) :
    ix.Grows ix'' b where
  blocks e block hb := by
    obtain ⟨block', hb', hgrows, hsame⟩ := h.blocks e block hb
    obtain ⟨block'', hb'', hgrows', hsame'⟩ := h'.blocks e block' hb'
    refine ⟨block'', hb'', hgrows.trans hgrows', fun hne => ?_⟩
    have hne' : e ≠ c := by
      obtain rfl | hc := hc
      · exact hne
      · exact Nat.ne_of_lt (Nat.lt_of_lt_of_le (Array.getElem?_eq_some_iff.mp hb).1 hc)
    rw [hsame' hne', hsame hne]
  fresh e block hb hnew := by
    by_cases hlt : e < ix'.blocks.size
    · obtain ⟨block', hb', hgrows, -⟩ := h'.old hlt hb
      rw [hgrows.parent]
      exact h.fresh e block' hb' hnew
    · obtain ⟨p, hp, rfl | hnew'⟩ := h'.fresh e block hb (Nat.le_of_not_lt hlt)
      · exact ⟨p, hp, hc⟩
      · exact ⟨p, hp, .inr (Nat.le_trans h.size hnew')⟩
  symbols id s hs := h'.symbols id s (h.symbols id s hs)

theorem declare (ix : Index) (b : BlockId) (s : Symbol) : ix.Grows (ix.declare b s) b where
  blocks e block hb := by
    rw [getElem?_declare, hb]
    split
    · rename_i heq
      exact ⟨_, rfl, ⟨rfl, rfl, rfl, List.subset_append_left _ _⟩, fun hne => absurd heq.symm hne⟩
    · exact ⟨block, rfl, .refl block, fun _ => rfl⟩
  fresh e block hb hnew := by
    have hlt := (Array.getElem?_eq_some_iff.mp hb).1
    rw [Indexing.Scoped.size_declare] at hlt
    omega
  symbols id s' hs := symbols_of_lt b s s' id hs

theorem newBlock (hparent : block.parent = some b) : ix.Grows (ix.newBlock block).2 b where
  blocks e outer hb := by
    rw [getElem?_newBlock, if_neg (Nat.ne_of_lt (Array.getElem?_eq_some_iff.mp hb).1)]
    exact ⟨outer, hb, .refl outer, fun _ => rfl⟩
  fresh e block' hb hnew := by
    rw [getElem?_newBlock] at hb
    split at hb
    · cases hb
      exact ⟨b, hparent, .inl rfl⟩
    · rw [Array.getElem?_eq_none hnew] at hb
      cases hb
  symbols _ _ hs := hs

theorem enclosing (h : ix.Grows ix' b) (hix : ix.Proper) (hix' : ix'.Proper) {e : Nat}
    (he : e < ix.blocks.size) : ix'.enclosing e = ix.enclosing e := by
  rw [enclosing_eq_lineage, enclosing_eq_lineage]
  refine Parents.lineage_congr hix.older hix'.older e fun i hi => ?_
  have hold : ix.blocks[i]? = some ix.blocks[i] :=
    Array.getElem?_eq_getElem (Nat.lt_of_le_of_lt hi he)
  obtain ⟨block', hb', hgrows, -⟩ := h.blocks i _ hold
  rw [parents, parents, hb', hold, Option.map_some, Option.map_some, hgrows.parent]

/-- Uses stay found. -/
theorem found (h : ix.Grows ix' b) (hix : ix.Proper) (hix' : ix'.Proper) {r : Reference}
    (hr : ix.Found r) : ix'.Found r := by
  obtain ⟨home, e, block, s, hhome, hstart, hstop, he, hid, hs, hbefore⟩ := hr
  obtain ⟨block', hhome', hgrows, -⟩ := h.blocks home block hhome
  obtain ⟨outer, houter, hdeclared⟩ := mem_declared.mp hid
  obtain ⟨outer', houter', hgrows', -⟩ := h.blocks e outer houter
  refine ⟨home, e, block', s, hhome', by rwa [hgrows.start], by rwa [hgrows.stop], ?_,
    mem_declared.mpr ⟨outer', houter', hgrows'.symbols hdeclared⟩, h.symbols _ _ hs, hbefore⟩
  rw [h.enclosing hix hix' (Array.getElem?_eq_some_iff.mp hhome).1]
  exact he

/-- Without new blocks, the blocks stay where they are. -/
theorem embedded (h : ix.Grows ix' b) (hix : ix.Embedded) (hsize : ix'.blocks.size = ix.blocks.size)
    (hproper : ix'.Proper) : ix'.Embedded := by
  have hold : ∀ {e : Nat} {block' : Block}, ix'.blocks[e]? = some block' →
      ∃ block, ix.blocks[e]? = some block ∧ block.Grows block' := fun hb => by
    obtain ⟨block, hblock, hgrows, -⟩ := h.old (hsize ▸ (Array.getElem?_eq_some_iff.mp hb).1) hb
    exact ⟨block, hblock, hgrows⟩
  refine ⟨hproper, fun e block' hb hp => ?_, fun e p block' outer' hb hp houter => ?_,
    fun e e' block block' hb hb' hp hlt => ?_⟩
  · obtain ⟨block, hblock, hgrows⟩ := hold hb
    exact hix.root e block hblock (hgrows.parent ▸ hp)
  · obtain ⟨block, hblock, hgrows⟩ := hold hb
    obtain ⟨outer, hblock', hgrows'⟩ := hold houter
    rw [hgrows.start, hgrows.stop, hgrows'.start, hgrows'.stop]
    exact hix.inside e p block outer hblock (hgrows.parent ▸ hp) hblock'
  · obtain ⟨old, hblock, hgrows⟩ := hold hb
    obtain ⟨old', hblock', hgrows'⟩ := hold hb'
    rw [hgrows.stop, hgrows'.start]
    exact hix.apart e e' old old' hblock hblock' (by rw [← hgrows.parent, ← hgrows'.parent, hp]) hlt

end Grows

/-- What is still to be resolved in a block stands between two offsets of it, `p` and `z`: its other
blocks end in front of that, and what it declares besides parameters stands in front of `d`. -/
structure Ready (ix : Index) (b : BlockId) (d p z : Nat) : Prop where
  extent : ∃ block : Block, ix.blocks[b]? = some block ∧ block.start ≤ d ∧ z ≤ block.stop
  declared : ∀ id ∈ ix.declared b, ∃ s : Symbol, ix.symbols[id]? = some s ∧
      (s.kind = .parameter ∨ s.offset < d)
  inner : ∀ (e : Nat) (block : Block), ix.blocks[e]? = some block → block.parent = some b →
      block.stop < p

namespace Ready

variable {d d' p p' z : Nat}

theorem lt_size (h : ix.Ready b d p z) : b < ix.blocks.size := by
  obtain ⟨_, hb, -⟩ := h.extent
  exact (Array.getElem?_eq_some_iff.mp hb).1

theorem advance (h : ix.Ready b d p z) (hd : d ≤ d') (hp : p ≤ p') : ix.Ready b d' p' z where
  extent := by
    obtain ⟨block, hb, hstart, hstop⟩ := h.extent
    exact ⟨block, hb, by omega, hstop⟩
  declared id hid := by
    obtain ⟨s, hs, hbefore⟩ := h.declared id hid
    exact ⟨s, hs, hbefore.imp_right fun hlt => by omega⟩
  inner e block hb hparent := Nat.lt_of_lt_of_le (h.inner e block hb hparent) hp

/-- Work in other blocks does not matter. -/
theorem grows (h : ix.Ready b d p z) (hg : ix.Grows ix' c) (hne : b ≠ c) : ix'.Ready b d p z where
  extent := by
    obtain ⟨block, hb, hstart, hstop⟩ := h.extent
    obtain ⟨block', hb', hgrows, -⟩ := hg.blocks b block hb
    exact ⟨block', hb', by rwa [hgrows.start], by rwa [hgrows.stop]⟩
  declared id hid := by
    obtain ⟨block', hb', hid⟩ := mem_declared.mp hid
    obtain ⟨block, hb, -, hsame⟩ := hg.old h.lt_size hb'
    obtain ⟨s, hs, hbefore⟩ := h.declared id (mem_declared.mpr ⟨block, hb, hsame hne ▸ hid⟩)
    exact ⟨s, hg.symbols id s hs, hbefore⟩
  inner e block' hb' hparent := by
    by_cases he : e < ix.blocks.size
    · obtain ⟨block, hb, hgrows, -⟩ := hg.old he hb'
      rw [hgrows.stop]
      exact h.inner e block hb (hgrows.parent ▸ hparent)
    · obtain ⟨_, hparent', hp⟩ := hg.fresh e block' hb' (Nat.le_of_not_lt he)
      cases hparent.symm.trans hparent'
      obtain hp | hp := hp
      · exact absurd hp hne
      · exact absurd h.lt_size (Nat.not_lt.mpr hp)

/-- What looking up a name finds for a use that is still to be resolved. -/
theorem found (h : ix.Ready b d p z) (hproper : ix.Proper) {x : String} {i : Nat}
    (hlookup : ix.lookup b x = some id) (hd : d ≤ i) (hz : i < z) (assign : Bool) :
    ix.Found { symbol := id, offset := i, assign } := by
  obtain ⟨block, hb, hstart, hstop⟩ := h.extent
  obtain ⟨e, he, hid⟩ := List.mem_flatMap.mp (List.mem_of_find?_eq_some hlookup)
  obtain ⟨outer, houter, hdeclared⟩ := mem_declared.mp hid
  obtain ⟨s, hs, -⟩ := hproper.symbols e outer houter id hdeclared
  refine ⟨b, e, block, s, hb, ?_, ?_, he, hid, hs, fun heq => ?_⟩
  · show block.start ≤ (i : Int)
    omega
  · show (i : Int) ≤ block.stop
    omega
  · obtain ⟨s', hs', hbefore⟩ := h.declared id (heq ▸ hid)
    cases hs.symm.trans hs'
    refine hbefore.imp_right fun hlt => ?_
    show s.offset ≤ (i : Int)
    omega

end Ready

/-- A block that is opened behind the other blocks of the one around it. -/
theorem Embedded.newBlock (h : ix.Embedded) {d p i stop z : Nat} (hready : ix.Ready b d p z)
    (hd : d ≤ p) (hi : p ≤ i) (hstop : stop < z) :
    (ix.newBlock (ix.inner b i stop)).2.Embedded := by
  obtain ⟨outer, hb, hstart, hend⟩ := hready.extent
  have hdepth : (ix.inner b i stop).depth = outer.depth + 1 := by
    simp only [inner, hb, Option.map_some, Option.getD_some]
  have hproper := (h.proper.newBlock rfl hb hdepth rfl).1
  have hlt : ∀ {e : Nat} {block : Block}, ix.blocks[e]? = some block → e < ix.blocks.size :=
    fun he => (Array.getElem?_eq_some_iff.mp he).1
  refine ⟨hproper, fun e block he hp => ?_, fun e p' block outer' he hp hp' => ?_,
    fun e e' block block' he he' hp hee => ?_⟩
  · rw [getElem?_newBlock] at he
    split at he
    · cases he
      cases hp
    · exact h.root e block he hp
  · rw [getElem?_newBlock] at he hp'
    split at he
    · cases he
      cases hp
      rw [if_neg (Nat.ne_of_lt (hlt hb)), hb] at hp'
      cases hp'
      show outer.start ≤ (i : Int) ∧ stop ≤ outer.stop
      omega
    · rw [if_neg (Nat.ne_of_lt (Nat.lt_trans (h.proper.lt_of_parent he hp) (hlt he)))] at hp'
      exact h.inside e p' block outer' he hp hp'
  · rw [getElem?_newBlock] at he he'
    split at he'
    · rename_i hnew
      cases he'
      rw [if_neg (Nat.ne_of_lt (hnew ▸ hee))] at he
      have hbefore := hready.inner e block he hp
      show (block.stop : Int) < i
      omega
    · have hold := hlt he'
      rw [if_neg (Nat.ne_of_lt (Nat.lt_trans hee hold))] at he
      exact h.apart e e' block block' he he' hp hee

end Index

namespace Indexing

variable {src : String} {st st' st'' : Indexing} {d d' p p' q z : Nat}

/-- The blocks lie in the text as they lie in one another, the uses that are noted are found, and
the bodies that wait have their blocks for themselves. -/
structure Drawn (src : String) (st : Indexing) : Prop where
  embedded : st.index.Embedded
  found : ∀ r ∈ st.index.references, st.index.Found r
  waiting : ∀ w ∈ st.waiting, InPlace .block w.1 ∧
    ∃ p q, LaidAll src w.1.children p q ∧ st.index.Ready w.2 p p q
  pending : st.pending.Nodup

/-- Work goes on in a block. -/
structure Working (src : String) (st : Indexing) (b : BlockId) (d p z : Nat) :
    Prop extends Drawn src st where
  ready : st.index.Ready b d p z
  busy : b ∉ st.pending

/-- What work in a block does: the bodies that it puts off have new blocks. -/
structure Grows (st st' : Indexing) (b : BlockId) : Prop where
  index : st.index.Grows st'.index b
  waiting : ∀ e ∈ st'.pending, e ∈ st.pending ∨ st.index.blocks.size ≤ e

theorem Grows.trans (h : st.Grows st' b) (h' : st'.Grows st'' c)
    (hc : c = b ∨ st.index.blocks.size ≤ c) :
    st.Grows st'' b where
  index := h.index.trans h'.index hc
  waiting e he := by
    obtain he | he := h'.waiting e he
    · exact h.waiting e he
    · exact .inr (Nat.le_trans h.index.size he)

theorem Drawn.lt_size (h : st.Drawn src) (he : e ∈ st.pending) : e < st.index.blocks.size := by
  obtain ⟨w, hw, rfl⟩ := List.mem_map.mp he
  obtain ⟨-, p, q, -, hready⟩ := h.waiting w hw
  exact hready.lt_size

/-- Work in a block for which no body waits leaves alone what waits. -/
theorem Drawn.grows (h : st.Drawn src) (hg : st.index.Grows ix' b) (hb : b ∉ st.pending)
    (hembedded : ix'.Embedded)
    (hreferences : ∀ r ∈ ix'.references, r ∈ st.index.references ∨ ix'.Found r) :
    Drawn src { st with index := ix' } where
  embedded := hembedded
  found r hr :=
    (hreferences r hr).elim
      (fun hr => hg.found h.embedded.proper hembedded.proper (h.found r hr)) id
  waiting w hw := by
    obtain ⟨hplace, p, q, hlaid, hready⟩ := h.waiting w hw
    exact ⟨hplace, p, q, hlaid, hready.grows hg fun heq => hb (heq ▸ List.mem_map_of_mem hw)⟩
  pending := h.pending

theorem Working.advance (h : st.Working src b d p z) (hd : d ≤ d') (hp : p ≤ p') :
    st.Working src b d' p' z :=
  { h with ready := h.ready.advance hd hp }

/-- A use is noted behind what its block declares. -/
theorem Working.use (h : st.Working src b d p z) {i : Nat} (hd : d ≤ i) (hz : i < z) (x : String)
    (node : Tree) (assign : Bool) :
    Working src { st with index := st.index.use b x i node assign } b d p z ∧
      st.Grows { st with index := st.index.use b x i node assign } b := by
  obtain ⟨block, hb, hstart, hstop⟩ := h.ready.extent
  have hproper := h.embedded.proper
  have hsame : (st.index.use b x i node assign).blocks = st.index.blocks ∧
      (st.index.use b x i node assign).symbols = st.index.symbols := by
    unfold Index.use
    split <;> exact ⟨rfl, rfl⟩
  have hproper' : (st.index.use b x i node assign).Proper := hproper.congr hsame.1 hsame.2
  have hgrows := Index.Grows.of_eq hsame.1 hsame.2 b
  have hembedded := hgrows.embedded h.embedded (by rw [hsame.1]) hproper'
  refine ⟨⟨h.toDrawn.grows hgrows h.busy hembedded fun r hr => ?_, ?_, h.busy⟩, hgrows,
    fun e he => .inl he⟩
  · cases hlookup : st.index.lookup b x with
    | none =>
      simp only [Index.use, hlookup] at hr
      exact .inl hr
    | some id =>
      have hr' : r ∈ st.index.references ++ [{ symbol := id, offset := i, assign }] := by
        simpa only [Index.use, hlookup] using hr
      refine (List.mem_append.mp hr').imp_right fun hr' => ?_
      obtain rfl := List.mem_singleton.mp hr'
      exact hgrows.found hproper hproper' (h.ready.found hproper hlookup hd hz assign)
  · refine ⟨⟨block, by rw [hsame.1]; exact hb, hstart, hstop⟩, fun id hid => ?_,
      fun e block he hp => ?_⟩
    · rw [hsame.2]
      obtain ⟨outer, houter, hdeclared⟩ := Index.mem_declared.mp hid
      rw [hsame.1] at houter
      exact h.ready.declared id (Index.mem_declared.mpr ⟨outer, houter, hdeclared⟩)
    · rw [hsame.1] at he
      exact h.ready.inner e block he hp

/-- What the block declares may end farther behind after a declaration. -/
theorem Working.declare (h : st.Working src b d p z) (hblock : st.index.blocks[b]? = some block)
    (hdepth : s.depth = block.depth) (hs : s.kind = .parameter ∨ s.offset < d') (hd : d ≤ d') :
    Working src { st with index := st.index.declare b s } b d' p z ∧
      st.Grows { st with index := st.index.declare b s } b := by
  have hgrows := Index.Grows.declare st.index b s
  have hsize : (st.index.declare b s).blocks.size = st.index.blocks.size := Scoped.size_declare ..
  have hembedded := hgrows.embedded h.embedded hsize (h.embedded.proper.declare hblock hdepth)
  have hready := h.ready.advance hd (Nat.le_refl p)
  obtain ⟨block₀, hb, hstart, hstop⟩ := hready.extent
  cases hblock.symm.trans hb
  have hb' : (st.index.declare b s).blocks[b]? =
      some { block with symbols := block.symbols ++ [st.index.symbols.size] } := by
    rw [Index.getElem?_declare, if_pos rfl, hblock, Option.map_some]
  refine ⟨⟨h.toDrawn.grows hgrows h.busy hembedded fun r hr => .inl hr, ?_, h.busy⟩, hgrows,
    fun e he => .inl he⟩
  refine ⟨⟨_, hb', hstart, hstop⟩, fun id hid => ?_, fun e block' he hp => ?_⟩
  · obtain ⟨block', hblock', hid⟩ := Index.mem_declared.mp hid
    cases hb'.symm.trans hblock'
    rcases List.mem_append.mp hid with hid | hid
    · obtain ⟨s', hs', hbefore⟩ := hready.declared id (Index.mem_declared.mpr ⟨block, hblock, hid⟩)
      exact ⟨s', hgrows.symbols id s' hs', hbefore⟩
    · obtain rfl := List.mem_singleton.mp hid
      exact ⟨s, by rw [Index.symbols_declare, if_pos rfl], hs⟩
  · have hlt := hsize ▸ (Array.getElem?_eq_some_iff.mp he).1
    obtain ⟨old, hold, hsame, -⟩ := hgrows.old hlt he
    rw [hsame.stop]
    exact hready.inner e old hold (hsame.parent ▸ hp)

/-- Parameters may be declared anywhere. -/
theorem Working.declareAll (h : st.Working src b d p z) {k : Nat}
    (hdepth : (st.index.blocks[b]?).map Block.depth = some k) {symbols : List Symbol}
    (hsymbols : ∀ s ∈ symbols, s.depth = k ∧ s.kind = .parameter) :
    Working src { st with index := symbols.foldl (fun ix s => ix.declare b s) st.index } b d p z ∧
      st.Grows { st with index := symbols.foldl (fun ix s => ix.declare b s) st.index } b := by
  induction symbols generalizing st with
  | nil => exact ⟨h, .of_eq rfl rfl b, fun e he => .inl he⟩
  | cons s symbols ih =>
    rw [List.forall_mem_cons] at hsymbols
    obtain ⟨block, hb, rfl⟩ := Option.map_eq_some_iff.mp hdepth
    obtain ⟨hworking, hgrows⟩ := h.declare hb hsymbols.1.1 (.inl hsymbols.1.2) (Nat.le_refl d)
    obtain ⟨hdone, hall⟩ := ih hworking (by simp [Index.getElem?_declare, hb]) hsymbols.2
    exact ⟨hdone, hgrows.trans hall (.inl rfl)⟩

/-- A block that is opened behind the blocks of the one around it. -/
theorem Working.openBlock (h : st.Working src b d p z) {i k stop : Nat} (hd : d ≤ p) (hi : p ≤ i)
    (hk : i ≤ k) (hp : p ≤ q) (hstop : stop < q) (hq : q ≤ z) :
    Working src { st with index := (st.index.newBlock (st.index.inner b i stop)).2 } b d q z ∧
      Working src { st with index := (st.index.newBlock (st.index.inner b i stop)).2 }
        st.index.blocks.size k k stop ∧
      st.Grows { st with index := (st.index.newBlock (st.index.inner b i stop)).2 } b := by
  have hlt := h.ready.lt_size
  have hgrows : st.index.Grows (st.index.newBlock (st.index.inner b i stop)).2 b := .newBlock rfl
  have hembedded := h.embedded.newBlock h.ready hd hi (Nat.lt_of_lt_of_le hstop hq)
  have hdrawn := h.toDrawn.grows hgrows h.busy hembedded fun r hr => .inl hr
  have hfresh : st.index.blocks.size ∉ st.pending :=
    fun hmem => Nat.lt_irrefl _ (h.toDrawn.lt_size hmem)
  refine ⟨⟨hdrawn, ⟨?_, fun id hid => ?_, fun e block he hp => ?_⟩, h.busy⟩,
    ⟨hdrawn, ⟨⟨_, by rw [Index.getElem?_newBlock, if_pos rfl], ?_, Nat.le_refl _⟩, fun id hid => ?_,
      fun e block he hp => ?_⟩, hfresh⟩, hgrows, fun e he => .inl he⟩
  · obtain ⟨block, hb, hextent⟩ := h.ready.extent
    exact ⟨block, by rw [Index.getElem?_newBlock, if_neg (Nat.ne_of_lt hlt), hb], hextent⟩
  · obtain ⟨block, hb, hid⟩ := Index.mem_declared.mp hid
    rw [Index.getElem?_newBlock, if_neg (Nat.ne_of_lt hlt)] at hb
    exact h.ready.declared id (Index.mem_declared.mpr ⟨block, hb, hid⟩)
  · rw [Index.getElem?_newBlock] at he
    split at he
    · cases he
      exact hstop
    · have hbefore := h.ready.inner e block he hp
      omega
  · show (i : Int) ≤ k
    omega
  · obtain ⟨block, hb, hid⟩ := Index.mem_declared.mp hid
    rw [Index.getElem?_newBlock, if_pos rfl] at hb
    cases hb
    cases hid
  · -- the parent of a block is older than it
    have hparent := hembedded.proper.lt_of_parent he hp
    have hsize : e < st.index.blocks.size + 1 := by
      simpa [Index.newBlock] using (Array.getElem?_eq_some_iff.mp he).1
    exact absurd hparent (Nat.not_lt.mpr (Nat.le_of_lt_succ hsize))

end Indexing

namespace Indexer

variable {src : String} {st st' : Indexing} {t u : Tree} {ts cs : List Tree}
  {p p' q r i d d' d'' : Nat} {f : Form} {offset : Int}

/-- Work in a block on what stands between `p` and `q`. What the block declares stands in front of
`d`, and afterwards in front of `d'`. -/
def Draws (src : String) (b : BlockId) (p q d d' : Nat) (work : Indexer Unit) : Prop :=
  ∀ st st' z, q ≤ z → work.run st = some ((), st') → st.Working src b d p z →
    st'.Working src b d' q z ∧ st.Grows st' b

namespace Draws

variable {work work' : Indexer Unit}

theorem nothing (hp : p ≤ q) : Draws src b p q d d (pure ()) := by
  rintro st st' z - ⟨⟩ h
  exact ⟨h.advance (Nat.le_refl d) hp, .of_eq rfl rfl b, fun e he => .inl he⟩

theorem andThen (h : Draws src b p r d d' work) (h' : Draws src b r q d' d'' work') (hr : r ≤ q) :
    Draws src b p q d d'' (do work; work') := by
  intro st st'' z hz hrun hworking
  simp only [StateT.run_bind, Option.bind_eq_bind, Option.bind_eq_some_iff] at hrun
  obtain ⟨⟨⟨⟩, st'⟩, hrun, hrun'⟩ := hrun
  obtain ⟨hworking', hgrows⟩ := h st st' z (Nat.le_trans hr hz) hrun hworking
  obtain ⟨hworking'', hgrows'⟩ := h' st' st'' z hz hrun' hworking'
  exact ⟨hworking'', hgrows.trans hgrows' (.inl rfl)⟩

theorem widen (h : Draws src b p q d d' work) (hp : p' ≤ p) (hd : d' ≤ d'') :
    Draws src b p' q d d'' work := by
  intro st st' z hz hrun hworking
  obtain ⟨hworking', hgrows⟩ := h st st' z hz hrun (hworking.advance (Nat.le_refl d) hp)
  exact ⟨hworking'.advance hd (Nat.le_refl q), hgrows⟩

end Draws

theorem draws_use {ident node : Tree} {assign : Bool} (hi : ident.offset?.getD 0 = i) (hd : d ≤ i)
    (hiq : i < q) (hp : p ≤ q) : Draws src b p q d d (use b ident node assign) := by
  intro st st' z hz hrun h
  cases hname : ident.name? with
  | none =>
    simp only [use, hname] at hrun
    cases hrun
  | some x =>
    simp only [use, hname, hi] at hrun
    cases hrun
    obtain ⟨hworking, hgrows⟩ := h.use hd (Nat.lt_of_lt_of_le hiq hz) x node assign
    exact ⟨hworking.advance (Nat.le_refl d) hp, hgrows⟩

theorem draws_declaration {name value type : Tree} (hvalue : value.isAbsent = false)
    (hi : name.offset?.getD 0 = i) (hiq : i < q) (hd : d ≤ q) :
    Draws src b q q d q (declaration b name value type) := by
  intro st st' z hz hrun h
  cases hname : name.name? with
  | none =>
    simp only [declaration, hname] at hrun
    cases hrun
  | some x =>
    obtain ⟨s, hrun', -, hdepth, hoffset⟩ := run_declaration hname hvalue type b st
    rw [hrun'] at hrun
    cases hrun
    obtain ⟨block, hb, -⟩ := h.ready.extent
    exact h.declare hb (by rw [hdepth, hb]; rfl) (.inr (by omega)) hd

/-- Work in a block of its own. -/
theorem draws_inBlock {work : BlockId → Indexer Unit} {start brace : Int} {k : Nat}
    (hstart : start = i) (hd : d ≤ p) (hi : p ≤ i) (hk : i ≤ k) (hp : p ≤ q)
    (hclose : closingBrace src brace < q)
    (h : ∀ inner,
      Draws src inner k (closingBrace src brace) k (closingBrace src brace) (work inner)) :
    Draws src b p q d d (do let inner ← openBlock src b start brace; work inner) := by
  subst hstart
  intro st st' z hz hrun hworking
  rw [StateT.run_bind, run_openBlock_eq] at hrun
  obtain ⟨houter, hinner, hopened⟩ := hworking.openBlock hd hi hk hp hclose hz
  obtain ⟨hdone, hgrows⟩ := h _ _ st' _ (Nat.le_refl _) hrun hinner
  have hne : b ≠ st.index.blocks.size := Nat.ne_of_lt hworking.ready.lt_size
  refine ⟨⟨hdone.toDrawn, houter.ready.grows hgrows.index hne, fun hmem => ?_⟩,
    hopened.trans hgrows (.inr (Nat.le_refl _))⟩
  obtain hmem | hnew := hgrows.waiting b hmem
  · exact hworking.busy hmem
  · exact absurd houter.ready.lt_size (Nat.not_lt.mpr hnew)

section Function

variable {src : String} {params sig : List Tree} {body : Tree} {offset offset' : Int} {p q d : Nat}

theorem kind_of_mem_paramSymbols {names tags : List String} {depth : Nat} :
    ∀ s ∈ paramSymbols params names tags depth, s.kind = .parameter := by
  intro s hs
  obtain ⟨x, -, rfl⟩ := List.mem_map.mp hs
  rfl

/-- A function waits in a block of its own, in which nothing but its parameters is declared. -/
theorem draws_function (hparams : ∀ x ∈ params, IsIdent x) (hbody : InPlace .block body)
    (hsig : IsSignature params.length sig)
    (hlaid : Laid src (form .function offset (form .parameters offset' params :: body :: sig)) p q)
    (hd : d ≤ p) :
    Draws src b p q d d
      (function src b
        (form .function offset (form .parameters offset' params :: body :: sig))) := by
  obtain ⟨i, rfl, hi, hlaidBody⟩ := laid_function.mp hlaid
  obtain ⟨k, hk, hik, hchildren, hclose⟩ : ∃ k : Nat, body.offset?.getD 0 = k ∧ i + 1 ≤ k ∧
      LaidAll src body.children (k + 1) (closingBrace src k) ∧ closingBrace src k < q := by
    cases hbody with
    | block hts =>
      obtain ⟨k, rfl, hik, hlaid⟩ := laid_block.mp hlaidBody
      exact ⟨k, rfl, hik, hlaid⟩
  intro st st' z hz hrun hworking
  obtain ⟨names, tags, block, rfl, -, hrun'⟩ :=
    run_function_eq i offset' hparams hbody hsig src b st
  rw [hrun'] at hrun
  cases hrun
  rw [hk]
  obtain ⟨houter, hinner, hopened⟩ :=
    hworking.openBlock (k := k + 1) hd hi (by omega) hlaid.le hclose hz
  have hdepth :
      ((st.index.newBlock
        (st.index.inner b i (closingBrace src k))).2.blocks[st.index.blocks.size]?).map
      Block.depth = some (st.index.inner b i (closingBrace src k)).depth := by
    rw [Index.getElem?_newBlock, if_pos rfl, Option.map_some]
  have hsymbols :
      ∀ s ∈ paramSymbols params names tags (st.index.inner b i (closingBrace src k)).depth,
      s.depth = (st.index.inner b i (closingBrace src k)).depth ∧ s.kind = .parameter :=
    fun s hs => ⟨depth_of_mem_paramSymbols s hs, kind_of_mem_paramSymbols s hs⟩
  obtain ⟨hdone, hgrows⟩ := hinner.declareAll hdepth hsymbols
  have hne : b ≠ st.index.blocks.size := Nat.ne_of_lt hworking.ready.lt_size
  have hmem : ∀ e ∈ (st.waiting ++ [(body, st.index.blocks.size)]).map Prod.snd,
      e ∈ st.pending ∨ e = st.index.blocks.size := by
    intro e he
    rw [List.map_append, List.mem_append] at he
    exact he.imp_right List.mem_singleton.mp
  refine ⟨⟨⟨hdone.embedded, hdone.found, fun w hw => ?_, ?_⟩, houter.ready.grows hgrows.index hne,
    fun hb => ?_⟩, (hopened.trans hgrows (.inr (Nat.le_refl _))).index, fun e he => ?_⟩
  · rcases List.mem_append.mp hw with hw | hw
    · exact hdone.waiting w hw
    · rw [List.mem_singleton.mp hw]
      exact ⟨hbody, k + 1, closingBrace src k, hchildren, hdone.ready⟩
  · rw [Indexing.pending, List.map_append]
    refine hdone.pending.append (List.nodup_singleton _) fun e he he' => ?_
    obtain rfl := List.mem_singleton.mp he'
    exact hdone.busy he
  · exact (hmem b hb).elim hworking.busy hne
  · exact (hmem e he).imp_right fun heq => Nat.le_of_eq heq.symm

end Function

section Steps

variable {src : String} {st st' : Indexing} {t : Tree} {ts cs : List Tree} {p q d : Nat} {f : Form}
  {offset : Int}

/-- Wherever a tree stands in the text and in its block, resolving it draws what is there, as its
role says. -/
def Drawable (src : String) : Role → Tree → Prop
  | .expression, t => ∀ b p q d, Laid src t p q → d ≤ p → Draws src b p q d d (expr src b t)
  | .statement, t => ∀ b p q, Laid src t p q → Draws src b p q p q (statement src b t)
  | .block, t =>
    ∀ b p q, LaidAll src t.children p q → Draws src b p q p q (statements src b t.children)

theorem draws_exprs (h : ∀ t ∈ ts, Drawable src .expression t) (hlaid : LaidAll src ts p q)
    (hd : d ≤ p) : Draws src b p q d d (exprs src b ts) := by
  induction ts generalizing p with
  | nil =>
    rw [exprs]
    exact .nothing (laidAll_nil.mp hlaid)
  | cons t ts ih =>
    rw [List.forall_mem_cons] at h
    obtain ⟨r, hfirst, hrest⟩ := laidAll_cons.mp hlaid
    rw [exprs]
    exact (h.1 b p r d hfirst hd).andThen (ih h.2 hrest (Nat.le_trans hd hfirst.le)) hrest.le

theorem draws_statements (h : ∀ t ∈ ts, Drawable src .statement t) (hlaid : LaidAll src ts p q) :
    Draws src b p q p q (statements src b ts) := by
  induction ts generalizing p with
  | nil => exact (Draws.nothing (laidAll_nil.mp hlaid)).widen (Nat.le_refl p) (laidAll_nil.mp hlaid)
  | cons t ts ih =>
    rw [List.forall_mem_cons] at h
    obtain ⟨r, hfirst, hrest⟩ := laidAll_cons.mp hlaid
    rw [statements]
    exact (h.1 b p r hfirst).andThen (ih h.2 hrest) hrest.le

theorem draws_block (hblock : InPlace .block t) (h : Drawable src .block t) (hlaid : Laid src t p q)
    (hd : d ≤ p) : Draws src b p q d d (Indexer.block src b t) := by
  cases hblock with
  | @block offset ts hts =>
    obtain ⟨i, rfl, hi, hchildren, hclose⟩ := laid_block.mp hlaid
    refine draws_inBlock rfl hd hi (Nat.le_succ i) hlaid.le hclose fun inner => ?_
    exact (h inner _ _ hchildren).widen (Nat.le_refl _) (Nat.le_refl _)

/-- A node that names nothing is drawn by its parts. -/
theorem draws_parts (hf : f ∉ [.lookup, .varLoc, .declare, .function, .sequence])
    (h : ∀ t ∈ cs, Drawable src .expression t) : Drawable src .expression (form f offset cs) := by
  intro b p q d hlaid hd
  simp only [List.mem_cons, List.not_mem_nil, or_false, not_or] at hf
  rw [expr_form hf.1 hf.2.2.2.1]
  exact draws_exprs h ((laid_parts (by simpa using hf)).mp hlaid) hd

/-- The step lemma: a tree is drawn if its parts are. -/
theorem drawable (src : String) {role : Role} (h : InPlace role t) : Drawable src role t := by
  induction h with
  | int =>
    intro b p q d hlaid hd
    rw [expr_int]
    exact .nothing hlaid.le
  | lookup hx =>
    intro b p q d hlaid hd
    obtain ⟨i, hi, hpi, hiq⟩ := (laid_use (.inl rfl)).mp hlaid
    rw [expr_lookup]
    exact draws_use hi (Nat.le_trans hd hpi) hiq hlaid.le
  | binary hl hr ihl ihr => exact draws_parts (f := .binary _) (by simp) (by simpa using ⟨ihl, ihr⟩)
  | not ht ih => exact draws_parts (by simp) (by simpa using ih)
  | call hc hargs ihc ihargs =>
    exact draws_parts (by simp) (by simpa using ⟨ihc, draws_parts (by simp) ihargs⟩)
  | function hparams hbody hsig ih =>
    intro b p q d hlaid hd
    rw [expr_function]
    exact draws_function hparams hbody hsig hlaid hd
  | block hts ih => exact fun b p q hlaid => draws_statements ih hlaid
  | @declare offset x value type hx hvalue htype hlen ih =>
    intro b p q hlaid
    have hpresent : value.isAbsent = false := by cases hvalue <;> rfl
    obtain ⟨i, hi, hpi, hlaidValue⟩ := laid_declare.mp hlaid
    have hle := hlaidValue.le
    exact ((ih b (i + 1) q p hlaidValue (by omega)).andThen
      (draws_declaration hpresent hi hle hlaid.le) (Nat.le_refl q)).widen (by omega) (Nat.le_refl q)
  | @assign offset offset' x value hx hvalue ih =>
    intro b p q hlaid
    obtain ⟨r, hplace, hrest⟩ := laidAll_cons.mp ((laid_parts (by simp)).mp hlaid)
    obtain ⟨r', hlaidValue, hnil⟩ := laidAll_cons.mp hrest
    obtain ⟨i, hi, hpi, hir⟩ := (laid_use (.inr rfl)).mp hplace
    have hle := hlaidValue.le
    have hle' := laidAll_nil.mp hnil
    -- the use stands in front of the value, but is resolved behind it
    have huse : Draws src b r' q p p (use b x (form .varLoc offset' [x]) true) :=
      draws_use hi hpi (by omega) hle'
    exact ((ih b r r' p hlaidValue hplace.le).andThen huse hle').widen hplace.le hlaid.le
  | print ht ih | ret ht ih =>
    intro b p q hlaid
    obtain ⟨r, hvalue, hnil⟩ := laidAll_cons.mp ((laid_parts (by simp)).mp hlaid)
    have hwhole := hvalue.widen (Nat.le_refl p) (laidAll_nil.mp hnil)
    exact (ih b p q p hwhole (Nat.le_refl p)).widen (Nat.le_refl p) hlaid.le
  | ifThen hc hb ihc ihb | whileDo hc hb ihc ihb =>
    intro b p q hlaid
    obtain ⟨r, hcond, hrest⟩ := laidAll_cons.mp ((laid_parts (by simp)).mp hlaid)
    obtain ⟨s, hbody, hnil⟩ := laidAll_cons.mp hrest
    have hwhole := hbody.widen (Nat.le_refl r) (laidAll_nil.mp hnil)
    exact ((ihc b p r p hcond (Nat.le_refl p)).andThen (draws_block hb ihb hwhole hcond.le)
      hwhole.le).widen (Nat.le_refl p) hlaid.le
  | ifElse hc hb ha ihc ihb iha =>
    intro b p q hlaid
    obtain ⟨r, hcond, hrest⟩ := laidAll_cons.mp ((laid_parts (by simp)).mp hlaid)
    obtain ⟨s, hbody, hrest⟩ := laidAll_cons.mp hrest
    obtain ⟨s', halternative, hnil⟩ := laidAll_cons.mp hrest
    have hwhole := halternative.widen (Nat.le_refl s) (laidAll_nil.mp hnil)
    have hle := hcond.le
    have hle' := Nat.le_trans hle hbody.le
    exact ((ihc b p r p hcond (Nat.le_refl p)).andThen ((draws_block hb ihb hbody hle).andThen
      (draws_block ha iha hwhole hle') hwhole.le) (Nat.le_trans hbody.le hwhole.le)).widen
      (Nat.le_refl p) hlaid.le
  | expression ht ih =>
    intro b p q hlaid
    rw [statement_expression ht]
    exact (ih b p q p hlaid (Nat.le_refl p)).widen (Nat.le_refl p) hlaid.le

/-- The run lemma: resolving the bodies that wait draws them. -/
theorem draws_bodies (src : String) (limit : Nat) :
    ∀ st st', (bodies src limit).run st = some ((), st') →
    st.Drawn src → st'.Drawn src := by
  induction limit with
  | zero =>
    rintro st st' ⟨⟩ hst
    exact hst
  | succ limit ih =>
    intro st st' hrun hst
    cases hwaiting : st.waiting with
    | nil =>
      rw [run_bodies_nil hwaiting] at hrun
      cases hrun
      exact hst
    | cons w waiting =>
      obtain ⟨body, b⟩ := w
      rw [run_bodies_cons hwaiting, StateT.run_bind] at hrun
      obtain ⟨⟨⟨⟩, st₁⟩, hrun, hrun'⟩ := Option.bind_eq_some_iff.mp hrun
      obtain ⟨hbody, p, q, hlaid, hready⟩ := hst.waiting (body, b) (hwaiting ▸ List.mem_cons_self)
      have hpending := hst.pending
      rw [Indexing.pending, hwaiting, List.map_cons, List.nodup_cons] at hpending
      have hworking : Indexing.Working src { st with waiting } b p p q :=
        ⟨⟨hst.embedded, hst.found, fun w hw => hst.waiting w (hwaiting ▸ List.mem_cons_of_mem _ hw),
          hpending.2⟩, hready, hpending.1⟩
      obtain ⟨hdone, -⟩ :=
        drawable src hbody b p q hlaid { st with waiting } st₁ q (Nat.le_refl q) hrun hworking
      exact ih st₁ st' hrun' hdone.toDrawn

/-- Before anything is resolved, there is the block of the whole text. -/
theorem working_start (src : String) : (start src).Working src 0 0 0 src.utf8ByteSize := by
  have hzero : ∀ (b : Nat) (block : Block), (start src).index.blocks[b]? = some block →
      b = 0 ∧ block = { parent := none, start := 0, stop := src.utf8ByteSize, depth := 0 } := by
    intro b block hb
    obtain rfl : b = 0 := Nat.lt_one_iff.mp (Array.getElem?_eq_some_iff.mp hb).1
    exact ⟨rfl, (Option.some.inj hb).symm⟩
  have hparent : ∀ (b : Nat) (block : Block), (start src).index.blocks[b]? = some block →
      block.parent = none :=
    fun b block hb => by rw [(hzero b block hb).2]
  have hproper := (Indexing.at_start (fun _ _ => True) .absent src.utf8ByteSize).typed.proper
  refine ⟨⟨⟨hproper, fun b block hb _ => (hzero b block hb).1, fun b p block outer hb hp => ?_,
    fun b b' block block' hb hb' _ hlt => ?_⟩, nofun, nofun, List.nodup_nil⟩,
    ⟨⟨_, rfl, ?_, Nat.le_refl _⟩, nofun, fun b block hb hp => ?_⟩, nofun⟩
  · cases (hparent b block hb).symm.trans hp
  · have hzero' := (hzero b' block' hb').1
    omega
  · exact Int.le_refl 0
  · cases (hparent b block hb).symm.trans hp

end Steps

end Indexer

/-- The order of the uses does not matter. -/
theorem Indexing.Drawn.reorder {src : String} {st : Indexing} (h : st.Drawn src)
    (hblocks : ix.blocks = st.index.blocks) (hsymbols : ix.symbols = st.index.symbols)
    (hreferences : ix.references ⊆ st.index.references) :
    ix.Embedded ∧ ∀ r ∈ ix.references, ix.Found r := by
  have hproper := h.embedded.proper.congr hblocks hsymbols
  have hgrows : st.index.Grows ix 0 := .of_eq hblocks hsymbols 0
  exact ⟨hgrows.embedded h.embedded (by rw [hblocks]) hproper,
    fun r hr => hgrows.found h.embedded.proper hproper (h.found r (hreferences hr))⟩

/-- The blocks of the index of a program lie in its text as they lie in one another, and its uses
are found. -/
theorem Index.build?_drawn {content : String} {t : Tree}
    (hparse : Grammar.parseProgram content = .ok t) (hbuild : build? t content = some ix) :
    ix.Embedded ∧ ∀ r ∈ ix.references, ix.Found r := by
  have hplace := (sorted_of_parse hparse).inPlace
  obtain ⟨st, hrun, -⟩ :=
    Indexer.run_program (P := fun _ _ => True) hplace (fun _ _ => trivial) content
  rw [build?_eq hplace hrun] at hbuild
  cases hbuild
  rw [Indexer.program, StateT.run_bind] at hrun
  obtain ⟨⟨⟨⟩, st₁⟩, hstatements, hbodies⟩ := Option.bind_eq_some_iff.mp hrun
  obtain ⟨hworking, -⟩ :=
    Indexer.drawable content hplace 0 0 _ (Grammar.laid_of_parse hparse) _ st₁ _ (Nat.le_refl _)
    hstatements (Indexer.working_start content)
  have hdrawn := Indexer.draws_bodies content _ st₁ st hbodies hworking.toDrawn
  exact hdrawn.reorder rfl rfl fun r hr => List.mem_mergeSort.mp hr

end ClosureLang.Editor

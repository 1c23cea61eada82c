import ClosureLang.Proofs.Editor.Renaming

/-! The index of a program knows each of its names once: the symbol of a use is declared in a block
around it, and every byte of a name leads to its symbol. -/
namespace ClosureLang

/-- Behind the last byte of the name. -/
def Mark.stop (m : Mark) : Int := m.offset + m.name.utf8ByteSize

namespace Tree

variable {t u v : Tree} {ts cs : List Tree} {f : Form} {offset : Int} {m : Mark}

/-- The names that statements declare. -/
def declarations (ts : List Tree) : List Mark :=
  (ts.filter (·.isForm .declare)).map fun t => (t.child 0).mark true

/-- The names that a block binds: those that its statements declare, and for a function those of its
parameters and of its body. -/
def binds (t : Tree) : List Mark :=
  if t.isForm .function then
    (t.child 0).children.map (mark true) ++ declarations (t.child 1).children
  else if t.isForm .sequence then declarations t.children
  else []

/-- From where to where a block extends: from its brace, for a function from its keyword, to the
closing brace. -/
def extent (content : String) (t : Tree) : Int × Nat :=
  (t.offset?.getD 0,
    Editor.closingBrace content ((if t.isForm .function then t.child 1 else t).offset?.getD 0))

/-- A block is around an offset of the text. -/
def Spans (content : String) (t : Tree) (o : Int) : Prop :=
  (t.extent content).1 ≤ o ∧ o ≤ (t.extent content).2

/-- A block around a node binds a name. -/
def Sees (root u : Tree) (m : Mark) : Prop :=
  ∃ block ∈ root.nodes, u ∈ block.nodes ∧ m ∈ block.binds

theorem mem_nodes_self (l : Label) : node l offset cs ∈ (node l offset cs).nodes := by
  rw [nodes_node]
  exact List.mem_cons_self

theorem nodes_subset_of_mem (h : t ∈ cs) (l : Label) : t.nodes ⊆ (node l offset cs).nodes := by
  rw [nodes_node]
  exact fun u hu => List.mem_cons_of_mem _ (List.mem_flatMap.mpr ⟨t, h, hu⟩)

theorem nodes_subset_of_child {c : Tree} (h : c ∈ t.children) : c.nodes ⊆ t.nodes := by
  cases t with
  | absent => cases h
  | node l offset cs => exact nodes_subset_of_mem h l

/-- The nodes below a node are nodes. -/
theorem nodes_subset : (t : Tree) → u ∈ t.nodes → u.nodes ⊆ t.nodes
  | absent, h => nomatch h
  | node l offset cs, h => by
    rw [nodes_node] at h
    rcases List.mem_cons.mp h with rfl | h
    · exact List.Subset.refl _
    · obtain ⟨c, hc, hu⟩ := List.mem_flatMap.mp h
      exact List.Subset.trans (nodes_subset c hu) (nodes_subset_of_mem hc l)

end Tree

namespace Editor

open ClosureLang.Tree

variable {root t u : Tree} {ts cs : List Tree} {σ : BlockId → Tree} {st st' : Indexing} {ix : Index}
  {b e : BlockId} {src : String} {f : Form} {offset : Int} {need need' : Tree → Prop}

/-- Where a symbol is declared. -/
def Symbol.mark (s : Symbol) : Mark := ⟨s.offset, s.name, true⟩

/-- The blocks of an index stand for blocks of the tree: what a block has bound is bound there, it
extends as far, the block around it is around it there, and what is said of uses is true of the
tree. -/
structure Indexing.Scoped (root : Tree) (src : String) (σ : BlockId → Tree)
    (st : Indexing) : Prop where
  blocks : ∀ b, σ b ∈ root.nodes
  symbols : ∀ (b : Nat) (block : Block), st.index.blocks[b]? = some block → ∀ id ∈ block.symbols,
    ∃ s : Symbol, st.index.symbols[id]? = some s ∧ s.mark ∈ (σ b).binds
  extents : ∀ (b : Nat) (block : Block), st.index.blocks[b]? = some block → block.parent ≠ none →
    (block.start, block.stop) = (σ b).extent src
  parents : ∀ (b : Nat) (block : Block) (p : BlockId), st.index.blocks[b]? = some block →
      block.parent = some p →
    p < st.index.blocks.size ∧ (σ b).nodes ⊆ (σ p).nodes
  waiting : ∀ w ∈ st.waiting, w.2 < st.index.blocks.size ∧ InPlace .block w.1 ∧
    (∀ c ∈ w.1.children, c.nodes ⊆ (σ w.2).nodes) ∧ declarations w.1.children ⊆ (σ w.2).binds
  references : ∀ r ∈ st.index.references, ∃ (s : Symbol) (u : Tree),
      st.index.symbols[r.symbol]? = some s ∧
    u ∈ root.nodes ∧ u.UsesName s.name ∧ u.useOffset = r.offset ∧ root.Sees u s.mark
  unresolved : ∀ u ∈ st.index.unresolved, u ∈ root.nodes ∧ u.isUse = true

namespace Indexing.Scoped

/-- A block is inside of the blocks around it. -/
theorem nodes_subset (h : st.Scoped root src σ) {limit : Nat}
    (he : e ∈ st.index.enclosingUpTo limit b) : (σ b).nodes ⊆ (σ e).nodes := by
  induction limit generalizing b with
  | zero => cases he
  | succ limit ih =>
    unfold Index.enclosingUpTo at he
    cases hblock : st.index.blocks[b]? with
    | none =>
      rw [hblock] at he
      cases he
    | some block =>
      rw [hblock] at he
      rcases List.mem_cons.mp he with rfl | he
      · exact List.Subset.refl _
      · cases hparent : block.parent with
        | none =>
          rw [hparent] at he
          cases he
        | some p =>
          rw [hparent] at he
          exact List.Subset.trans (h.parents b block p hblock hparent).2 (ih he)

/-- What is found for a name is bound in a block around. -/
theorem lookup (h : st.Scoped root src σ) {x : String} {id : SymbolId}
    (hlookup : st.index.lookup b x = some id) :
    ∃ (s : Symbol) (e : BlockId), st.index.symbols[id]? = some s ∧ s.name = x ∧
      s.mark ∈ (σ e).binds ∧
      (σ b).nodes ⊆ (σ e).nodes := by
  have hname := List.find?_some hlookup
  obtain ⟨e, he, hid⟩ := List.mem_flatMap.mp (List.mem_of_find?_eq_some hlookup)
  unfold Index.declared at hid
  cases hblock : st.index.blocks[e]? with
  | none =>
    rw [hblock] at hid
    cases hid
  | some block =>
    simp only [hblock, Option.map_some, Option.getD_some, List.mem_reverse] at hid
    obtain ⟨s, hs, hbinds⟩ := h.symbols e block hblock id hid
    simp only [hs, Option.any_some, decide_eq_true_eq] at hname
    exact ⟨s, e, hs, hname, hbinds, h.nodes_subset he⟩

theorem size_declare (ix : Index) (b : BlockId) (s : Symbol) :
    (ix.declare b s).blocks.size = ix.blocks.size :=
  Array.size_modify ..

theorem declare (h : st.Scoped root src σ) {s : Symbol} (hs : s.mark ∈ (σ b).binds) :
    Scoped root src σ { st with index := st.index.declare b s } where
  blocks := h.blocks
  symbols i block hi id hid := by
    rw [Index.getElem?_declare] at hi
    split at hi
    · rename_i hbi
      obtain ⟨block₀, hblock₀, rfl⟩ := Option.map_eq_some_iff.mp hi
      rcases List.mem_append.mp hid with hid | hid
      · obtain ⟨s', hs', hbinds⟩ := h.symbols i block₀ hblock₀ id hid
        exact ⟨s', Index.symbols_of_lt b s s' id hs', hbinds⟩
      · rw [List.mem_singleton.mp hid, ← hbi]
        exact ⟨s, by rw [Index.symbols_declare, if_pos rfl], hs⟩
    · obtain ⟨s', hs', hbinds⟩ := h.symbols i block hi id hid
      exact ⟨s', Index.symbols_of_lt b s s' id hs', hbinds⟩
  extents i block hi hp := by
    rw [Index.getElem?_declare] at hi
    split at hi
    · obtain ⟨block₀, hblock₀, rfl⟩ := Option.map_eq_some_iff.mp hi
      exact h.extents i block₀ hblock₀ hp
    · exact h.extents i block hi hp
  parents i block p hi hp := by
    rw [size_declare]
    rw [Index.getElem?_declare] at hi
    split at hi
    · obtain ⟨block₀, hblock₀, rfl⟩ := Option.map_eq_some_iff.mp hi
      exact h.parents i block₀ p hblock₀ hp
    · exact h.parents i block p hi hp
  waiting w hw := by
    rw [size_declare]
    exact h.waiting w hw
  references r hr := by
    obtain ⟨s', u, hs', hu⟩ := h.references r hr
    exact ⟨s', u, Index.symbols_of_lt b s s' r.symbol hs', hu⟩
  unresolved := h.unresolved

theorem declareAll (h : st.Scoped root src σ) {symbols : List Symbol}
    (hs : ∀ s ∈ symbols, s.mark ∈ (σ b).binds) :
    Scoped root src σ { st with index := symbols.foldl (fun ix s => ix.declare b s) st.index } := by
  induction symbols generalizing st with
  | nil => exact h
  | cons s symbols ih =>
    rw [List.forall_mem_cons] at hs
    exact ih (h.declare hs.1) hs.2

/-- A block that is opened stands for a block of the tree inside of the one around it. -/
theorem openBlock (h : st.Scoped root src σ) (hb : b < st.index.blocks.size) (ht : t ∈ (σ b).nodes)
    {start : Int} {stop : Nat} (hextent : (start, stop) = t.extent src) :
    Scoped root src (Function.update σ st.index.blocks.size t)
      { st with index := (st.index.newBlock (st.index.inner b start stop)).2 } := by
  have hsame : ∀ {e : BlockId}, e < st.index.blocks.size →
      Function.update σ st.index.blocks.size t e = σ e :=
    fun he => Function.update_of_ne (Nat.ne_of_lt he) _ _
  have hlt : ∀ {i : Nat} {block : Block}, st.index.blocks[i]? = some block →
      i < st.index.blocks.size :=
    fun hi => (Array.getElem?_eq_some_iff.mp hi).1
  have hgrows :
      (st.index.newBlock (st.index.inner b start stop)).2.blocks.size = st.index.blocks.size + 1 :=
    Array.size_push _
  constructor
  · intro e
    by_cases he : e = st.index.blocks.size
    · rw [he, Function.update_self]
      exact Tree.nodes_subset _ (h.blocks b) ht
    · rw [Function.update_of_ne he]
      exact h.blocks e
  · intro i block hi id hid
    rw [Index.getElem?_newBlock] at hi
    split at hi
    · cases hi
      cases hid
    · rw [hsame (hlt hi)]
      exact h.symbols i block hi id hid
  · intro i block hi hp
    rw [Index.getElem?_newBlock] at hi
    split at hi
    · rename_i hnew
      cases hi
      rw [hnew, Function.update_self]
      exact hextent
    · rw [hsame (hlt hi)]
      exact h.extents i block hi hp
  · intro i block p hi hp
    rw [Index.getElem?_newBlock] at hi
    split at hi
    · rename_i hnew
      cases hi
      cases hp
      rw [hgrows, hnew, Function.update_self, hsame hb]
      exact ⟨Nat.lt_succ_of_lt hb, Tree.nodes_subset _ ht⟩
    · obtain ⟨hp, hsubset⟩ := h.parents i block p hi hp
      rw [hgrows, hsame (hlt hi), hsame hp]
      exact ⟨Nat.lt_succ_of_lt hp, hsubset⟩
  · intro w hw
    obtain ⟨hlt, hwait⟩ := h.waiting w hw
    rw [hgrows, hsame hlt]
    exact ⟨Nat.lt_succ_of_lt hlt, hwait⟩
  · exact h.references
  · exact h.unresolved

/-- A use is noted with a symbol that it sees, or not at all. -/
theorem use (h : st.Scoped root src σ) (hu : u ∈ (σ b).nodes) {x : String} (hx : u.UsesName x)
    (assign : Bool) :
    Scoped root src σ { st with index := st.index.use b x u.useOffset u assign } := by
  have hroot : u ∈ root.nodes := Tree.nodes_subset _ (h.blocks b) hu
  unfold Index.use
  split
  · rename_i id hlookup
    refine { h with references := fun r hr => ?_ }
    rcases List.mem_append.mp hr with hr | hr
    · exact h.references r hr
    · obtain ⟨s, e, hs, rfl, hbinds, hsubset⟩ := h.lookup hlookup
      obtain rfl := List.mem_singleton.mp hr
      exact ⟨s, u, hs, hroot, hx, rfl, σ e, h.blocks e, hsubset hu, hbinds⟩
  · refine { h with unresolved := fun v hv => ?_ }
    rcases List.mem_append.mp hv with hv | hv
    · exact h.unresolved v hv
    · rw [List.mem_singleton.mp hv]
      exact ⟨hroot, hx.1⟩

end Indexing.Scoped

namespace Indexer

/-- Work in the block `b` keeps to the scopes of a tree, if `need` holds of what the block stands
for. -/
def Keeps (root : Tree) (src : String) (b : BlockId) (need : Tree → Prop)
    (work : Indexer Unit) : Prop :=
  ∀ σ st st', work.run st = some ((), st') → st.Scoped root src σ → b < st.index.blocks.size →
    need (σ b) →
    st.index.blocks.size ≤ st'.index.blocks.size ∧
      ∃ σ', (∀ e < st.index.blocks.size, σ' e = σ e) ∧ st'.Scoped root src σ'

namespace Keeps

variable {work work' : Indexer Unit}

theorem nothing : Keeps root src b need (pure ()) := by
  rintro σ st st' ⟨⟩ h - -
  exact ⟨Nat.le_refl _, σ, fun _ _ => rfl, h⟩

theorem andThen (h : Keeps root src b need work) (h' : Keeps root src b need' work') :
    Keeps root src b (fun block => need block ∧ need' block) (do work; work') := by
  intro σ st st'' hrun hscoped hb hneed
  simp only [StateT.run_bind, Option.bind_eq_bind, Option.bind_eq_some_iff] at hrun
  obtain ⟨⟨⟨⟩, st'⟩, hrun, hrun'⟩ := hrun
  obtain ⟨hsize, σ', hσ, hscoped'⟩ := h σ st st' hrun hscoped hb hneed.1
  obtain ⟨hsize', σ'', hσ', hscoped''⟩ :=
    h' σ' st' st'' hrun' hscoped' (Nat.lt_of_lt_of_le hb hsize) (by rw [hσ b hb]; exact hneed.2)
  refine ⟨Nat.le_trans hsize hsize', σ'', fun e he => ?_, hscoped''⟩
  rw [hσ' e (Nat.lt_of_lt_of_le he hsize), hσ e he]

theorem mono (h : Keeps root src b need work) (hneed : ∀ block, need' block → need block) :
    Keeps root src b need' work :=
  fun σ st st' hrun hscoped hb h' => h σ st st' hrun hscoped hb (hneed _ h')

end Keeps

/-- The nodes of a tree are nodes of the block. -/
def Within (t block : Tree) : Prop := t.nodes ⊆ block.nodes

theorem Within.part {l : Label} {block : Tree} (h : Within (node l offset cs) block) (ht : t ∈ cs) :
    Within t block :=
  List.Subset.trans (nodes_subset_of_mem ht l) h

theorem keeps_use {assign : Bool} (huse : u.isUse = true) (hu : u ∈ u.nodes) :
    Keeps root src b (Within u) (use b (u.child 0) u assign) := by
  intro σ st st' hrun hscoped hb hneed
  cases hname : (u.child 0).name? with
  | none =>
    simp only [use, hname] at hrun
    cases hrun
  | some x =>
    simp only [use, hname] at hrun
    cases hrun
    have hblocks : (st.index.use b x u.useOffset u assign).blocks = st.index.blocks := by
      unfold Index.use
      split <;> rfl
    refine ⟨Nat.le_of_eq (by rw [← hblocks]; rfl), σ, fun _ _ => rfl, ?_⟩
    exact hscoped.use (hneed hu) ⟨huse, hname⟩ assign

theorem keeps_declaration {name value type : Tree} (hvalue : value.isAbsent = false) :
    Keeps root src b (fun block => name.mark true ∈ block.binds)
      (declaration b name value type) := by
  intro σ st st' hrun hscoped hb hneed
  cases hname : name.name? with
  | none =>
    simp only [declaration, hname] at hrun
    cases hrun
  | some x =>
    obtain ⟨s, hrun', rfl, -, hoffset⟩ := run_declaration hname hvalue type b st
    rw [hrun'] at hrun
    cases hrun
    have hmark : s.mark = name.mark true := by
      rw [Symbol.mark, Tree.mark, hname, hoffset]
      rfl
    refine ⟨Nat.le_of_eq (Indexing.Scoped.size_declare ..).symm, σ, fun _ _ => rfl,
      hscoped.declare ?_⟩
    rw [hmark]
    exact hneed

theorem keeps_inBlock {work : BlockId → Indexer Unit} {start brace : Int}
    (h : ∀ inner, Keeps root src inner need (work inner)) (ht : need t) (hmem : t ∈ t.nodes)
    (hextent : (start, closingBrace src brace) = t.extent src) :
    Keeps root src b (Within t) (do let inner ← openBlock src b start brace; work inner) := by
  intro σ st st' hrun hscoped hb hneed
  rw [StateT.run_bind, run_openBlock_eq] at hrun
  have hopened := hscoped.openBlock hb (hneed hmem) hextent
  have hgrows :
      (st.index.newBlock (st.index.inner b start (closingBrace src brace))).2.blocks.size =
      st.index.blocks.size + 1 := Array.size_push _
  obtain ⟨hsize, σ', hσ, hscoped'⟩ :=
    h st.index.blocks.size _ { st with index := (st.index.newBlock _).2 } st' hrun
    hopened (by rw [hgrows]; exact Nat.lt_succ_self _) (by rw [Function.update_self]; exact ht)
  rw [hgrows] at hsize hσ
  refine ⟨Nat.le_of_succ_le hsize, σ', fun e he => ?_, hscoped'⟩
  rw [hσ e (Nat.lt_succ_of_lt he), Function.update_of_ne (Nat.ne_of_lt he)]

section Function

variable {params sig : List Tree} {body : Tree} {names tags : List String} {offset' : Int}

theorem mark_mem_of_paramSymbols {depth : Nat} (hnames : params.mapM name? = some names)
    {s : Symbol} (hs : s ∈ paramSymbols params names tags depth) :
    s.mark ∈ params.map (mark true) := by
  have hentry : (s.offset, some s.name) ∈ params.map fun x => (x.mark true).entry := by
    rw [← map_entry_paramSymbols hnames]
    exact List.mem_map_of_mem hs
  obtain ⟨x, hx, hsame⟩ := List.mem_map.mp hentry
  refine List.mem_map.mpr ⟨x, hx, ?_⟩
  simp only [Mark.entry, Tree.mark, if_true, Prod.mk.injEq, Option.some.injEq] at hsame
  rw [Tree.mark, Symbol.mark, hsame.1, hsame.2]

/-- A function waits inside of its own block. -/
theorem keeps_function (hparams : ∀ x ∈ params, IsIdent x) (hbody : InPlace .block body)
    (hsig : IsSignature params.length sig) :
    Keeps root src b
      (Within (form .function offset (form .parameters offset' params :: body :: sig)))
      (function src b
        (form .function offset (form .parameters offset' params :: body :: sig))) := by
  intro σ st st' hrun hscoped hb hneed
  obtain ⟨names, tags, block, hblock, hnames, hrun'⟩ :=
    run_function_eq offset offset' hparams hbody hsig src b st
  rw [hrun'] at hrun
  cases hrun
  have hbinds : (form .function offset (form .parameters offset' params :: body :: sig)).binds =
      params.map (mark true) ++ declarations body.children := rfl
  have hextent : (offset, closingBrace src (body.offset?.getD 0)) =
      (form .function offset (form .parameters offset' params :: body :: sig)).extent src := rfl
  have hopened := hscoped.openBlock
    (t := form .function offset (form .parameters offset' params :: body :: sig)) hb
    (hneed (mem_nodes_self (.form .function))) hextent
  rw [← hblock] at hopened
  have hsymbols : ∀ s ∈ paramSymbols params names tags block.depth, s.mark ∈
      (Function.update σ st.index.blocks.size
        (form .function offset (form .parameters offset' params :: body :: sig))
        st.index.blocks.size).binds := by
    intro s hs
    rw [Function.update_self, hbinds]
    exact List.mem_append_left _ (mark_mem_of_paramSymbols hnames hs)
  have hdeclared := hopened.declareAll hsymbols
  have hgrows : (st.index.newBlock block).2.blocks.size = st.index.blocks.size + 1 :=
    Array.size_push _
  have hsize := Indexing.At.size_declareAll st.index.blocks.size
    (paramSymbols params names tags block.depth)
    (st.index.newBlock block).2
  rw [hgrows] at hsize
  refine ⟨by show _ ≤ Array.size _; rw [hsize]; exact Nat.le_succ _, _, fun e he => ?_,
    { hdeclared with waiting := fun w hw => ?_ }⟩
  · exact Function.update_of_ne (Nat.ne_of_lt he) _ _
  · rcases List.mem_append.mp hw with hw | hw
    · exact hdeclared.waiting w hw
    · obtain rfl := List.mem_singleton.mp hw
      refine ⟨by show _ < Array.size _; rw [hsize]; exact Nat.lt_succ_self _, hbody, ?_, ?_⟩
      · rw [Function.update_self]
        have hpart : body.nodes ⊆
            (form .function offset (form .parameters offset' params :: body :: sig)).nodes :=
          nodes_subset_of_mem (by simp) (.form .function)
        exact fun c hc => List.Subset.trans (nodes_subset_of_child hc) hpart
      · rw [Function.update_self, hbinds]
        exact List.subset_append_right _ _

end Function

/-- Wherever a tree stands in its block, resolving it keeps to the scopes. -/
def Keepable (root : Tree) (src : String) : Role → Tree → Prop
  | .expression, t => ∀ b, Keeps root src b (Within t) (expr src b t)
  | .statement, t =>
    ∀ b, Keeps root src b (fun block => Within t block ∧ declarations [t] ⊆ block.binds)
      (statement src b t)
  | .block, t =>
    ∀ b, Keeps root src b
      (fun block => (∀ c ∈ t.children, Within c block) ∧ declarations t.children ⊆ block.binds)
      (statements src b t.children)

theorem keeps_exprs (h : ∀ t ∈ ts, Keepable root src .expression t) :
    Keeps root src b (fun block => ∀ t ∈ ts, Within t block) (exprs src b ts) := by
  induction ts with
  | nil =>
    rw [exprs]
    exact .nothing
  | cons t ts ih =>
    rw [List.forall_mem_cons] at h
    rw [exprs]
    exact ((h.1 b).andThen (ih h.2)).mono fun block hblock => List.forall_mem_cons.mp hblock

theorem declarations_cons (t : Tree) (ts : List Tree) :
    declarations (t :: ts) = declarations [t] ++ declarations ts := by
  rw [declarations, ← List.singleton_append, List.filter_append, List.map_append]
  rfl

theorem keeps_statements (h : ∀ t ∈ ts, Keepable root src .statement t) :
    Keeps root src b (fun block => (∀ t ∈ ts, Within t block) ∧ declarations ts ⊆ block.binds)
      (statements src b ts) := by
  induction ts with
  | nil => exact .nothing
  | cons t ts ih =>
    rw [List.forall_mem_cons] at h
    rw [statements]
    refine ((h.1 b).andThen (ih h.2)).mono fun block hblock => ?_
    obtain ⟨hwithin, hbinds⟩ := hblock
    rw [List.forall_mem_cons] at hwithin
    rw [declarations_cons, List.append_subset] at hbinds
    exact ⟨⟨hwithin.1, hbinds.1⟩, hwithin.2, hbinds.2⟩

theorem keeps_block (hblock : InPlace .block t) (h : Keepable root src .block t) (b : BlockId) :
    Keeps root src b (Within t) (block src b t) := by
  cases hblock with
  | @block offset ts hts =>
    refine keeps_inBlock h ⟨fun c hc => ?_, List.Subset.refl _⟩
      (mem_nodes_self (.form .sequence)) rfl
    exact nodes_subset_of_mem hc (.form .sequence)

/-- A node that names nothing keeps to the scopes if its parts do. -/
theorem keeps_parts (hlookup : f ≠ .lookup) (hfunction : f ≠ .function)
    (h : ∀ t ∈ cs, Keepable root src .expression t) :
    Keepable root src .expression (form f offset cs) := by
  intro b
  rw [expr_form hlookup hfunction]
  exact (keeps_exprs h).mono fun block hblock t ht => hblock.part ht

/-- The step lemma: resolving a tree keeps to the scopes if resolving its parts does. -/
theorem keepable (root : Tree) (src : String) {role : Role} (h : InPlace role t) :
    Keepable root src role t := by
  induction h with
  | int =>
    intro b
    rw [expr_int]
    exact .nothing
  | @lookup offset x hx =>
    intro b
    rw [expr_lookup]
    exact keeps_use rfl (mem_nodes_self (.form .lookup))
  | binary hl hr ihl ihr => exact keeps_parts nofun nofun (by simpa using ⟨ihl, ihr⟩)
  | not ht ih => exact keeps_parts nofun nofun (by simpa using ih)
  | call hc hargs ihc ihargs =>
    exact keeps_parts nofun nofun (by simpa using ⟨ihc, keeps_parts nofun nofun ihargs⟩)
  | @function offset offset' params body sig hparams hbody hsig ih =>
    intro b
    rw [expr_function]
    exact keeps_function hparams hbody hsig
  | block hts ih => exact fun b => keeps_statements ih
  | @declare offset x value type hx hvalue htype hlen ih =>
    intro b
    have hpresent : value.isAbsent = false := by cases hvalue <;> rfl
    refine ((ih b).andThen (keeps_declaration hpresent)).mono fun block hblock =>
      ⟨hblock.1.part (by simp), ?_⟩
    exact hblock.2 (List.mem_singleton.mpr rfl)
  | @assign offset offset' x value hx hvalue ih =>
    intro b
    refine ((ih b).andThen
      (keeps_use (u := form .varLoc offset' [x]) rfl (mem_nodes_self (.form .varLoc)))).mono
      fun block hblock => ⟨hblock.1.part (by simp), hblock.1.part (by simp)⟩
  | print ht ih | ret ht ih =>
    exact fun b => (ih b).mono fun block hblock => hblock.1.part (by simp)
  | ifThen hc hb ihc ihb | whileDo hc hb ihc ihb =>
    exact fun b => ((ihc b).andThen (keeps_block hb ihb b)).mono
      fun block hblock => ⟨hblock.1.part (by simp), hblock.1.part (by simp)⟩
  | ifElse hc hb ha ihc ihb iha =>
    exact fun b => ((ihc b).andThen ((keeps_block hb ihb b).andThen (keeps_block ha iha b))).mono
      fun block hblock =>
        ⟨hblock.1.part (by simp), hblock.1.part (by simp), hblock.1.part (by simp)⟩
  | expression ht ih =>
    intro b
    rw [statement_expression ht]
    exact (ih b).mono fun block hblock => hblock.1

/-- The run lemma: resolving the bodies that wait keeps to the scopes. -/
theorem keeps_bodies (root : Tree) (src : String) (limit : Nat) :
    Keeps root src b (fun _ => True) (bodies src limit) := by
  induction limit generalizing b with
  | zero => exact .nothing
  | succ limit ih =>
    intro σ st st' hrun hscoped hb _
    cases hwaiting : st.waiting with
    | nil =>
      rw [run_bodies_nil hwaiting] at hrun
      cases hrun
      exact ⟨Nat.le_refl _, σ, fun _ _ => rfl, hscoped⟩
    | cons w waiting =>
      obtain ⟨body, e⟩ := w
      rw [run_bodies_cons hwaiting] at hrun
      obtain ⟨he, hbody, hwithin, hbinds⟩ :=
        hscoped.waiting (body, e) (hwaiting ▸ List.mem_cons_self)
      have hrest : Indexing.Scoped root src σ { st with waiting } :=
        { hscoped with
          waiting := fun w hw => hscoped.waiting w (hwaiting ▸ List.mem_cons_of_mem _ hw) }
      exact ((keepable root src hbody e).andThen ih) σ { st with waiting } st' hrun hrest he
        ⟨⟨hwithin, hbinds⟩, trivial⟩

end Indexer

/-- In the end, the blocks of the index stand for blocks of the program. -/
theorem Indexer.program_scoped (h : InPlace .block t)
    (hrun : (program src t).run (start src) = some ((), st)) :
    ∃ σ, σ 0 = t ∧ st.Scoped t src σ := by
  cases h with
  | @block offset ts hts =>
    have hstart :
        (start src).Scoped (form .sequence offset ts) src fun _ => form .sequence offset ts := by
      refine ⟨fun _ => mem_nodes_self (.form .sequence), fun b block hb id hid => ?_,
        fun b block hb hp => ?_, fun b block p hb hp => ?_, nofun, nofun, nofun⟩
      all_goals
        obtain rfl : b = 0 := by
          have hlt := (Array.getElem?_eq_some_iff.mp hb).1
          exact Nat.lt_one_iff.mp hlt
        cases hb
      · cases hid
      · exact absurd rfl hp
      · cases hp
    have hall : ∀ t ∈ ts, Keepable (form .sequence offset ts) src .statement t :=
      fun t ht => keepable _ src (hts t ht)
    obtain ⟨-, σ, hσ, hscoped⟩ :=
      ((keeps_statements hall (b := 0)).andThen (keeps_bodies _ src _))
        _ _ st hrun hstart Nat.one_pos
        ⟨⟨fun c hc => nodes_subset_of_mem hc (.form .sequence), List.Subset.refl _⟩, trivial⟩
    exact ⟨σ, hσ 0 Nat.one_pos, hscoped⟩

/-- What an index says of uses is true of the tree. -/
theorem Index.build?_scoped (h : InPlace .block t) (hbuild : build? t src = some ix) :
    (∀ r ∈ ix.references, ∃ (s : Symbol) (u : Tree), ix.symbol? r.symbol = some s ∧ u ∈ t.nodes ∧
      u.UsesName s.name ∧ u.useOffset = r.offset ∧ t.Sees u s.mark) ∧
    ∀ u ∈ ix.unresolved, u ∈ t.nodes ∧ u.isUse = true := by
  obtain ⟨st, hrun, -⟩ := Indexer.run_program (P := fun _ _ => True) h (fun _ _ => trivial) src
  rw [build?_eq h hrun] at hbuild
  cases hbuild
  obtain ⟨σ, -, hscoped⟩ := Indexer.program_scoped h hrun
  exact ⟨fun r hr => hscoped.references r (List.mem_mergeSort.mp hr), hscoped.unresolved⟩

/-- The uses are in the order of the text. -/
theorem Index.build?_sorted (h : InPlace .block t) (hbuild : build? t src = some ix) :
    ix.references.Pairwise fun r r' => r.offset ≤ r'.offset := by
  obtain ⟨st, hrun, -⟩ := Indexer.run_program (P := fun _ _ => True) h (fun _ _ => trivial) src
  rw [build?_eq h hrun] at hbuild
  cases hbuild
  have hsorted := @List.pairwise_mergeSort Reference (fun r r' => decide (r.offset ≤ r'.offset))
    (fun a b c hab hbc => by simp only [decide_eq_true_eq] at *; omega)
    (fun a b => by simp only [Bool.or_eq_true, decide_eq_true_eq]; omega) st.index.references
  exact hsorted.imp of_decide_eq_true

/-! Each name of the program is in the index once. -/

section Counting

/-- What the marks of declarations, or those of uses, say. -/
theorem declared_entries (ms : List Mark) :
    (ms.map Mark.entry).filterMap (fun e => e.2.map fun x => (⟨e.1, x, true⟩ : Mark)) =
      ms.filter Mark.declares := by
  induction ms with
  | nil => rfl
  | cons m ms ih => obtain ⟨o, x, _ | _⟩ := m <;> simpa [Mark.entry] using ih

theorem used_entries (ms : List Mark) :
    (ms.map Mark.entry).filterMap (fun e => if e.2.isNone then some e.1 else none) =
      (ms.filter fun m => !m.declares).map Mark.offset := by
  induction ms with
  | nil => rfl
  | cons m ms ih => obtain ⟨o, x, _ | _⟩ := m <;> simpa [Mark.entry] using ih

theorem used_ownMarks (u : Tree) :
    (u.ownMarks.filter fun m => !m.declares).map Mark.offset =
      if u.isUse then [u.useOffset] else [] := by
  cases huse : u.isUse with
  | true =>
    rw [ownMarks_of_isUse huse]
    rfl
  | false =>
    cases u with
    | absent => rfl
    | node l o cs =>
      cases l with
      | integer | ident => rfl
      | form f =>
        cases f with
        | lookup | varLoc => cases huse
        | parameters => simp [ownMarks, Form.ownMarks, Tree.mark]
        | _ => rfl

theorem useOffsets_eq (t : Tree) :
    t.useOffsets = (t.marks.filter fun m => !m.declares).map Mark.offset := by
  rw [useOffsets, marks]
  induction t.nodes with
  | nil => rfl
  | cons u us ih =>
    rw [List.flatMap_cons, List.filter_append, List.map_append, ← ih, used_ownMarks,
      List.filter_cons]
    split <;> rfl

variable (hperm : ix.entries.Perm (t.marks.map Mark.entry))

include hperm

/-- There is one symbol for each declaration and each parameter. -/
theorem symbols_perm : (ix.symbols.toList.map Symbol.mark).Perm (t.marks.filter Mark.declares) := by
  have hsame := hperm.filterMap fun e => e.2.map fun x => (⟨e.1, x, true⟩ : Mark)
  rw [declared_entries] at hsame
  refine .trans (.of_eq ?_) hsame
  simp [Index.entries, List.filterMap_append, List.filterMap_map, Symbol.mark]

/-- There is one reference or one unresolved name for each use. -/
theorem uses_perm :
    (ix.references.map Reference.offset ++ ix.unresolved.map useOffset).Perm t.useOffsets := by
  have hsame := hperm.filterMap fun e => if e.2.isNone then some e.1 else none
  rw [used_entries, ← useOffsets_eq] at hsame
  refine .trans (.of_eq ?_) hsame
  simp [Index.entries, List.filterMap_append, List.filterMap_map]

end Counting

/-- The names that an index knows the places of. -/
def Index.marks (ix : Index) : List Mark :=
  ix.symbols.toList.map Symbol.mark ++
    ix.references.map fun r => ⟨r.offset, ((ix.symbol? r.symbol).map Symbol.name).getD "", false⟩

/-- An index says each thing once that there is to say of the names of a tree. A use is noted with a
symbol that is declared in a block around it, or as unresolved; the names are apart in the text, and
a place in one of them leads to its symbol. -/
structure Index.Faithful (t : Tree) (ix : Index) : Prop where
  symbols : (ix.symbols.toList.map Symbol.mark).Perm (t.marks.filter Mark.declares)
  noted : (ix.references.map Reference.offset ++ ix.unresolved.map useOffset).Perm t.useOffsets
  uses : ∀ u ∈ t.nodes, u.isUse = true →
    (∃ r s, ix.references.filter (·.offset = u.useOffset) = [r] ∧
      ix.unresolved.filter (·.useOffset = u.useOffset) = [] ∧
      ix.symbol? r.symbol = some s ∧ u.UsesName s.name ∧ t.Sees u s.mark) ∨
    ix.references.filter (·.offset = u.useOffset) = [] ∧
    ix.unresolved.filter (·.useOffset = u.useOffset) = [u]
  apart : ix.marks.Pairwise fun m m' => m.stop ≤ m'.offset ∨ m'.stop ≤ m.offset
  ordered : ix.references.Pairwise fun r r' => r.offset < r'.offset
  at_symbol : ∀ id s o, ix.symbol? id = some s → Index.covers s.offset s.name o = true →
      ix.at? o = some (id, none)
  at_use : ∀ r ∈ ix.references, ∀ s o, ix.symbol? r.symbol = some s →
      Index.covers r.offset s.name o = true →
    ix.at? o = some (r.symbol, some r)
  at_nothing : ∀ o, (∀ m ∈ ix.marks, Index.covers m.offset m.name o = false) → ix.at? o = none

/-- Where no use is, the first symbol counts whose name is there. -/
theorem at?_of_no_use {o : Int} (h : ∀ r ∈ ix.references, ∀ s, ix.symbol? r.symbol = some s →
    Index.covers r.offset s.name o = false) :
    ix.at? o = (ix.symbols.toList.findIdx? fun s => Index.covers s.offset s.name o).map fun id =>
      (id, none) := by
  have hfind : ix.references.find?
      (fun r => (ix.symbol? r.symbol).any fun s => Index.covers r.offset s.name o) =
      none := by
    refine List.find?_eq_none.mpr fun r hr hcovers => ?_
    cases hs : ix.symbol? r.symbol with
    | none => simp [hs] at hcovers
    | some s => simp [hs, h r hr s hs] at hcovers
  simp only [Index.at?, hfind]

theorem at?_of_nothing {o : Int} (h : ∀ m ∈ ix.marks, Index.covers m.offset m.name o = false) :
    ix.at? o = none := by
  rw [at?_of_no_use]
  · refine Option.map_eq_none_iff.mpr (List.findIdx?_eq_none_iff.mpr fun s hs => ?_)
    exact h s.mark (List.mem_append_left _ (List.mem_map_of_mem hs))
  · intro r hr s hs
    have hmark := h _ (List.mem_append_right _ (List.mem_map_of_mem hr))
    rwa [hs] at hmark

section Faithful

open Grammar (NameAt)

variable {content : String} (hparse : Grammar.parseProgram content = .ok t)
  (hbuild : Index.build? t content = some ix)

include hparse

/-- Two names are apart in the text, or the same. -/
theorem apart_of_marks {m m' : Mark} (hm : m ∈ t.marks) (hm' : m' ∈ t.marks)
    (hne : m.offset ≠ m'.offset) : m.stop ≤ m'.offset ∨ m'.stop ≤ m.offset := by
  have hnames := (Grammar.written_of_parse hparse).names
  obtain ⟨p, hp, hat⟩ := hnames m hm
  obtain ⟨q, hq, hat'⟩ := hnames m' hm'
  have hname : NameAt content.toUTF8 p m.name := ⟨p, rfl, hat⟩
  have hname' : NameAt content.toUTF8 q m'.name := ⟨q, rfl, hat'⟩
  rw [Mark.stop, Mark.stop, utf8ByteSize_of_isName hname.isName,
    utf8ByteSize_of_isName hname'.isName]
  rcases Nat.lt_or_gt_of_ne (show p ≠ q by omega) with hlt | hlt
  · have hapart := apart_of_lt hname hname' hlt
    omega
  · have hapart := apart_of_lt hname' hname hlt
    omega

theorem mark_of_covers {m m' : Mark} (hm : m ∈ t.marks) (hm' : m' ∈ t.marks) {o : Int}
    (ho : Index.covers m.offset m.name o = true) (ho' : Index.covers m'.offset m'.name o = true) :
    m = m' := by
  by_contra hne
  have hoffset : m.offset ≠ m'.offset := fun h => hne (eq_of_offset hparse hm hm' h)
  have hapart := apart_of_marks hparse hm hm' hoffset
  simp only [Index.covers, Bool.and_eq_true, decide_eq_true_eq] at ho ho'
  simp only [Mark.stop] at hapart
  omega

include hbuild

/-- What an index knows the place of is a name of the program. -/
theorem marks_of_index : ∀ m ∈ ix.marks, m ∈ t.marks := by
  intro m hm
  rcases List.mem_append.mp hm with hm | hm
  · obtain ⟨s, hs, rfl⟩ := List.mem_map.mp hm
    obtain ⟨id, hid⟩ := List.getElem?_of_mem hs
    have hsymbol : ix.symbol? id = some s := by simpa [Index.symbol?] using hid
    exact mark_of_symbol hparse hbuild hsymbol
  · obtain ⟨r, hr, rfl⟩ := List.mem_map.mp hm
    obtain ⟨s, hs, hmark⟩ := mark_of_reference hparse hbuild hr
    rw [hs]
    exact hmark

theorem apart_of_index : ix.marks.Pairwise fun m m' => m.stop ≤ m'.offset ∨ m'.stop ≤ m.offset := by
  have hnodup : ix.marks.Pairwise fun m m' => m.offset ≠ m'.offset := by
    have hoffsets := nodup_offsets hparse hbuild
    rw [← List.pairwise_map (f := Mark.offset), Index.marks, List.map_append, List.map_map,
      List.map_map]
    exact hoffsets
  exact hnodup.imp_of_mem fun hm hm' hne =>
    apart_of_marks hparse (marks_of_index hparse hbuild _ hm)
      (marks_of_index hparse hbuild _ hm') hne

theorem ordered_references : ix.references.Pairwise fun r r' => r.offset < r'.offset := by
  have hnodup : ix.references.Pairwise fun r r' => r.offset ≠ r'.offset := by
    rw [← List.pairwise_map (f := Reference.offset)]
    exact (List.nodup_append.mp (nodup_offsets hparse hbuild)).2.1
  refine ((Index.build?_sorted (sorted_of_parse hparse).inPlace hbuild).and hnodup).imp fun h => ?_
  obtain ⟨hle, hne⟩ := h
  omega

/-- Each use is noted once: with a symbol that it sees, or as unresolved. -/
theorem noted_once (hu : u ∈ t.nodes) (huse : u.isUse = true) :
    (∃ r s, ix.references.filter (·.offset = u.useOffset) = [r] ∧
      ix.unresolved.filter (·.useOffset = u.useOffset) = [] ∧
      ix.symbol? r.symbol = some s ∧ u.UsesName s.name ∧ t.Sees u s.mark) ∨
    ix.references.filter (·.offset = u.useOffset) = [] ∧
    ix.unresolved.filter (·.useOffset = u.useOffset) = [u] := by
  have hplace := (sorted_of_parse hparse).inPlace
  have hperm := uses_perm (Index.build?_entries hplace hbuild)
  have huses := Grammar.nodup_useOffsets hparse
  obtain ⟨hreferences, hunresolved⟩ := Index.build?_scoped hplace hbuild
  -- a use is known by its offset
  have hsame : ∀ {v : Tree}, v ∈ t.nodes → v.isUse = true → v.useOffset = u.useOffset → v = u :=
    fun hv hvuse hoffset => List.inj_on_of_nodup_map huses (List.mem_filter.mpr ⟨hv, hvuse⟩)
      (List.mem_filter.mpr ⟨hu, huse⟩) hoffset
  obtain ⟨hnodup, hnodup', hdisjoint⟩ := List.nodup_append.mp (hperm.nodup_iff.mpr huses)
  have hmem : u.useOffset ∈ ix.references.map Reference.offset ++ ix.unresolved.map useOffset :=
    hperm.mem_iff.mpr (List.mem_map_of_mem (List.mem_filter.mpr ⟨hu, huse⟩))
  rcases List.mem_append.mp hmem with hmem | hmem
  · obtain ⟨r, hr, hoffset⟩ := List.mem_map.mp hmem
    obtain ⟨s, v, hs, hv, hname, hplace, hsees⟩ := hreferences r hr
    obtain rfl : v = u := hsame hv hname.1 (hplace.trans hoffset)
    refine .inl ⟨r, s, ?_, ?_, hs, hname, hsees⟩
    · rw [← hoffset]
      exact filter_of_nodup_map hnodup hr
    · refine List.filter_eq_nil_iff.mpr fun w hw hwoffset => ?_
      exact hdisjoint _ hmem _ (List.mem_map_of_mem hw)
        (by simpa using (of_decide_eq_true hwoffset).symm)
  · obtain ⟨v, hv, hoffset⟩ := List.mem_map.mp hmem
    obtain ⟨hvmem, hvuse⟩ := hunresolved v hv
    obtain rfl : v = u := hsame hvmem hvuse hoffset
    refine .inr ⟨List.filter_eq_nil_iff.mpr fun r hr hroffset => ?_, ?_⟩
    · exact hdisjoint _ (List.mem_map_of_mem hr) _ hmem (by simpa using hroffset)
    · exact filter_of_nodup_map hnodup' hv

theorem at?_of_use {r : Reference} (hr : r ∈ ix.references) {s : Symbol} {o : Int}
    (hs : ix.symbol? r.symbol = some s) (ho : Index.covers r.offset s.name o = true) :
    ix.at? o = some (r.symbol, some r) := by
  have hfind : ix.references.find?
      (fun r => (ix.symbol? r.symbol).any fun s => Index.covers r.offset s.name o) = some r := by
    cases hfound : ix.references.find? fun r => (ix.symbol? r.symbol).any fun s =>
      Index.covers r.offset s.name o with
    | none =>
      have hnone := List.find?_eq_none.mp hfound r hr
      simp [hs, ho] at hnone
    | some r' =>
      have hcovers := List.find?_some hfound
      have hr' := List.mem_of_find?_eq_some hfound
      obtain ⟨s', hs', hmark'⟩ := mark_of_reference hparse hbuild hr'
      obtain ⟨s'', hs'', hmark⟩ := mark_of_reference hparse hbuild hr
      cases hs.symm.trans hs''
      simp only [hs', Option.any_some] at hcovers
      have hsame := mark_of_covers hparse hmark' hmark hcovers ho
      have hnodup := (List.nodup_append.mp (nodup_offsets hparse hbuild)).2.1
      rw [List.inj_on_of_nodup_map hnodup hr' hr (congrArg Mark.offset hsame)]
  simp only [Index.at?, hfind]

theorem at?_of_symbol {id : SymbolId} {s : Symbol} {o : Int} (hs : ix.symbol? id = some s)
    (ho : Index.covers s.offset s.name o = true) : ix.at? o = some (id, none) := by
  have hmark := mark_of_symbol hparse hbuild hs
  have hget : ix.symbols.toList[id]? = some s := by rw [Array.getElem?_toList]; exact hs
  rw [at?_of_no_use]
  · cases hfound : ix.symbols.toList.findIdx? fun s => Index.covers s.offset s.name o with
    | none =>
      have hnone := List.findIdx?_eq_none_iff.mp hfound s (List.mem_of_getElem? hget)
      simp [ho] at hnone
    | some i =>
      obtain ⟨hi, hcovers, -⟩ := List.findIdx?_eq_some_iff_getElem.mp hfound
      have hs' : ix.symbol? i = some ix.symbols.toList[i] := by
        rw [Index.symbol?, ← Array.getElem?_toList, List.getElem?_eq_getElem hi]
      have hsame := mark_of_covers hparse (mark_of_symbol hparse hbuild hs') hmark hcovers ho
      rw [id_of_offset hparse hbuild hs hs' (congrArg Mark.offset hsame), Option.map_some]
  · intro r hr s' hs'
    by_contra hcovers
    obtain ⟨s'', hs'', hmark'⟩ := mark_of_reference hparse hbuild hr
    cases hs'.symm.trans hs''
    cases congrArg Mark.declares (mark_of_covers hparse hmark hmark' ho (by simpa using hcovers))

end Faithful

/-- The index of a program loses and duplicates nothing. -/
theorem index_faithful {src : String} (hparse : Grammar.parseProgram src = .ok t) :
    ∃ ix, Index.build? t src = some ix ∧ ix.Faithful t := by
  obtain ⟨ix, hbuild, -⟩ :=
    Index.build?_notes (P := fun _ _ => True) (sorted_of_parse hparse).inPlace
    (fun _ _ => trivial) src
  have hperm := Index.build?_entries (sorted_of_parse hparse).inPlace hbuild
  exact ⟨ix, hbuild, symbols_perm hperm, uses_perm hperm,
    fun u hu huse => noted_once hparse hbuild hu huse, apart_of_index hparse hbuild,
    ordered_references hparse hbuild, fun id s o hs ho => at?_of_symbol hparse hbuild hs ho,
    fun r hr s o hs ho => at?_of_use hparse hbuild hr hs ho, fun o ho => at?_of_nothing ho⟩

/-- A body uses a parameter, a name that is declared behind the function, and one that nothing
declares. -/
theorem index_faithful_closure :
    ∃ t ix, Grammar.parseProgram "var f=func(a)\x7bb=a;ret c;\x7d;var b=f(1);" = .ok t ∧
    Index.build? t "var f=func(a)\x7bb=a;ret c;\x7d;var b=f(1);" = some ix ∧ ix.Faithful t := by
  have hcheck :
      (Grammar.parseProgram "var f=func(a)\x7bb=a;ret c;\x7d;var b=f(1);").toOption.isSome =
        true := by
    decide +kernel
  obtain ⟨t, hparse⟩ := Grammar.exists_ok_of_isSome hcheck
  obtain ⟨ix, hbuild, hfaithful⟩ := index_faithful hparse
  exact ⟨t, ix, hparse, hbuild, hfaithful⟩

end Editor

end ClosureLang

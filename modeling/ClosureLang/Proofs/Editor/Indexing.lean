import ClosureLang.Proofs.Editor.Blocks
import ClosureLang.Proofs.Tree.Uses

/-! What holds of an index while it is built: every use that it has noted is noted rightly, and
blocks bind what the contexts of nodes say. -/
namespace ClosureLang.Editor

open ClosureLang.Tree

variable {P : Context → Tree → Prop} {φ φ' : Finals} {o : List BlockId} {c c' : Context}
  {ix ix' : Index} {st st' st'' : Indexing} {b : BlockId} {block : Block} {x : String} {u : Tree}
  {ns ns' : List Tree}

namespace Index

/-- Where the body of a function stands: in its block, inside blocks that bind all they bind in the
end. -/
def bodyContext (φ : Finals) (ix : Index) (b : BlockId) : Context :=
  { frames := ix.frame φ b :: (ix.enclosing b).tail.map fun e => ⟨φ e, φ e⟩, outside := false }

/-- A use is noted, one way or the other. -/
def Notes (ix : Index) (u : Tree) : Prop :=
  u ∈ ix.unresolved ∨ ∃ r ∈ ix.references, r.offset = u.useOffset

/-- What is noted is true of uses at nodes that satisfy `P`: a name is unresolved if no block around
it binds it, and else it is that of a symbol in the innermost block that does. -/
structure Correct (P : Context → Tree → Prop) (ix : Index) : Prop where
  unresolved : ∀ u ∈ ix.unresolved, ∃ c x, P c u ∧ u.UsesName x ∧ c.binder? x = none
  references : ∀ r ∈ ix.references, ∃ c u x k, P c u ∧ u.UsesName x ∧ r.offset = u.useOffset ∧
    c.binder? x = some k ∧
      ∃ s : Symbol, ix.symbols[r.symbol]? = some s ∧ s.name = x ∧ s.depth + k + 1 = c.frames.length

end Index

namespace Indexing

/-- The blocks whose bodies are still to be resolved. -/
def pending (st : Indexing) : List BlockId := st.waiting.map Prod.snd

/-- Blocks bind what they bind in the end, except those that are open and those of bodies still to
be resolved, in which nothing was opened yet. -/
structure Typed (P : Context → Tree → Prop) (φ : Finals) (o : List BlockId)
    (st : Indexing) : Prop where
  proper : st.index.Proper
  correct : st.index.Correct P
  settled : ∀ b < st.index.blocks.size, b ∉ o → b ∉ st.pending → st.index.names b = φ b
  distinct : st.pending.Nodup
  here : ∀ b ∈ st.pending, b < st.index.blocks.size
  leaves : ∀ b ∈ st.pending, ∀ i, st.index.parents i ≠ some (some b)
  bodies : ∀ w ∈ st.waiting, InPlace .block w.1 ∧ φ w.2 = st.index.names w.2 ++ w.1.declared ∧
    Sited P (st.index.bodyContext φ w.2) w.1

/-- The blocks that are there bind the same names in the end. -/
def Agrees (st : Indexing) (φ φ' : Finals) : Prop := ∀ b < st.index.blocks.size, φ' b = φ b

/-- Nodes are resolved in an open block `b` that stands where a context says. -/
structure At (P : Context → Tree → Prop) (φ : Finals) (o : List BlockId) (b : BlockId) (c : Context)
    (st : Indexing) : Prop where
  typed : st.Typed P φ o
  here : b < st.index.blocks.size
  opened : b ∈ o
  free : b ∉ st.pending
  frames : st.index.frames φ b = c.frames

/-- How many nodes the bodies have that are still to be resolved. -/
def load (waiting : List (Tree × BlockId)) : Nat := (waiting.flatMap fun w => w.1.nodes).length

/-- Every use among the nodes `ns` is noted, or is in a body that waits. -/
def Covers (ns : List Tree) (st : Indexing) : Prop :=
  ∀ u ∈ ns, u.isUse = true → st.index.Notes u ∨ ∃ w ∈ st.waiting, u ∈ w.1.nodes

/-- Resolving the nodes `ns` notes every use among them or puts it off. -/
structure Advances (ns : List Tree) (st st' : Indexing) : Prop where
  size : st.index.blocks.size ≤ st'.index.blocks.size
  parents : ∀ i < st.index.blocks.size, st'.index.parents i = st.index.parents i
  notes : ∀ u, st.index.Notes u → st'.index.Notes u
  waiting : ∃ new, st'.waiting = st.waiting ++ new ∧ (∀ w ∈ new, st.index.blocks.size ≤ w.2) ∧
    load new ≤ ns.length
  covers : Covers ns st'

namespace Advances

theorem refl (st : Indexing) : Advances [] st st :=
  ⟨Nat.le_refl _, fun _ _ => rfl, fun _ h => h, ⟨[], by simp [load]⟩, nofun⟩

theorem trans (h : Advances ns st st') (h' : Advances ns' st' st'') :
    Advances (ns ++ ns') st st'' := by
  obtain ⟨new, hnew, hfresh, hload⟩ := h.waiting
  obtain ⟨new', hnew', hfresh', hload'⟩ := h'.waiting
  refine ⟨Nat.le_trans h.size h'.size, fun i hi => ?_, fun u hu => h'.notes u (h.notes u hu),
    ⟨new ++ new', by rw [hnew', hnew, List.append_assoc], fun w hw => ?_, ?_⟩, fun u hu huse => ?_⟩
  · rw [h'.parents i (Nat.lt_of_lt_of_le hi h.size), h.parents i hi]
  · rcases List.mem_append.mp hw with hw | hw
    · exact hfresh w hw
    · exact Nat.le_trans h.size (hfresh' w hw)
  · simp only [load, List.flatMap_append, List.length_append] at hload hload' ⊢
    omega
  · rcases List.mem_append.mp hu with hu | hu
    · obtain hnotes | ⟨w, hw, hmem⟩ := h.covers u hu huse
      · exact .inl (h'.notes u hnotes)
      · exact .inr ⟨w, by rw [hnew']; exact List.mem_append_left _ hw, hmem⟩
    · exact h'.covers u hu huse

/-- Nodes that use nothing may be added. -/
theorem widen (h : Advances ns st st') (hns : ∀ u ∈ ns', u.isUse = true → u ∈ ns)
    (hlen : ns.length ≤ ns'.length) : Advances ns' st st' := by
  obtain ⟨new, hnew, hfresh, hload⟩ := h.waiting
  exact ⟨h.size, h.parents, h.notes, ⟨new, hnew, hfresh, Nat.le_trans hload hlen⟩,
    fun u hu huse => h.covers u (hns u hu huse) huse⟩

/-- Changes of blocks alone note nothing and put nothing off. -/
theorem of_blocks {i : BlockId} (hext : st.index.Extends ix' i)
    (hunresolved : ix'.unresolved = st.index.unresolved)
    (hreferences : ix'.references = st.index.references) :
    Advances [] st { st with index := ix' } := by
  refine ⟨hext.size, hext.parents, fun u hu => ?_, ⟨[], by simp [load]⟩, nofun⟩
  simpa only [Index.Notes, hunresolved, hreferences] using hu

/-- A block that was not waiting is not waiting later. -/
theorem free (h : Advances ns st st') (hb : b < st.index.blocks.size) (hfree : b ∉ st.pending) :
    b ∉ st'.pending := by
  obtain ⟨new, hnew, hfresh, -⟩ := h.waiting
  rw [pending, hnew, List.map_append, List.mem_append]
  rintro (hmem | hmem)
  · exact hfree hmem
  · obtain ⟨w, hw, rfl⟩ := List.mem_map.mp hmem
    exact Nat.not_le_of_lt hb (hfresh w hw)

end Advances

/-! The index may be extended while bodies wait. -/

section Extension

variable {i : BlockId}

theorem bodyContext_congr (hproper : ix.Proper) (hproper' : ix'.Proper) (hext : ix.Extends ix' i)
    (hφ : ∀ b < ix.blocks.size, φ' b = φ b) (hb : b < ix.blocks.size) (hne : b ≠ i) :
    ix'.bodyContext φ' b = ix.bodyContext φ b := by
  have henclosing := hext.enclosing hproper.older hproper'.older hb
  have hframes : (ix.enclosing b).tail.map (fun e => Frame.mk (φ' e) (φ' e)) =
      (ix.enclosing b).tail.map fun e => Frame.mk (φ e) (φ e) := by
    refine List.map_congr_left fun e he => ?_
    rw [hφ e (hproper.lt_of_mem_enclosing (List.mem_of_mem_tail he)).1]
  simp only [Index.bodyContext, henclosing, hframes, Index.frame, hext.names b hb hne, hφ b hb]

/-- The symbols of references stay what they are. -/
theorem correct_of_extends (h : ix.Correct P) (hext : ix.Extends ix' i)
    (hunresolved : ix'.unresolved = ix.unresolved) (hreferences : ix'.references = ix.references) :
    ix'.Correct P := by
  refine ⟨by rw [hunresolved]; exact h.unresolved, fun r hr => ?_⟩
  rw [hreferences] at hr
  obtain ⟨c, u, x, k, hP, huse, hoffset, hk, s, hs, hname, hdepth⟩ := h.references r hr
  exact ⟨c, u, x, k, hP, huse, hoffset, hk, s, hext.symbols _ s hs, hname, hdepth⟩

/-- An open block may get names, and further blocks may be opened outside of those that wait. -/
theorem Typed.extend {o' : List BlockId} (h : st.Typed P φ o) (hproper : ix'.Proper)
    (hext : st.index.Extends ix' i) (hcorrect : ix'.Correct P) (hφ : st.Agrees φ φ') (ho : o ⊆ o')
    (hi : i ∈ o') (hfree : i ∉ st.pending)
    (hopened : ∀ b < ix'.blocks.size, st.index.blocks.size ≤ b → b ∈ o')
    (hparents : ∀ b, st.index.blocks.size ≤ b → ∀ p, ix'.parents b = some (some p) →
      p ∉ st.pending) :
    Typed P φ' o' { st with index := ix' } where
  proper := hproper
  correct := hcorrect
  settled b hb hclosed hwaiting := by
    have hlt : b < st.index.blocks.size := by
      by_contra hge
      exact hclosed (hopened b hb (Nat.le_of_not_lt hge))
    have hne : b ≠ i := fun heq => hclosed (heq ▸ hi)
    rw [hφ b hlt, ← h.settled b hlt (fun hb => hclosed (ho hb)) hwaiting]
    exact hext.names b hlt hne
  distinct := h.distinct
  here b hb := Nat.lt_of_lt_of_le (h.here b hb) hext.size
  leaves b hb e he := by
    by_cases hlt : e < st.index.blocks.size
    · exact h.leaves b hb e ((hext.parents e hlt).symm.trans he)
    · exact hparents e (Nat.le_of_not_lt hlt) b he hb
  bodies w hw := by
    obtain ⟨hplace, hfinal, hsited⟩ := h.bodies w hw
    have hmem : w.2 ∈ st.pending := List.mem_map_of_mem hw
    have hlt := h.here w.2 hmem
    have hne : w.2 ≠ i := fun heq => hfree (heq ▸ hmem)
    refine ⟨hplace, ?_, ?_⟩
    · rw [hφ w.2 hlt, hfinal]
      exact congrArg (· ++ _) (hext.names w.2 hlt hne).symm
    · show Sited P (ix'.bodyContext φ' w.2) w.1
      rw [bodyContext_congr h.proper hproper hext hφ hlt hne]
      exact hsited

end Extension

namespace At

/-- The block is the first of its frames. -/
theorem frames_cons (h : st.At P φ o b c) : ∃ block rest, st.index.blocks[b]? = some block ∧
    st.index.enclosing b = b :: rest ∧
    c.frames = st.index.frame φ b :: rest.map (st.index.frame φ) ∧
      ∀ e ∈ rest, e < st.index.blocks.size ∧ e ≠ b := by
  obtain ⟨block, hblock⟩ : ∃ block, st.index.blocks[b]? = some block :=
    ⟨_, Array.getElem?_eq_getElem h.here⟩
  have henclosing := h.typed.proper.enclosing_eq hblock
  refine ⟨block, _, hblock, henclosing, ?_, fun e he => ?_⟩
  · rw [← h.frames, Index.frames, henclosing, List.map_cons]
  · cases hparent : block.parent with
    | none => simp [hparent] at he
    | some p =>
      have hp :=
        h.typed.proper.older b p (by simp only [Index.parents, hblock, Option.map_some, hparent])
      simp only [hparent, Option.map_some, Option.getD_some] at he
      obtain ⟨hlt, hle⟩ := h.typed.proper.lt_of_mem_enclosing he
      exact ⟨hlt, Nat.ne_of_lt (Nat.lt_of_le_of_lt hle hp)⟩

/-- A declaration in the current block. -/
theorem declare (h : st.At P φ o b c) {s : Symbol} (hblock : st.index.blocks[b]? = some block)
    (hs : s.depth = block.depth) :
    At P φ o b (c.declare [s.name]) { st with index := st.index.declare b s } := by
  have hext := Index.extends_declare h.typed.proper b s
  have hproper := h.typed.proper.declare hblock hs
  have hsize : (st.index.declare b s).blocks.size = st.index.blocks.size := by simp [Index.declare]
  obtain ⟨_, rest, -, henclosing, hframes, hrest⟩ := h.frames_cons
  refine ⟨?_, ?_, h.opened, h.free, ?_⟩
  · refine h.typed.extend hproper hext (correct_of_extends h.typed.correct hext rfl rfl)
      (fun _ _ => rfl)
      (List.Subset.refl _) h.opened h.free (fun e he hge => ?_) fun e hge p hp => ?_
    · omega
    · rw [Index.parents_declare, Index.parents, Array.getElem?_eq_none hge] at hp
      cases hp
  · exact hsize ▸ h.here
  · simp only [Index.frames, Index.enclosing_declare, henclosing, Context.declare, hframes,
      List.map_cons, Index.frame, Index.names_declare h.typed.proper b s b h.here, if_true]
    refine congrArg _ (List.map_congr_left fun e he => ?_)
    simp only [Index.frame, hext.names e (hrest e he).1 (hrest e he).2]

/-- Some declarations in the current block. -/
theorem declareAll (h : st.At P φ o b c) {d : Nat}
    (hblock : (st.index.blocks[b]?).map Block.depth = some d) :
    ∀ symbols : List Symbol, (∀ s ∈ symbols, s.depth = d) →
      At P φ o b (c.declare (symbols.map Symbol.name))
        { st with index := symbols.foldl (fun ix s => ix.declare b s) st.index } ∧
      Advances [] st { st with index := symbols.foldl (fun ix s => ix.declare b s) st.index } := by
  intro symbols hsymbols
  induction symbols generalizing st c with
  | nil => exact ⟨by rwa [List.map_nil, Context.declare_nil], .refl st⟩
  | cons s symbols ih =>
    rw [List.forall_mem_cons] at hsymbols
    obtain ⟨block, hb, rfl⟩ := Option.map_eq_some_iff.mp hblock
    have hdeclare := h.declare hb hsymbols.1
    have hadvances : Advances [] st { st with index := st.index.declare b s } :=
      .of_blocks (Index.extends_declare h.typed.proper b s) rfl rfl
    obtain ⟨hat, hrest⟩ := ih hdeclare (by simp [Index.getElem?_declare, hb]) hsymbols.2
    exact ⟨by rwa [Context.declare_declare] at hat, hadvances.trans hrest⟩

theorem size_declareAll (b : BlockId) (symbols : List Symbol) (ix : Index) :
    (symbols.foldl (fun ix s => ix.declare b s) ix).blocks.size = ix.blocks.size := by
  induction symbols generalizing ix with
  | nil => rfl
  | cons s symbols ih => rw [List.foldl_cons, ih, Index.declare, Array.size_modify]

/-- A further block inside the current one, in which nothing is bound yet. -/
theorem openBlock (h : st.At P φ o b c) {outer : Block} (xs : List String)
    (houter : st.index.blocks[b]? = some outer) (hparent : block.parent = some b)
    (hdepth : block.depth = outer.depth + 1) (hsymbols : block.symbols = []) :
    At P (φ.extend st.index.blocks.size xs) (st.index.blocks.size :: o) st.index.blocks.size
      { c with frames := ⟨[], xs⟩ :: c.frames }
      { st with index := (st.index.newBlock block).2 } := by
  have hext : st.index.Extends (st.index.newBlock block).2 st.index.blocks.size :=
    Index.extends_newBlock block
  obtain ⟨hproper, henclosing⟩ := h.typed.proper.newBlock hparent houter hdepth hsymbols
  have hsize : (st.index.newBlock block).2.blocks.size = st.index.blocks.size + 1 := by
    simp [Index.newBlock]
  have hφ : st.Agrees φ (φ.extend st.index.blocks.size xs) := fun e he => if_neg (Nat.ne_of_lt he)
  have hfree : st.index.blocks.size ∉ st.pending :=
    fun hmem => Nat.lt_irrefl _ (h.typed.here _ hmem)
  refine ⟨?_, by simp [hsize], List.mem_cons_self, hfree, ?_⟩
  · refine h.typed.extend hproper hext (correct_of_extends h.typed.correct hext rfl rfl) hφ
      (List.subset_cons_self ..) List.mem_cons_self hfree (fun e he hge => ?_) fun e hge p hp => ?_
    · exact List.mem_cons.mpr (.inl (by omega))
    · rw [Index.parents, Index.getElem?_newBlock] at hp
      split at hp
      · rw [Option.map_some, hparent, Option.some.injEq, Option.some.injEq] at hp
        exact hp ▸ h.free
      · rw [Array.getElem?_eq_none hge] at hp
        cases hp
  · simp only [Index.frames, henclosing, List.map_cons, ← h.frames]
    refine congrArg₂ List.cons ?_ (List.map_congr_left fun e he => ?_)
    · rw [Index.frame, Index.names_newBlock hsymbols, Finals.extend, if_pos rfl]
    · have hlt := (h.typed.proper.lt_of_mem_enclosing he).1
      rw [Index.frame, Index.frame, hext.names e hlt (Nat.ne_of_lt hlt), hφ e hlt]

/-- Behind a function whose body is put off. Its block is the last one. -/
theorem putOff {inner : BlockId} {names : List String} {body : Tree}
    (h : st.At P φ (inner :: o)
      inner { c with frames := ⟨names, names ++ body.declared⟩ :: c.frames })
    (hparent : st.index.parents inner = some (some b)) (hlast : st.index.blocks.size = inner + 1)
    (hplace : InPlace .block body) (hbody : Sited P (c.function names body) body) (hopened : b ∈ o)
    (hfree : b ∉ st.pending) :
    At P φ o b c { st with waiting := st.waiting ++ [(body, inner)] } := by
  obtain ⟨_, rest, -, henclosing, hframes, hrest⟩ := h.frames_cons
  have hlineage := Parents.lineage_eq h.typed.proper.older hparent
  rw [← Index.enclosing_eq_lineage, henclosing, Option.map_some, Option.getD_some, List.cons.injEq,
    ← Index.enclosing_eq_lineage] at hlineage
  obtain ⟨hf, hframes⟩ := List.cons.inj hframes
  obtain ⟨hnames, hfinal⟩ := Frame.mk.inj hf
  have hlt : b < inner := h.typed.proper.older inner b hparent
  have hpending :
      pending { st with waiting := st.waiting ++ [(body, inner)] } = st.pending ++ [inner] := by
    simp [pending]
  have hcontext : st.index.bodyContext φ inner = c.function names body := by
    simp only [Index.bodyContext, Context.function, Index.frame, ← hnames, ← hfinal, henclosing,
      List.tail_cons, hframes, List.map_map]
    rfl
  have hleaf : ∀ i, st.index.parents i ≠ some (some inner) := by
    intro i hi
    have hlt := h.typed.proper.older i inner hi
    rw [Index.parents, Array.getElem?_eq_none (by omega)] at hi
    cases hi
  have htyped := h.typed
  refine ⟨⟨htyped.proper, htyped.correct, fun e he hclosed hwaiting => ?_, ?_, fun e he => ?_,
    fun e he => ?_, fun w hw => ?_⟩, Nat.lt_trans hlt h.here, hopened, ?_, ?_⟩
  · rw [hpending, List.mem_append, List.mem_singleton, not_or] at hwaiting
    exact htyped.settled e he (by simp [hwaiting.2, hclosed]) hwaiting.1
  · rw [hpending]
    exact List.nodup_append.mpr ⟨htyped.distinct, List.pairwise_singleton _ _,
      fun e he i hi heq => h.free (List.mem_singleton.mp hi ▸ heq ▸ he)⟩
  · rw [hpending, List.mem_append, List.mem_singleton] at he
    rcases he with he | rfl
    · exact htyped.here e he
    · exact h.here
  · rw [hpending, List.mem_append, List.mem_singleton] at he
    rcases he with he | rfl
    · exact htyped.leaves e he
    · exact hleaf
  · rcases List.mem_append.mp hw with hw | hw
    · exact htyped.bodies w hw
    · rw [List.mem_singleton.mp hw]
      exact ⟨hplace, by rw [← hfinal, ← hnames], hcontext ▸ hbody⟩
  · rw [hpending, List.mem_append, List.mem_singleton, not_or]
    exact ⟨hfree, Nat.ne_of_lt hlt⟩
  · rw [Index.frames, ← hlineage.2]
    exact hframes.symm

/-- Behind a further block that has bound what it binds in the end. -/
theorem closeBlock {inner : BlockId} {f : Frame}
    (h : st.At P φ (inner :: o) inner { c with frames := f :: c.frames })
    (hparent : st.index.parents inner = some (some b)) (hfinal : f.bound = f.final)
    (hopened : b ∈ o) (hfree : b ∉ st.pending) : st.At P φ o b c := by
  obtain ⟨_, rest, -, henclosing, hframes, hrest⟩ := h.frames_cons
  have hlineage := Parents.lineage_eq h.typed.proper.older hparent
  rw [← Index.enclosing_eq_lineage, henclosing, Option.map_some, Option.getD_some,
    List.cons.injEq] at hlineage
  obtain ⟨hf, hframes⟩ := List.cons.inj hframes
  have hnames : st.index.names inner = φ inner := by
    have hframe : f = ⟨st.index.names inner, φ inner⟩ := hf
    rw [hframe] at hfinal
    exact hfinal
  have hlt : b < inner := h.typed.proper.older inner b hparent
  refine ⟨{ h.typed with settled := fun e he hclosed hwaiting => ?_ }, ?_, hopened, hfree, ?_⟩
  · by_cases hinner : e = inner
    · rw [hinner, hnames]
    · exact h.typed.settled e he (by simp [hinner, hclosed]) hwaiting
  · exact Nat.lt_trans hlt h.here
  · rw [Index.frames, Index.enclosing_eq_lineage, ← hlineage.2]
    exact hframes.symm

/-- A block at the end of its statements, when no other is open. -/
theorem settle (h : st.At P φ [b] b c) (hfinal : c.bound = c.final) : st.Typed P φ [] := by
  obtain ⟨_, rest, -, -, hframes, -⟩ := h.frames_cons
  have hnames : st.index.names b = φ b := by
    simpa only [Context.bound, Context.final, hframes, List.head?_cons, Option.map_some,
      Option.getD_some, Index.frame] using hfinal
  refine { h.typed with settled := fun e he _ hwaiting => ?_ }
  by_cases heq : e = b
  · rw [heq, hnames]
  · exact h.typed.settled e he (by simpa using heq) hwaiting

/-- Notes about uses do not change what blocks bind. -/
theorem note (h : st.At P φ o b c) (hblocks : ix'.blocks = st.index.blocks)
    (hsymbols : ix'.symbols = st.index.symbols) (hcorrect : ix'.Correct P) :
    At P φ o b c { st with index := ix' } := by
  have hparents : ix'.parents = st.index.parents := by
    funext e
    rw [Index.parents, hblocks, Index.parents]
  have henclosing : ix'.enclosing = st.index.enclosing := by
    funext e
    rw [Index.enclosing_eq_lineage, Index.enclosing_eq_lineage, hparents]
  have hnames : ix'.names = st.index.names := by
    funext e
    simp only [Index.names, hblocks, hsymbols]
  have hproper : ix'.Proper := h.typed.proper.congr hblocks hsymbols
  have hext : st.index.Extends ix' b :=
    ⟨Nat.le_of_eq (by rw [hblocks]),
      fun _ _ => by
        rw [hparents], fun _ _ _ => by rw [hnames], by rw [hsymbols]; exact fun _ _ hs => hs⟩
  refine ⟨?_, hblocks ▸ h.here, h.opened, h.free, ?_⟩
  · refine h.typed.extend hproper hext hcorrect (fun _ _ => rfl) (List.Subset.refl _)
      h.opened h.free (fun e he hge => ?_) fun e hge p hp => ?_
    · rw [hblocks] at he
      omega
    · rw [hparents, Index.parents, Array.getElem?_eq_none hge] at hp
      cases hp
  · rw [← h.frames, Index.frames, henclosing]
    exact List.map_congr_left fun e _ => by rw [Index.frame, Index.frame, hnames]

/-- A use is noted as its context says. -/
theorem use (h : st.At P φ o b c) (hP : P c u) (huse : u.UsesName x) (assign : Bool) :
    (st.index.use b x u.useOffset u assign).Notes u ∧
      (∀ v, st.index.Notes v → (st.index.use b x u.useOffset u assign).Notes v) ∧
      At P φ o b c { st with index := st.index.use b x u.useOffset u assign } := by
  have hbinder :
      c.binder? x = (st.index.enclosing b).findIdx? fun e => decide (x ∈ st.index.names e) := by
    rw [Context.binder?, ← h.frames, Index.frames, List.findIdx?_map]
    rfl
  have hlength : c.frames.length = (st.index.enclosing b).length := by
    rw [← h.frames, Index.frames, List.length_map]
  have hcorrect := h.typed.correct
  obtain ⟨hlookup, hfree⟩ | ⟨id, s, k, hlookup, hs, hname, hk, hdepth⟩ :=
    h.typed.proper.lookup_spec (x := x) b
  · simp only [Index.use, hlookup]
    refine ⟨.inl (by simp), fun v hv => ?_, h.note rfl rfl ⟨fun v hv => ?_, hcorrect.references⟩⟩
    · exact hv.imp_left fun hv => List.mem_append_left _ hv
    · rcases List.mem_append.mp hv with hv | hv
      · exact hcorrect.unresolved v hv
      · rw [List.mem_singleton.mp hv]
        exact ⟨c, x, hP, huse, hbinder.trans hfree⟩
  · simp only [Index.use, hlookup]
    refine ⟨.inr ⟨⟨id, u.useOffset, assign⟩, by simp, rfl⟩, fun v hv => ?_, h.note rfl rfl
      ⟨hcorrect.unresolved, fun r hr => ?_⟩⟩
    · exact hv.imp_right fun ⟨r, hr, hoffset⟩ => ⟨r, List.mem_append_left _ hr, hoffset⟩
    · rcases List.mem_append.mp hr with hr | hr
      · exact hcorrect.references r hr
      · rw [List.mem_singleton.mp hr]
        exact ⟨c, u, x, k, hP, huse, rfl, hbinder.trans hk, s, hs, hname, by omega⟩

end At

/-- If no body waits, every use is noted. -/
theorem Covers.notes (h : Covers ns st) (hwaiting : st.waiting = []) :
    ∀ u ∈ ns, u.isUse = true → st.index.Notes u := by
  intro u hu huse
  refine (h u hu huse).resolve_right ?_
  rintro ⟨w, hw, -⟩
  rw [hwaiting] at hw
  cases hw

/-- A program stands in the first block. -/
theorem at_start (P : Context → Tree → Prop) (t : Tree) (stop : Nat) :
    At P (fun _ => t.declared) [0] 0 (.program t)
      { index := { blocks := #[{ parent := none, start := 0, stop, depth := 0 }] } } := by
  have hzero : ∀ i,
      (#[({ parent := none, start := 0, stop, depth := 0 } : Block)][i]? : Option Block) =
      if i = 0 then some { parent := none, start := 0, stop, depth := 0 } else none := by
    intro i
    cases i <;> rfl
  refine ⟨⟨⟨fun b p hp => ?_, fun b block hb => ?_, fun b block hb id hid => ?_⟩, ⟨nofun, nofun⟩,
    fun b hb ho => ?_, .nil, nofun, nofun, nofun⟩, Nat.zero_lt_one, List.mem_singleton_self 0,
    List.not_mem_nil, rfl⟩
  · rw [Index.parents, hzero] at hp
    split at hp <;> cases hp
  · rw [hzero] at hb
    split at hb
    · rename_i hb0
      cases hb
      rw [hb0]
      rfl
    · cases hb
  · rw [hzero] at hb
    split at hb
    · cases hb
      cases hid
    · cases hb
  · exact absurd (List.mem_singleton.mpr (Nat.lt_one_iff.mp hb)) ho

/-- The first body that waits stands where its context says. -/
theorem Typed.next (h : st.Typed P φ []) {body : Tree} {waiting : List (Tree × BlockId)}
    (hwaiting : st.waiting = (body, b) :: waiting) :
    At P φ [b] b (st.index.bodyContext φ b) { st with waiting } := by
  have hpending : st.pending = b :: waiting.map Prod.snd := by rw [pending, hwaiting, List.map_cons]
  have hdistinct := hpending ▸ h.distinct
  rw [List.nodup_cons] at hdistinct
  have hlater : ∀ e ∈ waiting.map Prod.snd, e ∈ st.pending :=
    fun e he => hpending ▸ List.mem_cons_of_mem _ he
  have hb : b ∈ st.pending := hpending ▸ List.mem_cons_self
  refine ⟨⟨h.proper, h.correct, fun e he hclosed hfree => ?_, hdistinct.2,
    fun e he => h.here e (hlater e he), fun e he => h.leaves e (hlater e he), fun w hw =>
      h.bodies w (hwaiting ▸ List.mem_cons_of_mem _ hw)⟩,
    h.here b hb, List.mem_singleton_self b, hdistinct.1, ?_⟩
  · refine h.settled e he List.not_mem_nil ?_
    rw [hpending, List.mem_cons, not_or]
    exact ⟨by simpa using hclosed, hfree⟩
  · have hblock := Array.getElem?_eq_getElem (h.here b hb)
    have htail : ∀ e ∈ (st.index.enclosing b).tail, st.index.names e = φ e := by
      intro e he
      refine h.settled e (h.proper.lt_of_mem_enclosing (List.mem_of_mem_tail he)).1 List.not_mem_nil
        fun hmem => ?_
      rw [Index.enclosing_eq_lineage] at he
      obtain ⟨child, hchild⟩ := Parents.exists_child_of_mem_tail h.proper.older b e he
      exact h.leaves e hmem child hchild
    simp only [Index.frames, Index.bodyContext, h.proper.enclosing_eq hblock] at htail ⊢
    refine congrArg _ (List.map_congr_left fun e he => ?_)
    rw [Index.frame, htail e he]

end Indexing

end ClosureLang.Editor

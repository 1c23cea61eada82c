import ClosureLang.Proofs.Editor.Indexing
import ClosureLang.Proofs.Editor.Totality
import ClosureLang.Proofs.Run.Safety

/-! Resolving a program: every part of it is resolved where its context says, and what is put off is
resolved in the end. -/
namespace ClosureLang.Editor

open ClosureLang.Tree

namespace Indexer

variable {P : Context → Tree → Prop} {φ φ' : Finals} {o : List BlockId} {c c' c'' : Context}
  {st st' : Indexing} {b : BlockId} {x : String} {t u : Tree} {ts ns ns' : List Tree} {src : String}

/-- Resolves the nodes `ns` in the open block `b`, and leads from one context to another. -/
def Resolves (P : Context → Tree → Prop) (o : List BlockId) (b : BlockId) (c c' : Context)
    (ns : List Tree) (work : Indexer Unit) : Prop :=
  ∀ φ st, st.At P φ o b c → ∃ st' φ', work.run st = some ((), st') ∧ st.Advances ns st' ∧
    st.Agrees φ φ' ∧ st'.At P φ' o b c'

namespace Resolves

variable {work work' : Indexer Unit}

theorem nothing : Resolves P o b c c [] (pure ()) :=
  fun φ st h => ⟨st, φ, rfl, .refl st, fun _ _ => rfl, h⟩

theorem andThen (h : Resolves P o b c c' ns work) (h' : Resolves P o b c' c'' ns' work') :
    Resolves P o b c c'' (ns ++ ns') (do work; work') := by
  intro φ st hat
  obtain ⟨st₁, φ₁, hrun, hadvances, hφ, hat₁⟩ := h φ st hat
  obtain ⟨st₂, φ₂, hrun', hadvances', hφ', hat₂⟩ := h' φ₁ st₁ hat₁
  refine ⟨st₂, φ₂, ?_, hadvances.trans hadvances', fun e he => ?_, hat₂⟩
  · rw [StateT.run_bind, hrun]
    exact hrun'
  · rw [hφ' e (Nat.lt_of_lt_of_le he hadvances.size), hφ e he]

theorem widen (h : Resolves P o b c c' ns work) (hns : ∀ u ∈ ns', u.isUse = true → u ∈ ns)
    (hlen : ns.length ≤ ns'.length) : Resolves P o b c c' ns' work := by
  intro φ st hat
  obtain ⟨st', φ', hrun, hadvances, hφ, hat'⟩ := h φ st hat
  exact ⟨st', φ', hrun, hadvances.widen hns hlen, hφ, hat'⟩

/-- One node as a list of nodes. -/
theorem sole (h : Resolves P o b c c' t.nodes work) :
    Resolves P o b c c' ([t].flatMap nodes) work := by
  rwa [List.flatMap_singleton]

/-- A node that is no use is resolved if its children are. -/
theorem node {f : Form} {offset : Int} {cs : List Tree}
    (h : Resolves P o b c c' (cs.flatMap nodes) work) (hlookup : f ≠ .lookup)
    (hvarLoc : f ≠ .varLoc) : Resolves P o b c c' (form f offset cs).nodes work := by
  rw [form, nodes_node]
  refine h.widen (fun u hu huse => ?_) (Nat.le_succ _)
  rcases List.mem_cons.mp hu with rfl | hu
  · rw [show (Tree.node (.form f) offset cs).isUse = false from isUse_form hlookup hvarLoc] at huse
    cases huse
  · exact hu

end Resolves

theorem resolves_use {assign : Bool} (hP : P c u) (huse : u.UsesName x) :
    Resolves P o b c c [u] (use b (u.child 0) u assign) := by
  intro φ st hat
  obtain ⟨hnotes, hkeeps, hat'⟩ := hat.use hP huse assign
  refine ⟨_, φ, ?_, ?_, fun _ _ => rfl, hat'⟩
  · simp only [use, huse.2]
    rfl
  · have hblocks : (st.index.use b x u.useOffset u assign).blocks = st.index.blocks := by
      unfold Index.use
      split <;> rfl
    refine ⟨Nat.le_of_eq (by rw [hblocks]), fun i _ => ?_, hkeeps, ⟨[], by simp [Indexing.load]⟩,
      fun v hv _ => ?_⟩
    · rw [Index.parents, hblocks, Index.parents]
    · rw [List.mem_singleton.mp hv]
      exact .inl hnotes

/-- A declaration declares its name, as deep as the block is. -/
theorem run_declaration {name value : Tree} (hx : name.name? = some x)
    (hvalue : value.isAbsent = false) (type : Tree) (b : BlockId) (st : Indexing) : ∃ s : Symbol,
      (declaration b name value type).run st =
        some ((), { st with index := st.index.declare b s }) ∧
        s.name = x ∧ s.depth = ((st.index.blocks[b]?).map Block.depth).getD 0 ∧
        s.offset = name.offset?.getD 0 := by
  simp only [declaration, hx, hvalue]
  exact ⟨{ name := x, kind := _, offset := _, type := _, function := _, isGlobal := _, depth := _ },
    rfl, rfl, rfl, rfl⟩

theorem resolves_declaration {name value type : Tree} (hx : name.name? = some x)
    (hvalue : value.isAbsent = false) :
    Resolves P o b c (c.declare [x]) [] (declaration b name value type) := by
  intro φ st hat
  obtain ⟨block, -, hblock, -⟩ := hat.frames_cons
  obtain ⟨s, hrun, rfl, hdepth, -⟩ := run_declaration hx hvalue type b st
  rw [hblock] at hdepth
  exact ⟨_, φ, hrun, .of_blocks (Index.extends_declare hat.typed.proper b s) rfl rfl,
    fun _ _ => rfl, hat.declare hblock hdepth⟩

/-- A block is opened one deeper than the one around it. -/
theorem run_openBlock (src : String) (h : st.At P φ o b c) (xs : List String) (start brace : Int) :
    ∃ block : Block,
    (openBlock src b start brace).run st =
      some (st.index.blocks.size, { st with index := (st.index.newBlock block).2 }) ∧
      block.parent = some b ∧
    Indexing.At P (φ.extend st.index.blocks.size xs) (st.index.blocks.size :: o)
      st.index.blocks.size
      { c with frames := ⟨[], xs⟩ :: c.frames }
      { st with index := (st.index.newBlock block).2 } := by
  obtain ⟨outer, -, houter, -⟩ := h.frames_cons
  refine ⟨{ parent := some b, start, stop := closingBrace src brace, depth := outer.depth + 1 }, ?_,
    rfl, h.openBlock xs houter rfl rfl rfl⟩
  simp only [openBlock, depthOf]
  show some _ = _
  rw [houter]
  rfl

/-- What is resolved in a block of its own is resolved. -/
theorem resolves_inBlock {work : BlockId → Indexer Unit} {xs : List String} (src : String)
    (start brace : Int)
    (h : ∀ inner, Resolves P (inner :: o) inner { c with frames := ⟨[], xs⟩ :: c.frames }
      { c with frames := ⟨xs, xs⟩ :: c.frames } ns (work inner)) :
    Resolves P o b c c ns (do let inner ← openBlock src b start brace; work inner) := by
  intro φ st hat
  obtain ⟨block, hopen, hparent, hat₁⟩ := run_openBlock src hat xs start brace
  obtain ⟨st', φ', hrun, hadvances, hφ, hat'⟩ := h _ _ _ hat₁
  have hopened : Indexing.Advances [] st { st with index := (st.index.newBlock block).2 } :=
    .of_blocks (Index.extends_newBlock (b := b) block) rfl rfl
  have hall := hopened.trans hadvances
  have hinner : st'.index.parents st.index.blocks.size = some (some b) := by
    rw [hadvances.parents _ hat₁.here, Index.parents, Index.getElem?_newBlock, if_pos rfl,
      Option.map_some, hparent]
  refine ⟨st', φ', ?_, hall, fun e he => ?_,
    hat'.closeBlock hinner rfl hat.opened (hall.free hat.here hat.free)⟩
  · rw [StateT.run_bind, hopen]
    exact hrun
  · rw [hφ e (Nat.lt_of_lt_of_le he hopened.size), Finals.extend, if_neg (Nat.ne_of_lt he)]

section Function

variable {params sig : List Tree} {body : Tree} {names tags : List String} {offset offset' : Int}

theorem length_of_mapM {α β : Type} {f : α → Option β} {as : List α} {bs : List β}
    (h : as.mapM f = some bs) : bs.length = as.length := by
  induction as generalizing bs with
  | nil =>
    cases h
    rfl
  | cons a as ih =>
    simp only [List.mapM_cons, Option.bind_eq_bind, Option.bind_eq_some_iff, Option.pure_def,
      Option.some.injEq] at h
    obtain ⟨b, -, bs, hbs, rfl⟩ := h
    rw [List.length_cons, List.length_cons, ih hbs]

theorem map_name_paramSymbols {depth : Nat} (hnames : params.mapM name? = some names) :
    (paramSymbols params names tags depth).map Symbol.name = names := by
  have hsymbols : (paramSymbols params names tags depth).map Symbol.name =
      (((params.zip names).zipIdx.map Prod.fst).map Prod.snd) := by
    simp only [paramSymbols, List.map_map]
    rfl
  rw [hsymbols, List.zipIdx_map_fst, List.map_snd_zip (Nat.le_of_eq (length_of_mapM hnames))]

theorem depth_of_mem_paramSymbols {depth : Nat} :
    ∀ s ∈ paramSymbols params names tags depth, s.depth = depth := by
  intro s hs
  obtain ⟨p, -, rfl⟩ := List.mem_map.mp hs
  rfl

/-- The only uses in a function are those in its body. -/
theorem mem_body_of_isUse (hparams : ∀ x ∈ params, IsIdent x) (hsig : IsSignature params.length sig)
    (hu : u ∈ (form .function offset (form .parameters offset' params :: body :: sig)).nodes)
    (huse : u.isUse = true) : u ∈ body.nodes := by
  rw [form, nodes_node, List.mem_cons, List.flatMap_cons, List.flatMap_cons, List.mem_append,
    List.mem_append] at hu
  obtain rfl | hu | hu | hu := hu
  · cases huse
  · rw [isUse_of_leaves (f := .parameters) nofun nofun (fun x hx => (hparams x hx).leaf) hu] at huse
    cases huse
  · exact hu
  · obtain rfl | ⟨o, tags, rfl, -, htags, -⟩ := hsig
    · cases hu
    · rw [List.flatMap_cons, List.flatMap_nil, List.append_nil] at hu
      rw [isUse_of_leaves (f := .signature) nofun nofun (fun t ht => (htags t ht).leaf) hu] at huse
      cases huse

/-- The parameters of a function are declared in its block, and its body is put off. -/
theorem run_function {fn : Tree} {brace : Int} {inner : BlockId} {ix : Index} {depth : Nat}
    (hbrace : (fn.child 1).offset? = some brace) (hnames : fn.paramNames? = some names)
    (htags : (fn.child 2).typeTags? = some tags)
    (hopen : (openBlock src b (fn.offset?.getD 0) brace).run st =
      some (inner, { st with index := ix }))
    (hdepth : (ix.blocks[inner]?).map Block.depth = some depth) :
    (function src b fn).run st = some ((),
      { index := (paramSymbols (fn.child 0).children names tags depth).foldl
          (fun ix s => ix.declare inner s) ix
        waiting := st.waiting ++ [(fn.child 1, inner)] }) := by
  simp only [function, hbrace, hnames, htags, depthOf]
  have hlift : ∀ {α : Type} (a : α) (st : Indexing),
      (liftM (some a) : Indexer α).run st = some (a, st) :=
    fun _ _ => rfl
  simp only [StateT.run_bind, hlift, hopen, StateT.run_get, StateT.run_pure, StateT.run_modify,
    Option.bind_eq_bind, Option.bind_some, Option.pure_def, hdepth, Option.getD_some]

theorem resolves_function (hparams : ∀ x ∈ params, IsIdent x) (hbody : InPlace .block body)
    (hsig : IsSignature params.length sig)
    (hsited : Sited P c (form .function offset (form .parameters offset' params :: body :: sig))) :
    Resolves P o b c c
      (form .function offset (form .parameters offset' params :: body :: sig)).nodes
      (function src b
        (form .function offset (form .parameters offset' params :: body :: sig))) := by
  intro φ st hat
  obtain ⟨names, tags, hmap, hnames, htags⟩ := exists_names_of_function offset offset' body
    (fun x hx => (hparams x hx).leaf) hsig.tagging
  obtain ⟨brace, hbrace⟩ : ∃ brace, body.offset? = some brace := by
    cases hbody
    exact ⟨_, rfl⟩
  obtain ⟨block, hopen, hparent, hat₁⟩ :=
    run_openBlock src hat (names ++ body.declared) offset brace
  have hblock : ((st.index.newBlock block).2.blocks[st.index.blocks.size]?).map Block.depth =
      some block.depth := by
    rw [Index.getElem?_newBlock, if_pos rfl, Option.map_some]
  obtain ⟨hat₂, hadvances⟩ := hat₁.declareAll hblock (paramSymbols params names tags block.depth)
    depth_of_mem_paramSymbols
  rw [map_name_paramSymbols hmap] at hat₂
  have hopened : Indexing.Advances [] st { st with index := (st.index.newBlock block).2 } :=
    .of_blocks (Index.extends_newBlock (b := b) block) rfl rfl
  have hall := hopened.trans hadvances
  have hinner : (st.index.newBlock block).2.parents st.index.blocks.size = some (some b) := by
    rw [Index.parents, Index.getElem?_newBlock, if_pos rfl, Option.map_some, hparent]
  have hlast : (st.index.newBlock block).2.blocks.size = st.index.blocks.size + 1 := by
    simp [Index.newBlock]
  refine ⟨_, φ.extend st.index.blocks.size (names ++ body.declared), ?_, ?_,
    fun e he => if_neg (Nat.ne_of_lt he),
    hat₂.putOff ((hadvances.parents _ hat₁.here).trans hinner)
      (by rw [Indexing.At.size_declareAll, hlast]) hbody
      (hsited.body hnames (by simp)) hat.opened hat.free⟩
  · exact run_function hbrace hnames htags hopen hblock
  · refine ⟨hall.size, hall.parents, hall.notes, ⟨_, rfl, fun w hw => ?_, ?_⟩,
      fun u hu huse => .inr ⟨(body, st.index.blocks.size), List.mem_append_right _ (by simp), ?_⟩⟩
    · exact Nat.le_of_eq (congrArg Prod.snd (List.mem_singleton.mp hw)).symm
    · have hall : (form .function offset (form .parameters offset' params :: body :: sig)).nodes =
          _ :: (form .parameters offset' params :: body :: sig).flatMap nodes := nodes_node
      rw [hall]
      simp only [Indexing.load, List.flatMap_cons, List.flatMap_nil, List.length_cons,
        List.length_append, List.length_nil]
      omega
    · exact mem_body_of_isUse hparams hsig hu huse

end Function

section Equations

variable {f : Form} {offset : Int} {cs : List Tree}

theorem expr_lookup :
    expr src b (form .lookup offset (t :: cs)) = use b t (form .lookup offset (t :: cs)) false := by
  rw [form, expr]
  rfl

theorem expr_function :
    expr src b (form .function offset cs) = function src b (form .function offset cs) := by
  rw [form, expr]

theorem expr_form (hlookup : f ≠ .lookup) (hfunction : f ≠ .function) :
    expr src b (form f offset cs) = exprs src b cs := by
  rw [form, expr]
  · simpa using hlookup
  · simpa using hfunction

theorem expr_int (w : Int64) : expr src b (int offset w) = pure () := by
  rw [int, expr, exprs] <;> simp

/-- An expression that is a statement is resolved as an expression. -/
theorem statement_expression (h : InPlace .expression t) : statement src b t = expr src b t := by
  cases h <;> simp only [int, form, binary, statement, expr]

end Equations

/-- A tree is resolved wherever it stands, as its role says. -/
def Resolvable (P : Context → Tree → Prop) (src : String) : Role → Tree → Prop
  | .expression, t => ∀ o b c, Sited P c t → Resolves P o b c c t.nodes (expr src b t)
  | .statement, t =>
    ∀ o b c, Sited P c t → Resolves P o b c (c.declare t.declared) t.nodes (statement src b t)
  | .block, t => ∀ o b c, SitedInOrder P c t.children →
      Resolves P o b c (c.declare t.declared) (t.children.flatMap nodes)
        (statements src b t.children)

theorem resolves_exprs (h : ∀ t ∈ ts, Resolves P o b c c t.nodes (expr src b t)) :
    Resolves P o b c c (ts.flatMap nodes) (exprs src b ts) := by
  induction ts with
  | nil =>
    rw [exprs]
    exact .nothing
  | cons t ts ih =>
    rw [List.forall_mem_cons] at h
    rw [exprs, List.flatMap_cons]
    exact h.1.andThen (ih h.2)

theorem resolves_statements (h : ∀ t ∈ ts, Resolvable P src .statement t)
    (hsited : SitedInOrder P c ts) :
    Resolves P o b c (c.declare (declaredAll ts)) (ts.flatMap nodes) (statements src b ts) := by
  induction ts generalizing c with
  | nil =>
    rw [declaredAll, Context.declare_nil]
    exact .nothing
  | cons t ts ih =>
    rw [List.forall_mem_cons] at h
    rw [sitedInOrder_cons] at hsited
    rw [statements, List.flatMap_cons, declaredAll, ← Context.declare_declare]
    exact (h.1 o b c hsited.1).andThen (ih h.2 hsited.2)

theorem resolves_block (hblock : InPlace .block t) (h : Resolvable P src .block t)
    (hsited : Sited P (c.block t) t) : Resolves P o b c c t.nodes (block src b t) := by
  cases hblock with
  | @block offset ts hts =>
    have hinner : ∀ inner,
        Resolves P (inner :: o) inner (c.block (form .sequence offset ts)) _ _ _ :=
      fun inner => h _ inner _ (sited_sequence.mp hsited).2
    exact (resolves_inBlock (b := b) src offset offset hinner).node (by simp) (by simp)

/-- A node is resolved by resolving its parts, if it is no use and no function. -/
theorem resolves_parts {f : Form} {offset : Int} {cs : List Tree}
    (hsited : Sited P c (form f offset cs)) (hf : f ∉ [.sequence, .function, .lookup, .varLoc])
    (hcs : ∀ t ∈ cs, t.isForm .sequence = false ∧ Resolvable P src .expression t) :
    Resolves P o b c c (form f offset cs).nodes (expr src b (form f offset cs)) := by
  simp only [List.mem_cons, List.not_mem_nil, or_false, not_or] at hf
  obtain ⟨hsequence, hfunction, hlookup, hvarLoc⟩ := hf
  rw [expr_form hlookup hfunction]
  exact .node (resolves_exprs
    fun t ht => (hcs t ht).2 o b c (hsited.part ht hsequence hfunction (hcs t ht).1))
    hlookup hvarLoc

theorem usesName_of_ident {f : Form} (hx : IsIdent t) (hf : f = .lookup ∨ f = .varLoc)
    (offset : Int) (cs : List Tree) : ∃ x, (form f offset (t :: cs)).UsesName x := by
  obtain ⟨o, x, rfl, -⟩ := hx
  exact ⟨x, by obtain rfl | rfl := hf <;> rfl, rfl⟩

theorem resolves_lookup {offset : Int} (hx : IsIdent t)
    (hsited : Sited P c (form .lookup offset [t])) :
    Resolves P o b c c (form .lookup offset [t]).nodes (expr src b (form .lookup offset [t])) := by
  obtain ⟨x, huse⟩ := usesName_of_ident hx (.inl rfl) offset []
  have hresolves :
      Resolves P o b c c [form .lookup offset [t]] (expr src b (form .lookup offset [t])) := by
    rw [expr_lookup]
    exact resolves_use hsited.here huse
  refine hresolves.widen (fun u hu huse => ?_) ?_
  · rw [form, nodes_node, List.flatMap_singleton] at hu
    rcases List.mem_cons.mp hu with rfl | hu
    · exact List.mem_singleton_self _
    · rw [isUse_of_leaf hx.leaf hu] at huse
      cases huse
  · rw [form, nodes_node]
    simp

theorem resolves_assign {offset offset' : Int} {value : Tree} (hx : IsIdent t)
    (hvalue : InPlace .expression value) (ih : Resolvable P src .expression value)
    (hsited : Sited P c (form .assign offset [form .varLoc offset' [t], value])) :
    Resolves P o b c c (form .assign offset [form .varLoc offset' [t], value]).nodes
      (statement src b (form .assign offset [form .varLoc offset' [t], value])) := by
  obtain ⟨x, huse⟩ := usesName_of_ident hx (.inr rfl) offset' []
  have hplace : Sited P c (form .varLoc offset' [t]) :=
    hsited.part (by simp) (by simp) (by simp) rfl
  have hresolves : Resolves P o b c c (value.nodes ++ [form .varLoc offset' [t]])
      (statement src b (form .assign offset [form .varLoc offset' [t], value])) :=
    (ih o b c (hsited.expression (by simp) (by simp) (by simp) hvalue)).andThen
      (resolves_use hplace.here huse)
  suffices hparts : Resolves P o b c c ([form .varLoc offset' [t], value].flatMap nodes)
      (statement src b (form .assign offset [form .varLoc offset' [t], value]))
      from hparts.node (by simp) (by simp)
  refine hresolves.widen (fun u hu huse => ?_) ?_
  · simp only [List.flatMap_cons, List.flatMap_nil, List.append_nil, List.mem_append] at hu
    rcases hu with hu | hu
    · rw [form, nodes_node, List.flatMap_singleton] at hu
      rcases List.mem_cons.mp hu with rfl | hu
      · exact List.mem_append_right _ (List.mem_singleton_self _)
      · rw [isUse_of_leaf hx.leaf hu] at huse
        cases huse
    · exact List.mem_append_left _ hu
  · simp only [List.flatMap_cons, List.flatMap_nil, List.append_nil, List.length_append,
      form, nodes_node]
    simp only [List.length_cons, List.length_nil]
    omega

theorem resolves_declare {offset : Int} {value : Tree} {type : List Tree} (hx : IsIdent t)
    (hvalue : InPlace .expression value) (htype : ∀ t ∈ type, IsType t)
    (ih : Resolvable P src .expression value)
    (hsited : Sited P c (form .declare offset (t :: value :: type))) :
    Resolves P o b c (c.declare (form .declare offset (t :: value :: type)).declared)
      (form .declare offset (t :: value :: type)).nodes
      (statement src b (form .declare offset (t :: value :: type))) := by
  obtain ⟨x, hname⟩ : ∃ x, t.name? = some x := by
    obtain ⟨o, x, rfl, -⟩ := hx
    exact ⟨x, rfl⟩
  have hdeclared : (form .declare offset (t :: value :: type)).declared = [x] := by
    show ((form .declare offset (t :: value :: type)).child 0).name?.toList = [x]
    show t.name?.toList = [x]
    rw [hname, Option.toList_some]
  have hpresent : value.isAbsent = false := by cases hvalue <;> rfl
  rw [hdeclared]
  have hresolves : Resolves P o b c (c.declare [x]) (value.nodes ++ [])
      (statement src b (form .declare offset (t :: value :: type))) :=
    (ih o b c (hsited.expression (by simp) (by simp) (by simp) hvalue)).andThen
      (resolves_declaration hname hpresent)
  suffices hparts : Resolves P o b c (c.declare [x]) ((t :: value :: type).flatMap nodes)
      (statement src b (form .declare offset (t :: value :: type)))
      from hparts.node (by simp) (by simp)
  refine hresolves.widen (fun u hu huse => ?_) ?_
  · rw [List.append_nil]
    simp only [List.flatMap_cons, List.mem_append, List.mem_flatMap] at hu
    obtain hu | hu | ⟨v, hv, hu⟩ := hu
    · rw [isUse_of_leaf hx.leaf hu] at huse
      cases huse
    · exact hu
    · rw [isUse_of_leaf (htype v hv).leaf hu] at huse
      cases huse
  · simp only [List.flatMap_cons, List.length_append, List.append_nil]
    omega

theorem resolvable_arguments {offset : Int} {args : List Tree}
    (hargs : ∀ t ∈ args, InPlace .expression t) (ih : ∀ t ∈ args, Resolvable P src .expression t) :
    Resolvable P src .expression (form .arguments offset args) :=
  fun _ _ _ hsited => resolves_parts hsited (by simp)
    fun t ht => ⟨isForm_of_expression (hargs t ht), ih t ht⟩

/-- The step lemma: a tree is resolvable if its parts are. -/
theorem resolvable (src : String) {role : Role} (h : InPlace role t) : Resolvable P src role t := by
  induction h with
  | int =>
    intro o b c _
    rw [expr_int]
    refine Resolves.nothing.widen (fun u hu huse => ?_) (Nat.zero_le _)
    rw [int, nodes_node, List.flatMap_nil, List.mem_singleton] at hu
    rw [hu] at huse
    cases huse
  | lookup hx => exact fun o b c hsited => resolves_lookup hx hsited
  | binary hl hr ihl ihr =>
    intro o b c hsited
    refine resolves_parts (f := .binary _) hsited (by simp) ?_
    simpa using ⟨⟨isForm_of_expression hl, ihl⟩, isForm_of_expression hr, ihr⟩
  | not ht ih =>
    intro o b c hsited
    refine resolves_parts hsited (by simp) ?_
    simpa using ⟨isForm_of_expression ht, ih⟩
  | call hc hargs ihc ihargs =>
    intro o b c hsited
    refine resolves_parts hsited (by simp) ?_
    simpa using ⟨⟨isForm_of_expression hc, ihc⟩, rfl, resolvable_arguments hargs ihargs⟩
  | function hparams hbody hsig ih =>
    intro o b c hsited
    rw [expr_function]
    exact resolves_function hparams hbody hsig hsited
  | block hts ih => exact fun o b c hsited => resolves_statements ih hsited
  | declare hx hvalue htype hlen ih =>
    exact fun o b c hsited => resolves_declare hx hvalue htype ih hsited
  | assign hx hvalue ih =>
    exact fun o b c hsited => (Context.declare_nil c).symm ▸ resolves_assign hx hvalue ih hsited
  | print ht ih | ret ht ih =>
    exact fun o b c hsited => (Context.declare_nil c).symm ▸
      (ih o b c (hsited.expression (by simp) (by simp) (by simp) ht)).sole.node (by simp) (by simp)
  | ifThen hc hb ihc ihb | whileDo hc hb ihc ihb =>
    exact fun o b c hsited => (Context.declare_nil c).symm ▸
      ((ihc o b c (hsited.expression (by simp) (by simp) (by simp) hc)).andThen
        (resolves_block hb ihb (hsited.block (by simp) (by simp) (by simp) hb)).sole).node
          (by simp) (by simp)
  | ifElse hc hb ha ihc ihb iha =>
    exact fun o b c hsited => (Context.declare_nil c).symm ▸
      ((ihc o b c (hsited.expression (by simp) (by simp) (by simp) hc)).andThen
        ((resolves_block hb ihb (hsited.block (by simp) (by simp) (by simp) hb)).andThen
          (resolves_block ha iha (hsited.block (by simp) (by simp) (by simp) ha)).sole)).node
            (by simp) (by simp)
  | expression ht ih =>
    intro o b c hsited
    rw [statement_expression ht, declared_of_expression ht, Context.declare_nil]
    exact ih o b c hsited

/-- Resolving the first body that waits: what was covered is covered, and the load gets smaller. -/
theorem resolves_next (src : String) {body : Tree} {waiting : List (Tree × BlockId)}
    (h : st.Typed P φ []) (hwaiting : st.waiting = (body, b) :: waiting) (hcovers : st.Covers ns) :
    ∃ st' φ',
      (statements src b body.children).run { st with waiting } = some ((), st') ∧
      st'.Typed P φ' [] ∧
        st'.Covers ns ∧ Indexing.load st'.waiting < Indexing.load st.waiting := by
  obtain ⟨hplace, hfinal, hsited⟩ := h.bodies (body, b) (hwaiting ▸ List.mem_cons_self)
  obtain ⟨offset, ts, rfl⟩ : ∃ offset ts, body = form .sequence offset ts := by
    cases hplace
    exact ⟨_, _, rfl⟩
  obtain ⟨st', φ', hrun, hadvances, hφ, hat⟩ :=
    resolvable src hplace [b] b _ (sited_sequence.mp hsited).2 φ _ (h.next hwaiting)
  have hnodes :
      (form .sequence offset ts).nodes = form .sequence offset ts :: ts.flatMap nodes := nodes_node
  obtain ⟨new, hnew, -, hload⟩ := hadvances.waiting
  refine ⟨st', φ', hrun, hat.settle hfinal.symm, fun u hu huse => ?_, ?_⟩
  · obtain hnotes | ⟨w, hw, hmem⟩ := hcovers u hu huse
    · exact .inl (hadvances.notes u hnotes)
    · rw [hwaiting] at hw
      rcases List.mem_cons.mp hw with rfl | hw
      · rw [hnodes] at hmem
        rcases List.mem_cons.mp hmem with rfl | hmem
        · cases huse
        · exact hadvances.covers u hmem huse
      · exact .inr ⟨w, hnew ▸ List.mem_append_left _ hw, hmem⟩
  · simp only [Indexing.load, hnew, hwaiting, List.flatMap_append, List.flatMap_cons,
      List.length_append, hnodes, List.length_cons, children_form] at hload ⊢
    omega

/-- The run lemma: with enough rounds for the bodies that wait, none is left, and every use is
noted. -/
theorem bodies_note (src : String) (limit : Nat) :
    ∀ φ st, st.Typed P φ [] → Indexing.load st.waiting ≤ limit → st.Covers ns →
    ∃ st', (bodies src limit).run st = some ((), st') ∧ st'.waiting = [] ∧ st'.index.Correct P ∧
      ∀ u ∈ ns, u.isUse = true → st'.index.Notes u := by
  induction limit with
  | zero =>
    intro φ st h hload hcovers
    have hwaiting : st.waiting = [] := by
      cases hwaiting : st.waiting with
      | nil => rfl
      | cons w waiting =>
        have hblock := (h.bodies w (hwaiting ▸ List.mem_cons_self)).1
        rw [hwaiting, Indexing.load, List.flatMap_cons, List.length_append] at hload
        have hpos : 0 < w.1.nodes.length := by
          generalize w.1 = body at hblock
          cases hblock
          rw [form, nodes_node]
          exact Nat.succ_pos _
        omega
    exact ⟨st, rfl, hwaiting, h.correct, hcovers.notes hwaiting⟩
  | succ limit ih =>
    intro φ st h hload hcovers
    cases hwaiting : st.waiting with
    | nil =>
      exact ⟨st, run_bodies_nil hwaiting src limit, hwaiting, h.correct, hcovers.notes hwaiting⟩
    | cons w waiting =>
      obtain ⟨body, b⟩ := w
      obtain ⟨st₁, φ₁, hrun, h₁, hcovers₁, hless⟩ := resolves_next src h hwaiting hcovers
      obtain ⟨st', hrun', hdone, hcorrect, hnotes⟩ := ih φ₁ st₁ h₁ (by omega) hcovers₁
      refine ⟨st', ?_, hdone, hcorrect, hnotes⟩
      rw [run_bodies_cons hwaiting, StateT.run_bind, hrun]
      exact hrun'

/-- All the work for the index of a program. -/
def program (src : String) (t : Tree) : Indexer Unit := do
  statements src 0 t.children
  bodies src t.nodes.length

/-- A text with no names in it yet. -/
def start (src : String) : Indexing :=
  { index := { blocks := #[{ parent := none, start := 0, stop := src.utf8ByteSize, depth := 0 }] } }

/-- In the end no body waits. -/
theorem run_program (h : InPlace .block t) (hsited : Sited P (.program t) t) (src : String) :
    ∃ st, (program src t).run (start src) = some ((), st) ∧ st.waiting = [] ∧ st.index.Correct P ∧
      ∀ u ∈ t.nodes, u.isUse = true → st.index.Notes u := by
  cases h with
  | @block offset ts hts =>
    have hnodes : (form .sequence offset ts).nodes = form .sequence offset ts :: ts.flatMap nodes :=
      nodes_node
    have hplace : InPlace .block (form .sequence offset ts) := .block hts
    obtain ⟨st₁, φ₁, hrun, hadvances, -, hat⟩ := Indexer.resolvable src hplace [0] 0 _
      (sited_sequence.mp hsited).2 _ _
      (Indexing.at_start P (form .sequence offset ts) src.utf8ByteSize)
    rw [children_form] at hrun hadvances
    obtain ⟨new, hnew, -, hload⟩ := hadvances.waiting
    rw [List.nil_append] at hnew
    obtain ⟨st₂, hrun', hdone, hcorrect, hnotes⟩ :=
      bodies_note src (form .sequence offset ts).nodes.length
      φ₁ st₁ (hat.settle rfl) (by rw [hnew, hnodes]; exact Nat.le_succ_of_le hload) hadvances.covers
    refine ⟨st₂, ?_, hdone, hcorrect, fun u hu huse => hnotes u ?_ huse⟩
    · rw [program, children_form, StateT.run_bind]
      exact (congrArg (Option.bind · _) hrun).trans hrun'
    · rw [hnodes] at hu
      rcases List.mem_cons.mp hu with rfl | hu
      · cases huse
      · exact hu

end Indexer

/-- The index of a program is what the work for it comes to, with the uses in the order of the
text. -/
theorem Index.build?_eq {t : Tree} (h : InPlace .block t) {src : String} {st : Indexing}
    (hrun : (Indexer.program src t).run (Indexer.start src) = some ((), st)) :
    build? t src = some { st.index with
      references := st.index.references.mergeSort fun r r' => r.offset ≤ r'.offset } := by
  cases h with
  | @block offset ts hts =>
    rw [Indexer.program, children_form] at hrun
    simp only [Indexer.start] at hrun
    simp only [build?, form] at hrun ⊢
    rw [hrun]
    rfl

/-- The index of a well-sorted program: what it notes is right, and it notes every use. -/
theorem Index.build?_notes {P : Context → Tree → Prop} {t : Tree} (h : InPlace .block t)
    (hsited : Sited P (.program t) t) (src : String) : ∃ ix, build? t src = some ix ∧ ix.Correct P ∧
      ∀ u ∈ t.nodes, u.isUse = true → ix.Notes u := by
  obtain ⟨st, hrun, -, hcorrect, hnotes⟩ := Indexer.run_program h hsited src
  refine ⟨_, build?_eq h hrun, ⟨hcorrect.unresolved, fun r hr => ?_⟩, fun u hu huse => ?_⟩
  · exact hcorrect.references r (List.mem_mergeSort.mp hr)
  · exact (hnotes u hu huse).imp_right fun ⟨r, hr, hoffset⟩ =>
      ⟨r, List.mem_mergeSort.mpr hr, hoffset⟩

end ClosureLang.Editor

import ClosureLang.Proofs.Grammar.Words
import ClosureLang.Proofs.Layout.Outline

/-! Blank lines are all that a text keeps of the text that its tree was read from: trees that are
equal up to offsets have the same text if the same blank lines are written in front of their
statements. -/
namespace ClosureLang.Layout

open Grammar ClosureLang.Tree Rope

variable {style : Style} {src src' : String} {level k : Nat} {t t' : Tree} {ts us : List Tree}
  {P : Int64 → Prop}

section Shapes

variable {o : Int} {f : Form} {a b : Tree}

theorem strip_leaf (h : ∃ o x, t = ident o x) : t.strip = unplaced t := by
  obtain ⟨o, x, rfl⟩ := h
  rfl

theorem strip_form (h : ∀ t ∈ ts, t.strip = unplaced t) :
    (form f o ts).strip = unplaced (form f o ts) := by
  rw [unplaced, relabel_form, form, strip, stripAll_eq_map]
  exact congrArg (form f 0) (List.map_congr_left h)

/-- In a tree in place only compound nodes have children. -/
theorem strip_of_wellSorted {role : Role} (h : WellSorted P role t) : t.strip = unplaced t := by
  induction h with
  | int => rfl
  | lookup hx => exact strip_form (by simpa using strip_leaf hx.leaf)
  | binary _ _ ihl ihr => exact strip_form (by simp [ihl, ihr])
  | not _ ih | print _ ih | ret _ ih => exact strip_form (by simp [ih])
  | call _ _ ih ihs => exact strip_form (by simpa using ⟨ih, strip_form ihs⟩)
  | @function _ _ params _ sig hparams _ hsig ih =>
    have hnames : ∀ x ∈ params, x.strip = unplaced x := fun x hx => strip_leaf (hparams x hx).leaf
    have htags : ∀ t ∈ sig, t.strip = unplaced t := by
      rcases hsig with rfl | ⟨i, tags, rfl, -, htags, -⟩
      · exact List.forall_mem_nil _
      · simpa using strip_form fun t ht => strip_leaf (htags t ht).leaf
    exact strip_form (by simpa using ⟨strip_form hnames, ih, htags⟩)
  | block _ ih => exact strip_form ih
  | declare hx _ htype _ ih =>
    have htags := fun t ht => strip_leaf (htype t ht).leaf
    exact strip_form (by simpa using ⟨strip_leaf hx.leaf, ih, htags⟩)
  | assign hx _ ih =>
    exact strip_form (by simpa [ih] using strip_form (by simpa using strip_leaf hx.leaf))
  | ifThen _ _ ihc ihb | whileDo _ _ ihc ihb => exact strip_form (by simp [ihc, ihb])
  | ifElse _ _ _ ihc ihb iha => exact strip_form (by simp [ihc, ihb, iha])
  | expression _ ih => exact ih

theorem unplaced_of_similar {role : Role} (ht : WellSorted P role t) (ht' : WellSorted P role t')
    (h : similar t' t = true) : unplaced t' = unplaced t := by
  rw [← strip_of_wellSorted ht', (similar_iff_strip t' t).mp h, strip_of_wellSorted ht]

theorem form_of_unplaced (h : unplaced t' = unplaced (form f o ts)) :
    ∃ o' ts', t' = form f o' ts' ∧ ts'.map unplaced = ts.map unplaced := by
  rw [unplaced, unplaced, relabel_form] at h
  cases t' with
  | absent => cases h
  | node l o' cs =>
    cases l with
    | form g =>
      rw [← form, relabel_form, form, form, node.injEq, Label.form.injEq] at h
      obtain ⟨rfl, -, hcs⟩ := h
      exact ⟨o', cs, rfl, hcs⟩
    | _ => cases h

theorem int_of_unplaced {w : Int64} (h : unplaced t' = unplaced (int o w)) :
    ∃ o', t' = int o' w := by
  cases t' with
  | absent => cases h
  | node l o' cs =>
    cases l with
    | integer v =>
      cases cs <;> cases h
      exact ⟨o', rfl⟩
    | _ => cases h

theorem name?_unplaced (t : Tree) : (unplaced t).name? = t.name? := by
  cases t with
  | absent => rfl
  | node l o cs => cases l <;> rfl

theorem leafName_of_unplaced (h : unplaced t' = unplaced t) : leafName t' = leafName t := by
  rw [leafName, leafName, ← name?_unplaced t', h, name?_unplaced]

theorem names_unplaced (t : Tree) : (unplaced t).children.mapM name? = t.children.mapM name? := by
  rw [unplaced, children_relabel, List.mapM_map]
  exact congrArg (t.children.mapM ·) (funext name?_unplaced)

theorem signature?_of_unplaced (h : unplaced t' = unplaced t) : signature? t' = signature? t := by
  have hsignature (t : Tree) : signature? (unplaced t) = signature? t := by
    have hparams : (unplaced t).paramNames? = t.paramNames? := by
      rw [paramNames?, paramNames?, unplaced, child_relabel, ← unplaced]
      cases h : t.child 0 with
      | absent => rfl
      | node l o cs => exact names_unplaced (node l o cs)
    have htags : ((unplaced t).child 2).typeTags? = (t.child 2).typeTags? := by
      rw [unplaced, child_relabel]
      exact names_unplaced _
    rw [signature?, signature?, hparams, htags]
  rw [← hsignature t', h, hsignature]

theorem nodes_unplaced (t : Tree) : (unplaced t).nodes = t.nodes.map unplaced := by
  induction t using Tree.induction with
  | absent => rfl
  | node l o cs ih =>
    have hchildren : (relabelAll asWritten nowhere cs).flatMap nodes =
        cs.flatMap fun c => c.nodes.map unplaced := by
      rw [relabelAll_eq_map, List.flatMap_map]
      exact List.flatMap_congr ih
    rw [nodes_node, List.map_cons, List.map_flatMap, ← hchildren]
    exact nodes_node

theorem blocks_eq (t : Tree) : blocks t = t.nodes.filter (·.isForm .sequence) := by
  rw [blocks, inorder_eq, Editor.flatMap_nodes_filter]
  intro t ht
  unfold isOperation at ht
  split at ht
  · rfl
  · cases ht

theorem length_blocks (h : unplaced t' = unplaced t) : (blocks t').length = (blocks t).length := by
  have hlength (t : Tree) : (blocks (unplaced t)).length = (blocks t).length := by
    have hsame : (fun t : Tree => t.isForm .sequence) ∘ unplaced = fun t => t.isForm .sequence := by
      funext t
      cases t with
      | absent => rfl
      | node l o cs => cases l <;> rfl
    rw [blocks_eq, blocks_eq, nodes_unplaced, List.filter_map, List.length_map, hsame]
  rw [← hlength t', h, hlength]

end Shapes

section Twins

/-- The number of blank lines in front of a statement behind another one. -/
def pause (style : Style) (src : String) (t : Tree) : Nat :=
  blankLinesBefore style src (t.offset?.getD 0) t

/-- The same blank lines are written between the statements of two sequences. -/
def SamePauses (style : Style) (src src' : String) (t t' : Tree) : Prop :=
  List.Forall₂ (fun s s' => pause style src s = pause style src' s')
    t.children.tail t'.children.tail

/-- Trees of one shape, with the same blank lines in their sequences. -/
structure Twins (style : Style) (src src' : String) (t t' : Tree) : Prop where
  shape : unplaced t' = unplaced t
  pauses : List.Forall₂ (SamePauses style src src') (blocks t) (blocks t')

variable {o : Int} {f : Form}

theorem twins_all (hshape : us.map unplaced = ts.map unplaced)
    (hpauses : List.Forall₂ (SamePauses style src src') (ts.flatMap blocks) (us.flatMap blocks)) :
    List.Forall₂ (Twins style src src') ts us := by
  induction ts generalizing us with
  | nil =>
    obtain rfl := List.map_eq_nil_iff.mp hshape
    exact .nil
  | cons t ts ih =>
    obtain ⟨u, us, rfl, hu, hus⟩ := List.map_eq_cons_iff.mp hshape
    have hfirst := List.forall₂_take_append _ _ _ hpauses
    have hrest := List.forall₂_drop_append _ _ _ hpauses
    rw [length_blocks hu, List.flatMap_cons] at hfirst hrest
    rw [List.take_left] at hfirst
    rw [List.drop_left] at hrest
    exact .cons ⟨hu, hfirst⟩ (ih hus hrest)

/-- The parts of a node are twins of the parts of its twin. -/
theorem Twins.parts (hbinary : f.isBinary = false) (hf : f ≠ .sequence)
    (h : Twins style src src' (form f o ts) t') :
    ∃ o' us, t' = form f o' us ∧ List.Forall₂ (Twins style src src') ts us := by
  obtain ⟨o', us, rfl, hus⟩ := form_of_unplaced h.shape
  have hpauses := h.pauses
  rw [blocks_form hbinary hf, blocks_form hbinary hf] at hpauses
  exact ⟨o', us, rfl, twins_all hus hpauses⟩

theorem Twins.operands {op : BinaryOp} {a b : Tree}
    (h : Twins style src src' (binary op o a b) t') :
    ∃ o' a' b', t' = binary op o' a' b' ∧ Twins style src src' a a' ∧
      Twins style src src' b b' := by
  obtain ⟨o', us, rfl, hus⟩ := form_of_unplaced h.shape
  have hboth : List.Forall₂ (Twins style src src') [a, b] us := by
    simp only [List.map_cons, List.map_nil, List.map_eq_cons_iff, List.map_eq_nil_iff] at hus
    obtain ⟨a', _, rfl, ha, b', _, rfl, hb, rfl⟩ := hus
    have hpauses := h.pauses
    rw [blocks_binary, ← binary, blocks_binary] at hpauses
    exact twins_all (by simp [ha, hb]) (by simpa using hpauses)
  simp only [List.forall₂_cons_left_iff, List.forall₂_nil_left_iff] at hboth
  obtain ⟨a', _, ha, ⟨b', _, hb, rfl, rfl⟩, rfl⟩ := hboth
  exact ⟨o', a', b', rfl, ha, hb⟩

/-- Behind another one a statement stands as far from it as its twin. -/
theorem Twins.sequence (h : Twins style src src' (form .sequence o ts) t') :
    ∃ o' us, t' = form .sequence o' us ∧ List.Forall₂ (Twins style src src') ts us ∧
      List.Forall₂ (fun s s' => pause style src s = pause style src' s') ts.tail us.tail := by
  obtain ⟨o', us, rfl, hus⟩ := form_of_unplaced h.shape
  have hpauses := h.pauses
  rw [blocks_sequence, blocks_sequence] at hpauses
  obtain ⟨hown, hpauses⟩ := List.forall₂_cons.mp hpauses
  exact ⟨o', us, rfl, twins_all hus hpauses, hown⟩

end Twins

section Ropes

/-- The twins of a tree are printed as it is. -/
def Respaced (style : Style) (src src' : String) : Role → Tree → Prop
  | .expression, t =>
    ∀ t', Twins style src src' t t' →
      ∀ level, spellRope style src' level t' = spellRope style src level t
  | .statement, t =>
    ∀ t', Twins style src src' t t' →
      ∀ level, statementRope style src' level t' = statementRope style src level t
  | .block, t =>
    ∀ t', Twins style src src' t t' →
      ∀ level, blockRope style src' level t' = blockRope style src level t

theorem Respaced.expr (ht : WellSorted P .expression t) (h : Respaced style src src' .expression t)
    (htwins : Twins style src src' t t') (level k : Nat) :
    exprRope style src' level k t' = exprRope style src level k t := by
  have hstrength : strength t' = strength t := by
    rw [← strength_strip t', (similar_iff_strip t' t).mp (similar_of_unplaced htwins.shape),
      strength_strip]
  have hpresent : t.isAbsent = false := by cases ht <;> rfl
  have hpresent' : t'.isAbsent = false := by
    cases t' with
    | absent => cases ht <;> cases htwins.shape
    | node => rfl
  rw [exprRope_eq hpresent, exprRope_eq hpresent', hstrength, h t' htwins level]

theorem respaced_exprs
    (hts : ∀ t ∈ ts, WellSorted P .expression t ∧ Respaced style src src' .expression t)
    (htwins : List.Forall₂ (Twins style src src') ts us) (level : Nat) :
    exprsRope style src' level us = exprsRope style src level ts := by
  induction htwins with
  | nil => rfl
  | cons htwin hrest ih =>
    rw [List.forall_mem_cons] at hts
    have hexpr := hts.1.2.expr hts.1.1 htwin level 0
    have hexprs := ih hts.2
    cases hrest with
    | nil => exact hexpr
    | cons =>
      change exprRope style src' level 0 _ ++ (Rope.plain ", " ++ exprsRope style src' level _) = _
      rw [hexpr, hexprs]
      rfl

theorem respaced_statements (hts : ∀ t ∈ ts, Respaced style src src' .statement t)
    (htwins : List.Forall₂ (Twins style src src') ts us)
    (hpauses : List.Forall₂ (fun s s' => pause style src s = pause style src' s') ts us)
    (level : Nat) :
    statementsRope style src' level false us = statementsRope style src level false ts := by
  induction hpauses with
  | nil => rfl
  | cons hpause _ ih =>
    rw [List.forall_mem_cons] at hts
    obtain ⟨htwin, hrest⟩ := List.forall₂_cons.mp htwins
    rw [pause, pause] at hpause
    simp only [statementsRope, ih hts.2 hrest, hts.1 _ htwin level, hpause]

theorem respaced_sequence (hts : ∀ t ∈ ts, Respaced style src src' .statement t)
    (htwins : List.Forall₂ (Twins style src src') ts us)
    (hpauses : List.Forall₂ (fun s s' => pause style src s = pause style src' s') ts.tail us.tail)
    (level : Nat) :
    statementsRope style src' level true us = statementsRope style src level true ts := by
  cases htwins with
  | nil => rfl
  | cons htwin hrest =>
    rw [List.forall_mem_cons] at hts
    simp only [statementsRope, respaced_statements hts.2 hrest hpauses,
      hts.1 _ htwin level, if_true]

theorem respaced_block {o : Int} (hts : ∀ t ∈ ts, Respaced style src src' .statement t) :
    Respaced style src src' .block (form .sequence o ts) := by
  intro t' htwins level
  obtain ⟨o', us, rfl, hus, hpauses⟩ := htwins.sequence
  have hlines := respaced_sequence hts hus hpauses (level + 1)
  cases hus with
  | nil => rfl
  | cons => simp only [form, blockRope, hlines]

theorem statementRope_twin (ht : WellSorted P .expression t) (h : Twins style src src' t t') :
    statementRope style src' level t' = spellRope style src' level t' ++ Rope.plain ";" := by
  cases ht with
  | int =>
    obtain ⟨o, rfl⟩ := int_of_unplaced h.shape
    rfl
  | _ =>
    obtain ⟨o, us, rfl, -⟩ := form_of_unplaced h.shape
    rfl

theorem respaced_of_wellSorted {role : Role} (h : WellSorted P role t) :
    Respaced style src src' role t := by
  induction h with
  | int =>
    intro t' h level
    obtain ⟨o, rfl⟩ := int_of_unplaced h.shape
    rfl
  | lookup =>
    intro t' h level
    obtain ⟨o, us, rfl, hus⟩ := h.parts rfl (by decide)
    simp only [List.forall₂_cons_left_iff, List.forall₂_nil_left_iff] at hus
    obtain ⟨x, _, hx, rfl, rfl⟩ := hus
    exact congrArg Rope.plain (leafName_of_unplaced hx.shape)
  | binary htl htr ihl ihr =>
    intro t' h level
    obtain ⟨o, a, b, rfl, ha, hb⟩ := h.operands
    rw [spellRope_binary, spellRope_binary, ihl.expr htl ha, ihr.expr htr hb]
  | not ht ih =>
    intro t' h level
    obtain ⟨o, us, rfl, hus⟩ := h.parts rfl (by decide)
    simp only [List.forall₂_cons_left_iff, List.forall₂_nil_left_iff] at hus
    obtain ⟨a, _, ha, rfl, rfl⟩ := hus
    exact congrArg (Rope.plain "!" ++ ·) (ih.expr ht ha level notStrength)
  | call ht hargs ih ihs =>
    intro t' h level
    obtain ⟨o, us, rfl, hus⟩ := h.parts rfl (by decide)
    simp only [List.forall₂_cons_left_iff, List.forall₂_nil_left_iff] at hus
    obtain ⟨callee, _, hcallee, ⟨b, _, hb, rfl, rfl⟩, rfl⟩ := hus
    obtain ⟨i, args, rfl, htwins⟩ := hb.parts rfl (by decide)
    rw [spellRope_call, spellRope_call, ih.expr ht hcallee,
      respaced_exprs (fun t ht => ⟨hargs t ht, ihs t ht⟩) htwins level]
  | function _ _ _ ih =>
    intro t' h level
    obtain ⟨o, us, rfl, hus⟩ := h.parts rfl (by decide)
    simp only [List.forall₂_cons_left_iff] at hus
    obtain ⟨params, _, -, ⟨body, _, hbody, -, rfl⟩, rfl⟩ := hus
    rw [spellRope_function, spellRope_function, signature?_of_unplaced h.shape, ih body hbody]
  | block _ ih => exact respaced_block ih
  | @declare _ _ _ type _ ht _ hlen ih =>
    intro t' h level
    obtain ⟨o, us, rfl, hus⟩ := h.parts rfl (by decide)
    simp only [List.forall₂_cons_left_iff] at hus
    obtain ⟨x, _, hx, ⟨value, type', hvalue, htype, rfl⟩, rfl⟩ := hus
    have hdeclared : declaredType type' = declaredType type := by
      cases htype with
      | nil => rfl
      | cons htag => exact leafName_of_unplaced htag.shape
    simp only [form, statementRope, ih.expr ht hvalue, leafName_of_unplaced hx.shape, hdeclared]
  | assign _ ht ih =>
    intro t' h level
    obtain ⟨o, us, rfl, hus⟩ := h.parts rfl (by decide)
    simp only [List.forall₂_cons_left_iff, List.forall₂_nil_left_iff] at hus
    obtain ⟨place, _, hplace, ⟨value, _, hvalue, rfl, rfl⟩, rfl⟩ := hus
    obtain ⟨i, xs, rfl, hxs⟩ := hplace.parts rfl (by decide)
    simp only [List.forall₂_cons_left_iff, List.forall₂_nil_left_iff] at hxs
    obtain ⟨x, _, hx, rfl, rfl⟩ := hxs
    simp only [form, statementRope, ih.expr ht hvalue, leafName_of_unplaced hx.shape]
  | print ht ih | ret ht ih =>
    intro t' h level
    obtain ⟨o, us, rfl, hus⟩ := h.parts rfl (by decide)
    simp only [List.forall₂_cons_left_iff, List.forall₂_nil_left_iff] at hus
    obtain ⟨value, _, hvalue, rfl, rfl⟩ := hus
    simp only [form, statementRope, ih.expr ht hvalue]
  | ifThen ht _ ihc ihb | whileDo ht _ ihc ihb =>
    intro t' h level
    obtain ⟨o, us, rfl, hus⟩ := h.parts rfl (by decide)
    simp only [List.forall₂_cons_left_iff, List.forall₂_nil_left_iff] at hus
    obtain ⟨cond, _, hcond, ⟨body, _, hbody, rfl, rfl⟩, rfl⟩ := hus
    simp only [form, statementRope, ihc.expr ht hcond, ihb body hbody level]
  | ifElse ht _ _ ihc ihb iha =>
    intro t' h level
    obtain ⟨o, us, rfl, hus⟩ := h.parts rfl (by decide)
    simp only [List.forall₂_cons_left_iff, List.forall₂_nil_left_iff] at hus
    obtain ⟨cond, _, hcond, ⟨body, _, hbody, ⟨other, _, hother, rfl, rfl⟩, rfl⟩, rfl⟩ := hus
    simp only [form, statementRope, ihc.expr ht hcond, ihb body hbody level, iha other hother level]
  | expression ht ih =>
    intro t' h level
    rw [statementRope_expression ht, ← ih t' h level]
    exact statementRope_twin ht h

theorem renderRope_twin (ht : WellSorted P .block t) (h : Twins style src src' t t') :
    renderRope style src' t' = renderRope style src t := by
  cases ht with
  | block hts =>
    obtain ⟨o', us, rfl, hus, hpauses⟩ := h.sequence
    exact respaced_sequence (fun t ht => respaced_of_wellSorted (hts t ht)) hus hpauses 0

end Ropes

end ClosureLang.Layout

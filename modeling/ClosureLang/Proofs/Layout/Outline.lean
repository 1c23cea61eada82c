import ClosureLang.Proofs.Editor.Extents
import ClosureLang.Proofs.Layout.Groups
import ClosureLang.Proofs.Layout.Leftmost

/-! The outline of a printed text: the parentheses at the front of a statement, the character at its
end, and what stands behind the braces. -/
namespace ClosureLang.Layout

open Grammar ClosureLang.Tree Rope

variable {style : Style} {src : String} {level k : Nat} {t : Tree} {ts : List Tree}
  {P : Int64 → Prop} {s s' : String}

section Fronts

mutual

/-- The number of parentheses at the front of a tree where the strength `least` is asked. -/
def lead (least : Nat) : Tree → Nat
  | .absent => 0
  | .node l o cs => (if strength (.node l o cs) < least then 1 else 0) + leadFirst l cs

/-- The parentheses at the front of the first operand. -/
def leadFirst : Label → List Tree → Nat
  | .form (.binary op), c :: _ => lead (operandStrengths op).1 c
  | .form .call, c :: _ => lead primaryStrength c
  | _, _ => 0

end

mutual

theorem lead_strip (k : Nat) : (t : Tree) → lead k t.strip = lead k t
  | .absent => rfl
  | .node (.form f) o cs => by
    have hstrength := strength_strip (.node (.form f) o cs)
    rw [strip, form] at hstrength ⊢
    rw [lead, lead, hstrength, leadFirst_strip f cs]
  | .node (.integer w) o cs => by
    change lead k (.node (.integer w) 0 []) = _
    rw [lead, lead]
    cases cs <;> rfl
  | .node (.ident x) o cs => by
    change lead k (.node (.ident x) 0 []) = _
    rw [lead, lead]
    cases cs <;> rfl

theorem leadFirst_strip (f : Form) :
    (cs : List Tree) → leadFirst (.form f) (stripAll cs) = leadFirst (.form f) cs
  | [] => rfl
  | c :: cs => by
    have hlead (k : Nat) := lead_strip k c
    cases f <;> first | rfl | exact hlead _

end

theorem lead_of_similar {u : Tree} (h : similar t u = true) (k : Nat) : lead k t = lead k u := by
  rw [← lead_strip k t, (similar_iff_strip t u).mp h, lead_strip]

theorem lead_binary {op : BinaryOp} {o : Int} {a b : Tree} :
    lead 0 (binary op o a b) = lead (operandStrengths op).1 a := by
  simp [binary, form, lead, leadFirst]

theorem lead_call {o : Int} {callee : Tree} :
    lead 0 (form .call o (callee :: ts)) = lead primaryStrength callee := by
  simp [form, lead, leadFirst]

/-- The text starts with so many parentheses, and what stands behind them is no blank. -/
def Fronted (s : String) (n : Nat) : Prop :=
  ∃ c cs, s.toList = List.replicate n '(' ++ c :: cs ∧ isSkipped (byteOf c) = false

theorem Fronted.append (h : Fronted s k) : Fronted (s ++ s') k := by
  obtain ⟨c, cs, hs, hc⟩ := h
  exact ⟨c, cs ++ s'.toList, by rw [String.toList_append, hs, List.append_assoc]; rfl, hc⟩

theorem Fronted.parens (h : Fronted s k) : Fronted ("(" ++ s ++ ")") (k + 1) := by
  obtain ⟨c, cs, hs, hc⟩ := h
  refine ⟨c, cs ++ [')'], ?_, hc⟩
  rw [String.toList_append, String.toList_append, hs, List.replicate_succ]
  simp

theorem fronted_of_head {c : Char} {cs : List Char} (hs : s.toList = c :: cs)
    (hc : isSkipped (byteOf c) = false) : Fronted s 0 := ⟨c, cs, hs, hc⟩

theorem fronted_of_word (hs : isSolid s = true)
    (h : ∀ c ∈ s.toList, isIdentByte (byteOf c) = true) : Fronted s 0 := by
  obtain ⟨c, cs, hcs⟩ := solid_cons hs
  exact fronted_of_head hcs (isSkipped_of_isIdentByte (h c (by simp [hcs])))

/-- An expression without parentheses around it. -/
def FrontedSpell (style : Style) (src : String) (t : Tree) : Prop :=
  t.isAbsent = false ∧ ∀ level, Fronted (spellRope style src level t).text (lead 0 t)

theorem lead_eq (ht : t.isAbsent = false) :
    lead k t = (if strength t < k then 1 else 0) + lead 0 t := by
  cases t with
  | absent => cases ht
  | node l o cs => simp only [lead, Nat.not_lt_zero, if_false, Nat.zero_add]

theorem FrontedSpell.expr (h : FrontedSpell style src t) (level k : Nat) :
    Fronted (exprRope style src level k t).text (lead k t) := by
  rw [exprRope_eq h.1, lead_eq h.1]
  split
  · rw [Nat.add_comm]
    exact (h.2 level).parens
  · rw [Nat.zero_add]
    exact h.2 level

theorem fronted_expression (ht : WellSorted (0 ≤ ·) .expression t) : FrontedSpell style src t := by
  generalize hrole : Role.expression = role at ht
  induction ht with
  | int hw =>
    obtain ⟨hsolid, -, hdigits, -⟩ := word_chars hw
    exact ⟨rfl, fun level => fronted_of_word hsolid fun c hc => by simp [isIdentByte, hdigits c hc]⟩
  | lookup hx =>
    obtain ⟨i, x, rfl, hname⟩ := hx
    obtain ⟨hsolid, -, hword, -⟩ := name_chars hname
    exact ⟨rfl, fun level => fronted_of_word hsolid hword⟩
  | binary _ _ ihl _ =>
    refine ⟨rfl, fun level => ?_⟩
    rw [lead_binary]
    exact ((ihl rfl).expr level _).append
  | not => exact ⟨rfl, fun level => Fronted.append (fronted_of_head rfl rfl)⟩
  | call _ _ ih _ =>
    refine ⟨rfl, fun level => ?_⟩
    rw [lead_call]
    exact ((ih rfl).expr level _).append
  | function hparams _ hsig =>
    refine ⟨rfl, fun level => ?_⟩
    obtain ⟨ys, v, -, hheader⟩ := signatureText_annotates hparams hsig
    have hword : Fronted "func(" 0 := fronted_of_head rfl rfl
    rw [spellRope_function, signature?_of_signatureText (hheader _ _ _), headerText]
    exact hword.append.append.append.append.append
  | _ => cases hrole

theorem statementRope_expression (ht : WellSorted P .expression t) :
    statementRope style src level t = spellRope style src level t ++ plain ";" := by
  cases ht <;> rfl

theorem declaredType_mem {type : List Tree} (htype : ∀ t ∈ type, IsType t) :
    declaredType type ∈ ["var", "int", "func"] := by
  match type with
  | [] => exact List.mem_cons_self
  | t :: _ =>
    obtain ⟨o, x, rfl, rfl | rfl⟩ :=
      htype t List.mem_cons_self <;> simp [declaredType, leafName, name?, ident]

theorem fronted_type {type : List Tree} (htype : ∀ t ∈ type, IsType t) :
    Fronted (declaredType type) 0 := by
  have hall : ∀ s ∈ ["var", "int", "func"], isSolid s = true ∧
      s.toList.all (isIdentByte <| byteOf ·) = true := by
    decide
  obtain ⟨hsolid, hword⟩ := hall _ (declaredType_mem htype)
  exact fronted_of_word hsolid (List.all_eq_true.mp hword)

/-- Only a statement that is an expression may start with a parenthesis. -/
theorem fronted_statement (ht : WellSorted (0 ≤ ·) .statement t) (level : Nat) :
    Fronted (statementRope style src level t).text (lead 0 t) := by
  cases ht with
  | declare _ _ htype => exact (fronted_type htype).append.append.append.append
  | assign hx =>
    obtain ⟨i, x, rfl, hname⟩ := hx
    obtain ⟨hsolid, -, hword, -⟩ := name_chars hname
    exact (fronted_of_word hsolid hword).append.append
  | print => exact Fronted.append (fronted_of_head rfl rfl)
  | ret => exact Fronted.append (fronted_of_head rfl rfl)
  | ifThen => exact Fronted.append (fronted_of_head rfl rfl)
  | ifElse => exact Fronted.append (fronted_of_head rfl rfl)
  | whileDo => exact Fronted.append (fronted_of_head rfl rfl)
  | expression ht =>
    rw [statementRope_expression ht]
    exact ((fronted_expression ht).2 level).append

end Fronts

section Ends

/-- No blank ends the text. -/
def endsSolid (s : String) : Bool := s.toList.getLast?.any fun c => !isBlankChar c

theorem endsSolid_append (h : endsSolid s' = true) : endsSolid (s ++ s') = true := by
  unfold endsSolid at h ⊢
  rw [String.toList_append]
  cases hlast : s'.toList.getLast? with
  | none => simp [hlast] at h
  | some c => simpa [List.getLast?_append, hlast] using h

theorem endsSolid_block (ht : WellSorted P .block t) (level : Nat) :
    endsSolid (blockRope style src level t).text = true := by
  cases ht with
  | @block o ts =>
    cases ts with
    | nil =>
      have hempty : endsSolid "\x7b\x7d" = true := by decide
      exact hempty
    | cons => exact endsSolid_append (endsSolid_append (endsSolid_append rfl))

/-- A statement ends with a semicolon or with a block. -/
theorem endsSolid_statement (ht : WellSorted P .statement t) (level : Nat) :
    endsSolid (statementRope style src level t).text = true := by
  cases ht with
  | declare | assign | print | ret => exact endsSolid_append (endsSolid_append rfl)
  | ifThen _ hbody | whileDo _ hbody =>
    exact endsSolid_append (endsSolid_append (endsSolid_append (endsSolid_block hbody level)))
  | ifElse _ _ hother =>
    exact endsSolid_append (endsSolid_append (endsSolid_append (endsSolid_append (endsSolid_append
      (endsSolid_block hother level)))))
  | expression ht =>
    rw [statementRope_expression ht]
    exact endsSolid_append rfl

end Ends

section Braces

/-- What stands behind each opening brace. -/
def tails : List Char → List (List Char)
  | [] => []
  | c :: cs => if c = '\x7b' then cs :: tails cs else tails cs

theorem tails_append (cs ds : List Char) :
    tails (cs ++ ds) = (tails cs).map (· ++ ds) ++ tails ds := by
  induction cs with
  | nil => rfl
  | cons c cs ih =>
    rw [List.cons_append, tails, tails, ih]
    split <;> rfl

/-- A text without opening braces. -/
def isFlatChar (c : Char) : Bool := c ≠ '\x7b'

theorem isFlatChar_of_isIdentByte (c : Char) (_ : isPlain c = true)
    (h : isIdentByte (byteOf c) = true) : isFlatChar c = true := by
  refine decide_eq_true ?_
  rintro rfl
  cases h

theorem tails_flat {cs : List Char} (h : cs.all isFlatChar = true) : tails cs = [] := by
  induction cs with
  | nil => rfl
  | cons c cs ih =>
    simp only [List.all_cons, Bool.and_eq_true, isFlatChar, decide_eq_true_eq] at h
    rw [tails, if_neg h.1, ih h.2]

/-- The sequences of a tree, in the order of its text. -/
def blocks (t : Tree) : List Tree := inorder (fun t => if t.isForm .sequence then [t] else []) t

/-- Behind a brace the text goes on with that of the block. -/
def Opens (style : Style) (src : String) (t : Tree) (tail : List Char) : Prop :=
  WellSorted (0 ≤ ·) .block t ∧
  ∃ level rest, '\x7b' :: tail = (blockRope style src level t).text.toList ++ rest

theorem Opens.append {tail rest : List Char} (h : Opens style src t tail) :
    Opens style src t (tail ++ rest) := by
  obtain ⟨ht, level, behind, htail⟩ := h
  exact ⟨ht, level, behind ++ rest, by rw [← List.cons_append, htail, List.append_assoc]⟩

/-- The braces of the text open the blocks. -/
def Braced (style : Style) (src : String) (ts : List Tree) (s : String) : Prop :=
  List.Forall₂ (Opens style src) ts (tails s.toList)

theorem Braced.append {us : List Tree} (h : Braced style src ts s) (h' : Braced style src us s') :
    Braced style src (ts ++ us) (s ++ s') := by
  unfold Braced
  rw [String.toList_append, tails_append]
  refine List.rel_append ?_ h'
  rw [List.forall₂_map_right_iff]
  exact h.imp fun _ _ h => h.append

theorem braced_flat (h : s.toList.all isFlatChar = true) : Braced style src [] s := by
  rw [Braced, tails_flat h]
  exact .nil

theorem Braced.behind (h : s.toList.all isFlatChar = true) (h' : Braced style src ts s') :
    Braced style src ts (s ++ s') := (braced_flat h).append h'

theorem Braced.before (h : Braced style src ts s) (h' : s'.toList.all isFlatChar = true) :
    Braced style src ts (s ++ s') := by
  have hall := h.append (braced_flat h')
  rwa [List.append_nil] at hall

theorem blocks_form {f : Form} {o : Int} (hbinary : f.isBinary = false) (hf : f ≠ .sequence) :
    blocks (form f o ts) = ts.flatMap blocks := by
  refine (Editor.nesting ByteArray.empty).inorder_form ?_ hf
  cases f with
  | binary => cases hbinary
  | _ => rfl

theorem blocks_sequence {o : Int} :
    blocks (form .sequence o ts) = form .sequence o ts :: ts.flatMap blocks :=
  inorder_node (l := .form .sequence) rfl

theorem blocks_binary {op : BinaryOp} {o : Int} {a b : Tree} :
    blocks (binary op o a b) = blocks a ++ blocks b := by
  rw [blocks, inorder_binary, show (binary op o a b).isForm .sequence = false by cases op <;> rfl]
  simp [blocks]

theorem blocks_leaf (h : ∃ o x, t = ident o x) : blocks t = [] :=
  (Editor.nesting ByteArray.empty).inorder_leaf h

theorem blocks_leaves (h : ∀ t ∈ ts, ∃ o x, t = ident o x) : ts.flatMap blocks = [] :=
  List.flatMap_eq_nil_iff.mpr fun t ht => blocks_leaf (h t ht)

/-- In a function only the body has blocks. -/
theorem blocks_function {o o' : Int} {params sig : List Tree} {body : Tree}
    (hparams : ∀ x ∈ params, IsIdent x) (hsig : IsSignature params.length sig) :
    blocks (form .function o (form .parameters o' params :: body :: sig)) = blocks body := by
  have hnames : blocks (form .parameters o' params) = [] := by
    rw [blocks_form rfl (by decide), blocks_leaves fun t ht => (hparams t ht).leaf]
  have htags : sig.flatMap blocks = [] := by
    rcases hsig with rfl | ⟨i, tags, rfl, -, htags, -⟩
    · rfl
    · rw [List.flatMap_singleton, blocks_form rfl (by decide),
        blocks_leaves fun t ht => (htags t ht).leaf]
  rw [blocks_form rfl (by decide), List.flatMap_cons, List.flatMap_cons, hnames, htags,
    List.nil_append, List.append_nil]

theorem flat_of_isIdent (h : IsIdent t) : (leafName t).toList.all isFlatChar = true :=
  all_of_isIdent isFlatChar_of_isIdentByte h

/-- The braces of the text that is printed for a tree open its blocks. -/
def Outlined (style : Style) (src : String) : Role → Tree → Prop
  | .expression, t =>
    t.isAbsent = false ∧ ∀ level, Braced style src (blocks t) (spellRope style src level t).text
  | .statement, t => ∀ level, Braced style src (blocks t) (statementRope style src level t).text
  | .block, t => ∀ level, Braced style src (blocks t) (blockRope style src level t).text

theorem Outlined.expr (h : Outlined style src .expression t) (level k : Nat) :
    Braced style src (blocks t) (exprRope style src level k t).text := by
  rw [exprRope_eq h.1]
  split
  · exact ((h.2 level).behind (s := "(") rfl).before rfl
  · exact h.2 level

theorem braced_exprs (h : ∀ t ∈ ts, Outlined style src .expression t) (level : Nat) :
    Braced style src (ts.flatMap blocks) (exprsRope style src level ts).text := by
  induction ts with
  | nil => exact .nil
  | cons t ts ih =>
    rw [List.forall_mem_cons] at h
    cases ts with
    | nil =>
      rw [List.flatMap_singleton]
      exact h.1.expr level 0
    | cons u us => exact (h.1.expr level 0).append ((ih h.2).behind (s := ", ") rfl)

theorem flat_of_isBlankText (h : isBlankText s = true) : s.toList.all isFlatChar = true := by
  refine List.all_eq_true.mpr fun c hc => decide_eq_true ?_
  rintro rfl
  have hblank := List.all_eq_true.mp h _ hc
  cases hblank

theorem braced_statements (h : ∀ t ∈ ts, Outlined style src .statement t) (level : Nat)
    (first : Bool) :
    Braced style src (ts.flatMap blocks) (statementsRope style src level first ts).text := by
  induction ts generalizing first with
  | nil => exact .nil
  | cons t ts ih =>
    rw [List.forall_mem_cons] at h
    have hlines := (h.1 level).append ((ih h.2 false).behind (s := "\n") rfl)
    exact hlines.behind (flat_of_isBlankText (isBlankText_lead style _ level))

/-- The brace of a block comes before those of the blocks in it. -/
theorem Braced.brace (ht : WellSorted (0 ≤ ·) .block t)
    (hs : (blockRope style src level t).text = "\x7b" ++ s) (h : Braced style src ts s) :
    Braced style src (t :: ts) (blockRope style src level t).text := by
  have hchars : (blockRope style src level t).text.toList = '\x7b' :: s.toList := by
    rw [hs, String.toList_append]
    rfl
  rw [Braced, hchars]
  exact .cons ⟨ht, level, [], by rw [hchars, List.append_nil]⟩ h

theorem outlined_block {o : Int} (hts : ∀ t ∈ ts, WellSorted (0 ≤ ·) .statement t)
    (h : ∀ t ∈ ts, Outlined style src .statement t) :
    Outlined style src .block (form .sequence o ts) := by
  intro level
  rw [blocks_sequence]
  cases ts with
  | nil => exact (braced_flat (s := "\x7d") rfl).brace (.block hts) rfl
  | cons t ts =>
    have hindent : (indentation style level ++ "\x7d").toList.all isFlatChar = true := by
      rw [String.toList_append, List.all_append,
        flat_of_isBlankText (isBlankText_indentation level)]
      rfl
    have hbody := ((braced_statements h (level + 1) true).before hindent).behind (s := "\n") rfl
    refine hbody.brace (.block hts) ?_
    rw [← String.append_assoc]
    rfl

theorem outlined_of_wellSorted {role : Role} (h : WellSorted (0 ≤ ·) role t) :
    Outlined style src role t := by
  induction h with
  | int hw =>
    obtain ⟨-, hplain, hdigits, -⟩ := word_chars hw
    refine ⟨rfl, fun level => braced_flat (List.all_eq_true.mpr fun c hc => ?_)⟩
    exact isFlatChar_of_isIdentByte c (List.all_eq_true.mp hplain c hc)
      (by simp [isIdentByte, hdigits c hc])
  | lookup hx =>
    refine ⟨rfl, fun level => ?_⟩
    rw [blocks_form rfl (by decide), blocks_leaves (by simpa using hx.leaf)]
    exact braced_flat (flat_of_isIdent hx)
  | @binary op _ _ _ _ _ ihl ihr =>
    refine ⟨rfl, fun level => ?_⟩
    rw [blocks_binary]
    exact (ihl.expr level _).append ((ihr.expr level _).behind (by cases op <;> rfl))
  | not _ ih =>
    refine ⟨rfl, fun level => ?_⟩
    rw [blocks_form rfl (by decide), List.flatMap_singleton]
    exact (ih.expr level _).behind (s := "!") rfl
  | call _ _ ih ihs =>
    refine ⟨rfl, fun level => ?_⟩
    rw [blocks_form rfl (by decide), List.flatMap_cons, List.flatMap_singleton,
      blocks_form rfl (by decide)]
    exact (ih.expr level _).append (((braced_exprs ihs level).before rfl).behind (s := "(") rfl)
  | function hparams _ hsig ih =>
    refine ⟨rfl, fun level => ?_⟩
    obtain ⟨ys, v, hann, hheader⟩ := signatureText_annotates hparams hsig
    rw [blocks_function hparams hsig, spellRope_function,
      signature?_of_signatureText (hheader _ _ _)]
    refine (ih level).behind ?_
    rw [text_plain, String.toList_append, List.all_append,
      headerText_all isFlatChar_of_isIdentByte (by decide) hann]
    rfl
  | block hts ih => exact outlined_block hts ih
  | @declare o x value type hx _ htype _ ih =>
    intro level
    have hall : ∀ s ∈ ["var", "int", "func"], s.toList.all isFlatChar = true := by decide
    have hhead :
        (declaredType type ++ " " ++ leafName x ++ " = ").toList.all isFlatChar = true := by
      simp only [String.toList_append, List.all_append, flat_of_isIdent hx,
        hall _ (declaredType_mem htype)]
      rfl
    rw [blocks_form rfl (by decide), List.flatMap_cons, List.flatMap_cons, blocks_leaf hx.leaf,
      blocks_leaves fun t ht => (htype t ht).leaf, List.nil_append, List.append_nil]
    exact ((ih.expr level 0).before rfl).behind hhead
  | assign hx _ ih =>
    intro level
    have hplace {o : Int} {x : Tree} (hx : IsIdent x) : blocks (form .varLoc o [x]) = [] := by
      rw [blocks_form rfl (by decide), List.flatMap_singleton, blocks_leaf hx.leaf]
    have hhead {x : Tree} (hx : IsIdent x) :
        (leafName x ++ " = ").toList.all isFlatChar = true := by
      rw [String.toList_append, List.all_append, flat_of_isIdent hx]
      rfl
    rw [blocks_form rfl (by decide), List.flatMap_cons, List.flatMap_singleton, hplace hx,
      List.nil_append]
    exact ((ih.expr level 0).before rfl).behind (hhead hx)
  | print _ ih =>
    intro level
    rw [blocks_form rfl (by decide), List.flatMap_singleton]
    exact ((ih.expr level 0).before rfl).behind (s := "print ") rfl
  | ret _ ih =>
    intro level
    rw [blocks_form rfl (by decide), List.flatMap_singleton]
    exact ((ih.expr level 0).before rfl).behind (s := "ret ") rfl
  | ifThen _ _ ihc ihb =>
    intro level
    rw [blocks_form rfl (by decide), List.flatMap_cons, List.flatMap_singleton]
    exact ((ihc.expr level 0).append ((ihb level).behind (s := ") ") rfl)).behind (s := "if (") rfl
  | ifElse _ _ _ ihc ihb iha =>
    intro level
    rw [blocks_form rfl (by decide), List.flatMap_cons, List.flatMap_cons, List.flatMap_singleton]
    have hblocks := (ihb level).append ((iha level).behind (s := " else ") rfl)
    exact ((ihc.expr level 0).append (hblocks.behind (s := ") ") rfl)).behind (s := "if (") rfl
  | whileDo _ _ ihc ihb =>
    intro level
    rw [blocks_form rfl (by decide), List.flatMap_cons, List.flatMap_singleton]
    exact ((ihc.expr level 0).append ((ihb level).behind (s := ") ") rfl)).behind
      (s := "while (") rfl
  | expression ht ih =>
    intro level
    rw [statementRope_expression ht]
    exact (ih.2 level).before rfl

end Braces

end ClosureLang.Layout

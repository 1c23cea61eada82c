import ClosureLang.Proofs.Layout.Roundtrip

/-! The printer once more, with the parentheses that group operands told from those that belong to
calls, parameters and conditions. -/
namespace ClosureLang.Layout

open Grammar ClosureLang.Tree

/-- A text with its grouping parentheses marked. -/
inductive Rope where
  | plain (s : String)
  | append (a b : Rope)
  | group (r : Rope)
deriving DecidableEq

namespace Rope

instance : Append Rope := ⟨append⟩

def text : Rope → String
  | plain s => s
  | append a b => a.text ++ b.text
  | group r => "(" ++ r.text ++ ")"

/-- The rope becomes the other one when `n` of its pairs of grouping parentheses are deleted. -/
inductive Bared : Nat → Rope → Rope → Prop where
  | plain {s} : Bared 0 (plain s) (plain s)
  | append {m n a a' b b'} : Bared m a a' → Bared n b b' → Bared (m + n) (append a b) (append a' b')
  | kept {n r r'} : Bared n r r' → Bared n (group r) (group r')
  | deleted {n r r'} : Bared n r r' → Bared (n + 1) (group r) r'

@[simp] theorem text_plain {s : String} : (plain s).text = s := rfl

@[simp] theorem text_append {a b : Rope} : (a ++ b).text = a.text ++ b.text := rfl

@[simp] theorem text_group {r : Rope} : (group r).text = "(" ++ r.text ++ ")" := rfl

/-- Nothing but parentheses gets lost. -/
theorem Bared.sublist {n : Nat} {r r' : Rope} (h : Bared n r r') :
    r'.text.toList.Sublist r.text.toList := by
  induction h with
  | plain => exact List.Sublist.refl _
  | append _ _ iha ihb => simpa [text] using iha.append ihb
  | kept _ ih => simpa [text] using ih.append (List.Sublist.refl [')'])
  | deleted _ ih => simpa [text] using (ih.trans (List.sublist_append_left _ _)).cons _

end Rope

open Rope

mutual

/-- An expression, in parentheses if it binds less tightly than `least`. -/
def exprRope (style : Style) (src : String) (level least : Nat) : Tree → Rope
  | .absent => plain ""
  | .node label offset cs =>
    if strength (.node label offset cs) < least then
      group (operandsRope style src level label offset cs)
    else operandsRope style src level label offset cs

def operandsRope (style : Style) (src : String) (level : Nat) (label : Label) (offset : Int)
    (cs : List Tree) : Rope :=
  match label with
  | .integer value => plain (Decimal.wordText value)
  | .form .lookup => plain (leafName ((cs[0]?).getD .absent))
  | .form .not =>
    match cs with
    | [] => plain ""
    | c :: _ => plain "!" ++ exprRope style src level notStrength c
  | .form .call =>
    match cs with
    | callee :: .node _ _ args :: _ =>
      exprRope style src level primaryStrength callee ++
        (plain "(" ++ (exprsRope style src level args ++ plain ")"))
    | _ => plain ""
  | .form .function =>
    match cs with
    | _ :: body :: _ =>
      plain ((signature? (.node label offset cs)).getD "" ++ " ") ++ blockRope style src level body
    | _ => plain ""
  | .form (.binary op) =>
    match cs with
    | [lhs, rhs] =>
      exprRope style src level (operandStrengths op).1 lhs ++
        (plain (" " ++ op.symbol ++ " ") ++ exprRope style src level (operandStrengths op).2 rhs)
    | _ => plain ""
  | _ => plain ""

/-- Expressions with commas between them. -/
def exprsRope (style : Style) (src : String) (level : Nat) : List Tree → Rope
  | [] => plain ""
  | [t] => exprRope style src level 0 t
  | t :: ts => exprRope style src level 0 t ++ (plain ", " ++ exprsRope style src level ts)

def blockRope (style : Style) (src : String) (level : Nat) : Tree → Rope
  | .node (.form .sequence) _ [] => plain "\x7b\x7d"
  | .node (.form .sequence) _ (c :: cs) =>
    plain "\x7b\n" ++
      (statementsRope style src (level + 1) true (c :: cs) ++
        plain (indentation style level ++ "\x7d"))
  | _ => plain ""

def statementRope (style : Style) (src : String) (level : Nat) : Tree → Rope
  | .node (.form .declare) _ (x :: value :: type) =>
    plain (declaredType type ++ " " ++ leafName x ++ " = ") ++
      (exprRope style src level 0 value ++ plain ";")
  | .node (.form .assign) _ (.node _ _ [x] :: value :: _) =>
    plain (leafName x ++ " = ") ++ (exprRope style src level 0 value ++ plain ";")
  | .node (.form .print) _ (value :: _) =>
    plain "print " ++ (exprRope style src level 0 value ++ plain ";")
  | .node (.form .ret) _ (value :: _) =>
    plain "ret " ++ (exprRope style src level 0 value ++ plain ";")
  | .node (.form .ifThen) _ [cond, body] =>
    plain "if (" ++
      (exprRope style src level 0 cond ++ (plain ") " ++ blockRope style src level body))
  | .node (.form .whileDo) _ [cond, body] =>
    plain "while (" ++
      (exprRope style src level 0 cond ++ (plain ") " ++ blockRope style src level body))
  | .node (.form .ifElse) _ [cond, body, other] =>
    plain "if (" ++ (exprRope style src level 0 cond ++ (plain ") " ++
      (blockRope style src level body ++ (plain " else " ++ blockRope style src level other))))
  | .absent => plain ""
  | .node label offset cs => operandsRope style src level label offset cs ++ plain ";"

def statementsRope (style : Style) (src : String) (level : Nat) (first : Bool) : List Tree → Rope
  | [] => plain ""
  | t :: ts =>
    let blanks := if first then 0 else blankLinesBefore style src (t.offset?.getD 0) t
    plain (Text.repeated blanks '\n' ++ indentation style level) ++
      (statementRope style src level t ++ (plain "\n" ++ statementsRope style src level false ts))

end

/-- A program if the tree is a sequence, else an expression. -/
def renderRope (style : Style) (src : String) : Tree → Rope
  | .node (.form .sequence) _ cs => statementsRope style src 0 true cs
  | t => exprRope style src 0 0 t

variable {style : Style} {src : String} {level k : Nat} {t : Tree} {ts : List Tree}

/-- An expression without parentheses around it. -/
def spellRope (style : Style) (src : String) (level : Nat) : Tree → Rope
  | .absent => plain ""
  | .node label offset cs => operandsRope style src level label offset cs

theorem exprRope_eq (h : t.isAbsent = false) :
    exprRope style src level k t =
      if strength t < k then .group (spellRope style src level t)
      else spellRope style src level t := by
  cases t with
  | absent => cases h
  | node => rfl

theorem spellRope_binary {op : BinaryOp} {o : Int} {l r : Tree} :
    spellRope style src level (binary op o l r) =
    exprRope style src level (operandStrengths op).1 l ++
      (plain (" " ++ op.symbol ++ " ") ++ exprRope style src level (operandStrengths op).2 r) := rfl

theorem spellRope_call {o o' : Int} :
    spellRope style src level (form .call o [t, form .arguments o' ts]) =
    exprRope style src level primaryStrength t ++
      (plain "(" ++ (exprsRope style src level ts ++ plain ")")) := rfl

theorem spellRope_function {o : Int} {params body : Tree} :
    spellRope style src level (form .function o (params :: body :: ts)) =
      plain ((signature? (form .function o (params :: body :: ts))).getD "" ++ " ") ++
        blockRope style src level body := rfl

/-- The rope of a tree has the text that is printed for it. -/
def Roped (style : Style) (src : String) : Role → Tree → Prop
  | .expression, t =>
    t.isAbsent = false ∧ ∀ level, spell style src level t = .ok (spellRope style src level t).text
  | .statement, t =>
    ∀ level, statement style src level t = .ok (statementRope style src level t).text
  | .block, t => ∀ level, block style src level t = .ok (blockRope style src level t).text

theorem Roped.expr (h : Roped style src .expression t) (level k : Nat) :
    expr style src level k t = .ok (exprRope style src level k t).text := by
  rw [expr_of_spell (h.2 level), exprRope_eq h.1, parenthesizeIf]
  by_cases hk : strength t < k <;> simp [hk]

theorem roped_binary {op : BinaryOp} {o : Int} {l r : Tree} (hl : Roped style src .expression l)
    (hr : Roped style src .expression r) : Roped style src .expression (binary op o l r) := by
  refine ⟨rfl, fun level => ?_⟩
  rw [spellRope_binary, binary, form, spell, operands_binary, hl.expr, hr.expr]
  simp only [text_append, text_plain, String.append_assoc]
  rfl

theorem roped_not {o : Int} (h : Roped style src .expression t) :
    Roped style src .expression (form .not o [t]) := by
  refine ⟨rfl, fun level => ?_⟩
  rw [form, spell, operands_not, h.expr]
  rfl

theorem exprs_roped (h : ∀ t ∈ ts, Roped style src .expression t) (level : Nat) :
    exprs style src level ts = .ok (ts.map fun t => (exprRope style src level 0 t).text) := by
  induction ts with
  | nil => rfl
  | cons t ts ih =>
    rw [List.forall_mem_cons] at h
    rw [exprs_cons, h.1.expr, ih h.2]
    rfl

theorem text_exprsRope : (exprsRope style src level ts).text =
    Text.join ", " (ts.map fun t => (exprRope style src level 0 t).text) := by
  induction ts with
  | nil => rfl
  | cons t ts ih =>
    cases ts with
    | nil => rfl
    | cons u us =>
      rw [exprsRope, text_append, text_append, ih]
      · simp only [List.map_cons, join_cons, tailText, text_plain]
        rw [show ", " = "," ++ " " from rfl, String.append_assoc]
      · simp

theorem roped_call {o o' : Int} {callee : Tree} (hcallee : Roped style src .expression callee)
    (hargs : ∀ t ∈ ts, Roped style src .expression t) :
    Roped style src .expression (form .call o [callee, form .arguments o' ts]) := by
  refine ⟨rfl, fun level => ?_⟩
  rw [spellRope_call, form, form, spell, operands_call, hcallee.expr, exprs_roped hargs]
  simp only [text_append, text_plain, text_exprsRope, ← String.append_assoc]
  rfl

theorem signature?_of_signatureText {fn : Tree} {text : String} (h : signatureText fn = .ok text) :
    (signature? fn).getD "" = text := by
  unfold signatureText at h
  split at h
  · rename_i hsome
    cases h
    rw [hsome]
    rfl
  · cases h

theorem roped_function {o o' : Int} {params sig : List Tree} {body : Tree}
    (hparams : ∀ x ∈ params, IsIdent x) (hsig : IsSignature params.length sig)
    (hbody : Roped style src .block body) :
    Roped style src .expression (form .function o (form .parameters o' params :: body :: sig)) := by
  refine ⟨rfl, fun level => ?_⟩
  obtain ⟨ys, v, -, hheader⟩ := signatureText_annotates hparams hsig
  have hhead := hheader o o' body
  rw [spellRope_function, signature?_of_signatureText hhead, form, spell, operands_function, ← form,
    hhead, hbody]
  rfl

theorem roped_declare {o : Int} {x : Tree} {type : List Tree} (hx : IsIdent x)
    (h : Roped style src .expression t) (htype : ∀ t ∈ type, IsType t) (hlen : type.length ≤ 1) :
    Roped style src .statement (form .declare o (x :: t :: type)) := by
  intro level
  obtain ⟨i, name, rfl, -⟩ := hx
  match type with
  | [] =>
    rw [statement_declare, h.expr]
    simp only [statementRope, form, text_append, text_plain, ← String.append_assoc]
    rfl
  | [u] =>
    obtain ⟨j, y, rfl, -⟩ := htype u (by simp)
    rw [ident, ident, statement_declareTyped, h.expr]
    simp only [statementRope, form, text_append, text_plain, ← String.append_assoc]
    rfl

theorem roped_assign {o o' : Int} {x : Tree} (hx : IsIdent x) (h : Roped style src .expression t) :
    Roped style src .statement (form .assign o [form .varLoc o' [x], t]) := by
  intro level
  obtain ⟨i, name, rfl, -⟩ := hx
  rw [statement_assign, h.expr]
  simp only [statementRope, form, text_append, text_plain, ← String.append_assoc]
  rfl

theorem conditional_roped {cond body : Tree} (rest : List Tree)
    (hcond : Roped style src .expression cond) (hbody : Roped style src .block body) (level : Nat) :
    conditional style src level (cond :: body :: rest) =
      .ok (" (" ++ (exprRope style src level 0 cond).text ++ ") " ++
        (blockRope style src level body).text) := by
  rw [conditional_cons, hcond.expr, hbody]
  rfl

theorem statements_roped (h : ∀ t ∈ ts, Roped style src .statement t) (level : Nat) (first : Bool) :
    statements style src level first ts = .ok (statementsRope style src level first ts).text := by
  induction ts generalizing first with
  | nil => rfl
  | cons t ts ih =>
    rw [List.forall_mem_cons] at h
    rw [statements_cons, h.1 level, ih h.2]
    simp only [statementsRope, text_append, text_plain, ← String.append_assoc]
    rfl

theorem roped_block {o : Int} (h : ∀ t ∈ ts, Roped style src .statement t) :
    Roped style src .block (form .sequence o ts) := by
  intro level
  cases ts with
  | nil => rfl
  | cons t ts =>
    rw [block_cons, statements_roped h]
    simp only [blockRope, form, text_append, text_plain, ← String.append_assoc]
    rfl

theorem roped_expression {P : Int64 → Prop} (ht : WellSorted P .expression t)
    (h : Roped style src .expression t) : Roped style src .statement t := by
  intro level
  rw [statement_of_spell ht (h.2 level)]
  cases ht <;> rfl

theorem roped_of_inPlace {role : Role} (h : InPlace role t) : Roped style src role t := by
  induction h with
  | int => exact ⟨rfl, fun level => rfl⟩
  | lookup hx =>
    obtain ⟨i, name, rfl, -⟩ := hx
    exact ⟨rfl, fun level => rfl⟩
  | binary _ _ ihl ihr => exact roped_binary ihl ihr
  | not _ ih => exact roped_not ih
  | call _ _ ih ihs => exact roped_call ih ihs
  | function hparams _ hsig ih => exact roped_function hparams hsig ih
  | block _ ih => exact roped_block ih
  | declare hx _ htype hlen ih => exact roped_declare hx ih htype hlen
  | assign hx _ ih => exact roped_assign hx ih
  | print _ ih =>
    intro level
    rw [statement_print, ih.expr]
    simp only [statementRope, form, text_append, text_plain, ← String.append_assoc]
    rfl
  | ret _ ih =>
    intro level
    rw [statement_ret, ih.expr]
    simp only [statementRope, form, text_append, text_plain, ← String.append_assoc]
    rfl
  | ifThen _ _ ihc ihb =>
    intro level
    rw [statement_ifThen, conditional_roped [] ihc ihb]
    simp only [statementRope, form, text_append, text_plain, ← String.append_assoc]
    rfl
  | ifElse _ _ _ ihc ihb iha =>
    intro level
    rw [statement_ifElse, conditional_roped [_] ihc ihb, iha]
    simp only [statementRope, form, text_append, text_plain, ← String.append_assoc]
    rfl
  | whileDo _ _ ihc ihb =>
    intro level
    rw [statement_whileDo, conditional_roped [] ihc ihb]
    simp only [statementRope, form, text_append, text_plain, ← String.append_assoc]
    rfl
  | expression ht ih => exact roped_expression ht ih

/-- The text of a program is that of its rope. -/
theorem render_rope (style : Style) (origin : String) (h : parseProgram src = .ok t) :
    render style origin t = .ok (renderRope style origin t).text ∧
      isPlainText (renderRope style origin t).text = true := by
  have hsorted : WellSorted (0 ≤ ·) .block t := sorted_of_read (parseProgram_ok.mp h)
  cases hsorted with
  | @block o ts hts =>
    have hprinted : ∀ t ∈ ts, Printed style origin .statement t :=
      fun t ht => printed_of_wellSorted (hts t ht)
    have hroped : ∀ t ∈ ts, Roped style origin .statement t :=
      fun t ht => roped_of_inPlace (hts t ht).inPlace
    obtain ⟨text, htext, hplain, hlines, -⟩ := statements_printed hprinted 0 true
    have hrope := statements_roped hroped 0 true
    cases htext.symm.trans hrope
    refine ⟨?_, hplain⟩
    rw [form, render, htext]
    exact congrArg Except.ok (endLine_of_wholeLines hlines)

/-- The text of an expression is that of its rope. -/
theorem renderExpression_rope (style : Style) (origin : String) (h : parseExpression src = .ok t) :
    render style origin t = .ok (renderRope style origin t).text ∧
      isPlainText (renderRope style origin t).text = true := by
  have hsorted : WellSorted (0 ≤ ·) .expression t := sorted_of_read (parseExpression_ok.mp h)
  have hprinted : Printed style origin .expression t := printed_of_wellSorted hsorted
  obtain ⟨text, -, htext, hplain, -⟩ := hprinted.whole 0
  have hroped : Roped style origin .expression t := roped_of_inPlace hsorted.inPlace
  cases htext.symm.trans (hroped.expr 0 0)
  have hrender : render style origin t = expr style origin 0 0 t ∧
      renderRope style origin t = exprRope style origin 0 0 t := by
    cases hsorted <;> exact ⟨rfl, rfl⟩
  rw [hrender.1, hrender.2]
  exact ⟨htext, hplain⟩

end ClosureLang.Layout

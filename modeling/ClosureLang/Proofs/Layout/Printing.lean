import ClosureLang.Proofs.Layout.Statements

/-! Every tree of a program has a text, and the text is read back to the tree. -/
namespace ClosureLang.Layout

open Grammar ClosureLang.Tree

variable {style : Style} {src : String} {level k : Nat} {t : Tree} {text : String}

/-- The text of an expression without parentheses around it. -/
def spell (style : Style) (src : String) (level : Nat) : Tree → Except LayoutError String
  | .absent => .error (.unprintable .absent)
  | .node label offset cs => operands style src level label offset cs

section Operands

variable {o o' : Int} {u : Tree} {cs : List Tree}

theorem operands_integer {w : Int64} :
    operands style src level (.integer w) o [] = .ok (Decimal.wordText w) := rfl

theorem operands_lookup : operands style src level (.form .lookup) o [t] = nameOf t := rfl

theorem operands_not :
    operands style src level (.form .not) o (t :: cs) = (do
      return "!" ++ (← expr style src level notStrength t)) := rfl

theorem operands_call {label : Label} {args : List Tree} :
    operands style src level (.form .call) o (t :: .node label o' args :: cs) = (do
      let head ← expr style src level primaryStrength t
      return head ++ "(" ++ Text.join ", " (← exprs style src level args) ++ ")") := rfl

theorem operands_function :
    operands style src level (.form .function) o (t :: u :: cs) = (do
      let head ← signatureText (.node (.form .function) o (t :: u :: cs))
      return head ++ " " ++ (← block style src level u)) := rfl

theorem operands_binary {op : BinaryOp} :
    operands style src level (.form (.binary op)) o [t, u] = (do
      let left ← expr style src level (operandStrengths op).1 t
      let right ← expr style src level (operandStrengths op).2 u
      return left ++ " " ++ op.symbol ++ " " ++ right) := rfl

end Operands

section Equations

variable {o : Int} {x : Tree} {cs ts : List Tree}

theorem expr_node {label : Label} :
    expr style src level k (.node label o cs) = (do
      let text ← operands style src level label o cs
      return parenthesizeIf (strength (.node label o cs) < k) text) := rfl

theorem exprs_nil : exprs style src level [] = .ok [] := rfl

theorem exprs_cons :
    exprs style src level (t :: ts) = (do
      let text ← expr style src level 0 t
      return text :: (← exprs style src level ts)) := rfl

theorem statement_print :
    statement style src level (form .print o (t :: cs)) = (do
      return "print " ++ (← expr style src level 0 t) ++ ";") := rfl

theorem statement_ret :
    statement style src level (form .ret o (t :: cs)) = (do
      return "ret " ++ (← expr style src level 0 t) ++ ";") := rfl

theorem statement_assign {o' : Int} :
    statement style src level (form .assign o (form .varLoc o' [x] :: t :: cs)) = (do
      let name ← nameOf x
      return name ++ " = " ++ (← expr style src level 0 t) ++ ";") := rfl

theorem statement_declare :
    statement style src level (form .declare o [x, t]) = (do
      let name ← nameOf x
      return "var" ++ " " ++ name ++ " = " ++ (← expr style src level 0 t) ++ ";") := rfl

theorem statement_declareTyped {label : Label} {o' : Int} {ds : List Tree} :
    statement style src level (form .declare o (x :: t :: .node label o' ds :: cs)) = (do
      let type ← nameOf (.node label o' ds)
      let name ← nameOf x
      return type ++ " " ++ name ++ " = " ++ (← expr style src level 0 t) ++ ";") := rfl

theorem statement_ifThen :
    statement style src level (form .ifThen o cs) = (do
      return "if" ++ (← conditional style src level cs)) := rfl

theorem statement_whileDo :
    statement style src level (form .whileDo o cs) = (do
      return "while" ++ (← conditional style src level cs)) := rfl

theorem statement_ifElse {cond body other : Tree} :
    statement style src level (form .ifElse o (cond :: body :: other :: cs)) = (do
      let head ← conditional style src level (cond :: body :: other :: cs)
      return "if" ++ head ++ " else " ++ (← block style src level other)) := rfl

theorem conditional_cons {cond body : Tree} :
    conditional style src level (cond :: body :: cs) = (do
      let text ← expr style src level 0 cond
      return " (" ++ text ++ ") " ++ (← block style src level body)) := rfl

theorem block_nil : block style src level (form .sequence o []) = .ok "\x7b\x7d" := rfl

theorem block_cons :
    block style src level (form .sequence o (t :: ts)) = (do
      let text ← statements style src (level + 1) true (t :: ts)
      return "\x7b\n" ++ text ++ indentation style level ++ "\x7d") := rfl

theorem statements_nil {first : Bool} : statements style src level first [] = .ok "" := rfl

theorem statements_cons {first : Bool} :
    statements style src level first (t :: ts) = (do
      let text ← statement style src level t
      let blanks := if first then 0 else blankLinesBefore style src (t.offset?.getD 0) t
      let rest ← statements style src level false ts
      return Text.repeated blanks '\n' ++ indentation style level ++ text ++ "\n" ++ rest) := rfl

end Equations

theorem strength_bounds (t : Tree) : 1 ≤ strength t ∧ strength t ≤ 7 := by
  unfold strength
  split
  · rename_i op _ _
    cases op <;> decide
  · decide
  · split <;> decide
  · decide

theorem expr_of_spell (h : spell style src level t = .ok text) (least : Nat) :
    expr style src level least t = .ok (parenthesizeIf (strength t < least) text) := by
  cases t with
  | absent => contradiction
  | node label offset cs =>
    rw [expr_node, show operands style src level label offset cs = .ok text from h]
    rfl

/-- The text does not end in a line feed. -/
def endsLine (s : String) : Bool := s.toList.getLast?.any (· ≠ '\n')

theorem endsLine_append {s s' : String} (h : endsLine s' = true) : endsLine (s ++ s') = true := by
  unfold endsLine at h ⊢
  rw [String.toList_append]
  cases hlast : s'.toList.getLast? with
  | none => simp [hlast] at h
  | some c => simpa [List.getLast?_append, hlast] using h

theorem isSolid_append {s s' : String} (h : isSolid s = true) : isSolid (s ++ s') = true := by
  obtain ⟨c, cs, hcs⟩ := solid_cons h
  simpa [isSolid, hcs] using h

/-- A tree that has a text at every level, which is read back in its place. -/
def Printed (style : Style) (src : String) : Role → Tree → Prop
  | .expression, t => ∀ level, ∃ text, spell style src level t = .ok text ∧
      isPlainText text = true ∧ isSolid text = true ∧ Denotes (strength t) text t
  | .statement, t => ∀ level, ∃ text, statement style src level t = .ok text ∧
      isPlainText text = true ∧ endsLine text = true ∧ DenotesStatement text t
  | .block, t => ∀ level, ∃ text, block style src level t = .ok text ∧
      isPlainText text = true ∧ endsLine text = true ∧ DenotesBlock text t

/-- An expression as it stands in a place that asks for a strength. -/
theorem Printed.operand (h : Printed style src .expression t) (hk : 1 ≤ k ∧ k ≤ 7) (level : Nat) :
    ∃ text, expr style src level k t = .ok text ∧ isPlainText text = true ∧ isSolid text = true ∧
      Denotes k text t := by
  obtain ⟨text, htext, hplain, hsolid, hdenotes⟩ := h level
  refine ⟨_, expr_of_spell htext k, ?_, ?_, hdenotes.parenthesizeIf (strength_bounds t) hk⟩
  · unfold parenthesizeIf
    split
    · simp [hplain]
      decide
    · exact hplain
  · unfold parenthesizeIf
    split
    · exact isSolid_append (isSolid_append rfl)
    · exact hsolid

/-- An expression as it stands where every expression may. -/
theorem Printed.whole (h : Printed style src .expression t) (level : Nat) :
    ∃ text, spell style src level t = .ok text ∧ expr style src level 0 t = .ok text ∧
      isPlainText text = true ∧ isSolid text = true ∧ Denotes 1 text t := by
  obtain ⟨text, htext, hplain, hsolid, hdenotes⟩ := h level
  have hbounds := strength_bounds t
  exact ⟨text, htext, expr_of_spell htext 0, hplain, hsolid,
    hdenotes.of_le (Nat.le_refl 1) hbounds.1 hbounds.2⟩

theorem printed_int {o : Int} {w : Int64} (hw : 0 ≤ w) :
    Printed style src .expression (int o w) := by
  intro level
  obtain ⟨hsolid, hplain, -, -⟩ := word_chars hw
  have hstrength : strength (int o w) = 7 := by
    rw [int, strength, if_neg (Int64.not_lt.mpr hw)]
    rfl
  exact ⟨_, by rw [int, spell, operands_integer], hplain, hsolid, hstrength ▸ denotes_int hw⟩

theorem printed_lookup {o : Int} {x : Tree} (hx : IsIdent x) :
    Printed style src .expression (form .lookup o [x]) := by
  intro level
  obtain ⟨o', name, rfl, hname⟩ := hx
  obtain ⟨hsolid, hplain, -, -⟩ := name_chars hname
  exact ⟨name, by rw [form, spell, operands_lookup]; rfl, hplain, hsolid,
    denotes_lookup hname ⟨o', rfl⟩⟩

theorem printed_not {o : Int} (h : Printed style src .expression t) :
    Printed style src .expression (form .not o [t]) := by
  intro level
  obtain ⟨text, htext, hplain, -, hdenotes⟩ := h.operand (k := 3) (by decide) level
  refine ⟨"!" ++ text, ?_, by simp [hplain]; decide, isSolid_append rfl, hdenotes.not⟩
  rw [form, spell, operands_not, notStrength, htext]
  rfl

theorem printed_binary {op : BinaryOp} {o : Int} {l r : Tree} (hl : Printed style src .expression l)
    (hr : Printed style src .expression r) : Printed style src .expression (binary op o l r) := by
  intro level
  have hk : (1 ≤ (operandStrengths op).1 ∧ (operandStrengths op).1 ≤ 7) ∧
      1 ≤ (operandStrengths op).2 ∧ (operandStrengths op).2 ≤ 7 := by
    cases op <;> decide
  obtain ⟨left, hleft, hplainl, hsolid, hdenotesl⟩ := hl.operand hk.1 level
  obtain ⟨right, hright, hplainr, -, hdenotesr⟩ := hr.operand hk.2 level
  refine ⟨left ++ " " ++ op.symbol ++ " " ++ right, ?_, ?_, ?_, denotes_binary hdenotesl hdenotesr⟩
  · rw [binary, form, spell, operands_binary, hleft, hright]
    rfl
  · simp [hplainl, hplainr, (symbol_plain op).2]
    decide
  · exact isSolid_append (isSolid_append (isSolid_append (isSolid_append hsolid)))

/-- The characters of texts with commas between them. -/
theorem all_join {p : Char → Bool} (hcomma : ", ".toList.all p = true) {texts : List String}
    (h : ∀ s ∈ texts, s.toList.all p = true) : (Text.join ", " texts).toList.all p = true := by
  have htail : ∀ texts : List String, (∀ s ∈ texts, s.toList.all p = true) →
      (tailText texts).toList.all p = true := by
    intro texts h
    induction texts with
    | nil => rfl
    | cons s texts ih =>
      rw [tailText, show "," ++ (" " ++ (s ++ tailText texts)) = ", " ++ (s ++ tailText texts) by
          rw [← String.append_assoc]; rfl,
        String.toList_append, String.toList_append, List.all_append, List.all_append,
        hcomma, h s (by simp), ih fun s hs => h s (by simp [hs])]
      rfl
  cases texts with
  | nil => rfl
  | cons s texts =>
    rw [join_cons, String.toList_append, List.all_append, h s (by simp),
      htail texts fun s hs => h s (by simp [hs])]
    rfl

theorem isPlainText_join {texts : List String} (h : ∀ s ∈ texts, isPlainText s = true) :
    isPlainText (Text.join ", " texts) = true := all_join (by decide) h

theorem exprs_printed {args : List Tree} (h : ∀ t ∈ args, Printed style src .expression t)
    (level : Nat) :
    ∃ texts, exprs style src level args = .ok texts ∧ (∀ s ∈ texts, isPlainText s = true) ∧
      List.Forall₂ (Denotes 1) texts args := by
  induction args with
  | nil => exact ⟨[], exprs_nil, by simp, .nil⟩
  | cons t args ih =>
    obtain ⟨text, -, htext, hplain, -, hdenotes⟩ := (h t (by simp)).whole level
    obtain ⟨texts, htexts, hplains, hall⟩ := ih fun t ht => h t (by simp [ht])
    refine ⟨text :: texts, ?_, ?_, .cons hdenotes hall⟩
    · rw [exprs_cons, htext, htexts]
      rfl
    · intro s hs
      rcases List.mem_cons.mp hs with rfl | hs
      · exact hplain
      · exact hplains s hs

theorem printed_call {o o' : Int} {callee : Tree} {args : List Tree}
    (hcallee : Printed style src .expression callee)
    (hargs : ∀ t ∈ args, Printed style src .expression t) :
    Printed style src .expression (form .call o [callee, form .arguments o' args]) := by
  intro level
  obtain ⟨text, htext, hplain, hsolid, hdenotes⟩ := hcallee.operand (k := 7) (by decide) level
  obtain ⟨texts, htexts, hplains, hall⟩ := exprs_printed hargs level
  refine ⟨text ++ "(" ++ Text.join ", " texts ++ ")", ?_, ?_, ?_, hdenotes.call hall⟩
  · rw [form, form, spell, operands_call, primaryStrength, htext, htexts]
    rfl
  · simp [hplain, isPlainText_join hplains]
    decide
  · exact isSolid_append (isSolid_append (isSolid_append hsolid))

section Headers

variable {p : Char → Bool}
  (hword : ∀ c, isPlain c = true → isIdentByte (byteOf c) = true → p c = true)

include hword

/-- What holds of the characters of words holds of those of a name. -/
theorem all_of_isIdent (h : IsIdent t) : (leafName t).toList.all p = true := by
  obtain ⟨o, x, rfl, hx⟩ := h
  obtain ⟨-, hplain, hident, -⟩ := name_chars hx
  exact List.all_eq_true.mpr fun c hc => hword c (List.all_eq_true.mp hplain c hc) (hident c hc)

theorem all_of_isTag (h : IsTag t) : (leafName t).toList.all p = true := by
  have hall : ∀ s ∈ ["int", "func", genericType],
      s.toList.all (fun c => isPlain c && isIdentByte (byteOf c)) = true := by decide
  have hmem : leafName t ∈ ["int", "func", genericType] := by
    obtain ⟨o, x, rfl, rfl | rfl⟩ | ⟨o, rfl⟩ := h <;> simp [leafName, name?, ident]
  refine List.all_eq_true.mpr fun c hc => ?_
  have hchar := List.all_eq_true.mp (hall _ hmem) c hc
  rw [Bool.and_eq_true] at hchar
  exact hword c hchar.1 hchar.2

/-- The header of a function is made of words and a few marks. -/
theorem headerText_all (hmarks : "func(), -> ".toList.all p = true) {params sig : List Tree}
    {ys : List (Tree × Tree)} {v : Tree} (h : Annotates params sig ys v) :
    (headerText ys v).toList.all p = true := by
  have hmark {s : String} (hs : s.toList.all ("func(), -> ".toList.contains ·) = true) :
      s.toList.all p = true :=
    List.all_eq_true.mpr fun c hc =>
      List.all_eq_true.mp hmarks c (List.contains_iff_mem.mp (List.all_eq_true.mp hs c hc))
  have hresult : (resultText (leafName v)).toList.all p = true := by
    unfold resultText
    split
    · rfl
    · rw [String.toList_append, List.all_append, all_of_isTag hword h.result, hmark rfl]
      rfl
  have hparams :
      (Text.join ", " (ys.map fun y => paramText (leafName y.1) (leafName y.2))).toList.all
        p = true := by
    refine all_join (hmark rfl) fun s hs => ?_
    obtain ⟨y, hy, rfl⟩ := List.mem_map.mp hs
    obtain ⟨hname, htag⟩ := h.idents y hy
    unfold paramText
    split
    · exact all_of_isIdent hword hname
    · rw [String.toList_append, String.toList_append, List.all_append, List.all_append,
        all_of_isTag hword htag, all_of_isIdent hword hname, hmark rfl]
      rfl
  rw [headerText, String.toList_append, String.toList_append, String.toList_append, List.all_append,
    List.all_append, List.all_append, hparams, hresult, hmark rfl, hmark rfl]
  rfl

end Headers

theorem plain_of_isTag (h : IsTag t) : isPlainText (leafName t) = true :=
  all_of_isTag (fun _ hc _ => hc) h

theorem headerText_plain {params sig : List Tree} {ys : List (Tree × Tree)} {v : Tree}
    (h : Annotates params sig ys v) : isPlainText (headerText ys v) = true :=
  headerText_all (fun _ hc _ => hc) (by decide) h

theorem printed_function {o o' : Int} {params sig : List Tree} {body : Tree}
    (hparams : ∀ x ∈ params, IsIdent x) (hsig : IsSignature params.length sig)
    (hbody : Printed style src .block body) :
    Printed style src .expression
      (form .function o (form .parameters o' params :: body :: sig)) := by
  intro level
  obtain ⟨ys, v, hann, hheader⟩ := signatureText_annotates hparams hsig
  obtain ⟨text, htext, hplain, -, hdenotes⟩ := hbody level
  refine ⟨headerText ys v ++ " " ++ text, ?_, ?_, ?_, denotes_function hann hdenotes⟩
  · have hhead := hheader o o' body
    rw [form] at hhead
    rw [form, spell, operands_function, hhead, htext]
    rfl
  · rw [isPlainText_append, isPlainText_append, headerText_plain hann, hplain]
    rfl
  · refine isSolid_append (isSolid_append ?_)
    rw [headerText, String.append_assoc, String.append_assoc]
    exact isSolid_append rfl

theorem statement_of_spell {P : Int64 → Prop} (ht : WellSorted P .expression t)
    (h : spell style src level t = .ok text) : statement style src level t = .ok (text ++ ";") := by
  have hends :
      (spell style src level t >>= fun text => pure (text ++ ";")) = .ok (text ++ ";") := by
    rw [h]
    rfl
  cases ht <;> exact hends

theorem printed_expression {P : Int64 → Prop} (ht : WellSorted P .expression t)
    (h : Printed style src .expression t) : Printed style src .statement t := by
  intro level
  obtain ⟨text, hspell, -, hplain, -, hdenotes⟩ := h.whole level
  exact ⟨_, statement_of_spell ht hspell, by rw [isPlainText_append, hplain]; rfl,
    endsLine_append rfl, denotes_exprStatement hdenotes⟩

theorem printed_print {o : Int} (h : Printed style src .expression t) :
    Printed style src .statement (form .print o [t]) := by
  intro level
  obtain ⟨text, -, htext, hplain, -, hdenotes⟩ := h.whole level
  refine ⟨"print " ++ text ++ ";", ?_, ?_, endsLine_append rfl, denotes_print hdenotes⟩
  · rw [statement_print, htext]
    rfl
  · rw [isPlainText_append, isPlainText_append, hplain]
    rfl

theorem printed_ret {o : Int} (h : Printed style src .expression t) :
    Printed style src .statement (form .ret o [t]) := by
  intro level
  obtain ⟨text, -, htext, hplain, -, hdenotes⟩ := h.whole level
  refine ⟨"ret " ++ text ++ ";", ?_, ?_, endsLine_append rfl, denotes_ret hdenotes⟩
  · rw [statement_ret, htext]
    rfl
  · rw [isPlainText_append, isPlainText_append, hplain]
    rfl

theorem printed_assign {o o' : Int} {x : Tree} (hx : IsIdent x)
    (h : Printed style src .expression t) :
    Printed style src .statement (form .assign o [form .varLoc o' [x], t]) := by
  intro level
  obtain ⟨i, name, rfl, hname⟩ := hx
  obtain ⟨text, -, htext, hplain, -, hdenotes⟩ := h.whole level
  refine ⟨name ++ " = " ++ text ++ ";", ?_, ?_, endsLine_append rfl, denotes_assign hname hdenotes⟩
  · rw [statement_assign, htext]
    rfl
  · rw [isPlainText_append, isPlainText_append, isPlainText_append, hplain, (name_chars hname).2.1]
    rfl

theorem printed_declare {o : Int} {x : Tree} {type : List Tree} (hx : IsIdent x)
    (h : Printed style src .expression t) (htype : ∀ t ∈ type, IsType t) (hlen : type.length ≤ 1) :
    Printed style src .statement (form .declare o (x :: t :: type)) := by
  intro level
  obtain ⟨i, name, rfl, hname⟩ := hx
  obtain ⟨text, -, htext, hplain, -, hdenotes⟩ := h.whole level
  refine ⟨declaredType type ++ " " ++ name ++ " = " ++ text ++ ";", ?_, ?_, endsLine_append rfl,
    denotes_declare hname hdenotes htype hlen⟩
  · match type with
    | [] =>
      rw [statement_declare, htext]
      rfl
    | [u] =>
      obtain ⟨j, y, rfl, -⟩ := htype u (by simp)
      rw [ident, ident, statement_declareTyped, htext]
      rfl
  · have hdeclared : isPlainText (declaredType type) = true := by
      match type with
      | [] => rfl
      | [u] => exact plain_of_isTag (.inl (htype u (by simp)))
    simp [hdeclared, hplain, (name_chars hname).2.1]
    decide

section Conditionals

variable {cond body : Tree} {o : Int}

theorem conditional_printed (rest : List Tree) (hcond : Printed style src .expression cond)
    (hbody : Printed style src .block body) (level : Nat) :
    ∃ c b, conditional style src level (cond :: body :: rest) = .ok (" (" ++ c ++ ") " ++ b) ∧
      isPlainText (" (" ++ c ++ ") " ++ b) = true ∧ endsLine b = true ∧ Denotes 1 c cond ∧
        DenotesBlock b body := by
  obtain ⟨c, -, hc, hplainc, -, hdenotesc⟩ := hcond.whole level
  obtain ⟨b, hb, hplainb, hends, hdenotesb⟩ := hbody level
  refine ⟨c, b, ?_, ?_, hends, hdenotesc, hdenotesb⟩
  · rw [conditional_cons, hc, hb]
    rfl
  · rw [isPlainText_append, isPlainText_append, isPlainText_append, hplainc, hplainb]
    rfl

theorem printed_ifThen (hcond : Printed style src .expression cond)
    (hbody : Printed style src .block body) :
    Printed style src .statement (form .ifThen o [cond, body]) := by
  intro level
  obtain ⟨c, b, htext, hplain, hends, hc, hb⟩ := conditional_printed [] hcond hbody level
  refine ⟨_, ?_, ?_, ?_, denotes_ifThen hc hb⟩
  · rw [statement_ifThen, htext]
    rfl
  · rw [isPlainText_append, hplain]
    rfl
  · exact endsLine_append (endsLine_append hends)

theorem printed_whileDo (hcond : Printed style src .expression cond)
    (hbody : Printed style src .block body) :
    Printed style src .statement (form .whileDo o [cond, body]) := by
  intro level
  obtain ⟨c, b, htext, hplain, hends, hc, hb⟩ := conditional_printed [] hcond hbody level
  refine ⟨_, ?_, ?_, ?_, denotes_whileDo hc hb⟩
  · rw [statement_whileDo, htext]
    rfl
  · rw [isPlainText_append, hplain]
    rfl
  · exact endsLine_append (endsLine_append hends)

theorem printed_ifElse {other : Tree} (hcond : Printed style src .expression cond)
    (hbody : Printed style src .block body) (hother : Printed style src .block other) :
    Printed style src .statement (form .ifElse o [cond, body, other]) := by
  intro level
  obtain ⟨c, b, htext, hplain, -, hc, hb⟩ := conditional_printed [other] hcond hbody level
  obtain ⟨a, ha, hplaina, hends, hdenotes⟩ := hother level
  refine ⟨_, ?_, ?_, endsLine_append hends, denotes_ifElse hc hb hdenotes⟩
  · rw [statement_ifElse, htext, ha]
    rfl
  · rw [isPlainText_append, isPlainText_append, isPlainText_append, hplain, hplaina]
    rfl

end Conditionals

end ClosureLang.Layout

import ClosureLang.Proofs.Layout.Dues
import ClosureLang.Proofs.Layout.Groups

/-! Grouping parentheses are needed: a text without any of them tallies less than its tree is
due. -/
namespace ClosureLang.Layout

open Grammar ClosureLang.Tree Rope

variable {style : Style} {src : String} {level k n : Nat} {d e : Int} {s s' : String}
  {a b r r' : Rope} {t : Tree} {ts : List Tree} {P : Int64 → Prop}

section Texts

/-- The tally of a text, whether it stands behind a word or not. -/
def Tallies (s : String) (d : Int) : Prop := ∀ w, tally w (s.toList.map byteOf) = d

/-- A word cannot go on behind the text. -/
def Apart (s : String) : Prop := ∀ w, inWord w (s.toList.map byteOf) = false

instance : Decidable (Tallies s d) := inferInstanceAs (Decidable (∀ _, _))

instance : Decidable (Apart s) := inferInstanceAs (Decidable (∀ _, _))

theorem Tallies.append (h : Tallies s d) (h' : Tallies s' e) : Tallies (s ++ s') (d + e) := by
  intro w
  rw [String.toList_append, List.map_append, tally_append, h, h']

theorem Apart.append (h : Apart s') : Apart (s ++ s') := by
  intro w
  rw [String.toList_append, List.map_append, inWord_append, h]

theorem tally_word {bs : List UInt8} (h : ∀ b ∈ bs, isIdentByte b = true) : tally true bs = 0 := by
  induction bs with
  | nil => rfl
  | cons b bs ih =>
    rw [List.forall_mem_cons] at h
    have hopen : b ≠ 0x28 := by
      rintro rfl
      cases h.1
    rw [tally, h.1, ih h.2, worth, if_neg hopen, Bool.not_true, Bool.and_false]
    rfl

theorem tallies_name (h : IsName s) : Tallies s 0 := by
  obtain ⟨-, -, hword, c, cs, hcs, hc⟩ := name_chars h
  intro w
  have hdigit : isDigitByte (byteOf c) = false := by
    by_contra hdigit
    have hstart := (digit_byte (by simpa using hdigit)).2.2
    rw [hc] at hstart
    cases hstart
  rw [hcs] at hword ⊢
  rw [List.forall_mem_cons] at hword
  have hopen : byteOf c ≠ 0x28 := by
    intro h
    rw [h] at hword
    cases hword.1
  rw [List.map_cons, tally, hword.1, tally_word (List.forall_mem_map.mpr hword.2), worth,
    if_neg hopen, hdigit]
  rfl

/-- A literal is a number if it stands behind no word. -/
theorem tally_literal {w : Int64} (hw : 0 ≤ w) :
    tally false ((Decimal.wordText w).toList.map byteOf) = -1 := by
  obtain ⟨hsolid, -, hdigits, -⟩ := word_chars hw
  obtain ⟨c, cs, hcs⟩ := solid_cons hsolid
  rw [hcs] at hdigits ⊢
  rw [List.forall_mem_cons] at hdigits
  have hword : ∀ b, isDigitByte b = true → isIdentByte b = true :=
    fun b hb => by simp [isIdentByte, hb]
  have hrest := tally_word (List.forall_mem_map.mpr fun c hc => hword _ (hdigits.2 c hc))
  rw [List.map_cons, tally, hword _ hdigits.1, hrest, worth,
    if_neg (digit_byte hdigits.1).1, hdigits.1]
  rfl

theorem blank_byte {b : UInt8} (h : isBlankByte b = true) :
    isIdentByte b = false ∧ ∀ w, worth w b = 0 := by
  simp only [isBlankByte, Bool.or_eq_true, decide_eq_true_eq] at h
  obtain ((rfl | rfl) | rfl) | rfl := h <;> exact ⟨rfl, by decide⟩

theorem tallies_blank (h : isBlankText s = true) :
    Tallies s 0 ∧ inWord false (s.toList.map byteOf) = false := by
  have hblank : ∀ c ∈ s.toList, isBlankByte (byteOf c) = true := fun c hc =>
    (Bool.and_eq_true _ _ ▸ List.all_eq_true.mp h c hc).1
  rw [Tallies]
  generalize s.toList = cs at hblank
  induction cs with
  | nil => exact ⟨fun w => rfl, rfl⟩
  | cons c cs ih =>
    rw [List.forall_mem_cons] at hblank
    obtain ⟨hword, hworth⟩ := blank_byte hblank.1
    obtain ⟨htally, hin⟩ := ih hblank.2
    refine ⟨fun w => ?_, ?_⟩
    · rw [List.map_cons, tally, hworth, htally, Int.add_zero]
    · rw [List.map_cons, inWord, hword, hin]

theorem tallies_tag (h : IsTag t) : Tallies (leafName t) 0 := by
  have hall : ∀ s ∈ ["int", "func", genericType], ∀ w,
      tally w (s.toList.map byteOf) = 0 := by decide
  obtain ⟨o, x, rfl, rfl | rfl⟩ | ⟨o, rfl⟩ := h <;> exact hall _ (by simp [leafName, name?, ident])

theorem tallies_ident (h : IsIdent t) : Tallies (leafName t) 0 := by
  obtain ⟨o, x, rfl, hx⟩ := h
  exact tallies_name hx

theorem tallies_join {texts : List String} (h : ∀ s ∈ texts, Tallies s 0) :
    Tallies (Text.join ", " texts) 0 := by
  have htail : ∀ texts : List String, (∀ s ∈ texts, Tallies s 0) → Tallies (tailText texts) 0 := by
    intro texts h
    induction texts with
    | nil => exact fun w => rfl
    | cons s texts ih =>
      rw [List.forall_mem_cons] at h
      have hcomma : Tallies "," 0 := by decide
      have hblank : Tallies " " 0 := by decide
      exact hcomma.append (hblank.append (h.1.append (ih h.2)))
  cases texts with
  | nil => exact fun w => rfl
  | cons s texts =>
    rw [List.forall_mem_cons] at h
    rw [join_cons]
    exact h.1.append (htail texts h.2)

theorem tallies_header {params sig : List Tree} {ys : List (Tree × Tree)} {v : Tree}
    (h : Annotates params sig ys v) : Tallies (headerText ys v) 1 := by
  have hresult : Tallies (resultText (leafName v)) 0 := by
    have harrow : Tallies " -> " 0 := by decide
    unfold resultText
    split
    · exact fun w => rfl
    · exact harrow.append (tallies_tag h.result)
  have hparams :
      Tallies (Text.join ", " (ys.map fun y => paramText (leafName y.1) (leafName y.2))) 0 := by
    have hblank : Tallies " " 0 := by decide
    refine tallies_join (List.forall_mem_map.mpr fun y hy => ?_)
    obtain ⟨hname, htag⟩ := h.idents y hy
    unfold paramText
    split
    · exact tallies_ident hname
    · exact ((tallies_tag htag).append hblank).append (tallies_ident hname)
  have hopen : Tallies "func(" 1 := by decide
  have hclose : Tallies ")" 0 := by decide
  exact ((hopen.append hparams).append hclose).append hresult

end Texts

section Ropes

/-- The rope tallies `d`, and one less for each pair of grouping parentheses that is deleted. -/
def Weighs (r : Rope) (d : Int) : Prop :=
  ∀ n r', Bared n r r' → tally false (r'.text.toList.map byteOf) = d - n

/-- The rope may stand behind a word. -/
def Steady (r : Rope) (d : Int) : Prop := ∀ n r', Bared n r r' → Tallies r'.text (d - n)

theorem Steady.weighs (h : Steady r d) : Weighs r d := fun n r' hr => h n r' hr false

theorem steady_plain (h : Tallies s d) : Steady (plain s) d := by
  intro n r' hr
  cases hr
  simpa using h

theorem Weighs.append (ha : Weighs a d) (hb : Steady b e) : Weighs (a ++ b) (d + e) := by
  intro n r' hr
  cases hr with
  | @append m n a a' b b' hra hrb =>
    have hfront := ha _ _ hra
    have hback := hb _ _ hrb (inWord false (a'.text.toList.map byteOf))
    rw [text, String.toList_append, List.map_append, tally_append, hfront, hback]
    omega

/-- A rope with a text in front of it. -/
theorem Weighs.behind (hs : Tallies s d) (hend : inWord false (s.toList.map byteOf) = false)
    (hr : Weighs r e) : Weighs (plain s ++ r) (d + e) := by
  intro n r' hbared
  cases hbared with
  | append hs' hr' =>
    cases hs'
    rw [text, text, String.toList_append, List.map_append, tally_append, hs, hend, hr _ _ hr']
    omega

theorem Weighs.steady (hs : Tallies s d) (hend : Apart s) (hr : Weighs r e) :
    Steady (plain s ++ r) (d + e) := by
  intro n r' hbared w
  cases hbared with
  | append hs' hr' =>
    cases hs'
    rw [text, text, String.toList_append, List.map_append, tally_append, hs, hend, hr _ _ hr']
    omega

theorem Steady.append (ha : Steady a d) (hb : Steady b e) : Steady (a ++ b) (d + e) := by
  intro n r' hr
  cases hr with
  | @append m n a' b' _ _ hra hrb =>
    have hboth := (ha _ _ hra).append (hb _ _ hrb)
    rwa [show d - (m : Int) + (e - n) = d + e - (m + n : Nat) by omega] at hboth

theorem Weighs.group (h : Weighs r d) : Weighs (group r) (1 + d) := by
  intro n r' hbared
  cases hbared with
  | @kept n r r' hr =>
    have hopen : Tallies "(" 1 := by decide
    have hclose : Tallies ")" 0 := by decide
    have hparens :=
      (h.append (steady_plain hclose)).behind hopen rfl _ _ (.append .plain (.append hr .plain))
    simp only [text, ← String.append_assoc] at hparens ⊢
    rw [hparens]
    omega
  | deleted hr =>
    rw [h _ _ hr]
    omega

end Ropes

theorem due_eq (ht : WellSorted P .expression t) :
    due k t = (if strength t < k then 1 else 0) + due 0 t := by
  cases ht <;> simp only [int, form, binary, due, Nat.not_lt_zero, if_false] <;> omega

/-- The rope of a tree tallies what the tree is due. -/
def Weighed (style : Style) (src : String) : Role → Tree → Prop
  | .expression, t => ∀ level, Weighs (spellRope style src level t) (due 0 t)
  | .statement, t => ∀ level, Weighs (statementRope style src level t) (due 0 t)
  | .block, t => ∀ level, Steady (blockRope style src level t) (due 0 t)

theorem Weighed.expr (ht : WellSorted P .expression t) (h : Weighed style src .expression t)
    (level k : Nat) : Weighs (exprRope style src level k t) (due k t) := by
  have hpresent : t.isAbsent = false := by cases ht <;> rfl
  rw [exprRope_eq hpresent, due_eq ht]
  split
  · exact (h level).group
  · rw [Int.zero_add]
    exact h level

theorem weighed_int {o : Int} {w : Int64} (hw : 0 ≤ w) :
    Weighed style src .expression (int o w) := by
  intro level n r' hr
  cases hr
  rw [due_int hw (Nat.zero_le 7)]
  exact tally_literal hw

theorem weighed_lookup {o : Int} {x : Tree} (hx : IsIdent x) :
    Weighed style src .expression (form .lookup o [x]) := by
  intro level
  rw [due_parts (fun _ => rfl) (Nat.zero_le 7), due_leaves (by simpa using hx.leaf)]
  exact (steady_plain (tallies_ident hx)).weighs

theorem weighed_not {o : Int} (ht : WellSorted P .expression t)
    (h : Weighed style src .expression t) : Weighed style src .expression (form .not o [t]) := by
  intro level
  have hbang : Tallies "!" 0 := by decide
  rw [due_not (Nat.zero_le _), ← Int.zero_add (due _ _)]
  exact (h.expr ht level notStrength).behind hbang rfl

theorem weighed_binary {op : BinaryOp} {o : Int} {l r : Tree} (htl : WellSorted P .expression l)
    (hl : Weighed style src .expression l) (htr : WellSorted P .expression r)
    (hr : Weighed style src .expression r) :
    Weighed style src .expression (binary op o l r) := by
  intro level
  have hsign : Tallies (" " ++ op.symbol ++ " ") 0 := by cases op <;> decide
  have hend : Apart (" " ++ op.symbol ++ " ") := by cases op <;> decide
  have hback := (hr.expr htr level (operandStrengths op).2).steady hsign hend
  have hboth := (hl.expr htl level (operandStrengths op).1).append hback
  rw [due_binary, if_neg (Nat.not_lt_zero _), Int.zero_add]
  rwa [Int.zero_add] at hboth

theorem weighs_exprs (h : ∀ t ∈ ts, WellSorted P .expression t ∧ Weighed style src .expression t)
    (level : Nat) : Weighs (exprsRope style src level ts) (dueAll ts) := by
  have hcomma : Tallies ", " 0 := by decide
  have hend : Apart ", " := by decide
  induction ts with
  | nil => exact (steady_plain fun w => rfl).weighs
  | cons t ts ih =>
    rw [List.forall_mem_cons] at h
    obtain ⟨ht, hweighed⟩ := h.1
    cases ts with
    | nil =>
      rw [dueAll_singleton]
      exact hweighed.expr ht level 0
    | cons u us =>
      have hall := (hweighed.expr ht level 0).append ((ih h.2).steady hcomma hend)
      rwa [Int.zero_add] at hall

theorem weighed_call {o o' : Int} {callee : Tree} (htc : WellSorted P .expression callee)
    (hc : Weighed style src .expression callee)
    (hargs : ∀ t ∈ ts, WellSorted P .expression t ∧ Weighed style src .expression t) :
    Weighed style src .expression (form .call o [callee, form .arguments o' ts]) := by
  intro level
  have hopen : Tallies "(" 1 := by decide
  have hclose : Tallies ")" 0 := by decide
  have hend : Apart "(" := by decide
  have hargs := ((weighs_exprs hargs level).append (steady_plain hclose)).steady hopen hend
  have hall := (hc.expr htc level primaryStrength).append hargs
  rw [due_call (Nat.zero_le 7)]
  rwa [show due primaryStrength callee + (1 + (dueAll ts + 0)) =
    1 + due primaryStrength callee + dueAll ts by omega] at hall

theorem weighed_function {o o' : Int} {params sig : List Tree} {body : Tree}
    (hparams : ∀ x ∈ params, IsIdent x) (hsig : IsSignature params.length sig)
    (h : Weighed style src .block body) :
    Weighed style src .expression
      (form .function o (form .parameters o' params :: body :: sig)) := by
  intro level
  obtain ⟨ys, v, hann, hheader⟩ := signatureText_annotates hparams hsig
  have hblank : Tallies " " 0 := by decide
  have hend : Apart " " := by decide
  have htags : ∀ t ∈ sig, ∃ o tags, t = form .signature o tags ∧
      ∀ u ∈ tags, ∃ o x, u = ident o x := by
    rcases hsig with rfl | ⟨o, tags, rfl, -, htags, -⟩
    · exact List.forall_mem_nil _
    · intro t ht
      obtain rfl := List.mem_singleton.mp ht
      exact ⟨o, tags, rfl, fun u hu => (htags u hu).leaf⟩
  have hall := (h level).weighs.behind ((tallies_header hann).append hblank) (hend.append false)
  rw [due_function (fun t ht => (hparams t ht).leaf) htags (Nat.zero_le 7)]
  rw [Int.add_zero, ← signature?_of_signatureText (hheader o o' body)] at hall
  exact hall

theorem weighed_statements (h : ∀ t ∈ ts, Weighed style src .statement t) (level : Nat)
    (first : Bool) : Weighs (statementsRope style src level first ts) (dueAll ts) := by
  induction ts generalizing first with
  | nil => exact (steady_plain fun w => rfl).weighs
  | cons t ts ih =>
    rw [List.forall_mem_cons] at h
    have hfeed : Tallies "\n" 0 := by decide
    have hend : Apart "\n" := by decide
    have hblank := tallies_blank (isBlankText_lead style
      (if first then 0 else blankLinesBefore style src (t.offset?.getD 0) t) level)
    have hlines := (h.1 level).append ((ih h.2 false).steady hfeed hend)
    have hall := hlines.behind hblank.1 hblank.2
    rw [Int.zero_add, Int.zero_add] at hall
    exact hall

theorem weighed_block {o : Int} (h : ∀ t ∈ ts, Weighed style src .statement t) :
    Weighed style src .block (form .sequence o ts) := by
  intro level
  rw [due_parts (fun _ => rfl) (Nat.zero_le 7), show ownParens .sequence = 0 from rfl, Int.zero_add]
  cases ts with
  | nil =>
    have hempty : Tallies "\x7b\x7d" 0 := by decide
    exact steady_plain hempty
  | cons t ts =>
    have hopen : Tallies "\x7b\n" 0 := by decide
    have hend : Apart "\x7b\n" := by decide
    have hclose : Tallies "\x7d" 0 := by decide
    have hindent : Tallies (indentation style level) 0 :=
      (tallies_blank (isBlankText_indentation level)).1
    have hlines :=
      (weighed_statements h (level + 1) true).append (steady_plain (hindent.append hclose))
    have hall := hlines.steady hopen hend
    rw [Int.zero_add, Int.add_zero, Int.add_zero] at hall
    exact hall

/-- An expression up to the semicolon, behind a text. -/
theorem weighs_value (ht : WellSorted P .expression t) (h : Weighed style src .expression t)
    (level : Nat) (hs : Tallies s 0) (hend : Apart s) :
    Weighs (plain s ++ (exprRope style src level 0 t ++ plain ";")) (due 0 t) := by
  have hsemicolon : Tallies ";" 0 := by decide
  have hall := ((h.expr ht level 0).append (steady_plain hsemicolon)).behind hs (hend false)
  rwa [Int.zero_add, Int.add_zero] at hall

theorem weighed_declare {o : Int} {x : Tree} {type : List Tree} (hx : IsIdent x)
    (ht : WellSorted P .expression t) (h : Weighed style src .expression t)
    (htype : ∀ t ∈ type, IsType t) (hlen : type.length ≤ 1) :
    Weighed style src .statement (form .declare o (x :: t :: type)) := by
  intro level
  have hblank : Tallies " " 0 := by decide
  have hequals : Tallies " = " 0 := by decide
  have hend : Apart " = " := by decide
  have hdeclared : Tallies (declaredType type) 0 := by
    match type with
    | [] => exact (by decide : Tallies "var" 0)
    | [u] => exact tallies_tag (.inl (htype u (by simp)))
  rw [due_parts (fun _ => rfl) (Nat.zero_le 7), dueAll, dueAll,
    due_leaf hx.leaf, due_leaves fun u hu => (htype u hu).leaf, Int.add_zero, Int.zero_add,
    show ownParens .declare = 0 from rfl, Int.zero_add]
  exact weighs_value ht h level
    (((hdeclared.append hblank).append (tallies_ident hx)).append hequals) hend.append

theorem weighed_assign {o o' : Int} {x : Tree} (hx : IsIdent x) (ht : WellSorted P .expression t)
    (h : Weighed style src .expression t) :
    Weighed style src .statement (form .assign o [form .varLoc o' [x], t]) := by
  intro level
  have hequals : Tallies " = " 0 := by decide
  have hend : Apart " = " := by decide
  have hplace : due 0 (form .varLoc o' [x]) = 0 := by
    rw [due_parts (fun _ => rfl) (Nat.zero_le 7), due_leaves (by simpa using hx.leaf)]
    rfl
  rw [due_parts (fun _ => rfl) (Nat.zero_le 7), dueAll, dueAll_singleton,
    hplace, Int.zero_add, show ownParens .assign = 0 from rfl, Int.zero_add]
  exact weighs_value ht h level ((tallies_ident hx).append hequals) hend.append

section Conditionals

variable {cond body other : Tree} {o : Int} {g : Form}

theorem weighs_conditional (ht : WellSorted P .expression cond)
    (hc : Weighed style src .expression cond) (hs : Tallies s 1) (hend : Apart s) (hr : Steady r d)
    (level : Nat) :
    Weighs (plain s ++ (exprRope style src level 0 cond ++ (plain ") " ++ r)))
      (1 + (due 0 cond + d)) := by
  have hclose : Tallies ") " 0 := by decide
  have hparted : Apart ") " := by decide
  have hback := hr.weighs.steady hclose hparted
  rw [Int.zero_add] at hback
  exact ((hc.expr ht level 0).append hback).behind hs (hend false)

theorem due_guarded (hg : g = .ifThen ∨ g = .whileDo) :
    due 0 (form g o [cond, body]) = 1 + (due 0 cond + due 0 body) := by
  rcases hg with rfl | rfl <;> rw [due_parts (fun _ => rfl) (Nat.zero_le 7)] <;>
    simp [ownParens, dueAll]

theorem weighed_ifElse (ht : WellSorted P .expression cond)
    (hc : Weighed style src .expression cond) (hb : Weighed style src .block body)
    (ho : Weighed style src .block other) :
    Weighed style src .statement (form .ifElse o [cond, body, other]) := by
  intro level
  have hopen : Tallies "if (" 1 := by decide
  have hend : Apart "if (" := by decide
  have helse : Tallies " else " 0 := by decide
  have hparted : Apart " else " := by decide
  have hblocks : Steady
      (blockRope style src level body ++ (plain " else " ++ blockRope style src level other))
      (due 0 body + (0 + due 0 other)) := (hb level).append ((ho level).weighs.steady helse hparted)
  have hdue : due 0 (form .ifElse o [cond, body, other]) =
      1 + (due 0 cond + (due 0 body + (0 + due 0 other))) := by
    rw [due_parts (fun _ => rfl) (Nat.zero_le 7)]
    simp [ownParens, dueAll]
  rw [hdue]
  exact weighs_conditional ht hc hopen hend hblocks level

end Conditionals

theorem weighed_of_wellSorted {role : Role} (h : WellSorted (0 ≤ ·) role t) :
    Weighed style src role t := by
  induction h with
  | int hw => exact weighed_int hw
  | lookup hx => exact weighed_lookup hx
  | binary htl htr ihl ihr => exact weighed_binary htl ihl htr ihr
  | not ht ih => exact weighed_not ht ih
  | call htc hts ih ihs => exact weighed_call htc ih fun t ht => ⟨hts t ht, ihs t ht⟩
  | function hparams _ hsig ih => exact weighed_function hparams hsig ih
  | block _ ih => exact weighed_block ih
  | declare hx ht htype hlen ih => exact weighed_declare hx ht ih htype hlen
  | assign hx ht ih => exact weighed_assign hx ht ih
  | @print o t ht ih =>
    intro level
    have hprint : Tallies "print " 0 := by decide
    have hend : Apart "print " := by decide
    rw [due_parts (fun _ => rfl) (Nat.zero_le 7), dueAll_singleton,
      show ownParens .print = 0 from rfl, Int.zero_add]
    exact weighs_value ht ih level hprint hend
  | ret ht ih =>
    intro level
    have hret : Tallies "ret " 0 := by decide
    have hend : Apart "ret " := by decide
    rw [due_parts (fun _ => rfl) (Nat.zero_le 7), dueAll_singleton,
      show ownParens .ret = 0 from rfl, Int.zero_add]
    exact weighs_value ht ih level hret hend
  | ifThen ht _ ihc ihb =>
    intro level
    have hopen : Tallies "if (" 1 := by decide
    have hend : Apart "if (" := by decide
    rw [due_guarded (.inl rfl)]
    exact weighs_conditional ht ihc hopen hend (ihb level) level
  | ifElse ht _ _ ihc ihb iho => exact weighed_ifElse ht ihc ihb iho
  | whileDo ht _ ihc ihb =>
    intro level
    have hopen : Tallies "while (" 1 := by decide
    have hend : Apart "while (" := by decide
    rw [due_guarded (.inr rfl)]
    exact weighs_conditional ht ihc hopen hend (ihb level) level
  | expression ht ih =>
    intro level
    have hsemicolon : Tallies ";" 0 := by decide
    have hall := (ih level).append (steady_plain hsemicolon)
    rw [Int.add_zero] at hall
    cases ht <;> exact hall

section Deletion

theorem tallyTo_size (h : isPlainText s = true) :
    tallyTo s.toUTF8 s.utf8ByteSize = tally false (s.toList.map byteOf) := by
  have hlength : s.toUTF8.data.toList.length = s.utf8ByteSize := by simp
  rw [tallyTo, ← hlength, List.take_length, bytes_of_plain h]

/-- What is left when parentheses of a plain text are deleted is plain. -/
theorem plain_of_bared (h : Bared n r r') (hr : isPlainText r.text = true) :
    isPlainText r'.text = true :=
  List.all_eq_true.mpr fun c hc => List.all_eq_true.mp hr c (h.sublist.mem hc)

/-- A text that tallies less than a tree is due is not the text of a similar one. -/
theorem not_similar_of_tally {t' : Tree} {m : Nonterminal} (hplain : isPlainText s = true)
    (hderives : Derives s.toUTF8 (.one m t') 0 s.utf8ByteSize)
    (h : tally false (s.toList.map byteOf) < due 0 t) :
    similar t' t = false := by
  by_contra hsimilar
  have howes := owes_of_derives (clean_of_plain hplain) hderives
  have hmono := due_mono (Nat.zero_le (levelOf m)) t'
  rw [Owes, tallyTo_size hplain, show tallyTo s.toUTF8 0 = 0 from rfl, Int.sub_zero] at howes
  rw [due_of_similar (by simpa using hsimilar)] at hmono
  omega

end Deletion

/-- No grouping parentheses that are printed can be done without: a text with some of them deleted
is not read at all, or as another tree. -/
theorem parentheses_needed (style : Style) (src origin : String) (t : Tree) :
    (parseProgram src = .ok t → render style origin t = .ok (renderRope style origin t).text ∧
      ∀ n r, 0 < n → Bared n (renderRope style origin t) r → ∀ t', parseProgram r.text = .ok t' →
        similar t' t = false) ∧
    (parseExpression src = .ok t → render style origin t = .ok (renderRope style origin t).text ∧
      ∀ n r, 0 < n → Bared n (renderRope style origin t) r → ∀ t', parseExpression r.text = .ok t' →
        similar t' t = false) := by
  refine ⟨fun h => ?_, fun h => ?_⟩
  · obtain ⟨htext, hplain⟩ := render_rope style origin h
    refine ⟨htext, fun n r hn hr t' ht' => ?_⟩
    have hsorted : WellSorted (0 ≤ ·) .block t := sorted_of_read (parseProgram_ok.mp h)
    have hweighs : Weighs (renderRope style origin t) (due 0 t) := by
      cases hsorted with
      | block hts =>
        rw [due_parts (fun _ => rfl) (Nat.zero_le 7), show ownParens .sequence = 0 from rfl,
          Int.zero_add]
        exact weighed_statements (fun t ht => weighed_of_wellSorted (hts t ht)) 0 true
    refine not_similar_of_tally (plain_of_bared hr hplain) (derives_of_parseProgram ht') ?_
    rw [hweighs _ _ hr]
    omega
  · obtain ⟨htext, hplain⟩ := renderExpression_rope style origin h
    refine ⟨htext, fun n r hn hr t' ht' => ?_⟩
    have hsorted : WellSorted (0 ≤ ·) .expression t := sorted_of_read (parseExpression_ok.mp h)
    have hweighs : Weighs (renderRope style origin t) (due 0 t) := by
      have hrope : renderRope style origin t = exprRope style origin 0 0 t := by
        cases hsorted <;> rfl
      rw [hrope]
      exact (weighed_of_wellSorted hsorted).expr hsorted 0 0
    refine not_similar_of_tally (plain_of_bared hr hplain) (derives_of_parseExpression ht') ?_
    rw [hweighs _ _ hr]
    omega

/-- Without its parentheses the difference ends in a product. -/
theorem parentheses_needed_negation : ∃ t r t', parseExpression "(-x)*2" = .ok t ∧
    render {} "" t = .ok "(0 - x) * 2" ∧ Bared 1 (renderRope {} "" t) r ∧ r.text = "0 - x * 2" ∧
    parseExpression r.text = .ok t' ∧ similar t' t = false := by
  have hcheck : (parseExpression "(-x)*2").toOption.any (fun t => renderRope {} "" t =
      group (plain "0" ++ (plain " - " ++ plain "x")) ++ (plain " * " ++ plain "2")) = true := by
    decide +kernel
  have hparses : (parseExpression "0 - x * 2").toOption.isSome = true := by decide +kernel
  obtain ⟨t, hparse, hcheck⟩ := exists_ok_of_any hcheck
  obtain ⟨t', hparse'⟩ := exists_ok_of_isSome hparses
  have hcheck := of_decide_eq_true hcheck
  obtain ⟨htext, hneeded⟩ := (parentheses_needed {} "(-x)*2" "" t).2 hparse
  rw [hcheck] at htext hneeded
  have hbared : Bared (0 + (0 + 0) + 1 + (0 + 0))
      (group (plain "0" ++ (plain " - " ++ plain "x")) ++ (plain " * " ++ plain "2"))
      ((plain "0" ++ (plain " - " ++ plain "x")) ++ (plain " * " ++ plain "2")) :=
    .append (.deleted (.append .plain (.append .plain .plain))) (.append .plain .plain)
  have hshort : ((plain "0" ++ (plain " - " ++ plain "x")) ++ (plain " * " ++ plain "2")).text =
      "0 - x * 2" := by
    decide +kernel
  refine ⟨t, _, t', hparse, htext.trans (congrArg Except.ok (by decide +kernel)), ?_,
    hshort, ?_, ?_⟩
  · rw [hcheck]
    exact hbared
  · rw [hshort]
    exact hparse'
  · exact hneeded 1 _ Nat.one_pos hbared t' (by rw [hshort]; exact hparse')

end ClosureLang.Layout

import ClosureLang.Proofs.Grammar.Memoization
import ClosureLang.Proofs.Layout.Printing

/-! Formatting keeps a program: its text parses again, to the same tree up to offsets. -/
namespace ClosureLang.Layout

open Grammar ClosureLang.Tree

variable {style : Style} {src text : String} {ts : List Tree} {t : Tree}

@[simp] theorem isBlankText_append {s s' : String} :
    isBlankText (s ++ s') = (isBlankText s && isBlankText s') := by
  simp [isBlankText]

theorem isBlankText_repeated {n : Nat} {c : Char} (h : (isBlankChar c && isPlain c) = true) :
    isBlankText (Text.repeated n c) = true := by
  simp only [isBlankText, Text.repeated, String.toList_ofList, List.all_eq_true]
  intro d hd
  rw [(List.mem_replicate.mp hd).2]
  exact h

theorem isBlankText_indentation (level : Nat) : isBlankText (indentation style level) = true :=
  isBlankText_repeated (by decide)

/-- The blank lines and the indentation in front of a statement. -/
theorem isBlankText_lead (style : Style) (n level : Nat) :
    isBlankText (Text.repeated n '\n' ++ indentation style level) = true := by
  rw [isBlankText_append, isBlankText_repeated (by decide), isBlankText_indentation]
  rfl

theorem plain_of_isBlankText (h : isBlankText text = true) : isPlainText text = true := by
  refine List.all_eq_true.mpr fun c hc => ?_
  have := List.all_eq_true.mp h c hc
  simp only [Bool.and_eq_true] at this
  exact this.2

/-- A text of whole lines. -/
def WholeLines (text : String) : Prop := text = "" ∨ ∃ s, text = s ++ "\n" ∧ endsLine s = true

theorem WholeLines.cons {line texts : String} (hline : endsLine line = true)
    (h : WholeLines texts) : WholeLines (line ++ "\n" ++ texts) := by
  rcases h with rfl | ⟨s, rfl, hs⟩
  · exact .inr ⟨line, by rw [String.append_empty], hline⟩
  · exact .inr ⟨line ++ "\n" ++ s, by simp only [String.append_assoc], endsLine_append hs⟩

theorem statements_printed (h : ∀ t ∈ ts, Printed style src .statement t) (level : Nat)
    (first : Bool) :
    ∃ text, statements style src level first ts = .ok text ∧ isPlainText text = true ∧
      WholeLines text ∧ DenotesSequence text ts := by
  induction ts generalizing first with
  | nil => exact ⟨"", statements_nil, rfl, .inl rfl, denotes_nil⟩
  | cons t ts ih =>
    obtain ⟨line, hline, hplain, hends, hdenotes⟩ := h t (by simp) level
    obtain ⟨texts, htexts, hplains, hlines, hall⟩ := ih (fun t ht => h t (by simp [ht])) false
    refine ⟨_, by rw [statements_cons, hline, htexts]; rfl, ?_, ?_,
      hdenotes.cons (isBlankText_lead _ _ _) hall⟩
    · rw [isPlainText_append, isPlainText_append, isPlainText_append,
        plain_of_isBlankText (isBlankText_lead _ _ _), hplain, hplains]
      rfl
    · exact .cons (endsLine_append hends) hlines

theorem printed_block {o : Int} (h : ∀ t ∈ ts, Printed style src .statement t) :
    Printed style src .block (form .sequence o ts) := by
  intro level
  cases ts with
  | nil =>
    have hempty : DenotesBlock ("\x7b" ++ "" ++ "" ++ "" ++ "\x7d") (form .sequence o []) :=
      denotes_nil.block rfl rfl
    exact ⟨"\x7b\x7d", block_nil, by decide, by decide, hempty⟩
  | cons t ts =>
    obtain ⟨text, htext, hplain, -, hdenotes⟩ := statements_printed h (level + 1) true
    have hblock : DenotesBlock ("\x7b" ++ "\n" ++ text ++ indentation style level ++ "\x7d")
        (form .sequence o (t :: ts)) := hdenotes.block rfl (isBlankText_indentation level)
    refine ⟨"\x7b\n" ++ text ++ indentation style level ++ "\x7d", ?_, ?_,
      endsLine_append rfl, hblock⟩
    · rw [block_cons, htext]
      rfl
    · rw [isPlainText_append, isPlainText_append, isPlainText_append, hplain,
        plain_of_isBlankText (isBlankText_indentation level)]
      rfl

/-- Every tree in its place has a text that is read back. -/
theorem printed_of_wellSorted {role : Role} (h : WellSorted (0 ≤ ·) role t) :
    Printed style src role t := by
  induction h with
  | int hw => exact printed_int hw
  | lookup hx => exact printed_lookup hx
  | binary _ _ ihl ihr => exact printed_binary ihl ihr
  | not _ ih => exact printed_not ih
  | call _ _ ih ihs => exact printed_call ih ihs
  | function hparams _ hsig ih => exact printed_function hparams hsig ih
  | block _ ih => exact printed_block ih
  | declare hx _ htype hlen ih => exact printed_declare hx ih htype hlen
  | assign hx _ ih => exact printed_assign hx ih
  | print _ ih => exact printed_print ih
  | ret _ ih => exact printed_ret ih
  | ifThen _ _ ihc ihb => exact printed_ifThen ihc ihb
  | ifElse _ _ _ ihc ihb iha => exact printed_ifElse ihc ihb iha
  | whileDo _ _ ihc ihb => exact printed_whileDo ihc ihb
  | expression ht ih => exact printed_expression ht ih

theorem endLine_of_wholeLines (h : WholeLines text) : endLine text = text := by
  rcases h with rfl | ⟨s, rfl, hs⟩
  · rfl
  · obtain ⟨c, cs, hcs⟩ : ∃ c cs, s.toList.reverse = c :: cs := by
      cases hcs : s.toList.reverse with
      | nil => simp [endsLine, List.reverse_eq_nil_iff.mp hcs] at hs
      | cons c cs => exact ⟨c, cs, rfl⟩
    have hc : c ≠ '\n' := by
      rw [endsLine, List.getLast?_eq_head?_reverse, hcs] at hs
      simpa using hs
    have htrim : Text.trimRightBy (· = '\n') (s ++ "\n") = s := by
      have hrev : (s ++ "\n").toList.reverse = '\n' :: c :: cs := by simp [hcs]
      rw [Text.trimRightBy, hrev, List.dropWhile_cons_of_pos (by simp),
        List.dropWhile_cons_of_neg (by simpa using hc), ← hcs, List.reverse_reverse,
        String.ofList_toList]
    rw [endLine, if_neg (by simp), htrim]

/-- The text of a program is a program with the same tree up to offsets. -/
theorem render_program (style : Style) (origin : String) (h : parseProgram src = .ok t) :
    ∃ text t', render style origin t = .ok text ∧ parseProgram text = .ok t' ∧
      similar t' t = true := by
  have hsorted : WellSorted (0 ≤ ·) .block t := sorted_of_read (parseProgram_ok.mp h)
  cases hsorted with
  | @block o ts hts =>
    have hprinted : ∀ t ∈ ts, Printed style origin .statement t :=
      fun t ht => printed_of_wellSorted (hts t ht)
    obtain ⟨text, htext, hplain, hlines, hdenotes⟩ := statements_printed hprinted 0 true
    have hstart : Ahead text.toUTF8 (layoutEnd text.toUTF8 0) (text ++ "") := by
      rw [String.append_empty]
      exact ahead_start hplain
    have hclosed : Closes text.toUTF8 "" := closes_of_next fun c hc => by simp [trimmed] at hc
    obtain ⟨ts', q, hsims, hq, hread⟩ := hdenotes.read_program hclosed (Nat.zero_le _) hstart
    rw [hq.at_end] at hread
    refine ⟨text, form .sequence 0 ts', ?_, parseProgram_ok.mpr hread, by simp [hsims]⟩
    rw [form, render, htext]
    exact congrArg Except.ok (endLine_of_wholeLines hlines)

/-- The text of an expression is an expression with the same tree up to offsets. -/
theorem render_expression (style : Style) (origin : String) (h : parseExpression src = .ok t) :
    ∃ text t', render style origin t = .ok text ∧ parseExpression text = .ok t' ∧
      similar t' t = true := by
  have hsorted : WellSorted (0 ≤ ·) .expression t := sorted_of_read (parseExpression_ok.mp h)
  have hprinted : Printed style origin .expression t := printed_of_wellSorted hsorted
  obtain ⟨text, -, htext, hplain, hsolid, hdenotes⟩ := hprinted.whole 0
  have hstart : Ahead text.toUTF8 0 (text ++ "") := by
    rw [String.append_empty]
    exact ahead_solid hplain hsolid
  obtain ⟨t', q, hsim, hq, hread⟩ := hdenotes.read_expr stops_empty hstart
  rw [hq.at_end] at hread
  have hrender : render style origin t = expr style origin 0 0 t := by cases hsorted <;> rfl
  exact ⟨text, t', hrender.trans htext, parseExpression_ok.mpr hread, hsim⟩

/-- Formatting a program gives a program with the same tree up to offsets, and so does the text of a
tree that was read as a program or as an expression. -/
theorem format_reads_back (style : Style) (src : String) (t : Tree) :
    (parseProgram src = .ok t →
      ∃ text t', format style src = .ok text ∧ parseProgram text = .ok t' ∧ similar t' t = true) ∧
    (parseProgram src = .ok t → ∀ origin,
      ∃ text t', render style origin t = .ok text ∧ parseProgram text = .ok t' ∧
        similar t' t = true) ∧
    (parseExpression src = .ok t → ∀ origin,
      ∃ text t', render style origin t = .ok text ∧ parseExpression text = .ok t' ∧
        similar t' t = true) := by
  refine ⟨fun h => ?_, fun h origin => render_program style origin h,
    fun h origin => render_expression style origin h⟩
  obtain ⟨text, t', htext, hparse, hsim⟩ := render_program style src h
  refine ⟨text, t', ?_, hparse, hsim⟩
  rw [format, h]
  simp only [htext]
  rfl

theorem format_reads_back_negation :
    ∃ t t', parseProgram "print(-x)*2;" = .ok t ∧
      parseProgram "print (0 - x) * 2;\n" = .ok t' ∧ similar t' t = true := by
  have hparses : (parseProgram "print(-x)*2;").toOption.isSome = true := by decide +kernel
  have htext : (format {} "print(-x)*2;").toOption = some "print (0 - x) * 2;\n" := by
    decide +kernel
  obtain ⟨t, ht⟩ := exists_ok_of_isSome hparses
  obtain ⟨text, t', hformat, hparse, hsim⟩ := (format_reads_back {} "print(-x)*2;" t).1 ht
  rw [hformat] at htext
  obtain rfl : text = "print (0 - x) * 2;\n" := Option.some.inj htext
  exact ⟨t, t', ht, hparse, hsim⟩

end ClosureLang.Layout

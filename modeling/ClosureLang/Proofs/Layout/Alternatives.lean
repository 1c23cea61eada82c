import ClosureLang.Proofs.Layout.Levels

/-! Where a statement of one kind is read, no kind that is tried before it is. -/
namespace ClosureLang.Layout

open Grammar Peg ClosureLang.Tree

variable {src : ByteArray} {p q : Nat} {t : Tree} {s : String}

theorem read_declare_none (hp : p ≤ src.size) (hvar : wordAt src "var" p = none)
    (htype : typeAt src p = none) : read src .declare p = none := by
  simp [read_declare hp, declareHeadAt, hvar, htype]

theorem read_assign_none (hp : p ≤ src.size) (h : identAt src p = none) :
    read src .assign p = none := by
  simp [read_assign hp, h]

theorem typeAt_none (hint : wordAt src "int" p = none) (hfunc : wordAt src "func" p = none) :
    typeAt src p = none := by
  simp [typeAt, hint, hfunc]

/-- The statements that start with no type and no identifier. -/
theorem read_statement_keyword {m : Nat × Nat} (hp : p ≤ src.size) (h : wordAt src s p = some m)
    (hs : isReserved s = true) (hvar : s ≠ "var") (hint : s ≠ "int") (hfunc : s ≠ "func") :
    read src .statement p =
      (read src .print p).or ((read src .ifElse p).or ((read src .ifThen p).or
        ((read src .whileDo p).or ((read src .ret p).or (read src .exprStatement p))))) := by
  have hdeclare : read src .declare p = none :=
    read_declare_none hp (wordAt_of_wordAt h hs rfl hvar)
      (typeAt_none (wordAt_of_wordAt h hs rfl hint) (wordAt_of_wordAt h hs rfl hfunc))
  rw [read_statement hp, hdeclare, read_assign_none hp (identAt_of_wordAt h hs)]
  rfl

theorem read_print_none (hp : p ≤ src.size) (h : wordAt src "print" p = none) :
    read src .print p = none := by
  simp [read_print hp, h]

theorem read_ret_none (hp : p ≤ src.size) (h : wordAt src "ret" p = none) :
    read src .ret p = none := by
  simp [read_ret hp, h]

theorem read_ifElse_none (hp : p ≤ src.size) (h : wordAt src "if" p = none) :
    read src .ifElse p = none := by
  simp [read_ifElse hp, h]

theorem read_ifThen_none (hp : p ≤ src.size) (h : wordAt src "if" p = none) :
    read src .ifThen p = none := by
  simp [read_ifThen hp, h]

theorem read_whileDo_none (hp : p ≤ src.size) (h : wordAt src "while" p = none) :
    read src .whileDo p = none := by
  simp [read_whileDo hp, h]

theorem reserved_start (hs : isReserved s = true) :
    ∃ c cs, s.toList = c :: cs ∧ isIdentStart (byteOf c) = true := by
  have hall : ∀ s ∈ keywords,
      s.toList.head?.any (fun c => isIdentStart (byteOf c)) = true := by decide
  have h := hall s (by simpa [isReserved] using hs)
  cases hcs : s.toList with
  | nil => simp [hcs] at h
  | cons c cs => exact ⟨c, cs, rfl, by simpa [hcs] using h⟩

section Word

variable {m : Nat × Nat} (hp : p ≤ src.size) (h : wordAt src s p = some m)
  (hs : isReserved s = true)

include h hs

theorem byte_of_wordAt : ∃ b, src[layoutEnd src p]? = some b ∧ isIdentStart b = true := by
  obtain ⟨start, stop⟩ := m
  obtain ⟨⟨hh, -⟩, hstart, -⟩ := wordAt_some h
  obtain ⟨c, cs, hcs, hc⟩ := reserved_start hs
  rw [hcs, hstart] at hh
  exact ⟨_, holds_head hh, hc⟩

include hp

/-- A primary expression that starts with a reserved word is a function. -/
theorem read_primary_word : read src .primary p = read src .function p := by
  obtain ⟨b, hb, hstart⟩ := byte_of_wordAt h hs
  obtain ⟨hparen, -, -, hdigit⟩ := start_byte hstart
  have hlit : litAt src "(" p = none :=
    litAt_none rfl (by rw [hb]; exact fun he => hparen (Option.some.inj he))
  have hinteger : integerAt src p = none := by
    rw [integerAt, word?_asciiText, if_neg (by simp [hb, hdigit])]
    rfl
  rw [read_primary hp, eval_map, eval_parens, hlit, identAt_of_wordAt h hs, hinteger]
  simp

theorem read_expr_word (hfunction : read src .function p = none) : read src .expr p = none := by
  obtain ⟨b, hb, hstart⟩ := byte_of_wordAt h hs
  obtain ⟨-, hminus, hbang, -⟩ := start_byte hstart
  refine read_expr_none hp ?_ ?_ ?_
  · rw [read_primary_word hp h hs, hfunction]
  · exact litAt_none rfl (by rw [hb]; exact fun he => hminus (Option.some.inj he))
  · exact litAt_none rfl (by rw [hb]; exact fun he => hbang (Option.some.inj he))

end Word

/-- No expression starts with a reserved word other than that of functions. -/
theorem wordAt_of_expr {m : Tree × Nat} (hp : p ≤ src.size) (h : read src .expr p = some m)
    (hs : isReserved s = true) (hne : s ≠ "func") : wordAt src s p = none := by
  rcases hw : wordAt src s p with _ | w
  · rfl
  · have hfunction : read src .function p = none := by
      rw [read_function hp, wordAt_of_wordAt hw hs rfl hne]
      rfl
    rw [read_expr_word hp hw hs hfunction] at h
    contradiction

/-- A function has no name behind its first word. -/
theorem read_declare_of_expr {m : Tree × Nat} (hp : p ≤ src.size) (h : read src .expr p = some m) :
    read src .declare p = none := by
  have hvar : wordAt src "var" p = none := wordAt_of_expr hp h rfl (by decide)
  have hint : wordAt src "int" p = none := wordAt_of_expr hp h rfl (by decide)
  rcases hfunc : wordAt src "func" p with _ | ⟨start, stop⟩
  · exact read_declare_none hp hvar (typeAt_none hint hfunc)
  · have hparen : (litAt src "(" stop).isSome = true := by
      rcases hlit : litAt src "(" stop with _ | _
      · have hfunction : read src .function p = none := by simp [read_function hp, hfunc, hlit]
        rw [read_expr_word hp hfunc rfl hfunction] at h
        contradiction
      · rfl
    obtain ⟨⟨a, b⟩, hl⟩ := Option.isSome_iff_exists.mp hparen
    obtain ⟨hh, hstart, -⟩ := litAt_some hl
    have hident : identAt src stop = none := by
      have hbyte : src[layoutEnd src stop]? = some 40 := by rw [← hstart]; exact holds_head hh
      have : isIdentStart 40 = false := rfl
      simp [identAt, hbyte, this]
    simp [read_declare hp, declareHeadAt, typeAt, hvar, hint, hfunc, hident]

theorem comparison_of_assign {a b : Nat} (h : litAt src "=" p = some (a, b))
    (hpeek : peek src (a + 1) '=' = false) :
    operatorAt src [.le, .ge, .eq, .ne, .lt, .gt] p = none := by
  obtain ⟨hh, rfl, -⟩ := litAt_some h
  have hbyte : src[layoutEnd src p]? = some 61 := holds_head hh
  have heq : litAt src "==" p = none := by
    rw [litAt, if_neg]
    intro hh'
    have : holds src (layoutEnd src p) ['=', '='] = true := hh'
    rw [holds, Bool.and_eq_true] at this
    rw [peek, this.2] at hpeek
    contradiction
  have hnone {s : String} {c : Char} {cs : List Char} (hs : s.toList = c :: cs)
      (hc : byteOf c ≠ 61) : litAt src s p = none :=
    litAt_none hs (by rw [hbyte]; exact fun he => hc (Option.some.inj he).symm)
  simp only [operatorAt, BinaryOp.symbol, heq]
  rw [hnone (s := "<=") rfl (by decide), hnone (s := ">=") rfl (by decide),
    hnone (s := "!=") rfl (by decide), hnone (s := "<") rfl (by decide),
    hnone (s := ">") rfl (by decide)]
  rfl

/-- An identifier in front of a single equals sign is an expression of its own. -/
theorem read_expr_of_assign {x : Tree} {a b : Nat} (hp : p ≤ src.size)
    (hident : identAt src p = some (x, q)) (hlit : litAt src "=" q = some (a, b))
    (hpeek : peek src (a + 1) '=' = false) :
    read src .expr p = some (form .lookup (x.offset?.getD 0) [x], q) := by
  have hbyte : src[layoutEnd src q]? = some 61 := by
    obtain ⟨hh, rfl, -⟩ := litAt_some hlit
    exact holds_head hh
  have hopens : ∀ b, src[layoutEnd src q]? = some b → opens b = 4 := by
    intro b hb
    rw [hbyte] at hb
    obtain rfl := Option.some.inj hb
    rfl
  have hstop {t : Tree} {operand : Nonterminal} {ops : List BinaryOp}
      (hops : ∀ op ∈ ops, opStrength op ≠ 4) : operationsAt src operand ops t q = (t, q) :=
    operationsAt_stop
      (operatorAt_none fun b hb op hop he => hops op hop (by rw [← he, hopens b hb]))
  have hcall : read src .call p = some (form .lookup (x.offset?.getD 0) [x], q) := by
    rw [read_call hp, read_primary_ident hp hident]
    exact congrArg some (callsAt_stop fun b hb => by rw [hopens b hb]; decide)
  have hmul := read_leftAssoc (n := .mul) rfl hp (read_unary_of_call hp hcall)
  rw [hstop (by decide)] at hmul
  have hadd := read_leftAssoc (n := .add) rfl hp hmul
  rw [hstop (by decide)] at hadd
  have hcompare : read src .compare p = some (form .lookup (x.offset?.getD 0) [x], q) := by
    simp [read_compare hp, hadd, operationAt, comparison_of_assign hlit hpeek]
  have hand := read_leftAssoc (n := .and) rfl hp (read_not_of_compare hp hcompare)
  rw [hstop (by decide)] at hand
  have hexpr := read_leftAssoc (n := .expr) rfl hp hand
  rwa [hstop (by decide)] at hexpr

theorem read_assign_of_expr {a b : Nat} (hp : p ≤ src.size) (h : read src .expr p = some (t, q))
    (hsemi : litAt src ";" q = some (a, b)) : read src .assign p = none := by
  rcases hident : identAt src p with _ | ⟨x, q₁⟩
  · exact read_assign_none hp hident
  rcases hlit : litAt src "=" q₁ with _ | ⟨a₁, b₁⟩
  · simp [read_assign hp, hident, hlit]
  have hq₁ := (identAt_fits hident hp).2
  cases hpeek : peek src (a₁ + 1) '=' with
  | true =>
    obtain ⟨hb₁, hbyte⟩ := next_of_peek hq₁ rfl hlit hpeek (by decide)
    have hnone : read src .expr b₁ = none :=
      read_expr_none hb₁ (read_primary_none hb₁ (by rw [hbyte]; rfl))
        (litAt_none rfl (by rw [hbyte]; decide)) (litAt_none rfl (by rw [hbyte]; decide))
    simp [read_assign hp, hident, hlit, hnone]
  | false =>
    rw [read_expr_of_assign hp hident hlit hpeek] at h
    obtain ⟨-, rfl⟩ := Prod.mk.inj (Option.some.inj h)
    obtain ⟨hh, rfl, -⟩ := litAt_some hsemi
    obtain ⟨hh', hstart, -⟩ := litAt_some hlit
    rw [hstart] at hh'
    have := (holds_head hh).symm.trans (holds_head hh')
    contradiction

/-- An expression in front of a semicolon is a statement. -/
theorem read_statement_of_expr {a b : Nat} (hp : p ≤ src.size) (h : read src .expr p = some (t, q))
    (hsemi : litAt src ";" q = some (a, b)) : read src .statement p = some (t, b) := by
  have hword {s : String} (hs : isReserved s = true) (hne : s ≠ "func") : wordAt src s p = none :=
    wordAt_of_expr hp h hs hne
  rw [read_statement hp, read_declare_of_expr hp h, read_assign_of_expr hp h hsemi,
    read_print_none hp (hword rfl (by decide)), read_ifElse_none hp (hword rfl (by decide)),
    read_ifThen_none hp (hword rfl (by decide)), read_whileDo_none hp (hword rfl (by decide)),
    read_ret_none hp (hword rfl (by decide)), read_exprStatement hp, h, Option.bind_some, hsemi]
  rfl

/-- A statement does not start with the word between the two blocks of a conditional. -/
theorem else_of_statement {m : Tree × Nat} (hp : p ≤ src.size)
    (h : read src .statement p = some m) : wordAt src "else" p = none := by
  rcases hw : wordAt src "else" p with _ | w
  · rfl
  · have hword {s : String} (hs : isReserved s = true) (hne : "else" ≠ s) : wordAt src s p = none :=
      wordAt_of_wordAt hw rfl hs hne
    have hexpr : read src .exprStatement p = none := by
      rcases he : read src .expr p with _ | m
      · simp [read_exprStatement hp, he]
      · rw [wordAt_of_expr hp he rfl (by decide)] at hw
        contradiction
    rw [read_statement_keyword hp hw rfl (by decide) (by decide) (by decide),
      read_print_none hp (hword rfl (by decide)), read_ifElse_none hp (hword rfl (by decide)),
      read_ifThen_none hp (hword rfl (by decide)), read_whileDo_none hp (hword rfl (by decide)),
      read_ret_none hp (hword rfl (by decide)), hexpr] at h
    contradiction

end ClosureLang.Layout

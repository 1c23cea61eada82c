import ClosureLang.Proofs.Grammar.Memoization

/-! Derivations: which tokens and which smaller matches a match is made of. A derivation forgets
which alternatives were tried in vain, so that what is shown along it holds of every text that could
be read in this way. -/
namespace ClosureLang.Grammar

open Peg Pattern

/-- What stands between the parentheses of a call or of a parameter list. -/
inductive Item where
  | argument (t : Tree)
  | parameter (tag : Option Tree) (x : Tree)

/-- What a part of a text can be read as. -/
inductive Phrase where
  | one (n : Nonterminal) (t : Tree)
  | statements (ts : List Tree)
  /-- The initializer of a declaration or an assignment. -/
  | value (t : Tree)
  /-- A word with an expression behind it, up to the semicolon. -/
  | said (s : String) (o : Nat) (t : Tree)
  /-- A word with a condition and a block behind it. -/
  | guarded (s : String) (o : Nat) (cond body : Tree)
  /-- Operations behind an operand, all together the second tree. -/
  | chain (n : Nonterminal) (lhs t : Tree)
  /-- Argument lists behind a callee, all together the second tree. -/
  | calls (callee t : Tree)
  | item (x : Item)
  | items (xs : List Item)
  | moreItems (xs : List Item)

/-- The rules that another one may come to without a token of its own. -/
def Nonterminal.kinds : Nonterminal → List Nonterminal
  | .statement => [.declare, .assign, .print, .ifElse, .ifThen, .whileDo, .ret, .exprStatement]
  | .not => [.compare]
  | .compare => [.add]
  | .unary => [.call]
  | .primary => [.function]
  | _ => []

/-- The rules for operations that associate to the left. -/
def Nonterminal.chained : Nonterminal → Option (Nonterminal × List BinaryOp)
  | .expr => some (.and, [.or])
  | .and => some (.not, [.and])
  | .add => some (.mul, [.add, .sub])
  | .mul => some (.unary, [.mul, .div])
  | _ => none

/-- The phrase stands between two offsets. -/
inductive Derives (src : ByteArray) : Phrase → Nat → Nat → Prop where
  | program {ts : List Tree} {p q : Nat} :
      Derives src (.statements ts) (layoutEnd src p) q →
      Derives src (.one .program (.form .sequence p ts)) p (layoutEnd src q)
  | noStatements {p : Nat} : Derives src (.statements []) p p
  | statements {t : Tree} {ts : List Tree} {p q r : Nat} :
      Derives src (.one .statement t) p r → Derives src (.statements ts) r q →
      Derives src (.statements (t :: ts)) p q
  | kind {n m : Nonterminal} {t : Tree} {p q : Nat} :
      m ∈ n.kinds → Derives src (.one m t) p q → Derives src (.one n t) p q
  | declare {o : Nat} {x v : Tree} {p q r s : Nat} :
      wordAt src "var" p = some (o, r) → identAt src r = some (x, s) → Derives src (.value v) s q →
      Derives src (.one .declare (.form .declare o [x, v])) p q
  | declareTyped {u x v : Tree} {p q r s : Nat} :
      typeAt src p = some (u, r) → identAt src r = some (x, s) → Derives src (.value v) s q →
      Derives src (.one .declare (.form .declare (u.offset?.getD 0) [x, v, u])) p q
  | assign {x v : Tree} {p q r : Nat} :
      identAt src p = some (x, r) → Derives src (.value v) r q →
      Derives src (.one .assign
        (.form .assign (x.offset?.getD 0) [.form .varLoc (x.offset?.getD 0) [x], v])) p q
  | value {v : Tree} {i j p q r s : Nat} :
      litAt src "=" p = some (i, r) → Derives src (.one .expr v) r s →
      litAt src ";" s = some (j, q) →
      Derives src (.value v) p q
  | said {w : String} {v : Tree} {o j p q r s : Nat} :
      wordAt src w p = some (o, r) → isReserved w = true → Derives src (.one .expr v) r s →
      litAt src ";" s = some (j, q) → Derives src (.said w o v) p q
  | print {v : Tree} {o p q : Nat} :
      Derives src (.said "print" o v) p q → Derives src (.one .print (.form .print o [v])) p q
  | ret {v : Tree} {o p q : Nat} :
      Derives src (.said "ret" o v) p q → Derives src (.one .ret (.form .ret o [v])) p q
  | guarded {w : String} {cond body : Tree} {o i j p q r s u v : Nat} :
      wordAt src w p = some (o, r) → isReserved w = true → litAt src "(" r = some (i, s) →
      Derives src (.one .expr cond) s u → litAt src ")" u = some (j, v) →
      Derives src (.one .block body) v q → Derives src (.guarded w o cond body) p q
  | ifThen {cond body : Tree} {o p q : Nat} :
      Derives src (.guarded "if" o cond body) p q →
      Derives src (.one .ifThen (.form .ifThen o [cond, body])) p q
  | ifElse {cond body other : Tree} {o i p q r s : Nat} :
      Derives src (.guarded "if" o cond body) p r → wordAt src "else" r = some (i, s) →
      Derives src (.one .block other) s q →
      Derives src (.one .ifElse (.form .ifElse o [cond, body, other])) p q
  | whileDo {cond body : Tree} {o p q : Nat} :
      Derives src (.guarded "while" o cond body) p q →
      Derives src (.one .whileDo (.form .whileDo o [cond, body])) p q
  | exprStatement {t : Tree} {i p q r : Nat} :
      Derives src (.one .expr t) p r → litAt src ";" r = some (i, q) →
      Derives src (.one .exprStatement t) p q
  | block {ts : List Tree} {o c p q r s : Nat} :
      litAt src "\x7b" p = some (o, r) → read src .program r = some (.form .sequence r ts, s) →
      Derives src (.one .program (.form .sequence r ts)) r s → litAt src "\x7d" s = some (c, q) →
      Derives src (.one .block (.form .sequence o ts)) p q
  | leftAssoc {n m : Nonterminal} {ops : List BinaryOp} {a t : Tree} {p q r : Nat} :
      n.chained = some (m, ops) → Derives src (.one m a) p r → Derives src (.chain n a t) r q →
      Derives src (.one n t) p q
  | chainEnd {n : Nonterminal} {t : Tree} {p : Nat} : Derives src (.chain n t t) p p
  | chain {n m : Nonterminal} {ops : List BinaryOp} {op : BinaryOp} {a b t : Tree}
      {o p q r s : Nat} :
      n.chained = some (m, ops) → op ∈ ops → litAt src op.symbol p = some (o, r) →
      Derives src (.one m b) r s →
      Derives src (.chain n (.binary op o a b) t) s q → Derives src (.chain n a t) p q
  | compare {op : BinaryOp} {a b : Tree} {o p q r s : Nat} :
      op ∈ comparisons → Derives src (.one .add a) p r → litAt src op.symbol r = some (o, s) →
      Derives src (.one .add b) s q → Derives src (.one .compare (.binary op o a b)) p q
  | not {t : Tree} {o p q r : Nat} :
      litAt src "!" p = some (o, r) → Derives src (.one .not t) r q →
      Derives src (.one .not (.form .not o [t])) p q
  | minus {t : Tree} {o p q r : Nat} :
      litAt src "-" p = some (o, r) → Derives src (.one .unary t) r q →
      Derives src (.one .unary (.binary .sub o (.int o 0) t)) p q
  | call {f t : Tree} {p q r : Nat} :
      Derives src (.one .primary f) p r → Derives src (.calls f t) r q →
      Derives src (.one .call t) p q
  | callsEnd {t : Tree} {p : Nat} : Derives src (.calls t t) p p
  | calls {f t : Tree} {ts : List Tree} {o i p q r s u : Nat} :
      litAt src "(" p = some (o, r) → Derives src (.items (ts.map .argument)) r s →
      litAt src ")" s = some (i, u) →
      Derives src (.calls (.form .call o [f, .form .arguments o ts]) t) u q →
      Derives src (.calls f t) p q
  | paren {t : Tree} {o i p q r s : Nat} :
      litAt src "(" p = some (o, r) → Derives src (.one .expr t) r s →
      litAt src ")" s = some (i, q) →
      Derives src (.one .primary t) p q
  | lookup {x : Tree} {p q : Nat} :
      identAt src p = some (x, q) →
      Derives src (.one .primary (.form .lookup (x.offset?.getD 0) [x])) p q
  | integer {t : Tree} {p q : Nat} :
      integerAt src p = some (t, q) → Derives src (.one .primary t) p q
  | function {params : List (Option Tree × Tree)} {result : Option Tree} {body : Tree}
      {o i j p q r s u v w : Nat} :
      (∀ m ∈ params, Tree.IsIdent m.2) → wordAt src "func" p = some (o, r) →
        litAt src "(" r = some (i, s) →
      Derives src (.items (params.map fun m => .parameter m.1 m.2)) s u →
      litAt src ")" u = some (j, v) →
      (result = none ∧ w = v ∨
        ∃ k l t, result = some t ∧ litAt src "->" v = some (k, l) ∧ typeAt src l = some (t, w)) →
      Derives src (.one .block body) w q →
      Derives src (.one .function (functionTree o params result body)) p q
  | argument {t : Tree} {p q : Nat} :
      Derives src (.one .expr t) p q → Derives src (.item (.argument t)) p q
  | parameter {x : Tree} {p q : Nat} :
      identAt src p = some (x, q) → Derives src (.item (.parameter none x)) p q
  | typedParameter {u x : Tree} {p q r : Nat} :
      typeAt src p = some (u, r) → identAt src r = some (x, q) →
      Derives src (.item (.parameter (some u) x)) p q
  | noItems {p : Nat} : Derives src (.items []) p p
  | items {x : Item} {xs : List Item} {p q r : Nat} :
      Derives src (.item x) p r → Derives src (.moreItems xs) r q →
      Derives src (.items (x :: xs)) p q
  | itemsEnd {p : Nat} : Derives src (.moreItems []) p p
  | moreItems {x : Item} {xs : List Item} {i p q r s : Nat} :
      litAt src "," p = some (i, r) → Derives src (.item x) r s → Derives src (.moreItems xs) s q →
      Derives src (.moreItems (x :: xs)) p q

variable {src : ByteArray} {p q r : Nat} {t : Tree}

section Rules

/-- The matches of the rules that a rule applies are read and derived. -/
def Derived (src : ByteArray) (f : Nonterminal → Nat → Option (Tree × Nat)) : Prop :=
  ∀ n p m, f n p = some m → p ≤ src.size ∧ read src n p = some m ∧ Derives src (.one n m.1) p m.2

variable {f : Nonterminal → Nat → Option (Tree × Nat)} {α : Type} {a : Pattern α}

theorem of_eval_parens {m : Nat × α} (h : eval src f (parens a) p = some (m, q)) :
    ∃ r s i, litAt src "(" p = some (m.1, r) ∧ eval src f a r = some (m.2, s) ∧
      litAt src ")" s = some (i, q) := by
  simp only [parens, eval_map, eval_seq, eval_lit, Option.map_eq_some_iff, Option.bind_eq_some_iff,
    Prod.mk.injEq] at h
  obtain ⟨_, ⟨⟨o, r⟩, ho, _, ⟨⟨x, s⟩, hx, ⟨i, _⟩, hi, rfl⟩, rfl⟩, rfl, rfl⟩ := h
  exact ⟨r, s, i, ho, hx, hi⟩

variable (hf : Derived src f)

include hf

theorem derives_value (h : eval src f Pattern.initializer p = some (t, q)) :
    Derives src (.value t) p q := by
  simp only [Pattern.initializer, eval_map, eval_seq, eval_lit, eval_rule, Option.map_eq_some_iff,
    Option.bind_eq_some_iff, Prod.mk.injEq] at h
  obtain ⟨_, ⟨⟨i, r⟩, hi, _, ⟨⟨v, s⟩, hv, ⟨j, _⟩, hj, rfl⟩, rfl⟩, rfl, rfl⟩ := h
  exact .value hi (hf _ _ _ hv).2.2 hj

theorem derives_said {w : String} {g : Form} (hw : isReserved w = true)
    (h : eval src f (wordExpr w g) p = some (t, q)) :
    ∃ (o : Nat) (v : Tree), t = .form g o [v] ∧ Derives src (.said w o v) p q := by
  simp only [wordExpr, eval_map, eval_seq, eval_word, eval_lit, eval_rule, Option.map_eq_some_iff,
    Option.bind_eq_some_iff, Prod.mk.injEq] at h
  obtain ⟨_, ⟨⟨o, r⟩, ho, _, ⟨⟨v, s⟩, hv, ⟨j, _⟩, hj, rfl⟩, rfl⟩, rfl, rfl⟩ := h
  exact ⟨o, v, rfl, .said ho hw (hf _ _ _ hv).2.2 hj⟩

theorem derives_guarded {w : String} {m : Nat × Tree × Tree} (hw : isReserved w = true)
    (h : eval src f (guardedBlock w) p = some (m, q)) :
    Derives src (.guarded w m.1 m.2.1 m.2.2) p q := by
  simp only [guardedBlock, eval_map, eval_seq, eval_word, eval_rule, Option.map_eq_some_iff,
    Option.bind_eq_some_iff, Prod.mk.injEq] at h
  obtain ⟨_, ⟨⟨o, r⟩, ho, _, ⟨⟨c, v⟩, hc, ⟨b, _⟩, hb, rfl⟩, rfl⟩, rfl, rfl⟩ := h
  obtain ⟨s, u, i, hopen, hcond, hclose⟩ := of_eval_parens hc
  exact .guarded ho hw hopen (hf _ _ _ hcond).2.2 hclose (hf _ _ _ hb).2.2

omit hf in
theorem of_eval_operator {ops : List BinaryOp} {m : BinaryOp × Nat}
    (h : eval src f (operator ops) p = some (m, q)) :
    m.1 ∈ ops ∧ litAt src m.1.symbol p = some (m.2, q) := by
  induction ops with
  | nil => simp [operator, fail] at h
  | cons op ops ih =>
    simp only [operator, eval_alt, Option.or_eq_some_iff, eval_map, eval_lit,
      Option.map_eq_some_iff, Prod.mk.injEq] at h
    obtain ⟨⟨o, _⟩, ho, rfl, rfl⟩ | ⟨-, h⟩ := h
    · exact ⟨List.mem_cons_self, ho⟩
    · exact ⟨List.mem_cons_of_mem _ (ih h).1, (ih h).2⟩

theorem derives_chain {n m : Nonterminal} {ops : List BinaryOp} (hn : n.chained = some (m, ops))
    (limit : Nat) (lhs : Tree) (p : Nat) : Derives src (.chain n lhs
      ((repeatUpTo (eval src f (.seq (operator ops) (.rule m))) limit p).1.foldl Pattern.apply lhs))
      p (repeatUpTo (eval src f (.seq (operator ops) (.rule m))) limit p).2 := by
  induction limit generalizing lhs p with
  | zero => exact .chainEnd
  | succ limit ih =>
    rw [repeatUpTo]
    cases h : eval src f (.seq (operator ops) (.rule m)) p with
    | none => exact .chainEnd
    | some x =>
      simp only [eval_seq, eval_rule, Option.bind_eq_some_iff, Option.map_eq_some_iff] at h
      obtain ⟨⟨o, r⟩, ho, ⟨b, s⟩, hb, rfl⟩ := h
      obtain ⟨hop, ho⟩ := of_eval_operator ho
      exact .chain hn hop ho (hf _ _ _ hb).2.2 (ih _ _)

theorem derives_leftAssoc {n m : Nonterminal} {ops : List BinaryOp} (hn : n.chained = some (m, ops))
    (h : eval src f (Pattern.leftAssoc m ops) p = some (t, q)) : Derives src (.one n t) p q := by
  simp only [Pattern.leftAssoc, eval_map, eval_seq (a := .rule m), eval_rule, eval_star,
    Option.map_eq_some_iff, Option.bind_eq_some_iff, Prod.mk.injEq, Option.map_some,
    Option.some.injEq] at h
  obtain ⟨_, ⟨⟨a, r⟩, ha, rfl⟩, rfl, rfl⟩ := h
  exact .leftAssoc hn (hf _ _ _ ha).2.2 (derives_chain hf hn _ _ _)

omit hf in
/-- A list of items, if each item is derived. -/
theorem derives_items {a : Pattern α} {g : α → Item}
    (ha : ∀ p x q, eval src f a p = some (x, q) → Derives src (.item (g x)) p q) {xs : List α}
    (h : eval src f (Pattern.list a) p = some (xs, q)) : Derives src (.items (xs.map g)) p q := by
  have hmore : ∀ limit p, Derives src
      (.moreItems (((repeatUpTo (eval src f (.seq (lit ",") a)) limit p).1.map Prod.snd).map g)) p
      (repeatUpTo (eval src f (.seq (lit ",") a)) limit p).2 := by
    intro limit
    induction limit with
    | zero => exact fun p => .itemsEnd
    | succ limit ih =>
      intro p
      rw [repeatUpTo]
      cases h : eval src f (.seq (lit ",") a) p with
      | none => exact .itemsEnd
      | some m =>
        simp only [eval_seq, eval_lit, Option.bind_eq_some_iff, Option.map_eq_some_iff] at h
        obtain ⟨⟨i, r⟩, hi, ⟨x, s⟩, hx, rfl⟩ := h
        exact .moreItems hi (ha _ _ _ hx) (ih _)
  simp only [Pattern.list, eval_map, eval_opt, eval_seq (a := a), eval_star, Option.map_some,
    Option.some.injEq, Prod.mk.injEq] at h
  cases hx : eval src f a p with
  | none =>
    simp only [hx, Option.bind_none, Option.map_none, Option.getD_none] at h
    obtain ⟨rfl, rfl⟩ := h
    exact .noItems
  | some m =>
    simp only [hx, Option.bind_some, Option.map_some, Option.getD_some] at h
    obtain ⟨rfl, rfl⟩ := h
    exact .items (ha _ _ _ hx) (hmore _ _)

theorem derives_argument (x : Tree) (h : eval src f (.rule .expr) p = some (x, q)) :
    Derives src (.item (.argument x)) p q := .argument (hf _ _ _ h).2.2

theorem derives_calls (limit : Nat) (callee : Tree) (p : Nat) :
    Derives src (.calls callee
      ((repeatUpTo (eval src f (parens (Pattern.list (.rule .expr)))) limit p).1.foldl
        callTree callee))
      p (repeatUpTo (eval src f (parens (Pattern.list (.rule .expr)))) limit p).2 := by
  induction limit generalizing callee p with
  | zero => exact .callsEnd
  | succ limit ih =>
    rw [repeatUpTo]
    cases h : eval src f (parens (Pattern.list (.rule .expr))) p with
    | none => exact .callsEnd
    | some x =>
      obtain ⟨r, s, i, ho, hargs, hi⟩ := of_eval_parens h
      exact .calls ho (derives_items (fun _ x _ => derives_argument hf x) hargs) hi (ih _ _)

omit hf in
theorem derives_parameter (m : Option Tree × Tree) (h : eval src f param p = some (m, q)) :
    Derives src (.item (.parameter m.1 m.2)) p q := by
  simp only [param, eval_seq, eval_opt, eval_type, eval_ident, Option.bind_some,
    Option.map_eq_some_iff, Prod.mk.injEq] at h
  obtain ⟨⟨x, _⟩, hx, rfl, rfl⟩ := h
  cases hu : typeAt src p with
  | none =>
    rw [hu] at hx
    exact .parameter hx
  | some u =>
    rw [hu] at hx
    exact .typedParameter hu hx

theorem derives_function (h : eval src f (syntaxOf .function) p = some (t, q)) :
    Derives src (.one .function t) p q := by
  simp only [syntaxOf, eval_map, eval_seq (a := word "func"), eval_word, eval_seq (a := parens _),
    eval_seq (a := .opt _), eval_rule, Option.map_eq_some_iff, Option.bind_eq_some_iff,
    Prod.mk.injEq] at h
  obtain ⟨_,
      ⟨⟨o, r⟩, ho, _, ⟨⟨m, v⟩, hm, _, ⟨⟨result, w⟩, hresult, ⟨body, _⟩, hbody, rfl⟩, rfl⟩, rfl⟩,
      rfl, rfl⟩ := h
  have hvalue : (parens (Pattern.list param)).Value (fun _ _ => True) m :=
    value_of_eval (fun _ _ _ _ => trivial) _ _ _ hm
  obtain ⟨s, u, j, hopen, hparams, hclose⟩ := of_eval_parens hm
  refine .function (fun x hx => isIdent_of_value (value_list (value_parens hvalue) x hx).2)
    ho hopen (derives_items (fun _ m _ => derives_parameter m) hparams) hclose ?_
    (hf _ _ _ hbody).2.2
  simp only [eval_opt, Option.some.injEq, eval_map, eval_seq, eval_lit, eval_type] at hresult
  cases hl : litAt src "->" v with
  | none =>
    simp only [hl, Option.bind_none, Option.map_none, Option.getD_none, Prod.mk.injEq] at hresult
    exact .inl ⟨hresult.1.symm, hresult.2.symm⟩
  | some l =>
    cases hu : typeAt src l.2 with
    | none =>
      simp only [hl, Option.bind_some, hu, Option.map_none, Option.getD_none,
        Prod.mk.injEq] at hresult
      exact .inl ⟨hresult.1.symm, hresult.2.symm⟩
    | some u =>
      simp only [hl, Option.bind_some, hu, Option.map_some, Option.getD_some,
        Prod.mk.injEq] at hresult
      exact .inr ⟨l.1, l.2, u.1, hresult.1.symm, rfl, by rw [hu, ← hresult.2]⟩

/-- A match of a rule is derived, if the matches of the rules that it applies are. -/
theorem derives_rule (n : Nonterminal) (h : eval src f (syntaxOf n) p = some (t, q)) :
    Derives src (.one n t) p q := by
  have hkind {m : Nonterminal} (hm : m ∈ n.kinds) (h : f m p = some (t, q)) :
      Derives src (.one n t) p q :=
    .kind hm (hf _ _ _ h).2.2
  cases n with
  | program =>
    have hstatements : ∀ limit p, Derives src (.statements (repeatUpTo (f .statement) limit p).1) p
        (repeatUpTo (f .statement) limit p).2 := by
      intro limit
      induction limit with
      | zero => exact fun p => .noStatements
      | succ limit ih =>
        intro p
        rw [repeatUpTo]
        cases h : f .statement p with
        | none => exact .noStatements
        | some m => exact .statements (hf _ _ _ h).2.2 (ih _)
    simp only [syntaxOf, eval_map, eval_seq, eval_offset, eval_space, eval_star, eval_rule,
      Option.bind_some, Option.map_some, Option.some.injEq, Prod.mk.injEq] at h
    obtain ⟨rfl, rfl⟩ := h
    exact .program (hstatements _ _)
  | statement =>
    simp only [syntaxOf, eval_alt, eval_rule, Option.or_eq_some_iff] at h
    obtain h | ⟨-, h | ⟨-, h | ⟨-, h | ⟨-, h | ⟨-, h | ⟨-, h | ⟨-, h⟩⟩⟩⟩⟩⟩⟩ :=
      h <;> exact hkind (by decide) h
  | declare =>
    simp only [syntaxOf, eval_map, eval_seq, eval_alt, eval_word, eval_type, eval_ident,
      Option.map_eq_some_iff, Option.bind_eq_some_iff, Option.or_eq_some_iff, Prod.mk.injEq] at h
    obtain ⟨_, ⟨⟨_, r⟩, hhead, _, ⟨⟨x, s⟩, hx, ⟨v, _⟩, hv, rfl⟩, rfl⟩, rfl, rfl⟩ := h
    obtain ⟨⟨o, _⟩, ho, ⟨rfl, rfl⟩, rfl⟩ | ⟨-, ⟨u, _⟩, hu, ⟨rfl, rfl⟩, rfl⟩ := hhead
    · exact .declare ho hx (derives_value hf hv)
    · exact .declareTyped hu hx (derives_value hf hv)
  | assign =>
    simp only [syntaxOf, eval_map, eval_seq, eval_ident, Option.map_eq_some_iff,
      Option.bind_eq_some_iff, Prod.mk.injEq] at h
    obtain ⟨_, ⟨⟨x, r⟩, hx, ⟨v, _⟩, hv, rfl⟩, rfl, rfl⟩ := h
    exact .assign hx (derives_value hf hv)
  | print =>
    obtain ⟨o, v, rfl, hsaid⟩ := derives_said hf rfl h
    exact .print hsaid
  | ret =>
    obtain ⟨o, v, rfl, hsaid⟩ := derives_said hf rfl h
    exact .ret hsaid
  | ifThen =>
    simp only [syntaxOf, eval_map, Option.map_eq_some_iff, Prod.mk.injEq] at h
    obtain ⟨⟨m, _⟩, h, rfl, rfl⟩ := h
    exact .ifThen (derives_guarded hf rfl h)
  | whileDo =>
    simp only [syntaxOf, eval_map, Option.map_eq_some_iff, Prod.mk.injEq] at h
    obtain ⟨⟨m, _⟩, h, rfl, rfl⟩ := h
    exact .whileDo (derives_guarded hf rfl h)
  | ifElse =>
    simp only [syntaxOf, eval_map, eval_seq (a := guardedBlock _), eval_seq (a := word _),
      eval_word, eval_rule, Option.map_eq_some_iff, Option.bind_eq_some_iff, Prod.mk.injEq] at h
    obtain ⟨_, ⟨⟨m, r⟩, hm, _, ⟨⟨i, s⟩, hi, ⟨b, _⟩, hb, rfl⟩, rfl⟩, rfl, rfl⟩ := h
    exact .ifElse (derives_guarded hf rfl hm) hi (hf _ _ _ hb).2.2
  | exprStatement =>
    simp only [syntaxOf, eval_map, eval_seq, eval_rule, eval_lit, Option.map_eq_some_iff,
      Option.bind_eq_some_iff, Prod.mk.injEq] at h
    obtain ⟨_, ⟨⟨v, r⟩, hv, ⟨i, _⟩, hi, rfl⟩, rfl, rfl⟩ := h
    exact .exprStatement (hf _ _ _ hv).2.2 hi
  | block =>
    simp only [syntaxOf, eval_map, eval_seq, eval_lit, eval_rule, Option.map_eq_some_iff,
      Option.bind_eq_some_iff, Prod.mk.injEq] at h
    obtain ⟨_, ⟨⟨o, r⟩, ho, _, ⟨⟨b, s⟩, hb, ⟨c, _⟩, hc, rfl⟩, rfl⟩, rfl, rfl⟩ := h
    obtain ⟨hr, hread, hderives⟩ := hf _ _ _ hb
    rw [read_program hr, Option.some.injEq, Prod.mk.injEq] at hread
    obtain ⟨rfl, rfl⟩ := hread
    exact .block ho (read_program hr) hderives hc
  | expr => exact derives_leftAssoc hf rfl h
  | and => exact derives_leftAssoc hf rfl h
  | add => exact derives_leftAssoc hf rfl h
  | mul => exact derives_leftAssoc hf rfl h
  | not =>
    simp only [syntaxOf, eval_alt, eval_map, eval_seq, eval_lit, eval_rule, Option.or_eq_some_iff,
      Option.map_eq_some_iff, Option.bind_eq_some_iff, Prod.mk.injEq] at h
    obtain ⟨_, ⟨⟨o, r⟩, ho, ⟨v, _⟩, hv, rfl⟩, rfl, rfl⟩ | ⟨-, h⟩ := h
    · exact .not ho (hf _ _ _ hv).2.2
    · exact hkind (by decide) h
  | compare =>
    simp only [syntaxOf, eval_map, eval_seq (a := .rule _), eval_opt, eval_rule,
      Option.map_eq_some_iff, Option.bind_eq_some_iff, Prod.mk.injEq, Option.some.injEq] at h
    obtain ⟨_, ⟨⟨a, r⟩, ha, ⟨m, _⟩, hm, rfl⟩, rfl, rfl⟩ := h
    cases ho : eval src f (.seq (operator [.le, .ge, .eq, .ne, .lt, .gt]) (.rule .add)) r with
    | none =>
      simp only [ho, Option.map_none, Option.getD_none, Prod.mk.injEq] at hm
      obtain ⟨rfl, rfl⟩ := hm
      exact hkind (by decide) ha
    | some x =>
      simp only [ho, Option.map_some, Option.getD_some, Prod.mk.injEq] at hm
      obtain ⟨rfl, rfl⟩ := hm
      simp only [eval_seq, eval_rule, Option.bind_eq_some_iff, Option.map_eq_some_iff] at ho
      obtain ⟨⟨o, s⟩, ho, ⟨b, _⟩, hb, rfl⟩ := ho
      obtain ⟨hop, ho⟩ := of_eval_operator ho
      exact .compare hop (hf _ _ _ ha).2.2 ho (hf _ _ _ hb).2.2
  | unary =>
    simp only [syntaxOf, eval_alt, eval_map, eval_seq, eval_lit, eval_rule, Option.or_eq_some_iff,
      Option.map_eq_some_iff, Option.bind_eq_some_iff, Prod.mk.injEq] at h
    obtain ⟨_, ⟨⟨o, r⟩, ho, ⟨v, _⟩, hv, rfl⟩, rfl, rfl⟩ | ⟨-, h⟩ := h
    · exact .minus ho (hf _ _ _ hv).2.2
    · exact hkind (by decide) h
  | call =>
    simp only [syntaxOf, eval_map, eval_seq (a := .rule _), eval_rule, eval_star,
      Option.map_eq_some_iff, Option.bind_eq_some_iff, Prod.mk.injEq, Option.map_some,
      Option.some.injEq] at h
    obtain ⟨_, ⟨⟨a, r⟩, ha, rfl⟩, rfl, rfl⟩ := h
    exact .call (hf _ _ _ ha).2.2 (derives_calls hf _ _ _)
  | primary =>
    simp only [syntaxOf, eval_alt, eval_map, eval_rule, eval_ident, eval_integer,
      Option.or_eq_some_iff, Option.map_eq_some_iff, Prod.mk.injEq] at h
    obtain ⟨⟨m, _⟩, hm, rfl, rfl⟩ | ⟨-, h | ⟨-, ⟨⟨x, _⟩, hx, rfl, rfl⟩ | ⟨-, h⟩⟩⟩ := h
    · obtain ⟨r, s, i, ho, hv, hi⟩ := of_eval_parens hm
      exact .paren ho (hf _ _ _ hv).2.2 hi
    · exact hkind (by decide) h
    · exact .lookup hx
    · exact .integer h
  | function => exact derives_function hf h

end Rules

/-- What is read has a derivation. -/
theorem derives_of_read {n : Nonterminal} (hp : p ≤ src.size) (h : read src n p = some (t, q)) :
    Derives src (.one n t) p q :=
  ranking.holds_of_read (Q := fun n p m => Derives src (.one n m.1) p m.2)
    (fun _ hf n _ _ _ h => derives_rule hf n h) hp h

theorem derives_of_parseProgram {src : String} (h : parseProgram src = .ok t) :
    Derives src.toUTF8 (.one .program t) 0 src.utf8ByteSize :=
  derives_of_read (Nat.zero_le _) (parseProgram_ok.mp h)

theorem derives_of_parseExpression {src : String} (h : parseExpression src = .ok t) :
    Derives src.toUTF8 (.one .expr t) 0 src.utf8ByteSize :=
  derives_of_read (Nat.zero_le _) (parseExpression_ok.mp h)

end ClosureLang.Grammar

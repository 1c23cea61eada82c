import ClosureLang.Grammar.Rules
import ClosureLang.Proofs.Grammar.Lexemes

/-! What each rule comes to at each offset, read off the grammar, and where it can start and end. -/
namespace ClosureLang.Grammar

open Peg Pattern

variable {src : ByteArray} {p q : Nat}

theorem litAt_some {s : String} {start stop : Nat} (h : litAt src s p = some (start, stop)) :
    holds src start s.toList = true ∧ start = layoutEnd src p ∧
      stop = layoutEnd src (start + s.length) := by
  unfold litAt at h
  split at h <;> simp only [Option.some.injEq, Prod.mk.injEq, reduceCtorEq] at h
  obtain ⟨rfl, rfl⟩ := h
  exact ⟨‹_›, rfl, rfl⟩

theorem wordAt_some {s : String} {start stop : Nat} (h : wordAt src s p = some (start, stop)) :
    (holds src start s.toList = true ∧ (src[start + s.length]?).any isIdentByte = false) ∧
      start = layoutEnd src p ∧ stop = layoutEnd src (start + s.length) := by
  unfold wordAt at h
  split at h <;> simp only [Option.some.injEq, Prod.mk.injEq, reduceCtorEq] at h
  obtain ⟨rfl, rfl⟩ := h
  rename_i hh
  simp only [Bool.and_eq_true, Bool.not_eq_true'] at hh
  exact ⟨hh, rfl, rfl⟩

theorem layoutEnd_fits {s : String} {start : Nat} (hp : p ≤ src.size)
    (hstart : start = layoutEnd src p) (hh : holds src start s.toList = true) :
    p ≤ start ∧ start + s.length ≤ layoutEnd src (start + s.length) ∧
      layoutEnd src (start + s.length) ≤ src.size := by
  subst hstart
  have hstop := holds_le hh (layoutEnd_le hp)
  rw [String.length_toList] at hstop
  exact ⟨le_layoutEnd src p, le_layoutEnd _ _, layoutEnd_le hstop⟩

theorem litAt_fits {s : String} {start stop : Nat} (h : litAt src s p = some (start, stop))
    (hp : p ≤ src.size) : p ≤ start ∧ start + s.length ≤ stop ∧ stop ≤ src.size := by
  obtain ⟨hh, h₁, rfl⟩ := litAt_some h
  exact layoutEnd_fits hp h₁ hh

theorem wordAt_fits {s : String} {start stop : Nat} (h : wordAt src s p = some (start, stop))
    (hp : p ≤ src.size) : p ≤ start ∧ start + s.length ≤ stop ∧ stop ≤ src.size := by
  obtain ⟨⟨hh, -⟩, h₁, rfl⟩ := wordAt_some h
  exact layoutEnd_fits hp h₁ hh

theorem litAt_lt {s : String} {start stop : Nat} (h : litAt src s p = some (start, stop))
    (hp : p ≤ src.size) (hs : 0 < s.length) : p < stop ∧ stop ≤ src.size := by
  obtain ⟨h₁, h₂, h₃⟩ := litAt_fits h hp
  exact ⟨by omega, h₃⟩

theorem wordAt_lt {s : String} {start stop : Nat} (h : wordAt src s p = some (start, stop))
    (hp : p ≤ src.size) (hs : 0 < s.length) : p < stop ∧ stop ≤ src.size := by
  obtain ⟨h₁, h₂, h₃⟩ := wordAt_fits h hp
  exact ⟨by omega, h₃⟩

theorem eval_fits {α : Type} {a : Pattern α} {x : α} (h : eval src (read src) a p = some (x, q))
    (hp : p ≤ src.size) :
    p ≤ q ∧ q ≤ src.size ∧ (a.consumes ranking.nullable = true → p < q) :=
  ranking.eval_fits ranking.read_allFit a p (x, q) hp h

theorem read_fits {n : Nonterminal} {t : Tree} (h : read src n p = some (t, q))
    (hp : p ≤ src.size) : p ≤ q ∧ q ≤ src.size ∧ (n ≠ .program → p < q) := by
  obtain ⟨hle, hs, hlt⟩ := ranking.read_allFit n p (t, q) hp h
  exact ⟨hle, hs, fun hn => hlt (by simpa [ranking] using hn)⟩

theorem identAt_fits {t : Tree} (h : identAt src p = some (t, q)) (hp : p ≤ src.size) :
    p < q ∧ q ≤ src.size := by
  obtain ⟨-, hs, hlt⟩ := eval_fits (a := ident) (by rw [eval_ident]; exact h) hp
  exact ⟨hlt rfl, hs⟩

theorem typeAt_fits {t : Tree} (h : typeAt src p = some (t, q)) (hp : p ≤ src.size) :
    p < q ∧ q ≤ src.size := by
  obtain ⟨-, hs, hlt⟩ := eval_fits (a := type) (by rw [eval_type]; exact h) hp
  exact ⟨hlt rfl, hs⟩

theorem read_eq (n : Nonterminal) (hp : p ≤ src.size) :
    read src n p = eval src (read src) (syntaxOf n) p := ranking.read_eq n hp

@[simp] theorem eval_parens {α : Type} (a : Pattern α) :
    eval src (read src) (parens a) p =
      (litAt src "(" p).bind fun l => (eval src (read src) a l.2).bind fun m =>
        (litAt src ")" m.2).map fun r => ((l.1, m.1), r.2) := by
  simp [parens, Option.map_bind, Function.comp_def]

@[simp] theorem eval_initializer :
    eval src (read src) Pattern.initializer p =
      (litAt src "=" p).bind fun l => (read src .expr l.2).bind fun m =>
        (litAt src ";" m.2).map fun r => (m.1, r.2) := by
  simp [Pattern.initializer, Option.map_bind, Function.comp_def]

@[simp] theorem eval_wordExpr (s : String) (f : Form) :
    eval src (read src) (wordExpr s f) p =
      (wordAt src s p).bind fun l => (read src .expr l.2).bind fun m =>
        (litAt src ";" m.2).map fun r => (.form f l.1 [m.1], r.2) := by
  simp [wordExpr, Option.map_bind, Function.comp_def]

@[simp] theorem eval_guardedBlock (s : String) :
    eval src (read src) (guardedBlock s) p =
      (wordAt src s p).bind fun w => (litAt src "(" w.2).bind fun l =>
        (read src .expr l.2).bind fun c => (litAt src ")" c.2).bind fun r =>
          (read src .block r.2).map fun b => ((w.1, c.1, b.1), b.2) := by
  simp [guardedBlock, Option.map_bind, Option.bind_assoc, Option.bind_map, Function.comp_def]

/-- The operator that stands at an offset, the offset and that of the next token. -/
def operatorAt (src : ByteArray) : List BinaryOp → Nat → Option ((BinaryOp × Nat) × Nat)
  | [], _ => none
  | op :: ops, p =>
    ((litAt src op.symbol p).map fun l => ((op, l.1), l.2)).or (operatorAt src ops p)

@[simp] theorem eval_operator (ops : List BinaryOp) :
    eval src (read src) (operator ops) p = operatorAt src ops p := by
  induction ops with
  | nil => simp [operator, operatorAt, fail]
  | cons op ops ih => simp [operator, operatorAt, ih]

/-- An operator with an operand behind it. -/
def operationAt (src : ByteArray) (operand : Nonterminal) (ops : List BinaryOp) (p : Nat) :
    Option (((BinaryOp × Nat) × Tree) × Nat) :=
  (operatorAt src ops p).bind fun o => (read src operand o.2).map fun m => ((o.1, m.1), m.2)

theorem eval_operation (operand : Nonterminal) (ops : List BinaryOp) :
    eval src (read src) (.seq (operator ops) (.rule operand)) = operationAt src operand ops := by
  funext p
  simp [operationAt]

@[simp] theorem eval_leftAssoc (operand : Nonterminal) (ops : List BinaryOp) :
    eval src (read src) (Pattern.leftAssoc operand ops) p =
      (read src operand p).map fun m =>
        ((repeatUpTo (operationAt src operand ops) (src.size + 1) m.2).1.foldl Pattern.apply m.1,
          (repeatUpTo (operationAt src operand ops) (src.size + 1) m.2).2) := by
  cases h : read src operand p <;> simp [Pattern.leftAssoc, ← eval_operation, h]

/-- A comma with an item behind it. -/
def commaItemAt {α : Type} (src : ByteArray) (item : Pattern α) (p : Nat) : Option (α × Nat) :=
  (litAt src "," p).bind fun l => eval src (read src) item l.2

theorem repeatUpTo_map {α β : Type} (g : α → β) (a : Nat → Option (α × Nat)) (limit : Nat) :
    repeatUpTo (fun q => (a q).map fun m => (g m.1, m.2)) limit p =
      ((repeatUpTo a limit p).1.map g, (repeatUpTo a limit p).2) := by
  induction limit generalizing p with
  | zero => rfl
  | succ limit ih =>
    simp only [repeatUpTo]
    cases h : a p with
    | none => rfl
    | some m => simp [ih]

@[simp] theorem eval_list {α : Type} (item : Pattern α) :
    eval src (read src) (Pattern.list item) p =
      some (((eval src (read src) item p).map fun m =>
        (m.1 :: (repeatUpTo (commaItemAt src item) (src.size + 1) m.2).1,
          (repeatUpTo (commaItemAt src item) (src.size + 1) m.2).2)).getD ([], p)) := by
  have hmap : commaItemAt src item = fun q =>
      (eval src (read src) (.seq (lit ",") item) q).map fun m => (m.1.2, m.2) := by
    funext q
    simp [commaItemAt, Option.map_bind, Function.comp_def]
  rw [hmap]
  simp only [repeatUpTo_map]
  cases h : eval src (read src) item p <;> simp [Pattern.list, h]

@[simp] theorem eval_param :
    eval src (read src) param p =
      match typeAt src p with
      | some t => (identAt src t.2).map fun x => ((some t.1, x.1), x.2)
      | none => (identAt src p).map fun x => ((none, x.1), x.2) := by
  cases h : typeAt src p <;> simp [param, h]

theorem read_program (hp : p ≤ src.size) :
    read src .program p =
      some (.form .sequence p (repeatUpTo (read src .statement) (src.size + 1) (layoutEnd src p)).1,
        layoutEnd src (repeatUpTo (read src .statement) (src.size + 1) (layoutEnd src p)).2) := by
  rw [read_eq _ hp]
  simp [syntaxOf]

theorem read_statement (hp : p ≤ src.size) :
    read src .statement p =
      (read src .declare p).or ((read src .assign p).or ((read src .print p).or
        ((read src .ifElse p).or ((read src .ifThen p).or ((read src .whileDo p).or
          ((read src .ret p).or (read src .exprStatement p))))))) := by
  rw [read_eq _ hp]
  simp [syntaxOf]

/-- The head of a declaration: where it starts, and its type tag if it has one. -/
def declareHeadAt (src : ByteArray) (p : Nat) : Option ((Int × Option Tree) × Nat) :=
  ((wordAt src "var" p).map fun w => ((w.1, none), w.2)).or
    ((typeAt src p).map fun t => ((t.1.offset?.getD 0, some t.1), t.2))

theorem read_declare (hp : p ≤ src.size) :
    read src .declare p =
      (declareHeadAt src p).bind fun h => (identAt src h.2).bind fun x =>
        (eval src (read src) Pattern.initializer x.2).map fun v =>
          (.form .declare h.1.1 (x.1 :: v.1 :: h.1.2.toList), v.2) := by
  rw [read_eq _ hp]
  simp [syntaxOf, declareHeadAt, Option.map_bind, Function.comp_def]

theorem read_assign (hp : p ≤ src.size) :
    read src .assign p =
      (identAt src p).bind fun x => (eval src (read src) Pattern.initializer x.2).map fun v =>
        (.form .assign (x.1.offset?.getD 0)
          [.form .varLoc (x.1.offset?.getD 0) [x.1], v.1], v.2) := by
  rw [read_eq _ hp]
  simp [syntaxOf, Option.map_bind, Function.comp_def]

theorem read_print (hp : p ≤ src.size) :
    read src .print p = eval src (read src) (wordExpr "print" .print) p := read_eq _ hp

theorem read_ret (hp : p ≤ src.size) :
    read src .ret p = eval src (read src) (wordExpr "ret" .ret) p := read_eq _ hp

theorem read_ifThen (hp : p ≤ src.size) :
    read src .ifThen p =
      (eval src (read src) (guardedBlock "if") p).map fun m =>
        (.form .ifThen m.1.1 [m.1.2.1, m.1.2.2], m.2) := by
  rw [read_eq _ hp, syntaxOf, eval_map]

theorem read_whileDo (hp : p ≤ src.size) :
    read src .whileDo p =
      (eval src (read src) (guardedBlock "while") p).map fun m =>
        (.form .whileDo m.1.1 [m.1.2.1, m.1.2.2], m.2) := by
  rw [read_eq _ hp, syntaxOf, eval_map]

theorem read_ifElse (hp : p ≤ src.size) :
    read src .ifElse p =
      (eval src (read src) (guardedBlock "if") p).bind fun m =>
        (wordAt src "else" m.2).bind fun w =>
        (read src .block w.2).map fun b => (.form .ifElse m.1.1 [m.1.2.1, m.1.2.2, b.1], b.2) := by
  rw [read_eq _ hp, syntaxOf, eval_map, eval_seq]
  generalize eval src (read src) (guardedBlock "if") p = o
  cases o <;> simp [Option.map_bind, Function.comp_def]

theorem read_exprStatement (hp : p ≤ src.size) :
    read src .exprStatement p =
      (read src .expr p).bind fun m => (litAt src ";" m.2).map fun r => (m.1, r.2) := by
  rw [read_eq _ hp]
  simp [syntaxOf, Option.map_bind, Function.comp_def]

theorem read_block (hp : p ≤ src.size) :
    read src .block p =
      (litAt src "\x7b" p).bind fun l => (read src .program l.2).bind fun m =>
        (litAt src "\x7d" m.2).map fun r => (.form .sequence l.1 m.1.children, r.2) := by
  rw [read_eq _ hp]
  simp [syntaxOf, Option.map_bind, Function.comp_def]

theorem read_not (hp : p ≤ src.size) :
    read src .not p =
      ((litAt src "!" p).bind fun l => (read src .not l.2).map fun m =>
        (.form .not l.1 [m.1], m.2)).or (read src .compare p) := by
  rw [read_eq _ hp]
  simp [syntaxOf, Option.map_bind, Function.comp_def]

theorem read_compare (hp : p ≤ src.size) :
    read src .compare p =
      (read src .add p).map fun m =>
        ((operationAt src .add [.le, .ge, .eq, .ne, .lt, .gt] m.2).map fun o =>
          (Pattern.apply m.1 o.1, o.2)).getD m := by
  rw [read_eq _ hp]
  cases h : read src .add p with
  | none => simp [syntaxOf, h]
  | some m =>
    rw [← eval_operation]
    generalize hops : [BinaryOp.le, .ge, .eq, .ne, .lt, .gt] = ops
    simp only [syntaxOf, hops, eval_map, eval_seq (a := .rule _), eval_opt, eval_rule, h,
      Option.bind_some, Option.map_some]
    cases eval src (read src) (.seq (operator ops) (.rule .add)) m.2 <;> rfl

theorem read_unary (hp : p ≤ src.size) :
    read src .unary p =
      ((litAt src "-" p).bind fun l => (read src .unary l.2).map fun m =>
        (.binary .sub l.1 (.int l.1 0) m.1, m.2)).or (read src .call p) := by
  rw [read_eq _ hp]
  simp [syntaxOf, Option.map_bind, Function.comp_def]

/-- The arguments of a call. -/
def argumentsAt (src : ByteArray) : Nat → Option ((Nat × List Tree) × Nat) :=
  eval src (read src) (parens (Pattern.list (.rule .expr)))

theorem read_call (hp : p ≤ src.size) :
    read src .call p =
      (read src .primary p).map fun m =>
        ((repeatUpTo (argumentsAt src) (src.size + 1) m.2).1.foldl callTree m.1,
          (repeatUpTo (argumentsAt src) (src.size + 1) m.2).2) := by
  rw [read_eq _ hp]
  cases h : read src .primary p with
  | none => simp [syntaxOf, h]
  | some m => simp only [syntaxOf, eval_map, eval_seq, eval_rule, h, eval_star]; rfl

theorem read_primary (hp : p ≤ src.size) :
    read src .primary p =
      (eval src (read src) (map Prod.snd (parens (.rule .expr))) p).or ((read src .function p).or
        (((identAt src p).map fun x => (.form .lookup (x.1.offset?.getD 0) [x.1], x.2)).or
          (integerAt src p))) := by
  rw [read_eq _ hp]
  simp [syntaxOf]

/-- `('->' type)?` -/
def resultAt (src : ByteArray) (p : Nat) : Option Tree × Nat :=
  (((litAt src "->" p).bind fun l => typeAt src l.2).map fun t => (some t.1, t.2)).getD (none, p)

theorem read_function (hp : p ≤ src.size) :
    read src .function p =
      (wordAt src "func" p).bind fun w =>
        (eval src (read src) (parens (Pattern.list param)) w.2).bind fun m =>
          (read src .block (resultAt src m.2).2).map fun b =>
            (functionTree w.1 m.1.2 (resultAt src m.2).1 b.1, b.2) := by
  have hresult (q : Nat) : eval src (read src)
      (.opt (map Prod.snd (.seq (lit "->") type))) q = some (resultAt src q) := by
    simp [resultAt, Option.map_bind, Function.comp_def]
  rw [read_eq _ hp, syntaxOf, eval_map, eval_seq, eval_word]
  cases h : wordAt src "func" p with
  | none => rfl
  | some w =>
    simp only [Option.bind_some, eval_seq, hresult]
    cases eval src (read src) (parens (Pattern.list param)) w.2 with
    | none => rfl
    | some m => simp [Function.comp_def]

/-- The bytes that an expression without a sign or a negation can start with. -/
def startsPrimary (b : UInt8) : Bool := b = 40 || isIdentByte b

theorem holds_head {c : Char} {cs : List Char} (h : holds src p (c :: cs) = true) :
    src[p]? = some (UInt8.ofNat c.toNat) := by
  simp only [holds, Bool.and_eq_true, decide_eq_true_eq] at h
  exact h.1

theorem litAt_none {s : String} {c : Char} {cs : List Char} (hs : s.toList = c :: cs)
    (h : src[layoutEnd src p]? ≠ some (UInt8.ofNat c.toNat)) : litAt src s p = none := by
  rw [litAt, if_neg]
  rw [hs]
  exact fun hh => h (holds_head hh)

/-- Where a byte follows a token of one character at once, nothing is read that cannot start with
this byte. -/
theorem next_of_peek {s : String} {c : Char} {a b : Nat} (hp : p ≤ src.size) (hs : s.length = 1)
    (h : litAt src s p = some (a, b)) (hc : peek src (a + 1) c = true)
    (hsettled : isBlankByte (UInt8.ofNat c.toNat) = false ∧ UInt8.ofNat c.toNat ≠ hash) :
    b ≤ src.size ∧ src[layoutEnd src b]? = some (UInt8.ofNat c.toNat) := by
  have hsize := (litAt_fits h hp).2.2
  obtain ⟨-, -, rfl⟩ := litAt_some h
  have hbyte := holds_head hc
  have hset : Settled src (a + 1) := by
    intro b' hb'
    rw [hbyte, Option.some.injEq] at hb'
    exact hb' ▸ hsettled
  rw [hs, layoutEnd_of_settled hset] at hsize ⊢
  rw [layoutEnd_of_settled hset]
  exact ⟨hsize, hbyte⟩

theorem wordAt_none {s : String} {c : Char} {cs : List Char} (hs : s.toList = c :: cs)
    (h : src[layoutEnd src p]? ≠ some (UInt8.ofNat c.toNat)) : wordAt src s p = none := by
  rw [wordAt, if_neg]
  rw [hs, Bool.and_eq_true]
  exact fun hh => h (holds_head hh.1)

/-- A class of bytes runs as far as a text of it behind which there are none. -/
theorem runLength_of_holds {c : UInt8 → Bool} {cs : List Char} (limit : Nat)
    (hl : src.size - q ≤ limit) (hh : holds src q cs = true)
    (hcs : ∀ x ∈ cs, c (UInt8.ofNat x.toNat) = true)
    (hnext : (src[q + cs.length]?).any c = false) : runLength c src limit q = cs.length := by
  induction cs generalizing q limit with
  | nil =>
    cases limit with
    | zero => rfl
    | succ limit =>
      simp only [List.length_nil, Nat.add_zero] at hnext
      simp [runLength, hnext]
  | cons x cs ih =>
    have hbyte := holds_head hh
    have hlt := lt_size hbyte
    simp only [holds, Bool.and_eq_true] at hh
    obtain ⟨limit, rfl⟩ : ∃ n, limit = n + 1 := ⟨limit - 1, by omega⟩
    have hrest := ih limit (q := q + 1) (by omega) hh.2 (fun x hx => hcs x (by simp [hx]))
      (by rw [← hnext, List.length_cons, Nat.add_right_comm, Nat.add_assoc])
    simp [runLength, hbyte, hcs x (by simp), hrest]

theorem asciiText_of_holds {cs : List Char} (hh : holds src q cs = true)
    (hcs : ∀ c ∈ cs, Char.ofNat (UInt8.ofNat c.toNat).toNat = c) :
    asciiText src q (q + cs.length) = cs := by
  rw [asciiText_eq]
  induction cs generalizing q with
  | nil => simp
  | cons c cs ih =>
    have hbyte := holds_head hh
    rw [getElem?_eq] at hbyte
    obtain ⟨hlt, hc⟩ := List.getElem?_eq_some_iff.mp hbyte
    simp only [holds, Bool.and_eq_true] at hh
    rw [List.drop_eq_getElem_cons hlt, hc]
    simp only [List.length_cons, List.take_succ_cons, List.map_cons, hcs c (by simp)]
    rw [ih hh.2 fun c hc => hcs c (by simp [hc])]

theorem reserved_ascii {s : String} (hs : isReserved s = true) :
    ∀ c ∈ s.toList, isIdentByte (UInt8.ofNat c.toNat) = true ∧
      Char.ofNat (UInt8.ofNat c.toNat).toNat = c := by
  have hall : (keywords.all fun s => s.toList.all fun c => isIdentByte (UInt8.ofNat c.toNat) &&
      Char.ofNat (UInt8.ofNat c.toNat).toNat == c) = true := rfl
  have hword := List.all_eq_true.mp hall s (by simpa [isReserved] using hs)
  intro c hc
  have := List.all_eq_true.mp hword c hc
  simpa using this

/-- The identifier characters at a reserved word are the word. -/
theorem run_of_wordAt {s : String} {start stop : Nat} (h : wordAt src s p = some (start, stop))
    (hs : isReserved s = true) :
    asciiText src (layoutEnd src p) (runEnd isIdentByte src (layoutEnd src p)) = s.toList := by
  obtain ⟨⟨hh, hnext⟩, rfl, -⟩ := wordAt_some h
  rw [← String.length_toList] at hnext
  rw [runEnd,
    runLength_of_holds _ (Nat.le_refl _) hh (fun c hc => (reserved_ascii hs c hc).1) hnext]
  exact asciiText_of_holds hh fun c hc => (reserved_ascii hs c hc).2

/-- Where a reserved word stands there is no identifier. -/
theorem identAt_of_wordAt {s : String} {start stop : Nat} (h : wordAt src s p = some (start, stop))
    (hs : isReserved s = true) : identAt src p = none := by
  unfold identAt
  simp only [run_of_wordAt h hs, name, String.ofList_toList, hs, if_true]
  split <;> rfl

theorem wordAt_of_identAt {s : String} {m : Tree × Nat} (h : identAt src p = some m)
    (hs : isReserved s = true) : wordAt src s p = none := by
  rcases h' : wordAt src s p with _ | ⟨start, stop⟩
  · rfl
  · rw [identAt_of_wordAt h' hs] at h
    contradiction

/-- Two reserved words do not stand at the same place. -/
theorem wordAt_of_wordAt {s s' : String} {start stop : Nat}
    (h : wordAt src s p = some (start, stop)) (hs : isReserved s = true)
    (hs' : isReserved s' = true) (hne : s ≠ s') :
    wordAt src s' p = none := by
  rcases h' : wordAt src s' p with _ | ⟨start', stop'⟩
  · rfl
  · have heq := (run_of_wordAt h hs).symm.trans (run_of_wordAt h' hs')
    exact absurd (String.toList_inj.mp heq) hne

theorem identAt_of_typeAt {m : Tree × Nat} (h : typeAt src p = some m) : identAt src p = none := by
  simp only [typeAt, Option.or_eq_some_iff, Option.map_eq_some_iff] at h
  rcases h with ⟨⟨_, _⟩, h, -⟩ | ⟨-, ⟨_, _⟩, h, -⟩
  · exact identAt_of_wordAt h rfl
  · exact identAt_of_wordAt h rfl

theorem wordAt_of_typeAt {m : Tree × Nat} (h : typeAt src p = some m) :
    wordAt src "var" p = none := by
  simp only [typeAt, Option.or_eq_some_iff, Option.map_eq_some_iff] at h
  rcases h with ⟨⟨_, _⟩, h, -⟩ | ⟨-, ⟨_, _⟩, h, -⟩
  · exact wordAt_of_wordAt h rfl rfl (by decide)
  · exact wordAt_of_wordAt h rfl rfl (by decide)

/-- The bytes that no identifier starts with. -/
theorem start_byte {b : UInt8} (h : isIdentStart b = true) :
    b ≠ 40 ∧ b ≠ 45 ∧ b ≠ 33 ∧ isDigitByte b = false := by
  have hall : ∀ n < 256, isIdentStart (UInt8.ofNat n) = true →
      UInt8.ofNat n ≠ 40 ∧ UInt8.ofNat n ≠ 45 ∧ UInt8.ofNat n ≠ 33 ∧
        isDigitByte (UInt8.ofNat n) = false := by decide +kernel
  have := hall b.toNat b.toNat_lt
  rw [UInt8.ofNat_toNat] at this
  exact this h

theorem read_primary_ident {x : Tree} (hp : p ≤ src.size) (h : identAt src p = some (x, q)) :
    read src .primary p = some (.form .lookup (x.offset?.getD 0) [x], q) := by
  have hany : (src[layoutEnd src p]?).any isIdentStart = true := by
    rw [identAt] at h
    split at h
    · assumption
    · contradiction
  obtain ⟨b, hb, hstart⟩ := exists_of_any hany
  have hparen : litAt src "(" p = none :=
    litAt_none rfl (by rw [hb]; exact fun he => (start_byte hstart).1 (Option.some.inj he))
  have hfunction : read src .function p = none := by
    rw [read_function hp, wordAt_of_identAt h rfl]
    rfl
  rw [read_primary hp, eval_map, eval_parens, hparen, hfunction, h]
  rfl

theorem read_primary_none (hp : p ≤ src.size)
    (hb : (src[layoutEnd src p]?).any startsPrimary = false) : read src .primary p = none := by
  have hne {b : UInt8} (h : startsPrimary b = true) : src[layoutEnd src p]? ≠ some b := by
    intro he
    simp [he, h] at hb
  have hfunction : read src .function p = none := by
    rw [read_function hp, wordAt_none rfl (hne rfl)]
    rfl
  have hident : identAt src p = none := by
    rw [identAt, if_neg]
    intro h
    obtain ⟨b, hb', hc⟩ := exists_of_any h
    exact hne (by simp [startsPrimary, isIdentByte, hc]) hb'
  have hinteger : integerAt src p = none := by
    rw [integerAt, word?_asciiText, if_neg]
    · rfl
    · intro h
      obtain ⟨b, hb', hc⟩ := exists_of_any h
      exact hne (by simp [startsPrimary, isIdentByte, hc]) hb'
  rw [read_primary hp, hfunction, hident, hinteger, eval_map, eval_parens, litAt_none rfl (hne rfl)]
  rfl

section Starts

variable (hp : p ≤ src.size) (hprimary : read src .primary p = none)
  (hminus : litAt src "-" p = none) (hbang : litAt src "!" p = none)

include hp hprimary

theorem read_call_none : read src .call p = none := by
  rw [read_call hp, hprimary]
  rfl

include hminus

theorem read_unary_none : read src .unary p = none := by
  rw [read_unary hp, hminus, read_call_none hp hprimary]
  rfl

theorem read_mul_none : read src .mul p = none := by
  rw [read_eq _ hp, syntaxOf, eval_leftAssoc, read_unary_none hp hprimary hminus]
  rfl

theorem read_add_none : read src .add p = none := by
  rw [read_eq _ hp, syntaxOf, eval_leftAssoc, read_mul_none hp hprimary hminus]
  rfl

theorem read_compare_none : read src .compare p = none := by
  rw [read_compare hp, read_add_none hp hprimary hminus]
  rfl

include hbang

theorem read_not_none : read src .not p = none := by
  rw [read_not hp, hbang, read_compare_none hp hprimary hminus]
  rfl

theorem read_and_none : read src .and p = none := by
  rw [read_eq _ hp, syntaxOf, eval_leftAssoc, read_not_none hp hprimary hminus hbang]
  rfl

/-- An expression starts with a primary expression, a sign or a negation. -/
theorem read_expr_none : read src .expr p = none := by
  rw [read_eq _ hp, syntaxOf, eval_leftAssoc, read_and_none hp hprimary hminus hbang]
  rfl

end Starts

theorem settled_of_litAt {s : String} {start : Nat} (h : litAt src s p = some (start, q)) :
    Settled src q := by
  rw [(litAt_some h).2.2]
  exact settled_layoutEnd _ _

theorem repeatUpTo_preserves {α : Type} {P : Nat → Prop} {a : Nat → Option (α × Nat)}
    (ha : ∀ q x r, P q → a q = some (x, r) → P r) (limit : Nat) (hp : P p) :
    P (repeatUpTo a limit p).2 := by
  induction limit generalizing p with
  | zero => exact hp
  | succ limit ih =>
    unfold repeatUpTo
    cases h : a p with
    | none => exact hp
    | some m => exact ih (ha p m.1 m.2 hp h)

theorem settled_of_block {t : Tree} (h : read src .block p = some (t, q)) (hp : p ≤ src.size) :
    Settled src q := by
  simp only [read_block hp, Option.bind_eq_some_iff, Option.map_eq_some_iff, Prod.mk.injEq] at h
  obtain ⟨_, -, _, -, ⟨_, _⟩, h, -, rfl⟩ := h
  exact settled_of_litAt h

theorem settled_of_guardedBlock {s : String} {m : Nat × Tree × Tree} (hs : 0 < s.length)
    (h : eval src (read src) (guardedBlock s) p = some (m, q)) (hp : p ≤ src.size) :
    Settled src q := by
  simp only [eval_guardedBlock, Option.bind_eq_some_iff, Option.map_eq_some_iff, Prod.mk.injEq] at h
  obtain ⟨⟨_, q₁⟩, h₁, ⟨_, q₂⟩, h₂, ⟨_, q₃⟩, h₃, ⟨_, q₄⟩, h₄, ⟨_, q₅⟩, h₅, -, rfl⟩ := h
  have hsize₁ := (wordAt_lt h₁ hp hs).2
  have hsize₂ := (litAt_lt h₂ hsize₁ (by decide)).2
  have hsize₃ := (read_fits h₃ hsize₂).2.1
  exact settled_of_block h₅ (litAt_lt h₄ hsize₃ (by decide)).2

theorem settled_of_initializer {t : Tree}
    (h : eval src (read src) Pattern.initializer p = some (t, q)) : Settled src q := by
  simp only [eval_initializer, Option.bind_eq_some_iff, Option.map_eq_some_iff, Prod.mk.injEq] at h
  obtain ⟨_, -, _, -, ⟨_, _⟩, h, -, rfl⟩ := h
  exact settled_of_litAt h

theorem settled_of_wordExpr {s : String} {f : Form} {t : Tree}
    (h : eval src (read src) (wordExpr s f) p = some (t, q)) : Settled src q := by
  simp only [eval_wordExpr, Option.bind_eq_some_iff, Option.map_eq_some_iff, Prod.mk.injEq] at h
  obtain ⟨_, -, _, -, ⟨_, _⟩, h, -, rfl⟩ := h
  exact settled_of_litAt h

/-- No blanks are left behind a statement. -/
theorem settled_of_statement {t : Tree} (h : read src .statement p = some (t, q))
    (hp : p ≤ src.size) : Settled src q := by
  simp only [read_statement hp, Option.or_eq_some_iff] at h
  rcases h with h | ⟨-, h | ⟨-, h | ⟨-, h | ⟨-, h | ⟨-, h | ⟨-, h | ⟨-, h⟩⟩⟩⟩⟩⟩⟩
  · simp only [read_declare hp, Option.bind_eq_some_iff, Option.map_eq_some_iff, Prod.mk.injEq] at h
    obtain ⟨_, -, _, -, _, h, -, rfl⟩ := h
    exact settled_of_initializer h
  · simp only [read_assign hp, Option.bind_eq_some_iff, Option.map_eq_some_iff, Prod.mk.injEq] at h
    obtain ⟨_, -, _, h, -, rfl⟩ := h
    exact settled_of_initializer h
  · rw [read_print hp] at h
    exact settled_of_wordExpr h
  · simp only [read_ifElse hp, Option.bind_eq_some_iff, Option.map_eq_some_iff, Prod.mk.injEq] at h
    obtain ⟨⟨_, q₁⟩, h₁, ⟨_, q₂⟩, h₂, ⟨_, _⟩, h, -, rfl⟩ := h
    exact settled_of_block h (wordAt_lt h₂ (eval_fits h₁ hp).2.1 (by decide)).2
  · simp only [read_ifThen hp, Option.map_eq_some_iff, Prod.mk.injEq] at h
    obtain ⟨⟨_, _⟩, h, -, rfl⟩ := h
    exact settled_of_guardedBlock (by decide) h hp
  · simp only [read_whileDo hp, Option.map_eq_some_iff, Prod.mk.injEq] at h
    obtain ⟨⟨_, _⟩, h, -, rfl⟩ := h
    exact settled_of_guardedBlock (by decide) h hp
  · rw [read_ret hp] at h
    exact settled_of_wordExpr h
  · simp only [read_exprStatement hp, Option.bind_eq_some_iff, Option.map_eq_some_iff,
      Prod.mk.injEq] at h
    obtain ⟨_, -, ⟨_, _⟩, h, -, rfl⟩ := h
    exact settled_of_litAt h

def ofRead (o : Option (Tree × Nat)) : Outcome := o.map fun m => { node := m.1, stop := m.2 }

/-- What a rule comes to at an offset. -/
def reading (src : ByteArray) : Rule → Nat → Outcome
  | .space, p => some { node := .absent, stop := layoutEnd src p }
  | .program, p => ofRead (read src .program p)
  | .statement, p => ofRead (read src .statement p)
  | .declare, p => ofRead (read src .declare p)
  | .assign, p => ofRead (read src .assign p)
  | .print, p => ofRead (read src .print p)
  | .ifElse, p => ofRead (read src .ifElse p)
  | .ifThen, p => ofRead (read src .ifThen p)
  | .whileDo, p => ofRead (read src .whileDo p)
  | .ret, p => ofRead (read src .ret p)
  | .exprStatement, p => ofRead (read src .exprStatement p)
  | .block, p => ofRead (read src .block p)
  | .expr, p => ofRead (read src .expr p)
  | .and, p => ofRead (read src .and p)
  | .not, p => ofRead (read src .not p)
  | .compare, p => ofRead (read src .compare p)
  | .add, p => ofRead (read src .add p)
  | .mul, p => ofRead (read src .mul p)
  | .unary, p => ofRead (read src .unary p)
  | .call, p => ofRead (read src .call p)
  | .primary, p => ofRead (read src .primary p)
  | .paren, p => ofRead (eval src (read src) (map Prod.snd (parens (.rule .expr))) p)
  | .function, p => ofRead (read src .function p)
  | .param, p =>
    (eval src (read src) param p).map fun m =>
      { node := m.1.2, type := (m.1.1.bind Tree.name?).getD "", stop := m.2 }
  | .type, p => (typeAt src p).map fun m => { node := m.1, type := m.1.name?.getD "", stop := m.2 }
  | .ident, p => ofRead (identAt src p)
  | .integer, p => ofRead (integerAt src p)

/-- The outcome of a rule ends in the text. Only layout and programs can be empty. -/
theorem reading_fits {r : Rule} {m : Match} (hp : p ≤ src.size) (h : reading src r p = some m) :
    p ≤ m.stop ∧ m.stop ≤ src.size ∧ (r ≠ .space ∧ r ≠ .program → p < m.stop) := by
  have hread : ∀ {n}, ofRead (read src n p) = some m →
      p ≤ m.stop ∧ m.stop ≤ src.size ∧ (n ≠ .program → p < m.stop) := by
    intro n h
    obtain ⟨⟨t, q⟩, h₁, rfl⟩ := Option.map_eq_some_iff.mp h
    exact read_fits h₁ hp
  have hpattern : ∀ {α : Type} {a : Pattern α} {x : α} {q : Nat},
      eval src (read src) a p = some (x, q) →
      a.consumes ranking.nullable = true →
      p ≤ q ∧ q ≤ src.size ∧ (r ≠ .space ∧ r ≠ .program → p < q) := by
    intro α a x q h₁ ha
    obtain ⟨hle, hsize, hlt⟩ := eval_fits h₁ hp
    exact ⟨hle, hsize, fun _ => hlt ha⟩
  cases r with
  | space =>
    cases h
    exact ⟨le_layoutEnd src p, layoutEnd_le hp, fun hr => absurd rfl hr.1⟩
  | program => exact (hread h).imp_right fun h => h.imp_right fun _ hr => absurd rfl hr.2
  | paren =>
    obtain ⟨⟨t, q⟩, h₁, rfl⟩ := Option.map_eq_some_iff.mp h
    exact hpattern h₁ rfl
  | param =>
    obtain ⟨⟨t, q⟩, h₁, rfl⟩ := Option.map_eq_some_iff.mp h
    exact hpattern h₁ rfl
  | type =>
    obtain ⟨⟨t, q⟩, h₁, rfl⟩ := Option.map_eq_some_iff.mp h
    rw [← eval_type] at h₁
    exact hpattern h₁ rfl
  | ident =>
    obtain ⟨⟨t, q⟩, h₁, rfl⟩ := Option.map_eq_some_iff.mp h
    rw [← eval_ident] at h₁
    exact hpattern h₁ rfl
  | integer =>
    obtain ⟨⟨t, q⟩, h₁, rfl⟩ := Option.map_eq_some_iff.mp h
    rw [← eval_integer] at h₁
    exact hpattern h₁ rfl
  | _ => exact (hread h).imp_right fun h => h.imp_right fun h _ => h (by decide)

end ClosureLang.Grammar

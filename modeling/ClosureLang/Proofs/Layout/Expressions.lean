import ClosureLang.Proofs.Layout.Levels
import ClosureLang.Proofs.Tree.Similar

/-! The text of an expression is read back at the level of its strength. -/
namespace ClosureLang.Layout

open Grammar Peg ClosureLang.Tree

variable {src : ByteArray} {p k s : Nat} {text rest : String} {t : Tree}

/-- A text in which an expression of strength `k` ends, or goes on with an operation of the same
strength. Comparisons do not chain. -/
structure Stops (k : Nat) (rest : String) : Prop where
  parted : isParted rest = true
  le : ∀ c, (trimmed rest).head? = some c → opens (byteOf c) ≤ k ∧ (k = 4 → opens (byteOf c) ≠ 4)

theorem Stops.mono {j : Nat} (h : Stops j rest) (hk : j ≤ k) : Stops k rest := by
  refine ⟨h.parted, fun c hc => ?_⟩
  have := h.le c hc
  omega

/-- A token that is no operator ends every expression. -/
theorem stops_token {s : String} (hs : isSolid s = true)
    (h : (s.toList.head?).all
      (fun c => !isIdentByte (byteOf c) && decide (opens (byteOf c) = 0)) = true) :
    Stops k (s ++ rest) := by
  obtain ⟨c, cs, hcs⟩ := solid_cons hs
  simp only [hcs, List.head?_cons, Option.all_some, Bool.and_eq_true, Bool.not_eq_true',
    decide_eq_true_eq] at h
  refine ⟨by simp [isParted, hcs, h.1], fun d hd => ?_⟩
  rw [trimmed_of_solid hs, hcs] at hd
  obtain rfl : c = d := by simpa using hd
  omega

/-- Nothing but what continues a word extends a call. -/
theorem stops_of_parted (h : isParted rest = true) : Stops 7 rest := by
  refine ⟨h, fun c _ => ⟨?_, fun h => absurd h (by decide)⟩⟩
  unfold opens
  repeat' split
  all_goals decide

theorem stops_empty : Stops k "" := ⟨rfl, fun c hc => by simp [trimmed] at hc⟩

theorem Stops.next (h : Stops k rest) (ha : Ahead src p rest) :
    ∀ b, src[layoutEnd src p]? = some b → opens b ≤ k ∧ (k = 4 → opens b ≠ 4) := by
  intro b hb
  rw [ha.next] at hb
  obtain ⟨c, hc, rfl⟩ := Option.map_eq_some_iff.mp hb
  exact h.le c hc

/-- Where `text` stands, `t` is read at level `k` up to offsets, and grows by what follows. -/
def Denotes (k : Nat) (text : String) (t : Tree) : Prop :=
  ∀ src p rest, Stops k rest → Ahead src p (text ++ rest) →
    ∃ t' q, similar t' t = true ∧ Ahead src q rest ∧
      read src (levelRule k) p = some (extend src k t' q)

theorem Denotes.pred (hk : 1 ≤ k ∧ k ≤ 6) (h : Denotes (k + 1) text t) : Denotes k text t := by
  intro src p rest hrest ha
  obtain ⟨t', q, hsim, hq, hread⟩ := h src p rest (hrest.mono (Nat.le_succ k)) ha
  have hnext := hrest.next hq
  rw [extend_stop fun b hb => Nat.lt_succ_of_le (hnext b hb).1] at hread
  exact ⟨t', q, hsim, hq, read_level hk ha.le hread fun hk b hb => (hnext b hb).2 hk⟩

theorem Denotes.of_le {j : Nat} (hj : 1 ≤ j) (hjk : j ≤ k) (hk : k ≤ 7) (h : Denotes k text t) :
    Denotes j text t := by
  induction k with
  | zero => omega
  | succ k ih =>
    rcases Nat.lt_or_eq_of_le hjk with hlt | rfl
    · exact ih (by omega) (by omega) (h.pred (by omega))
    · exact h

/-- A whole expression. -/
theorem Denotes.read_expr (h : Denotes 1 text t) (hrest : Stops 0 rest)
    (ha : Ahead src p (text ++ rest)) :
    ∃ t' q, similar t' t = true ∧ Ahead src q rest ∧ read src .expr p = some (t', q) := by
  obtain ⟨t', q, hsim, hq, hread⟩ := h src p rest (hrest.mono (Nat.zero_le 1)) ha
  rw [extend_stop fun b hb => Nat.lt_succ_of_le (hrest.next hq b hb).1] at hread
  exact ⟨t', q, hsim, hq, hread⟩

theorem denotes_primary
    (h : ∀ src p rest, isParted rest = true → Ahead src p (text ++ rest) →
      ∃ t' q, similar t' t = true ∧ Ahead src q rest ∧ read src .primary p = some (t', q)) :
    Denotes 7 text t := by
  intro src p rest hrest ha
  obtain ⟨t', q, hsim, hq, hread⟩ := h src p rest hrest.parted ha
  refine ⟨t', q, hsim, hq, ?_⟩
  rw [levelRule, read_call ha.le, hread]
  · rfl
  all_goals simp

theorem Denotes.parens (h : Denotes 1 text t) : Denotes 7 ("(" ++ text ++ ")") t := by
  refine denotes_primary fun src p rest hrest ha => ?_
  simp only [String.append_assoc] at ha
  obtain ⟨start, q₁, h₁, ha₁⟩ := ha.lit rfl
  obtain ⟨t', q₂, hsim, ha₂, h₂⟩ := h.read_expr (stops_token rfl rfl) ha₁
  obtain ⟨stop, q₃, h₃, ha₃⟩ := ha₂.lit rfl
  refine ⟨t', q₃, hsim, ha₃, ?_⟩
  rw [read_primary ha.le, eval_map, eval_parens, h₁, Option.bind_some, eval_rule, h₂,
    Option.bind_some, h₃]
  rfl

/-- Parentheses stand where the level asks for more than the strength of an expression. -/
theorem Denotes.parenthesizeIf (h : Denotes s text t) (hs : 1 ≤ s ∧ s ≤ 7) (hk : 1 ≤ k ∧ k ≤ 7) :
    Denotes k (parenthesizeIf (s < k) text) t := by
  rw [Layout.parenthesizeIf]
  by_cases hsk : s < k
  · rw [if_pos (by simpa using hsk)]
    exact (h.of_le (Nat.le_refl 1) hs.1 hs.2).parens.of_le hk.1 hk.2 (Nat.le_refl 7)
  · rw [if_neg (by simpa using hsk)]
    exact h.of_le hk.1 (by omega) hs.2

theorem denotes_int {o : Int} {w : Int64} (hw : 0 ≤ w) :
    Denotes 7 (Decimal.wordText w) (int o w) := by
  refine denotes_primary fun src p rest hrest ha => ?_
  obtain ⟨start, q, hinteger, hq⟩ := ha.integer hw hrest
  obtain ⟨hsolid, -, hdigits, -⟩ := word_chars hw
  obtain ⟨c, cs, hcs⟩ := solid_cons hsolid
  have hnext := ha.head hsolid hcs
  have hdigit := digit_byte (hdigits c (by simp [hcs]))
  have hparen : litAt src "(" p = none :=
    litAt_none rfl (by rw [hnext]; exact fun he => hdigit.1 (Option.some.inj he))
  have hfunction : read src .function p = none := by
    rw [read_function ha.le,
      wordAt_none rfl (by rw [hnext]; exact fun he => hdigit.2.1 (Option.some.inj he))]
    rfl
  have hident : identAt src p = none := by simp [identAt, hnext, hdigit.2.2]
  refine ⟨int start w, q, similar_int, hq, ?_⟩
  rw [read_primary ha.le, eval_map, eval_parens, hparen, hfunction, hident, hinteger]
  rfl

theorem denotes_lookup {o : Int} {x : String} {t : Tree} (hx : IsName x)
    (ht : ∃ o', t = ident o' x) : Denotes 7 x (form .lookup o [t]) := by
  obtain ⟨o', rfl⟩ := ht
  refine denotes_primary fun src p rest hrest ha => ?_
  obtain ⟨start, q, hident, hq⟩ := ha.ident hx hrest
  refine ⟨form .lookup start [ident start x], q, ?_, hq, read_primary_ident ha.le hident⟩
  simp

theorem Denotes.not {o : Int} (h : Denotes 3 text t) :
    Denotes 3 ("!" ++ text) (form .not o [t]) := by
  intro src p rest hrest ha
  rw [String.append_assoc] at ha
  obtain ⟨start, q₁, h₁, ha₁⟩ := ha.lit rfl
  obtain ⟨t', q₂, hsim, ha₂, h₂⟩ := h src q₁ rest hrest ha₁
  refine ⟨form .not start [t'], q₂, ?_, ha₂, ?_⟩
  · simp [hsim]
  · have hread : read src .not q₁ = some (t', q₂) := h₂
    rw [levelRule, read_not ha.le, h₁, Option.bind_some, hread]
    rfl

/-- The symbol of `op'` stands where that of `op` does with a blank behind it. -/
def stands (op op' : BinaryOp) : Bool := op'.symbol.toList.isPrefixOf (op.symbol.toList ++ [' '])

theorem stands_eq (op op' : BinaryOp) (cs : List Char) :
    op'.symbol.toList.isPrefixOf (op.symbol.toList ++ ' ' :: cs) = stands op op' := by
  cases op <;> cases op' <;> rfl

theorem symbol_plain (op : BinaryOp) : isSolid op.symbol = true ∧ isPlainText op.symbol = true := by
  cases op <;> exact ⟨rfl, rfl⟩

/-- The first of the operators that stand at an offset is read. -/
theorem operatorAt_ahead {op : BinaryOp} {ops : List BinaryOp}
    (hop : ops.find? (stands op) = some op) (h : Ahead src p (op.symbol ++ (" " ++ rest))) :
    ∃ start q, operatorAt src ops p = some ((op, start), q) ∧ Ahead src q rest := by
  have hsolid := (symbol_plain op).1
  obtain ⟨start, q, hlit, hq⟩ := h.lit hsolid
  refine ⟨start, q, ?_, (ahead_blanks rfl).mp hq⟩
  induction ops with
  | nil => simp at hop
  | cons op' ops ih =>
    cases hstands : stands op op' with
    | true =>
      obtain rfl : op' = op := by simpa [hstands] using hop
      rw [operatorAt, hlit]
      rfl
    | false =>
      have hdrop := h.bytes
      rw [trimmed_of_solid hsolid] at hdrop
      have hnone : litAt src op'.symbol p = none := by
        rw [litAt, if_neg]
        rw [holds_of_drop hdrop (List.all_eq_true.mp (symbol_plain op').2)
          (trimmed_of_solid hsolid ▸ plain_of_trimmed h.plain), String.toList_append]
        simp only [String.reduceToList, List.cons_append, List.nil_append, stands_eq, hstands,
          Bool.false_eq_true, not_false_eq_true]
      rw [operatorAt, hnone]
      exact ih (by simpa [hstands] using hop)

theorem opens_operator {op : BinaryOp} {b : UInt8} (h : Ahead src p (" " ++ (op.symbol ++ rest)))
    (hb : src[layoutEnd src p]? = some b) : opens b = opStrength op := by
  obtain ⟨c, cs, hcs, hc⟩ := symbol_opens op
  rw [((ahead_blanks rfl).mp h).next, trimmed_of_solid (symbol_plain op).1, hcs] at hb
  obtain rfl := Option.some.inj hb
  exact hc

theorem stops_operator (op : BinaryOp) (hk : opStrength op ≤ k) (hk' : k ≠ 4) :
    Stops k (" " ++ (op.symbol ++ rest)) := by
  refine ⟨by simp [isParted]; rfl, fun c hc => ⟨?_, fun h => absurd h hk'⟩⟩
  obtain ⟨d, ds, hds, hd⟩ := symbol_opens op
  have htrimmed : trimmed (" " ++ (op.symbol ++ rest)) = trimmed (op.symbol ++ rest) := by
    rw [trimmed, String.toList_append]
    rfl
  rw [htrimmed, trimmed_of_solid (symbol_plain op).1, hds] at hc
  obtain rfl : d = c := by simpa using hc
  omega

theorem similar_binary {op : BinaryOp} {o o' : Int} {l l' r r' : Tree} (hl : similar l' l = true)
    (hr : similar r' r = true) : similar (binary op o' l' r') (binary op o l r) = true := by
  simp [binary, hl, hr]

section Binary

variable {op : BinaryOp} {o : Int} {left right : String} {l r : Tree}

/-- An operation whose operator chains to the left. -/
theorem denotes_operation {operand : Nonterminal} {ops : List BinaryOp}
    (hop : ops.find? (stands op) = some op) (hk : opStrength op ≠ 4)
    (hextend : ∀ src, extend src (opStrength op) = operationsAt src operand ops)
    (hoperand : ∀ {src p m}, p ≤ ByteArray.size src →
      read src (levelRule (opStrength op + 1)) p = some m → read src operand p = some m)
    (hl : Denotes (opStrength op) left l) (hr : Denotes (opStrength op + 1) right r) :
    Denotes (opStrength op) (left ++ " " ++ op.symbol ++ " " ++ right) (binary op o l r) := by
  intro src p rest hrest ha
  simp only [String.append_assoc] at ha
  obtain ⟨l', q₁, hsiml, ha₁, h₁⟩ := hl src p _ (stops_operator op (Nat.le_refl _) hk) ha
  obtain ⟨start, q₂, h₂, ha₂⟩ := operatorAt_ahead hop ((ahead_blanks rfl).mp ha₁)
  obtain ⟨r', q₃, hsimr, ha₃, h₃⟩ := hr src q₂ rest (hrest.mono (Nat.le_succ _)) ha₂
  rw [extend_stop fun b hb => Nat.lt_succ_of_le (hrest.next ha₃ b hb).1] at h₃
  have hstep : operationAt src operand ops q₁ = some (((op, start), r'), q₃) := by
    rw [operationAt, h₂, Option.bind_some, hoperand ha₂.le h₃]
    rfl
  refine ⟨binary op start l' r', q₃, similar_binary hsiml hsimr, ha₃, ?_⟩
  rw [h₁, hextend, operationsAt_step ha₁.le hstep]
  rfl

theorem denotes_comparison (hk : opStrength op = 4)
    (hl : Denotes 5 left l) (hr : Denotes 5 right r) :
    Denotes 4 (left ++ " " ++ op.symbol ++ " " ++ right) (binary op o l r) := by
  intro src p rest hrest ha
  simp only [String.append_assoc] at ha
  have hop : [BinaryOp.le, .ge, .eq, .ne, .lt, .gt].find? (stands op) = some op := by
    cases op <;> first | contradiction | rfl
  obtain ⟨l', q₁, hsiml, ha₁, h₁⟩ := hl src p _ (stops_operator op (by omega) (by decide)) ha
  rw [extend_stop fun b hb => by have := opens_operator ha₁ hb; omega] at h₁
  obtain ⟨start, q₂, h₂, ha₂⟩ := operatorAt_ahead hop ((ahead_blanks rfl).mp ha₁)
  obtain ⟨r', q₃, hsimr, ha₃, h₃⟩ := hr src q₂ rest (hrest.mono (Nat.le_succ _)) ha₂
  rw [extend_stop fun b hb => Nat.lt_succ_of_le (hrest.next ha₃ b hb).1] at h₃
  have hadd : read src .add p = some (l', q₁) := h₁
  have hadd' : read src .add q₂ = some (r', q₃) := h₃
  refine ⟨binary op start l' r', q₃, similar_binary hsiml hsimr, ha₃, ?_⟩
  rw [levelRule, read_compare ha.le, hadd, Option.map_some, operationAt, h₂,
    Option.bind_some, hadd']
  rfl

theorem denotes_binary (hl : Denotes (operandStrengths op).1 left l)
    (hr : Denotes (operandStrengths op).2 right r) :
    Denotes (opStrength op) (left ++ " " ++ op.symbol ++ " " ++ right) (binary op o l r) := by
  cases op with
  | lt | gt | le | ge | eq | ne => exact denotes_comparison rfl hl hr
  | add | sub | and | or =>
    exact denotes_operation rfl (by decide) (fun _ => rfl) (fun _ h => h) hl hr
  | mul | div => exact denotes_operation rfl (by decide) (fun _ => rfl) read_unary_of_call hl hr

end Binary

section Items

variable {α β : Type} {item : Pattern α} {R : α → β → Prop} {texts : List String} {ys : List β}

/-- Where `text` stands in a list, an item is read that is related to `y`. -/
def DenotesItem (item : Pattern α) (R : α → β → Prop) (text : String) (y : β) : Prop :=
  ∀ src p rest, Stops 0 rest → Ahead src p (text ++ rest) →
    ∃ x q, Peg.eval src (read src) item p = some (x, q) ∧ R x y ∧ Ahead src q rest

/-- Items behind the first of a list. -/
def tailText : List String → String
  | [] => ""
  | t :: ts => "," ++ (" " ++ (t ++ tailText ts))

theorem join_cons (t : String) (ts : List String) :
    Text.join ", " (t :: ts) = t ++ tailText ts := by
  have hfold : ∀ s, ts.foldl (fun acc t => acc ++ ", " ++ t) s = s ++ tailText ts := by
    induction ts with
    | nil => simp [tailText]
    | cons t ts ih =>
      intro s
      rw [List.foldl_cons, ih, tailText, show ", " = "," ++ " " from rfl]
      simp only [String.append_assoc]
  exact hfold t

theorem commaItemAt_fits {m : α × Nat} (hp : p ≤ src.size) (h : commaItemAt src item p = some m) :
    p < m.2 ∧ m.2 ≤ src.size := by
  obtain ⟨⟨start, stop⟩, hl, hm⟩ := Option.bind_eq_some_iff.mp h
  obtain ⟨hlt, hle⟩ := litAt_lt hl hp (by decide)
  have := eval_fits (x := m.1) (q := m.2) hm hle
  omega

theorem stops_tailText (texts : List String) : Stops k (tailText texts ++ (")" ++ rest)) := by
  cases texts with
  | nil =>
    rw [tailText, String.empty_append]
    exact stops_token rfl rfl
  | cons t ts =>
    rw [tailText, String.append_assoc]
    exact stops_token rfl rfl

theorem read_tailText (hitems : List.Forall₂ (DenotesItem item R) texts ys)
    (h : Ahead src p (tailText texts ++ (")" ++ rest))) :
    ∃ xs q, repeatUpTo (commaItemAt src item) (src.size + 1) p = (xs, q) ∧ List.Forall₂ R xs ys ∧
      Ahead src q (")" ++ rest) := by
  induction hitems generalizing p with
  | nil =>
    rw [tailText, String.empty_append] at h
    have hnone : litAt src "," p = none := by
      refine litAt_none rfl ?_
      rw [h.head rfl rfl]
      decide
    exact ⟨[], p, by simp [repeatUpTo, commaItemAt, hnone], .nil, h⟩
  | @cons text y texts ys hitem _ ih =>
    simp only [tailText, String.append_assoc] at h
    obtain ⟨start, q₁, h₁, ha₁⟩ := h.lit rfl
    obtain ⟨x, q₂, h₂, hx, ha₂⟩ := hitem src q₁ _ (stops_tailText texts) ((ahead_blanks rfl).mp ha₁)
    obtain ⟨xs, q₃, h₃, hxs, ha₃⟩ := ih ha₂
    have hstep : commaItemAt src item p = some (x, q₂) := by
      rw [commaItemAt, h₁, Option.bind_some, h₂]
    refine ⟨x :: xs, q₃, ?_, .cons hx hxs, ha₃⟩
    rw [repeatUpTo_step (fun q m => commaItemAt_fits) h.le hstep, h₃]

/-- A list in parentheses. -/
theorem read_items (hitems : List.Forall₂ (DenotesItem item R) texts ys)
    (hnone : ∀ p, Ahead src p (")" ++ rest) → Peg.eval src (read src) item p = none)
    (h : Ahead src p ("(" ++ (Text.join ", " texts ++ (")" ++ rest)))) :
    ∃ start xs q, Peg.eval src (read src) (Pattern.parens (Pattern.list item)) p =
      some ((start, xs), q) ∧
      List.Forall₂ R xs ys ∧ Ahead src q rest := by
  obtain ⟨start, q₁, h₁, ha₁⟩ := h.lit rfl
  cases hitems with
  | nil =>
    simp only [Text.join, String.empty_append] at ha₁
    obtain ⟨stop, q₂, h₂, ha₂⟩ := ha₁.lit rfl
    refine ⟨start, [], q₂, ?_, .nil, ha₂⟩
    simp [h₁, hnone q₁ ha₁, h₂]
  | @cons text y texts ys hitem hitems =>
    rw [join_cons, String.append_assoc] at ha₁
    obtain ⟨x, q₂, h₂, hx, ha₂⟩ := hitem src q₁ _ (stops_tailText texts) ha₁
    obtain ⟨xs, q₃, h₃, hxs, ha₃⟩ := read_tailText hitems ha₂
    obtain ⟨stop, q₄, h₄, ha₄⟩ := ha₃.lit rfl
    refine ⟨start, x :: xs, q₄, ?_, .cons hx hxs, ha₄⟩
    simp [h₁, h₂, h₃, h₄]

end Items

theorem read_expr_closed (h : Ahead src p (")" ++ rest)) : read src .expr p = none := by
  have hnext := h.head rfl rfl
  exact read_expr_none h.le (read_primary_none h.le (by rw [hnext]; rfl))
    (litAt_none rfl (by rw [hnext]; decide)) (litAt_none rfl (by rw [hnext]; decide))

theorem Denotes.call {o o' : Int} {args : List Tree} {texts : List String} (h : Denotes 7 text t)
    (hargs : List.Forall₂ (Denotes 1) texts args) :
    Denotes 7 (text ++ "(" ++ Text.join ", " texts ++ ")")
      (form .call o [t, form .arguments o' args]) := by
  intro src p rest hrest ha
  simp only [String.append_assoc] at ha
  obtain ⟨t', q₁, hsim, ha₁, h₁⟩ := h src p _ (stops_of_parted (by simp [isParted]; rfl)) ha
  have hitems :
      List.Forall₂ (DenotesItem (.rule .expr) fun t u => similar t u = true) texts args := by
    refine hargs.imp fun text t ht src p rest hrest ha => ?_
    obtain ⟨t', q, hsim, hq, hread⟩ := ht.read_expr hrest ha
    exact ⟨t', q, hread, hsim, hq⟩
  obtain ⟨start, args', q₂, h₂, hsims, ha₂⟩ := read_items hitems (fun p => read_expr_closed) ha₁
  refine ⟨form .call start [t', form .arguments start args'], q₂, ?_, ha₂, ?_⟩
  · simp [hsim, agreeAll_of_similar hsims]
  · have hstep : argumentsAt src q₁ = some ((start, args'), q₂) := h₂
    rw [h₁, extend, callsAt_step ha₁.le hstep]
    rfl

end ClosureLang.Layout

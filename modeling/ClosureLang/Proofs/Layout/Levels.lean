import ClosureLang.Layout
import ClosureLang.Proofs.Grammar.Ahead

/-! The levels of the expression grammar and the strengths of operators. -/
namespace ClosureLang.Layout

open Grammar Peg

variable {src : ByteArray} {p q k : Nat} {t lhs : Tree} {operand : Nonterminal}
  {ops : List BinaryOp}

/-- The nonterminal that reads expressions of a strength and above. -/
def levelRule : Nat → Nonterminal
  | 0 | 1 => .expr
  | 2 => .and
  | 3 => .not
  | 4 => .compare
  | 5 => .add
  | 6 => .mul
  | _ => .call

/-- The left operand and all operations that follow it. -/
def operationsAt (src : ByteArray) (operand : Nonterminal) (ops : List BinaryOp) (lhs : Tree)
    (p : Nat) : Tree × Nat :=
  ((repeatUpTo (operationAt src operand ops) (src.size + 1) p).1.foldl Pattern.apply lhs,
    (repeatUpTo (operationAt src operand ops) (src.size + 1) p).2)

/-- The callee and all argument lists that follow it. -/
def callsAt (src : ByteArray) (callee : Tree) (p : Nat) : Tree × Nat :=
  ((repeatUpTo (argumentsAt src) (src.size + 1) p).1.foldl Pattern.callTree callee,
    (repeatUpTo (argumentsAt src) (src.size + 1) p).2)

/-- What an expression grows to at its level when more of the level follows it. -/
def extend (src : ByteArray) : Nat → Tree → Nat → Tree × Nat
  | 0 | 1 => operationsAt src .and [.or]
  | 2 => operationsAt src .not [.and]
  | 5 => operationsAt src .mul [.add, .sub]
  | 6 => operationsAt src .unary [.mul, .div]
  | 7 => callsAt src
  | _ => Prod.mk

/-- The strength of the operators and calls that can start with a byte, zero if there are none. -/
def opens (b : UInt8) : Nat :=
  if b = 124 then 1
  else if b = 38 then 2
  else if b = 60 || b = 61 || b = 62 || b = 33 then 4
  else if b = 43 || b = 45 then 5
  else if b = 42 || b = 47 then 6
  else if b = 40 then 7
  else 0

theorem symbol_opens (op : BinaryOp) :
    ∃ c cs, op.symbol.toList = c :: cs ∧ opens (byteOf c) = opStrength op := by
  cases op <;> exact ⟨_, _, rfl, rfl⟩

theorem operatorAt_none
    (h : ∀ b, src[layoutEnd src p]? = some b → ∀ op ∈ ops, opens b ≠ opStrength op) :
    operatorAt src ops p = none := by
  induction ops with
  | nil => rfl
  | cons op ops ih =>
    obtain ⟨c, cs, hcs, hc⟩ := symbol_opens op
    have hlit : litAt src op.symbol p = none := by
      refine litAt_none hcs fun hb => h _ hb op (by simp) ?_
      rw [← hc]
    rw [operatorAt, hlit, ih fun b hb op' hop => h b hb op' (by simp [hop])]
    rfl

theorem operatorAt_some {m : (BinaryOp × Nat) × Nat} (h : operatorAt src ops p = some m) :
    litAt src m.1.1.symbol p = some (m.1.2, m.2) := by
  induction ops with
  | nil => simp [operatorAt] at h
  | cons op ops ih =>
    rw [operatorAt, Option.or_eq_some_iff] at h
    rcases h with h | ⟨-, h⟩
    · obtain ⟨l, hl, rfl⟩ := Option.map_eq_some_iff.mp h
      exact hl
    · exact ih h

theorem operationAt_fits {m : ((BinaryOp × Nat) × Tree) × Nat} (hp : p ≤ src.size)
    (h : operationAt src operand ops p = some m) : p < m.2 ∧ m.2 ≤ src.size := by
  simp only [operationAt, Option.bind_eq_some_iff, Option.map_eq_some_iff] at h
  obtain ⟨o, ho, m', hm, rfl⟩ := h
  have hpos : 0 < o.1.1.symbol.length := by cases o.1.1 <;> decide
  obtain ⟨hlt, hle⟩ := litAt_lt (operatorAt_some ho) hp hpos
  have := read_fits hm hle
  exact ⟨by omega, this.2.1⟩

theorem argumentsAt_fits {m : (Nat × List Tree) × Nat} (hp : p ≤ src.size)
    (h : argumentsAt src p = some m) : p < m.2 ∧ m.2 ≤ src.size := by
  obtain ⟨-, hle, hlt⟩ := eval_fits (x := m.1) (q := m.2) h hp
  exact ⟨hlt rfl, hle⟩

/-- A repetition goes on behind its first match as from the start. -/
theorem repeatUpTo_step {α : Type} {g : Nat → Option (α × Nat)} {x : α}
    (hg : ∀ q m, q ≤ src.size → g q = some m → q < m.2 ∧ m.2 ≤ src.size) (hp : p ≤ src.size)
    (h : g p = some (x, q)) :
    repeatUpTo g (src.size + 1) p =
      (x :: (repeatUpTo g (src.size + 1) q).1, (repeatUpTo g (src.size + 1) q).2) := by
  obtain ⟨hlt, hle⟩ := hg p (x, q) hp h
  rw [repeatUpTo, h, Ranking.repeatUpTo_succ src.size hg hle (by simp only at hlt; omega)]

theorem operationsAt_step {o : (BinaryOp × Nat) × Tree} (hp : p ≤ src.size)
    (h : operationAt src operand ops p = some (o, q)) :
    operationsAt src operand ops lhs p = operationsAt src operand ops (Pattern.apply lhs o) q := by
  rw [operationsAt, repeatUpTo_step (fun q m => operationAt_fits) hp h]
  rfl

theorem callsAt_step {m : Nat × List Tree} (hp : p ≤ src.size)
    (h : argumentsAt src p = some (m, q)) :
    callsAt src lhs p = callsAt src (Pattern.callTree lhs m) q := by
  rw [callsAt, repeatUpTo_step (fun q m => argumentsAt_fits) hp h]
  rfl

theorem operationsAt_stop (h : operatorAt src ops p = none) :
    operationsAt src operand ops lhs p = (lhs, p) := by
  simp [operationsAt, repeatUpTo, operationAt, h]

theorem callsAt_stop (h : ∀ b, src[layoutEnd src p]? = some b → opens b < 7) :
    callsAt src lhs p = (lhs, p) := by
  have hlit : litAt src "(" p = none := litAt_none rfl fun hb => absurd (h _ hb) (by decide)
  simp [callsAt, repeatUpTo, argumentsAt, hlit]

/-- An expression does not grow where nothing of its level follows. -/
theorem extend_stop (h : ∀ b, src[layoutEnd src p]? = some b → opens b < k) :
    extend src k t p = (t, p) := by
  have hstop {ops : List BinaryOp} (hops : ∀ op ∈ ops, k ≤ opStrength op) {operand : Nonterminal} :
      operationsAt src operand ops t p = (t, p) := by
    refine operationsAt_stop (operatorAt_none fun b hb op hop he => ?_)
    have := h b hb
    have := hops op hop
    omega
  unfold extend
  split
  · exact hstop (by simp)
  · exact hstop (by simp [opStrength])
  · exact hstop (by simp [opStrength])
  · exact hstop (by simp [opStrength])
  · exact hstop (by simp [opStrength])
  · exact callsAt_stop h
  · rfl

theorem read_unary_of_call {m : Tree × Nat} (hp : p ≤ src.size) (h : read src .call p = some m) :
    read src .unary p = some m := by
  rcases hminus : litAt src "-" p with _ | ⟨start, stop⟩
  · rw [read_unary hp, hminus, h]
    rfl
  · obtain ⟨hh, rfl, -⟩ := litAt_some hminus
    have hprimary := read_primary_none hp (by rw [holds_head hh]; rfl)
    rw [read_call_none hp hprimary] at h
    contradiction

theorem read_not_of_compare {m : Tree × Nat} (hp : p ≤ src.size)
    (h : read src .compare p = some m) : read src .not p = some m := by
  rcases hbang : litAt src "!" p with _ | ⟨start, stop⟩
  · rw [read_not hp, hbang, h]
    rfl
  · obtain ⟨hh, rfl, -⟩ := litAt_some hbang
    have hprimary := read_primary_none hp (by rw [holds_head hh]; rfl)
    rw [read_compare_none hp hprimary (litAt_none rfl (by rw [holds_head hh]; decide))] at h
    contradiction

theorem read_leftAssoc {n : Nonterminal} (hn : syntaxOf n = Pattern.leftAssoc operand ops)
    (hp : p ≤ src.size) (h : read src operand p = some (t, q)) :
    read src n p = some (operationsAt src operand ops t q) := by
  rw [read_eq _ hp, hn, eval_leftAssoc, h]
  rfl

theorem read_compare_of_add (hp : p ≤ src.size) (h : read src .add p = some (t, q))
    (hq : ∀ b, src[layoutEnd src q]? = some b → opens b ≠ 4) :
    read src .compare p = some (t, q) := by
  have hnone : operatorAt src [.le, .ge, .eq, .ne, .lt, .gt] q = none :=
    operatorAt_none fun b hb => by simpa [opStrength] using hq b hb
  simp [read_compare hp, h, operationAt, hnone]

/-- An expression of the next level is one of this level, and grows by what follows it. -/
theorem read_level (hk : 1 ≤ k ∧ k ≤ 6) (hp : p ≤ src.size)
    (h : read src (levelRule (k + 1)) p = some (t, q))
    (hcompare : k = 4 → ∀ b, src[layoutEnd src q]? = some b → opens b ≠ 4) :
    read src (levelRule k) p = some (extend src k t q) := by
  match k, hk with
  | 1, _ | 2, _ | 5, _ => exact read_leftAssoc rfl hp h
  | 3, _ => exact read_not_of_compare hp h
  | 4, _ => exact read_compare_of_add hp h (hcompare rfl)
  | 6, _ => exact read_leftAssoc rfl hp (read_unary_of_call hp h)

end ClosureLang.Layout

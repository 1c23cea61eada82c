import ClosureLang.Proofs.Grammar.Readings
import ClosureLang.Proofs.Grammar.Sorts

/-! The body of every rule comes to what the grammar says, whatever the rules it applies do to the
table. Two ways of applying rules are followed at once, so that they can be compared. -/
namespace ClosureLang.Grammar

open Peg Pattern

variable {α β : Type} {S : Memo → Memo → Prop}

/-- From tables related by `S`, both actions give `a` and leave related tables. -/
def Yields (S : Memo → Memo → Prop) (x y : Parse α) (a : α) : Prop :=
  ∀ m n, S m n → (x m).1 = a ∧ (y n).1 = a ∧ S (x m).2 (y n).2

namespace Yields

theorem done {a b : α} (h : a = b) : Yields S (pure a : Parse α) (pure a) b := by
  intro m n hmn
  exact ⟨h, h, hmn⟩

theorem bind {x y : Parse α} {f g : α → Parse β} {a : α} {b : β} (hx : Yields S x y a)
    (hf : Yields S (f a) (g a) b) : Yields S (x >>= f) (y >>= g) b := by
  intro m n hmn
  obtain ⟨h₁, h₂, hS⟩ := hx m n hmn
  have hrest := hf _ _ hS
  have hm : (x >>= f) m = f a (x m).2 := by rw [← h₁]; rfl
  have hn : (y >>= g) n = g a (y n).2 := by rw [← h₂]; rfl
  rwa [hm, hn]

theorem next {a : α} {f g : α → Parse β} {b : β} (h : Yields S (f a) (g a) b) :
    Yields S (pure a >>= f) (pure a >>= g) b :=
  bind (.done rfl) h

/-- An action whose failure is that of the whole. -/
theorem orNone {x y : Parse (Option α)} {f g : Option α → Parse (Option β)} {o : Option α}
    {v : Option β} (hx : Yields S x y o) (hf : f none = pure none) (hg : g none = pure none)
    (hnone : o = none → v = none)
    (hsome : ∀ a, o = some a → Yields S (f (some a)) (g (some a)) v) :
    Yields S (x >>= f) (y >>= g) v := by
  refine hx.bind ?_
  cases o with
  | none =>
    rw [hf, hg]
    exact .done (hnone rfl).symm
  | some a => exact hsome a rfl

theorem readOrNone {x y : Parse Outcome} {f g : Outcome → Parse (Option β)}
    {o : Option (Tree × Nat)} {v : Option β} (hx : Yields S x y (ofRead o))
    (hf : f none = pure none) (hg : g none = pure none) (hnone : o = none → v = none)
    (hsome : ∀ t q, o = some (t, q) →
      Yields S (f (some { node := t, stop := q })) (g (some { node := t, stop := q })) v) :
    Yields S (x >>= f) (y >>= g) v := by
  cases o with
  | none => exact hx.orNone hf hg (fun _ => hnone rfl) (by simp [ofRead])
  | some m =>
    refine hx.orNone hf hg (by simp [ofRead]) ?_
    intro a ha
    simp only [ofRead, Option.map_some, Option.some.injEq] at ha
    exact ha ▸ hsome m.1 m.2 rfl

end Yields

/-- Tables stay related when a missing token is recorded in both. -/
def Recording (S : Memo → Memo → Prop) : Prop := ∀ m n p, S m n → S (m.reach p) (n.reach p)

theorem yields_missing (hS : Recording S) (p : Nat) :
    Yields S (missing p : Parse (Option α)) (missing p) none := by
  intro m n hmn
  exact ⟨rfl, rfl, hS m n p hmn⟩

/-- A rule leads only to rules of lower rank at the same offset. -/
def Rule.rank : Rule → Nat
  | .space => 0
  | .ident | .integer | .type | .block | .function | .paren | .print | .ret | .ifThen | .whileDo =>
    1
  | .param | .primary | .declare | .assign | .ifElse => 2
  | .call => 3
  | .unary => 4
  | .mul => 5
  | .add => 6
  | .compare => 7
  | .not => 8
  | .and => 9
  | .expr => 10
  | .exprStatement => 11
  | .statement => 12
  | .program => 13

variable {src : ByteArray} {apply apply' : Rule → Nat → Parse Outcome} {k p q : Nat}

/-- Both ways of applying rules are right about all applications that the body of a rule of rank `k`
can make at `p`. -/
structure Known (S : Memo → Memo → Prop) (src : ByteArray)
    (apply apply' : Rule → Nat → Parse Outcome) (k p : Nat) : Prop where
  lower : ∀ r q, p ≤ q → q ≤ src.size → r.rank < k →
      Yields S (apply r q) (apply' r q) (reading src r q)
  ahead : ∀ r q, p < q → q ≤ src.size → Yields S (apply r q) (apply' r q) (reading src r q)

section Tokens

variable (hS : Recording S) (known : Known S src apply apply' k p) (hk : 0 < k)

theorem yields_skip (known : Known S src apply apply' k p) (hk : 0 < k) (hpq : p ≤ q)
    (hq : q ≤ src.size) : Yields S (skip apply q) (skip apply' q) (layoutEnd src q) :=
  (known.lower .space q hpq hq hk).bind (.done rfl)

include hS known hk

theorem yields_literal (s : String) (hpq : p ≤ q) (hq : q ≤ src.size) :
    Yields S (literal src apply q s) (literal src apply' q s) (litAt src s q) := by
  have hstart := Nat.le_trans hpq (le_layoutEnd src q)
  refine (yields_skip known hk hpq hq).bind ?_
  unfold litAt
  split
  · rename_i hh
    have hstop := holds_le hh (layoutEnd_le hq)
    rw [String.length_toList] at hstop
    exact (yields_skip known hk (by omega) hstop).bind (.done rfl)
  · exact yields_missing hS _

theorem yields_keyword (s : String) (hpq : p ≤ q) (hq : q ≤ src.size) :
    Yields S (keyword src apply q s) (keyword src apply' q s) (wordAt src s q) := by
  have hstart := Nat.le_trans hpq (le_layoutEnd src q)
  refine (yields_skip known hk hpq hq).bind ?_
  unfold wordAt
  dsimp only
  split
  · rename_i hh
    have hstop := holds_le (Bool.and_eq_true_iff.mp hh).1 (layoutEnd_le hq)
    rw [String.length_toList] at hstop
    exact (yields_skip known hk (by omega) hstop).bind (.done rfl)
  · exact yields_missing hS _

theorem yields_initializer (hpq : p < q) (hq : q ≤ src.size) :
    Yields S (initializer src apply q) (initializer src apply' q)
      (ofRead (eval src (read src) Pattern.initializer q)) := by
  refine (yields_literal hS known hk "=" (by omega) hq).orNone rfl rfl
    (fun h => by simp [ofRead, h]) ?_
  rintro ⟨s₁, q₁⟩ h₁
  obtain ⟨hq₁, hsize₁⟩ := litAt_lt h₁ hq (by decide)
  refine (known.ahead .expr q₁ (by omega) hsize₁).readOrNone rfl rfl
    (fun h => by simp [ofRead, h₁, h]) ?_
  intro t q₂ h₂
  obtain ⟨hq₂, hsize₂, -⟩ := read_fits h₂ hsize₁
  refine (yields_literal hS known hk ";" (by omega) hsize₂).orNone rfl rfl
    (fun h => by simp [ofRead, h₁, h₂, h]) ?_
  rintro ⟨s₃, q₃⟩ h₃
  exact .done (by simp [ofRead, h₁, h₂, h₃])

theorem yields_keywordExpr (s : String) (f : Form) (hs : 0 < s.length) (hp : p ≤ src.size) :
    Yields S (keywordExpr src apply s f p) (keywordExpr src apply' s f p)
      (ofRead (eval src (read src) (wordExpr s f) p)) := by
  refine (yields_keyword hS known hk s (Nat.le_refl p) hp).orNone rfl rfl
    (fun h => by simp [ofRead, h]) ?_
  rintro ⟨s₁, q₁⟩ h₁
  obtain ⟨hq₁, hsize₁⟩ := wordAt_lt h₁ hp hs
  refine (known.ahead .expr q₁ hq₁ hsize₁).readOrNone rfl rfl
    (fun h => by simp [ofRead, h₁, h]) ?_
  intro t q₂ h₂
  obtain ⟨hq₂, hsize₂, -⟩ := read_fits h₂ hsize₁
  refine (yields_literal hS known hk ";" (by omega) hsize₂).orNone rfl rfl
    (fun h => by simp [ofRead, h₁, h₂, h]) ?_
  rintro ⟨s₃, q₃⟩ h₃
  exact .done (by simp [ofRead, h₁, h₂, h₃])

theorem yields_conditional (s : String) (f : Form) (hs : 0 < s.length) (hp : p ≤ src.size) :
    Yields S (conditional src apply s f p) (conditional src apply' s f p)
      (ofRead ((eval src (read src) (guardedBlock s) p).map fun m =>
        (.form f m.1.1 [m.1.2.1, m.1.2.2], m.2))) := by
  refine (yields_keyword hS known hk s (Nat.le_refl p) hp).orNone rfl rfl
    (fun h => by simp [ofRead, h]) ?_
  rintro ⟨s₁, q₁⟩ h₁
  obtain ⟨hq₁, hsize₁⟩ := wordAt_lt h₁ hp hs
  refine (yields_literal hS known hk "(" (by omega) hsize₁).orNone rfl rfl
    (fun h => by simp [ofRead, h₁, h]) ?_
  rintro ⟨s₂, q₂⟩ h₂
  obtain ⟨hq₂, hsize₂⟩ := litAt_lt h₂ hsize₁ (by decide)
  refine (known.ahead .expr q₂ (by omega) hsize₂).readOrNone rfl rfl
    (fun h => by simp [ofRead, h₁, h₂, h]) ?_
  intro c q₃ h₃
  obtain ⟨hq₃, hsize₃, -⟩ := read_fits h₃ hsize₂
  refine (yields_literal hS known hk ")" (by omega) hsize₃).orNone rfl rfl
    (fun h => by simp [ofRead, h₁, h₂, h₃, h]) ?_
  rintro ⟨s₄, q₄⟩ h₄
  obtain ⟨hq₄, hsize₄⟩ := litAt_lt h₄ hsize₃ (by decide)
  refine (known.ahead .block q₄ (by omega) hsize₄).readOrNone rfl rfl
    (fun h => by simp [ofRead, h₁, h₂, h₃, h₄, h]) ?_
  intro b q₅ h₅
  exact .done (by simp [ofRead, h₁, h₂, h₃, h₄, h₅])

end Tokens

section Statements

variable (hS : Recording S) (hp : p ≤ src.size)

include hS hp

theorem yields_declareRule (known : Known S src apply apply' 2 p) :
    Yields S (declareRule src apply p) (declareRule src apply' p)
      (ofRead (read src .declare p)) := by
  refine (yields_keyword hS known (by decide) "var" (Nat.le_refl p) hp).bind ?_
  rw [read_declare hp, declareHeadAt]
  rcases h₁ : wordAt src "var" p with _ | ⟨s₁, q₁⟩
  · rw [Option.map_none, Option.none_or]
    refine (known.lower .type p (Nat.le_refl p) hp (by decide)).orNone rfl rfl ?_ ?_
    · intro h
      have h : typeAt src p = none := by simpa only [reading, Option.map_eq_none_iff] using h
      simp only [h, Option.map_none, Option.bind_none, ofRead]
    · intro m hm
      rcases h₂ : typeAt src p with _ | ⟨t, q₂⟩
      · simp [reading, h₂] at hm
      have hm : m = { node := t, type := t.name?.getD "", stop := q₂ } := by
        simpa only [reading, h₂, Option.map_some, Option.some.injEq, eq_comm] using hm
      subst hm
      rw [Option.map_some, Option.bind_some]
      obtain ⟨hq₂, hsize₂⟩ := typeAt_fits h₂ hp
      refine (known.ahead .ident q₂ hq₂ hsize₂).readOrNone rfl rfl (fun h => by simp [ofRead, h]) ?_
      intro x q₃ h₃
      obtain ⟨hq₃, hsize₃⟩ := identAt_fits h₃ hsize₂
      refine (yields_initializer hS known (by decide) (by omega) hsize₃).readOrNone rfl rfl
        (fun h => by simp [ofRead, h₃, h, -eval_initializer]) ?_
      intro v q₄ h₄
      exact .done (by simp [ofRead, h₃, h₄, -eval_initializer])
  · rw [Option.map_some, Option.some_or, Option.bind_some]
    obtain ⟨hq₁, hsize₁⟩ := wordAt_lt h₁ hp (by decide)
    refine (known.ahead .ident q₁ hq₁ hsize₁).readOrNone rfl rfl (fun h => by simp [ofRead, h]) ?_
    intro x q₃ h₃
    obtain ⟨hq₃, hsize₃⟩ := identAt_fits h₃ hsize₁
    refine (yields_initializer hS known (by decide) (by omega) hsize₃).readOrNone rfl rfl
      (fun h => by simp [ofRead, h₃, h, -eval_initializer]) ?_
    intro v q₄ h₄
    exact .done (by simp [ofRead, h₃, h₄, -eval_initializer])

theorem yields_assignRule (known : Known S src apply apply' 2 p) :
    Yields S (assignRule src apply p) (assignRule src apply' p) (ofRead (read src .assign p)) := by
  refine (known.lower .ident p (Nat.le_refl p) hp (by decide)).readOrNone rfl rfl
    (fun h => by simp [ofRead, read_assign hp, h]) ?_
  intro x q₁ h₁
  obtain ⟨hq₁, hsize₁⟩ := identAt_fits h₁ hp
  refine (yields_initializer hS known (by decide) (by omega) hsize₁).readOrNone rfl rfl
    (fun h => by simp [ofRead, read_assign hp, h₁, h, -eval_initializer]) ?_
  intro v q₂ h₂
  exact .done (by simp [ofRead, read_assign hp, h₁, h₂, -eval_initializer])

theorem yields_ifElseRule (known : Known S src apply apply' 2 p) :
    Yields S (ifElseRule src apply p) (ifElseRule src apply' p) (ofRead (read src .ifElse p)) := by
  refine (known.lower .ifThen p (Nat.le_refl p) hp (by decide)).readOrNone rfl rfl ?_ ?_
  · intro h
    rw [read_ifThen hp, Option.map_eq_none_iff] at h
    simp [ofRead, read_ifElse hp, h, -eval_guardedBlock]
  · intro t q₁ h₁
    obtain ⟨-, hsize₁, hq₁⟩ := read_fits h₁ hp
    simp only [read_ifThen hp, Option.map_eq_some_iff, Prod.mk.injEq] at h₁
    obtain ⟨⟨⟨s, c, b⟩, _⟩, h₁, rfl, rfl⟩ := h₁
    refine (yields_keyword hS known (by decide) "else" (by simp at hq₁; omega) hsize₁).orNone
      rfl rfl (fun h => by simp [ofRead, read_ifElse hp, h₁, h, -eval_guardedBlock]) ?_
    rintro ⟨s₂, q₂⟩ h₂
    obtain ⟨hq₂, hsize₂⟩ := wordAt_lt h₂ hsize₁ (by decide)
    refine (known.ahead .block q₂ (by simp at hq₁; omega) hsize₂).readOrNone rfl rfl
      (fun h => by simp [ofRead, read_ifElse hp, h₁, h₂, h, -eval_guardedBlock]) ?_
    intro a q₃ h₃
    exact .done (by
      simp [ofRead, read_ifElse hp, h₁, h₂, h₃, -eval_guardedBlock, Tree.form, Tree.child,
        Tree.children, Tree.offset?])

theorem yields_exprStatementRule (known : Known S src apply apply' 11 p) :
    Yields S (exprStatementRule src apply p) (exprStatementRule src apply' p)
      (ofRead (read src .exprStatement p)) := by
  refine (known.lower .expr p (Nat.le_refl p) hp (by decide)).readOrNone rfl rfl
    (fun h => by simp [ofRead, read_exprStatement hp, h]) ?_
  intro t q₁ h₁
  obtain ⟨hq₁, hsize₁, -⟩ := read_fits h₁ hp
  refine (yields_literal hS known (by decide) ";" hq₁ hsize₁).orNone rfl rfl
    (fun h => by simp [ofRead, read_exprStatement hp, h₁, h]) ?_
  rintro ⟨s₂, q₂⟩ h₂
  exact .done (by simp [ofRead, read_exprStatement hp, h₁, h₂])

theorem yields_blockRule (known : Known S src apply apply' 1 p) :
    Yields S (blockRule src apply p) (blockRule src apply' p) (ofRead (read src .block p)) := by
  refine (yields_literal hS known (by decide) "\x7b" (Nat.le_refl p) hp).orNone rfl rfl
    (fun h => by simp [ofRead, read_block hp, h]) ?_
  rintro ⟨s₁, q₁⟩ h₁
  obtain ⟨hq₁, hsize₁⟩ := litAt_lt h₁ hp (by decide)
  refine (known.ahead .program q₁ hq₁ hsize₁).readOrNone rfl rfl
    (fun h => by simp [ofRead, read_block hp, h₁, h]) ?_
  intro t q₂ h₂
  obtain ⟨hq₂, hsize₂, -⟩ := read_fits h₂ hsize₁
  refine (yields_literal hS known (by decide) "\x7d" (by omega) hsize₂).orNone rfl rfl
    (fun h => by simp [ofRead, read_block hp, h₁, h₂, h]) ?_
  rintro ⟨s₃, q₃⟩ h₃
  exact .done (by simp [ofRead, read_block hp, h₁, h₂, h₃])

omit hS hp in
theorem yields_statements (known : Known S src apply apply' 13 p) (limit : Nat) (hpq : p ≤ q)
    (hq : q ≤ src.size) :
    Yields S (statements apply limit q) (statements apply' limit q)
      (repeatUpTo (read src .statement) limit q) := by
  induction limit generalizing q with
  | zero => exact .done rfl
  | succ limit ih =>
    refine (known.lower .statement q hpq hq (by decide)).bind ?_
    rcases h : read src .statement q with _ | ⟨t, q₁⟩
    · simp only [reading, h]
      exact .done (by simp [repeatUpTo, h])
    · obtain ⟨hq₁, hsize₁, -⟩ := read_fits h hq
      simp only [reading, h]
      refine (ih (q := q₁) (by omega) hsize₁).bind ?_
      exact .done (by simp [repeatUpTo, h])

omit hS in
theorem yields_programRule (known : Known S src apply apply' 13 p) :
    Yields S (programRule src apply p) (programRule src apply' p)
      (ofRead (read src .program p)) := by
  have hstart := le_layoutEnd src p
  have hsize := layoutEnd_le hp
  refine (yields_skip known (by decide) (Nat.le_refl p) hp).bind ?_
  refine (yields_statements known (src.size + 1) hstart hsize).bind ?_
  have hend : (repeatUpTo (read src .statement) (src.size + 1) (layoutEnd src p)).2 ≤ src.size ∧
      Settled src (repeatUpTo (read src .statement) (src.size + 1) (layoutEnd src p)).2 := by
    refine repeatUpTo_preserves (P := fun q => q ≤ src.size ∧ Settled src q) ?_ _
      ⟨hsize, settled_layoutEnd src p⟩
    intro q t r hq h
    exact ⟨(read_fits h hq.1).2.1, settled_of_statement h hq.1⟩
  rw [read_program hp, layoutEnd_of_settled hend.2]
  exact .done rfl

omit hS in
theorem yields_firstOf (known : Known S src apply apply' k p) (rs : List Rule)
    (hrs : ∀ r ∈ rs, r.rank < k) :
    Yields S (firstOf apply p rs) (firstOf apply' p rs) (rs.findSome? (reading src · p)) := by
  induction rs with
  | nil => exact .done rfl
  | cons r rs ih =>
    refine (known.lower r p (Nat.le_refl p) hp (hrs r (by simp))).bind ?_
    cases h : reading src r p with
    | none =>
      rw [List.findSome?_cons_of_isNone (by simp [h])]
      exact ih fun r' hr' => hrs r' (by simp [hr'])
    | some m => exact .done (by simp [h])

end Statements

/-- The first operator that stands at `p` with an operand behind it. Unlike in the grammar, an
operator without an operand does not end the search. -/
def attemptAt (src : ByteArray) (operand : Nonterminal) (p : Nat) :
    List BinaryOp → Option (((BinaryOp × Nat) × Tree) × Nat)
  | [] => none
  | op :: ops =>
    ((litAt src op.symbol p).bind fun l =>
      (read src operand l.2).map fun m => (((op, l.1), m.1), m.2)).or (attemptAt src operand p ops)

/-- No operator behind one without an operand has an operand either. -/
def Unretried (src : ByteArray) (operand : Nonterminal) (ops : List BinaryOp) : Prop :=
  ∀ p ≤ src.size, attemptAt src operand p ops = operationAt src operand ops p

theorem attemptAt_eq_none {operand : Nonterminal} {ops : List BinaryOp}
    (h : ∀ op ∈ ops, ∀ s r, litAt src op.symbol p = some (s, r) → read src operand r = none) :
    attemptAt src operand p ops = none := by
  induction ops with
  | nil => rfl
  | cons op ops ih =>
    have hrest := ih fun op' hop => h op' (by simp [hop])
    cases hl : litAt src op.symbol p with
    | none => simp [attemptAt, hl, hrest]
    | some l => simp [attemptAt, hl, hrest, h op (by simp) l.1 l.2 hl]

theorem unretried_cons {operand : Nonterminal} {op : BinaryOp} {ops : List BinaryOp}
    (hrest : Unretried src operand ops)
    (h : ∀ p ≤ src.size, ∀ s r, litAt src op.symbol p = some (s, r) →
      ∀ op' ∈ ops, ∀ s' r', litAt src op'.symbol p = some (s', r') → read src operand r' = none) :
    Unretried src operand (op :: ops) := by
  intro p hp
  cases hl : litAt src op.symbol p with
  | none =>
    have := hrest p hp
    simp only [operationAt] at this
    simp [attemptAt, operationAt, operatorAt, hl, this]
  | some l =>
    have hnone := attemptAt_eq_none (h p hp l.1 l.2 hl)
    cases hm : read src operand l.2 with
    | none => simp [attemptAt, operationAt, operatorAt, hl, hm, hnone]
    | some m => simp [attemptAt, operationAt, operatorAt, hl, hm]

theorem unretried_nil {operand : Nonterminal} : Unretried src operand [] := fun _ _ => rfl

/-- Operators that start differently do not stand at the same place. -/
theorem litAt_head {s s' : String} {c c' : Char} {cs cs' : List Char} {a b a' b' : Nat}
    (hs : s.toList = c :: cs) (hs' : s'.toList = c' :: cs') (h : litAt src s p = some (a, b))
    (h' : litAt src s' p = some (a', b')) : UInt8.ofNat c.toNat = UInt8.ofNat c'.toNat := by
  obtain ⟨hh, rfl, -⟩ := litAt_some h
  obtain ⟨hh', rfl, -⟩ := litAt_some h'
  rw [hs] at hh
  rw [hs'] at hh'
  exact Option.some.inj ((holds_head hh).symm.trans (holds_head hh'))

/-- Behind the shorter of two operators that both stand at `p`, an equals sign is left. -/
theorem read_add_behind {s s' : String} {c : Char} {a b a' b' : Nat} (hp : p ≤ src.size)
    (hs : s.toList = [c, '=']) (hs' : s'.toList = [c]) (h : litAt src s p = some (a, b))
    (h' : litAt src s' p = some (a', b')) : read src .add b' = none := by
  obtain ⟨hh, rfl, -⟩ := litAt_some h
  obtain ⟨-, rfl, -⟩ := litAt_some h'
  have hlen : s'.length = 1 := by rw [← String.length_toList, hs']; rfl
  have hpeek : peek src (layoutEnd src p + 1) '=' = true := by
    rw [hs, holds, Bool.and_eq_true] at hh
    exact hh.2
  obtain ⟨hsize, hbyte⟩ := next_of_peek hp hlen h' hpeek (by decide)
  exact read_add_none hsize (read_primary_none hsize (by rw [hbyte]; rfl))
    (litAt_none rfl (by rw [hbyte]; decide))

theorem unretried_or : Unretried src .and [.or] := unretried_cons unretried_nil (by simp)

theorem unretried_and : Unretried src .not [.and] := unretried_cons unretried_nil (by simp)

theorem unretried_add : Unretried src .mul [.add, .sub] := by
  refine unretried_cons (unretried_cons unretried_nil (by simp)) ?_
  intro p hp s r h op hop s' r' h'
  rw [List.mem_singleton] at hop
  subst hop
  exact absurd (litAt_head rfl rfl h h') (by decide)

theorem unretried_mul : Unretried src .unary [.mul, .div] := by
  refine unretried_cons (unretried_cons unretried_nil (by simp)) ?_
  intro p hp s r h op hop s' r' h'
  rw [List.mem_singleton] at hop
  subst hop
  exact absurd (litAt_head rfl rfl h h') (by decide)

theorem unretried_comparisons : Unretried src .add comparisons := by
  have htail : Unretried src .add [.eq, .ne, .lt, .gt] := by
    refine unretried_cons (unretried_cons (unretried_cons (unretried_cons unretried_nil (by simp))
      ?_) ?_) ?_
    all_goals
      intro p hp s r h op hop s' r' h'
      simp only [List.mem_cons, List.not_mem_nil, or_false] at hop
    · subst hop
      exact absurd (litAt_head rfl rfl h h') (by decide)
    · rcases hop with rfl | rfl <;> exact absurd (litAt_head rfl rfl h h') (by decide)
    · rcases hop with rfl | rfl | rfl <;> exact absurd (litAt_head rfl rfl h h') (by decide)
  refine unretried_cons (unretried_cons htail ?_) ?_
  all_goals
    intro p hp s r h op hop s' r' h'
    simp only [List.mem_cons, List.not_mem_nil, or_false] at hop
  · rcases hop with rfl | rfl | rfl | rfl
    · exact absurd (litAt_head rfl rfl h h') (by decide)
    · exact absurd (litAt_head rfl rfl h h') (by decide)
    · exact absurd (litAt_head rfl rfl h h') (by decide)
    · exact read_add_behind hp rfl rfl h h'
  · rcases hop with rfl | rfl | rfl | rfl | rfl
    · exact absurd (litAt_head rfl rfl h h') (by decide)
    · exact absurd (litAt_head rfl rfl h h') (by decide)
    · exact absurd (litAt_head rfl rfl h h') (by decide)
    · exact read_add_behind hp rfl rfl h h'
    · exact absurd (litAt_head rfl rfl h h') (by decide)

theorem symbol_length_pos (op : BinaryOp) : 0 < op.symbol.length := by cases op <;> decide

section Operations

variable {operand : Rule} {n : Nonterminal} {ops : List BinaryOp}
  (hread : ∀ q, reading src operand q = ofRead (read src n q))

include hread

theorem yields_attempt (hS : Recording S) (known : Known S src apply apply' k p) (hk : 0 < k)
    (hpq : p ≤ q) (hq : q ≤ src.size) :
    Yields S (operation src apply operand q ops) (operation src apply' operand q ops)
      ((attemptAt src n q ops).map
        fun m => (m.1.1.1, m.1.1.2, { node := m.1.2, stop := m.2 })) := by
  induction ops with
  | nil => exact .done rfl
  | cons op ops ih =>
    refine (yields_literal hS known hk op.symbol hpq hq).bind ?_
    rcases h₁ : litAt src op.symbol q with _ | ⟨s₁, q₁⟩
    · simp only [attemptAt, h₁, Option.bind_none, Option.none_or]
      exact ih
    · obtain ⟨hq₁, hsize₁⟩ := litAt_lt h₁ hq (symbol_length_pos op)
      refine (known.ahead operand q₁ (by omega) hsize₁).bind ?_
      simp only [hread, attemptAt, h₁, Option.bind_some]
      rcases h₂ : read src n q₁ with _ | ⟨t, q₂⟩
      · exact ih
      · exact .done rfl

theorem yields_operation (hops : Unretried src n ops) (hS : Recording S)
    (known : Known S src apply apply' k p) (hk : 0 < k) (hpq : p ≤ q) (hq : q ≤ src.size) :
    Yields S (operation src apply operand q ops) (operation src apply' operand q ops)
      ((operationAt src n ops q).map
        fun m => (m.1.1.1, m.1.1.2, { node := m.1.2, stop := m.2 })) := by
  rw [← hops q hq]
  exact yields_attempt hread hS known hk hpq hq

theorem yields_operations (hops : Unretried src n ops) (hS : Recording S)
    (known : Known S src apply apply' k p) (hk : 0 < k) (limit : Nat) (t : Tree) (hpq : p ≤ q)
    (hq : q ≤ src.size) :
    Yields S (operations src apply operand ops limit t q)
      (operations src apply' operand ops limit t q)
      { node := (repeatUpTo (operationAt src n ops) limit q).1.foldl Pattern.apply t,
        stop := (repeatUpTo (operationAt src n ops) limit q).2 } := by
  induction limit generalizing t q with
  | zero => exact .done rfl
  | succ limit ih =>
    refine (yields_operation hread hops hS known hk hpq hq).bind ?_
    rcases h : operationAt src n ops q with _ | ⟨⟨⟨op, s⟩, u⟩, q₁⟩
    · simp only [repeatUpTo, h]
      exact .done rfl
    · have hfits :=
        eval_fits (a := .seq (operator ops) (.rule n)) (by rw [eval_operation]; exact h) hq
      simp only [repeatUpTo, h]
      exact ih _ (show p ≤ q₁ by omega) hfits.2.1

theorem yields_leftAssoc (hops : Unretried src n ops) (hS : Recording S)
    (known : Known S src apply apply' k p) (hk : operand.rank < k) (hp : p ≤ src.size) :
    Yields S (leftAssoc src apply operand ops p) (leftAssoc src apply' operand ops p)
      (ofRead (eval src (read src) (Pattern.leftAssoc n ops) p)) := by
  have hlower := known.lower operand p (Nat.le_refl p) hp hk
  rw [hread] at hlower
  refine hlower.readOrNone rfl rfl (fun h => by simp [ofRead, h]) ?_
  intro t q h
  obtain ⟨hpq, hq, -⟩ := read_fits h hp
  refine (yields_operations hread hops hS known (by omega) (src.size + 1) t hpq hq).bind ?_
  simp only [eval_leftAssoc, h]
  exact .done rfl

end Operations

section Expressions

variable (hS : Recording S) (hp : p ≤ src.size)

include hS hp

theorem yields_notRule (known : Known S src apply apply' 8 p) :
    Yields S (notRule src apply p) (notRule src apply' p) (ofRead (read src .not p)) := by
  have hcompare : Yields S (apply .compare p) (apply' .compare p) (ofRead (read src .compare p)) :=
    known.lower .compare p (Nat.le_refl p) hp (by decide)
  refine (yields_literal hS known (by decide) "!" (Nat.le_refl p) hp).bind ?_
  rcases h₁ : litAt src "!" p with _ | ⟨s₁, q₁⟩
  · rw [read_not hp, h₁, Option.bind_none, Option.none_or]
    exact .next hcompare
  obtain ⟨hq₁, hsize₁⟩ := litAt_lt h₁ hp (by decide)
  dsimp only
  split
  · rename_i hpeek
    obtain ⟨hsize, hbyte⟩ := next_of_peek hp rfl h₁ hpeek (by decide)
    have hnone : read src .not q₁ = none :=
      read_not_none hsize (read_primary_none hsize (by rw [hbyte]; rfl))
        (litAt_none rfl (by rw [hbyte]; decide)) (litAt_none rfl (by rw [hbyte]; decide))
    rw [read_not hp, h₁, Option.bind_some, hnone, Option.map_none, Option.none_or]
    exact .next hcompare
  · refine (known.ahead .not q₁ hq₁ hsize₁).bind (.next ?_)
    rw [read_not hp, h₁, Option.bind_some]
    simp only [reading]
    rcases h₂ : read src .not q₁ with _ | ⟨t, q₂⟩
    · rw [Option.map_none, Option.none_or]
      exact hcompare
    · exact .done rfl

theorem yields_unaryRule (known : Known S src apply apply' 4 p) :
    Yields S (unaryRule src apply p) (unaryRule src apply' p) (ofRead (read src .unary p)) := by
  have hcall : Yields S (apply .call p) (apply' .call p) (ofRead (read src .call p)) :=
    known.lower .call p (Nat.le_refl p) hp (by decide)
  refine (yields_literal hS known (by decide) "-" (Nat.le_refl p) hp).bind ?_
  rcases h₁ : litAt src "-" p with _ | ⟨s₁, q₁⟩
  · rw [read_unary hp, h₁, Option.bind_none, Option.none_or]
    exact .next hcall
  obtain ⟨hq₁, hsize₁⟩ := litAt_lt h₁ hp (by decide)
  dsimp only
  split
  · rename_i hpeek
    obtain ⟨hsize, hbyte⟩ := next_of_peek hp rfl h₁ hpeek (by decide)
    have hnone : read src .unary q₁ = none :=
      read_unary_none hsize (read_primary_none hsize (by rw [hbyte]; rfl))
        (litAt_none rfl (by rw [hbyte]; decide))
    rw [read_unary hp, h₁, Option.bind_some, hnone, Option.map_none, Option.none_or]
    exact .next hcall
  · refine (known.ahead .unary q₁ hq₁ hsize₁).bind (.next ?_)
    rw [read_unary hp, h₁, Option.bind_some]
    simp only [reading]
    rcases h₂ : read src .unary q₁ with _ | ⟨t, q₂⟩
    · rw [Option.map_none, Option.none_or]
      exact hcall
    · exact .done rfl

theorem yields_compareRule (known : Known S src apply apply' 7 p) :
    Yields S (compareRule src apply p) (compareRule src apply' p)
      (ofRead (read src .compare p)) := by
  refine (known.lower .add p (Nat.le_refl p) hp (by decide)).readOrNone rfl rfl
    (fun h => by simp [ofRead, read_compare hp, h]) ?_
  intro t q₁ h₁
  obtain ⟨hq₁, hsize₁, -⟩ := read_fits h₁ hp
  refine (yields_operation (fun _ => rfl) unretried_comparisons hS known (by decide)
    hq₁ hsize₁).bind ?_
  rw [read_compare hp, h₁]
  rcases h₂ : operationAt src .add comparisons q₁ with _ | ⟨⟨⟨op, s⟩, u⟩, q₂⟩
  · rw [comparisons] at h₂
    simp only [Option.map_some, h₂]
    exact .done rfl
  · rw [comparisons] at h₂
    simp only [Option.map_some, h₂]
    exact .done rfl

end Expressions

section Lists

variable {item : Pattern α}

/-- `(',' item)*` with the offsets behind the items. Unlike in the grammar, a comma without an item
is a failure. -/
def itemsAt (src : ByteArray) (item : Pattern α) : Nat → Nat → Option (List (α × Nat) × Nat)
  | 0, q => some ([], q)
  | limit + 1, q =>
    match litAt src "," q with
    | none => some ([], q)
    | some l =>
      (eval src (read src) item l.2).bind fun m =>
        (itemsAt src item limit m.2).map fun r => (m :: r.1, r.2)

/-- `'(' (item (',' item)*)? ')'` with the offsets behind the items. -/
def itemListAt (src : ByteArray) (item : Pattern α) (q : Nat) :
    Option (Nat × List (α × Nat) × Nat) :=
  (litAt src "(" q).bind fun l =>
    match eval src (read src) item l.2 with
    | none => (litAt src ")" l.2).map fun r => (l.1, [], r.2)
    | some m =>
      (itemsAt src item (src.size + 1) m.2).bind fun rest =>
        (litAt src ")" rest.2).map fun r => (l.1, m :: rest.1, r.2)

theorem repeatUpTo_of_itemsAt {limit : Nat} {ms : List (α × Nat)} {r : Nat}
    (h : itemsAt src item limit q = some (ms, r)) :
    repeatUpTo (commaItemAt src item) limit q = (ms.map Prod.fst, r) := by
  induction limit generalizing q ms with
  | zero =>
    simp only [itemsAt, Option.some.injEq, Prod.mk.injEq] at h
    obtain ⟨rfl, rfl⟩ := h
    rfl
  | succ limit ih =>
    unfold itemsAt at h
    cases hl : litAt src "," q with
    | none =>
      simp only [hl, Option.some.injEq, Prod.mk.injEq] at h
      obtain ⟨rfl, rfl⟩ := h
      simp [repeatUpTo, commaItemAt, hl]
    | some l =>
      simp only [hl, Option.bind_eq_some_iff, Option.map_eq_some_iff, Prod.mk.injEq] at h
      obtain ⟨m, hm, ⟨rest, _⟩, hrest, rfl, rfl⟩ := h
      simp [repeatUpTo, commaItemAt, hl, hm, ih hrest]

/-- A comma without an item stops the repetition, and no parenthesis stands there. -/
theorem litAt_of_itemsAt_none {limit : Nat} (h : itemsAt src item limit q = none) :
    litAt src ")" (repeatUpTo (commaItemAt src item) limit q).2 = none := by
  induction limit generalizing q with
  | zero => simp [itemsAt] at h
  | succ limit ih =>
    unfold itemsAt at h
    cases hl : litAt src "," q with
    | none => simp [hl] at h
    | some l =>
      cases hm : eval src (read src) item l.2 with
      | none =>
        simp only [repeatUpTo, commaItemAt, hl, Option.bind_some, hm]
        cases hr : litAt src ")" q with
        | none => rfl
        | some r => exact absurd (litAt_head rfl rfl hl hr) (by decide)
      | some m =>
        simp only [hl, hm, Option.bind_some, Option.map_eq_none_iff] at h
        simp only [repeatUpTo, commaItemAt, hl, Option.bind_some, hm]
        exact ih h

theorem eval_parens_list :
    eval src (read src) (parens (Pattern.list item)) q =
      (itemListAt src item q).map fun m => ((m.1, m.2.1.map Prod.fst), m.2.2) := by
  rw [eval_parens, itemListAt]
  cases hl : litAt src "(" q with
  | none => rfl
  | some l =>
    simp only [Option.bind_some, eval_list]
    cases hm : eval src (read src) item l.2 with
    | none => simp [Function.comp_def]
    | some m =>
      simp only [Option.map_some, Option.getD_some]
      cases hi : itemsAt src item (src.size + 1) m.2 with
      | none => simp [litAt_of_itemsAt_none hi]
      | some rest => simp [repeatUpTo_of_itemsAt hi, Function.comp_def]

theorem eval_of_mem_itemsAt {limit : Nat} {ms : List (α × Nat)} {r : Nat}
    (h : itemsAt src item limit q = some (ms, r)) :
    ∀ m ∈ ms, ∃ q', eval src (read src) item q' = some m := by
  induction limit generalizing q ms with
  | zero => simp_all [itemsAt]
  | succ limit ih =>
    unfold itemsAt at h
    cases hl : litAt src "," q with
    | none => simp_all
    | some l =>
      simp only [hl, Option.bind_eq_some_iff, Option.map_eq_some_iff, Prod.mk.injEq] at h
      obtain ⟨m, hm, ⟨rest, _⟩, hrest, rfl, rfl⟩ := h
      intro m' hm'
      rcases List.mem_cons.mp hm' with rfl | hm'
      · exact ⟨_, hm⟩
      · exact ih hrest m' hm'

theorem eval_of_mem_itemListAt {s r : Nat} {ms : List (α × Nat)}
    (h : itemListAt src item q = some (s, ms, r)) :
    ∀ m ∈ ms, ∃ q', eval src (read src) item q' = some m := by
  simp only [itemListAt, Option.bind_eq_some_iff] at h
  obtain ⟨l, hl, h⟩ := h
  cases hm : eval src (read src) item l.2 with
  | none =>
    simp only [hm, Option.map_eq_some_iff, Prod.mk.injEq] at h
    obtain ⟨_, -, -, rfl, -⟩ := h
    simp
  | some m =>
    simp only [hm, Option.bind_eq_some_iff, Option.map_eq_some_iff, Prod.mk.injEq] at h
    obtain ⟨rest, hrest, _, -, -, rfl, -⟩ := h
    intro m' hm'
    rcases List.mem_cons.mp hm' with rfl | hm'
    · exact ⟨_, hm⟩
    · exact eval_of_mem_itemsAt hrest m' hm'

variable {rule : Rule} {conv : α × Nat → Match} (hconv : ∀ m, (conv m).stop = m.2)
  (hread : ∀ q, reading src rule q = (eval src (read src) item q).map conv)

include hconv hread

theorem yields_commaSeparated (hS : Recording S) (known : Known S src apply apply' k p) (hk : 0 < k)
    (limit : Nat) (hpq : p ≤ q) (hq : q ≤ src.size) :
    Yields S (commaSeparated src apply rule limit q) (commaSeparated src apply' rule limit q)
      ((itemsAt src item limit q).map fun m => (m.1.map conv, m.2)) := by
  induction limit generalizing q with
  | zero => exact .done rfl
  | succ limit ih =>
    refine (yields_literal hS known hk "," hpq hq).bind ?_
    rcases h₁ : litAt src "," q with _ | ⟨s₁, q₁⟩
    · exact .done (by simp [itemsAt, h₁])
    obtain ⟨hq₁, hsize₁⟩ := litAt_lt h₁ hq (by decide)
    refine (known.ahead rule q₁ (by omega) hsize₁).orNone rfl rfl ?_ ?_
    · intro h
      rw [hread, Option.map_eq_none_iff] at h
      simp [itemsAt, h₁, h]
    · intro m hm
      rw [hread, Option.map_eq_some_iff] at hm
      obtain ⟨⟨x, q₂⟩, h₂, rfl⟩ := hm
      obtain ⟨hq₂, hsize₂, -⟩ := eval_fits h₂ hsize₁
      refine (ih (q := (conv (x, q₂)).stop) (by rw [hconv]; omega) (by rwa [hconv])).orNone rfl rfl
        ?_ ?_
      · intro h
        rw [hconv, Option.map_eq_none_iff] at h
        simp [itemsAt, h₁, h₂, h]
      · intro r hr
        rw [hconv, Option.map_eq_some_iff] at hr
        obtain ⟨⟨ms, q₃⟩, h₃, rfl⟩ := hr
        exact .done (by simp [itemsAt, h₁, h₂, h₃])

theorem yields_parenthesized (hS : Recording S) (known : Known S src apply apply' k p) (hk : 0 < k)
    (hpq : p ≤ q) (hq : q ≤ src.size) :
    Yields S (parenthesized src apply rule q) (parenthesized src apply' rule q)
      ((itemListAt src item q).map fun m => (m.1, m.2.1.map conv, m.2.2)) := by
  refine (yields_literal hS known hk "(" hpq hq).orNone rfl rfl
    (fun h => by simp [itemListAt, h]) ?_
  rintro ⟨s₁, q₁⟩ h₁
  obtain ⟨hq₁, hsize₁⟩ := litAt_lt h₁ hq (by decide)
  refine (known.ahead rule q₁ (by omega) hsize₁).bind ?_
  rw [hread]
  rcases h₂ : eval src (read src) item q₁ with _ | ⟨x, q₂⟩
  · refine (yields_literal hS known hk ")" (by omega) hsize₁).orNone rfl rfl
      (fun h => by simp [itemListAt, h₁, h₂, h]) ?_
    rintro ⟨s₃, q₃⟩ h₃
    exact .done (by simp [itemListAt, h₁, h₂, h₃])
  · obtain ⟨hq₂, hsize₂, -⟩ := eval_fits h₂ hsize₁
    refine (yields_commaSeparated hconv hread hS known hk (src.size + 1)
      (q := (conv (x, q₂)).stop) (by rw [hconv]; omega) (by rwa [hconv])).orNone rfl rfl ?_ ?_
    · intro h
      rw [hconv, Option.map_eq_none_iff] at h
      simp [itemListAt, h₁, h₂, h]
    · intro r hr
      rw [hconv, Option.map_eq_some_iff] at hr
      obtain ⟨⟨ms, q₃⟩, h₃, rfl⟩ := hr
      have hfits : q₂ ≤ q₃ ∧ q₃ ≤ src.size := by
        rw [show q₃ = _ from (congrArg Prod.snd (repeatUpTo_of_itemsAt h₃)).symm]
        refine Ranking.repeatUpTo_fits ?_ _ hsize₂
        intro q m hq' hm
        simp only [commaItemAt, Option.bind_eq_some_iff] at hm
        obtain ⟨⟨_, q'⟩, hl, hm⟩ := hm
        have := litAt_lt hl hq' (by decide)
        have := eval_fits (x := m.1) (q := m.2) hm this.2
        exact ⟨by omega, this.2.1⟩
      refine (yields_literal hS known hk ")" (by omega) hfits.2).orNone rfl rfl
        (fun h => by simp [itemListAt, h₁, h₂, h₃, h]) ?_
      rintro ⟨s₄, q₄⟩ h₄
      exact .done (by simp [itemListAt, h₁, h₂, h₃, h₄])

end Lists

theorem yields_calls (hS : Recording S) (known : Known S src apply apply' k p) (hk : 0 < k)
    (limit : Nat) (t : Tree) (hpq : p ≤ q) (hq : q ≤ src.size) :
    Yields S (calls src apply limit t q) (calls src apply' limit t q)
      { node := (repeatUpTo (argumentsAt src) limit q).1.foldl callTree t,
        stop := (repeatUpTo (argumentsAt src) limit q).2 } := by
  induction limit generalizing t q with
  | zero => exact .done rfl
  | succ limit ih =>
    have hread : ∀ q, reading src .expr q =
        (eval src (read src) (.rule .expr) q).map fun m => { node := m.1, stop := m.2 } :=
          fun _ => rfl
    refine (yields_parenthesized (fun _ => rfl) hread hS known hk hpq hq).bind ?_
    have hargs : argumentsAt src q = _ := eval_parens_list
    rcases h : itemListAt src (.rule .expr) q with _ | ⟨s, ms, q₁⟩
    · simp only [repeatUpTo, hargs, h]
      exact .done rfl
    · have hfits := eval_fits (eval_parens_list.trans (congrArg _ h)) hq
      simp only [repeatUpTo, hargs, h, Option.map_some, List.foldl_cons]
      have := ih (q := q₁) (callTree t (s, ms.map Prod.fst)) (by simp at hfits; omega) hfits.2.1
      simpa [callTree, Function.comp_def] using this

section Primaries

variable (hS : Recording S) (hp : p ≤ src.size)

include hS hp

theorem yields_callRule (known : Known S src apply apply' 3 p) :
    Yields S (callRule src apply p) (callRule src apply' p) (ofRead (read src .call p)) := by
  refine (known.lower .primary p (Nat.le_refl p) hp (by decide)).readOrNone rfl rfl
    (fun h => by simp [ofRead, read_call hp, h]) ?_
  intro t q₁ h₁
  obtain ⟨hq₁, hsize₁, -⟩ := read_fits h₁ hp
  refine (yields_calls hS known (by decide) (src.size + 1) t hq₁ hsize₁).bind ?_
  simp only [read_call hp, h₁]
  exact .done rfl

theorem yields_parenRule (known : Known S src apply apply' 1 p) :
    Yields S (parenRule src apply p) (parenRule src apply' p) (reading src .paren p) := by
  refine (yields_literal hS known (by decide) "(" (Nat.le_refl p) hp).orNone rfl rfl
    (fun h => by simp [reading, ofRead, h]) ?_
  rintro ⟨s₁, q₁⟩ h₁
  obtain ⟨hq₁, hsize₁⟩ := litAt_lt h₁ hp (by decide)
  refine (known.ahead .expr q₁ hq₁ hsize₁).readOrNone rfl rfl
    (fun h => by simp [reading, ofRead, h₁, h]) ?_
  intro t q₂ h₂
  obtain ⟨hq₂, hsize₂, -⟩ := read_fits h₂ hsize₁
  refine (yields_literal hS known (by decide) ")" (by omega) hsize₂).orNone rfl rfl
    (fun h => by simp [reading, ofRead, h₁, h₂, h]) ?_
  rintro ⟨s₃, q₃⟩ h₃
  exact .done (by simp [reading, ofRead, h₁, h₂, h₃])

omit hS hp in
/-- The tree of an expression is no bare identifier. -/
theorem not_ident_of_wellSorted {P : Int64 → Prop} {t : Tree} (h : t.WellSorted P .expression) :
    ∀ x offset cs, t ≠ .node (.ident x) offset cs := by
  intro x offset cs ht
  subst ht
  cases h

theorem yields_typeRule (known : Known S src apply apply' 1 p) :
    Yields S (typeRule src apply p) (typeRule src apply' p) (reading src .type p) := by
  refine (yields_keyword hS known (by decide) "int" (Nat.le_refl p) hp).bind ?_
  rcases h₁ : wordAt src "int" p with _ | ⟨s₁, q₁⟩
  · refine (yields_keyword hS known (by decide) "func" (Nat.le_refl p) hp).bind ?_
    rcases h₂ : wordAt src "func" p with _ | ⟨s₂, q₂⟩
    · exact .done (by simp [reading, typeAt, h₁, h₂])
    · exact .done (by simp [reading, typeAt, h₁, h₂, Tree.ident, Tree.name?])
  · exact .done (by simp [reading, typeAt, h₁, Tree.ident, Tree.name?])

theorem yields_identRule (known : Known S src apply apply' 1 p) :
    Yields S (identRule src apply p) (identRule src apply' p) (ofRead (identAt src p)) := by
  have hsize := layoutEnd_le hp
  refine (yields_skip known (by decide) (Nat.le_refl p) hp).bind ?_
  unfold identAt
  dsimp only
  split
  · rename_i hstart
    by_cases hr : isReserved (String.ofList (asciiText src (layoutEnd src p)
        (runEnd isIdentByte src (layoutEnd src p)))) = true
    · simp only [name, hr, if_true]
      exact yields_missing hS _
    · have hstop := runEnd_le isIdentByte hsize
      have hge : layoutEnd src p ≤ runEnd isIdentByte src (layoutEnd src p) := Nat.le_add_right _ _
      have hle := le_layoutEnd src p
      simp only [name, hr, if_false, Bool.false_eq_true]
      exact (yields_skip known (by decide) (by omega) hstop).bind (.done rfl)
  · exact yields_missing hS _

theorem yields_integerRule (known : Known S src apply apply' 1 p) :
    Yields S (integerRule src apply p) (integerRule src apply' p) (ofRead (integerAt src p)) := by
  have hsize := layoutEnd_le hp
  refine (yields_skip known (by decide) (Nat.le_refl p) hp).bind ?_
  unfold integerAt
  dsimp only
  cases Decimal.word?
    (asciiText src (layoutEnd src p) (runEnd isDigitByte src (layoutEnd src p))) with
  | none => exact yields_missing hS _
  | some w =>
    have hstop := runEnd_le isDigitByte hsize
    have hge : layoutEnd src p ≤ runEnd isDigitByte src (layoutEnd src p) := Nat.le_add_right _ _
    have hle := le_layoutEnd src p
    exact (yields_skip known (by decide) (by omega) hstop).bind (.done rfl)

omit hS in
theorem yields_primaryRule (known : Known S src apply apply' 2 p) :
    Yields S (primaryRule apply p) (primaryRule apply' p) (ofRead (read src .primary p)) := by
  refine (yields_firstOf hp known [.paren, .function, .ident, .integer] (by decide)).bind ?_
  simp only [List.findSome?_cons, List.findSome?_nil, reading]
  rw [read_primary hp]
  rcases h₁ : eval src (read src) (map Prod.snd (parens (.rule .expr))) p with _ | ⟨t, q₁⟩
  · rcases h₂ : read src .function p with _ | ⟨t, q₂⟩
    · rcases h₃ : identAt src p with _ | ⟨x, q₃⟩
      · rcases h₄ : integerAt src p with _ | ⟨t, q₄⟩
        · exact .done rfl
        · simp only [integerAt, Option.map_eq_some_iff, Prod.mk.injEq] at h₄
          obtain ⟨w, -, rfl, -⟩ := h₄
          exact .done rfl
      · simp only [identAt, Option.ite_none_right_eq_some, Option.map_eq_some_iff,
          Prod.mk.injEq] at h₃
        obtain ⟨-, y, -, rfl, -⟩ := h₃
        exact .done rfl
    · have hno := not_ident_of_wellSorted (sorted_of_read h₂)
      rcases t with _ | ⟨_ | x | _, offset, cs⟩
      · exact .done rfl
      · exact .done rfl
      · exact absurd rfl (hno x offset cs)
      · exact .done rfl
  · have hno : ∀ x offset cs, t ≠ .node (.ident x) offset cs := by
      simp only [eval_map, eval_parens, eval_rule, Option.map_eq_some_iff, Option.bind_eq_some_iff,
        Prod.mk.injEq] at h₁
      obtain ⟨_, ⟨_, -, m, hm, _, -, rfl⟩, rfl, -⟩ := h₁
      exact not_ident_of_wellSorted (sorted_of_read hm)
    rcases t with _ | ⟨_ | x | _, offset, cs⟩
    · exact .done rfl
    · exact .done rfl
    · exact absurd rfl (hno x offset cs)
    · exact .done rfl

end Primaries

/-- A parameter as the rules keep it. -/
def paramMatch (m : (Option Tree × Tree) × Nat) : Match :=
  { node := m.1.2, type := (m.1.1.bind Tree.name?).getD "", stop := m.2 }

theorem paramMatch_type {m : (Option Tree × Tree) × Nat}
    (h : ∃ q, eval src (read src) param q = some m) :
    (paramMatch m).type ≠ "" ↔ m.1.1.isSome = true := by
  obtain ⟨q, h⟩ := h
  have hvalue := value_of_eval (Q := fun _ _ => True) (fun _ _ _ _ => trivial) param q m h
  cases ht : m.1.1 with
  | none => simp [paramMatch, ht]
  | some t =>
    obtain ⟨offset, x, rfl, rfl | rfl⟩ := isType_of_value (hvalue.1 t ht) <;>
      simp [paramMatch, ht, Tree.ident, Tree.name?]

theorem paramTag_paramMatch {m : (Option Tree × Tree) × Nat}
    (h : ∃ q, eval src (read src) param q = some m) : paramTag (paramMatch m) = tag m.1 := by
  have htype := paramMatch_type h
  cases ht : m.1.1 with
  | none => simp [paramTag, tag, paramMatch, ht]
  | some t =>
    obtain ⟨q, h⟩ := h
    have hvalue := value_of_eval (Q := fun _ _ => True) (fun _ _ _ _ => trivial) param q m h
    obtain ⟨offset, x, rfl, rfl | rfl⟩ := isType_of_value (hvalue.1 t ht) <;>
      simp [paramTag, tag, paramMatch, ht, Tree.ident, Tree.name?]

theorem yields_paramRule (known : Known S src apply apply' 2 p) (hp : p ≤ src.size) :
    Yields S (paramRule apply p) (paramRule apply' p) (reading src .param p) := by
  have hident := known.lower .ident p (Nat.le_refl p) hp (by decide)
  refine (known.lower .type p (Nat.le_refl p) hp (by decide)).bind ?_
  rcases h₁ : typeAt src p with _ | ⟨t, q₁⟩
  · simp only [reading, h₁, eval_param]
    refine Yields.bind (.done rfl) ?_
    rcases h₂ : identAt src p with _ | ⟨x, q₂⟩
    · simpa [reading, h₂, ofRead] using hident
    · simpa [reading, h₂, ofRead] using hident
  · obtain ⟨hq₁, hsize₁⟩ := typeAt_fits h₁ hp
    simp only [reading, h₁, eval_param]
    refine (known.ahead .ident q₁ hq₁ hsize₁).bind (Yields.bind (.done rfl) ?_)
    rcases h₂ : identAt src q₁ with _ | ⟨x, q₂⟩
    · simpa [reading, h₂, ofRead, identAt_of_typeAt h₁] using hident
    · simp only [reading, h₂, ofRead]
      exact .done (by simp)

/-- `('->' type)?`. Unlike in the grammar, an arrow without a type is a failure. -/
def arrowAt (src : ByteArray) (q : Nat) : Option (Option Tree × Nat) :=
  match litAt src "->" q with
  | none => some (none, q)
  | some l => (typeAt src l.2).map fun t => (some t.1, t.2)

theorem yields_returnType (hS : Recording S) (known : Known S src apply apply' k p) (hk : 0 < k)
    (hpq : p ≤ q) (hq : q ≤ src.size) :
    Yields S (returnType src apply q) (returnType src apply' q) (arrowAt src q) := by
  refine (yields_literal hS known hk "->" hpq hq).bind ?_
  rcases h₁ : litAt src "->" q with _ | ⟨s₁, q₁⟩
  · exact .done (by simp [arrowAt, h₁])
  obtain ⟨hq₁, hsize₁⟩ := litAt_lt h₁ hq (by decide)
  refine (known.ahead .type q₁ (by omega) hsize₁).orNone rfl rfl ?_ ?_
  · intro h
    rw [reading, Option.map_eq_none_iff] at h
    simp [arrowAt, h₁, h]
  · intro m hm
    rw [reading, Option.map_eq_some_iff] at hm
    obtain ⟨⟨t, q₂⟩, h₂, rfl⟩ := hm
    exact .done (by simp [arrowAt, h₁, h₂])

theorem resultAt_of_arrowAt {r : Option Tree × Nat} (hq : q ≤ src.size)
    (h : arrowAt src q = some r) : resultAt src q = r ∧ q ≤ r.2 ∧ r.2 ≤ src.size := by
  unfold arrowAt at h
  rcases h₁ : litAt src "->" q with _ | ⟨s₁, q₁⟩
  · simp only [h₁, Option.some.injEq] at h
    subst h
    exact ⟨by simp [resultAt, h₁], Nat.le_refl q, hq⟩
  · simp only [h₁, Option.map_eq_some_iff] at h
    obtain ⟨⟨t, q₂⟩, h₂, rfl⟩ := h
    obtain ⟨hq₁, hsize₁⟩ := litAt_lt h₁ hq (by decide)
    obtain ⟨hq₂, hsize₂⟩ := typeAt_fits h₂ hsize₁
    exact ⟨by simp [resultAt, h₁, h₂], by dsimp only; omega, hsize₂⟩

/-- No block starts with an arrow. -/
theorem read_block_of_arrowAt (hq : q ≤ src.size) (h : arrowAt src q = none) :
    read src .block (resultAt src q).2 = none := by
  unfold arrowAt at h
  rcases h₁ : litAt src "->" q with _ | ⟨s₁, q₁⟩
  · simp [h₁] at h
  · simp only [h₁, Option.map_eq_none_iff] at h
    have hbrace : litAt src "\x7b" q = none := by
      cases hb : litAt src "\x7b" q with
      | none => rfl
      | some l => exact absurd (litAt_head rfl rfl h₁ hb) (by decide)
    simp [resultAt, h₁, h, read_block hq, hbrace]

theorem functionTree_paramMatch (start : Nat) (ms : List ((Option Tree × Tree) × Nat))
    (result : Option Tree) (body : Tree)
    (hms : ∀ m ∈ ms, ∃ q, eval src (read src) param q = some m) :
    functionTree start (ms.map Prod.fst) result body =
      let tags := (ms.map paramMatch).map paramTag ++ [result.getD (.ident start Tree.genericType)]
      let typed := result.isSome || (ms.map paramMatch).any (·.type ≠ "")
      let signature := if typed then [Tree.form .signature start tags] else []
      .form .function start
        (.form .parameters start ((ms.map paramMatch).map Match.node) :: body :: signature) := by
  have htags : (ms.map paramMatch).map paramTag = (ms.map Prod.fst).map tag := by
    simp only [List.map_map]
    exact List.map_congr_left fun m hm => paramTag_paramMatch (hms m hm)
  have htyped : (ms.map paramMatch).any (·.type ≠ "") = (ms.map Prod.fst).any (·.1.isSome) := by
    rw [List.any_map, List.any_map, Bool.eq_iff_iff, List.any_eq_true, List.any_eq_true]
    refine exists_congr fun m => and_congr_right fun hm => ?_
    simpa using paramMatch_type (hms m hm)
  have hnodes : (ms.map paramMatch).map Match.node = (ms.map Prod.fst).map Prod.snd := by
    simp [paramMatch, Function.comp_def]
  simp only [functionTree, htags, htyped, hnodes]

theorem yields_functionRule (hS : Recording S) (known : Known S src apply apply' 1 p)
    (hp : p ≤ src.size) :
    Yields S (functionRule src apply p) (functionRule src apply' p)
      (ofRead (read src .function p)) := by
  refine (yields_keyword hS known (by decide) "func" (Nat.le_refl p) hp).orNone rfl rfl
    (fun h => by simp [ofRead, read_function hp, h]) ?_
  rintro ⟨s₁, q₁⟩ h₁
  obtain ⟨hq₁, hsize₁⟩ := wordAt_lt h₁ hp (by decide)
  have hread : ∀ q, reading src .param q = (eval src (read src) param q).map paramMatch :=
    fun _ => rfl
  refine (yields_parenthesized (fun _ => rfl) hread hS known (by decide) (by omega) hsize₁).orNone
    rfl rfl ?_ ?_
  · intro h
    rw [Option.map_eq_none_iff] at h
    simp [ofRead, read_function hp, h₁, eval_parens_list, h, -eval_parens]
  intro a ha
  rw [Option.map_eq_some_iff] at ha
  obtain ⟨⟨s₂, ms, q₂⟩, h₂, rfl⟩ := ha
  have heval := eval_parens_list.trans (congrArg (Option.map _) h₂)
  have hmem := eval_of_mem_itemListAt h₂
  obtain ⟨hq₂, hsize₂, -⟩ := eval_fits heval hsize₁
  dsimp only at hq₂ hsize₂
  have hread : read src .function p =
      (read src .block (resultAt src q₂).2).map fun b =>
        (functionTree s₁ (ms.map Prod.fst) (resultAt src q₂).1 b.1, b.2) := by
    rw [read_function hp, h₁, Option.bind_some, heval]
    rfl
  rw [hread]
  refine (yields_returnType hS known (by decide) (by omega) hsize₂).orNone rfl rfl
    (fun h => by simp [ofRead, read_block_of_arrowAt hsize₂ h]) ?_
  rintro ⟨result, q₃⟩ h₃
  obtain ⟨hresult, hq₃, hsize₃⟩ := resultAt_of_arrowAt hsize₂ h₃
  rw [hresult]
  refine (known.ahead .block q₃ (by dsimp only at hq₃; omega) hsize₃).readOrNone rfl rfl
    (fun h => by simp [ofRead, h]) ?_
  intro b q₄ h₄
  rw [h₄, Option.map_some, functionTree_paramMatch s₁ ms result b hmem]
  exact .done rfl

theorem findSome?_cons_eq_or {f : Rule → Outcome} (r : Rule) (rs : List Rule) :
    (r :: rs).findSome? f = (f r).or (rs.findSome? f) := by
  cases h : f r <;> simp [h]

theorem ofRead_or (a b : Option (Tree × Nat)) : ofRead (a.or b) = (ofRead a).or (ofRead b) := by
  cases a <;> rfl

theorem reading_statement (hp : p ≤ src.size) :
    reading src .statement p = List.findSome? (reading src · p)
      [.declare, .assign, .print, .ifElse, .ifThen, .whileDo, .ret, .exprStatement] := by
  simp only [reading, read_statement hp, ofRead_or, findSome?_cons_eq_or, List.findSome?_nil,
    Option.or_none]

/-- The body of a rule comes to what the grammar says. -/
theorem yields_body (hS : Recording S) (r : Rule) (hp : p ≤ src.size)
    (known : Known S src apply apply' r.rank p) :
    Yields S (body src apply r p) (body src apply' r p) (reading src r p) := by
  cases r with
  | space => exact .done rfl
  | program => exact yields_programRule hp known
  | statement =>
    rw [reading_statement hp]
    exact yields_firstOf hp known _ (by decide)
  | declare => exact yields_declareRule hS hp known
  | assign => exact yields_assignRule hS hp known
  | print =>
    rw [reading, read_print hp]
    exact yields_keywordExpr hS known (by decide) "print" .print (by decide) hp
  | ifElse => exact yields_ifElseRule hS hp known
  | ifThen =>
    rw [reading, read_ifThen hp]
    exact yields_conditional hS known (by decide) "if" .ifThen (by decide) hp
  | whileDo =>
    rw [reading, read_whileDo hp]
    exact yields_conditional hS known (by decide) "while" .whileDo (by decide) hp
  | ret =>
    rw [reading, read_ret hp]
    exact yields_keywordExpr hS known (by decide) "ret" .ret (by decide) hp
  | exprStatement => exact yields_exprStatementRule hS hp known
  | block => exact yields_blockRule hS hp known
  | expr =>
    rw [reading, read_eq _ hp]
    exact yields_leftAssoc (fun _ => rfl) unretried_or hS known (by decide) hp
  | and =>
    rw [reading, read_eq _ hp]
    exact yields_leftAssoc (fun _ => rfl) unretried_and hS known (by decide) hp
  | not => exact yields_notRule hS hp known
  | compare => exact yields_compareRule hS hp known
  | add =>
    rw [reading, read_eq _ hp]
    exact yields_leftAssoc (fun _ => rfl) unretried_add hS known (by decide) hp
  | mul =>
    rw [reading, read_eq _ hp]
    exact yields_leftAssoc (fun _ => rfl) unretried_mul hS known (by decide) hp
  | unary => exact yields_unaryRule hS hp known
  | call => exact yields_callRule hS hp known
  | primary => exact yields_primaryRule hp known
  | paren => exact yields_parenRule hS hp known
  | function => exact yields_functionRule hS known hp
  | param => exact yields_paramRule known hp
  | type => exact yields_typeRule hS hp known
  | ident => exact yields_identRule hS hp known
  | integer => exact yields_integerRule hS hp known

end ClosureLang.Grammar

import ClosureLang.Proofs.Grammar.Syntax
import ClosureLang.Proofs.Tree.WellSorted

/-! Whatever the grammar matches denotes a well-sorted tree. -/
namespace ClosureLang.Grammar

open Peg Pattern ClosureLang.Tree

/-- The place for which a nonterminal makes trees. -/
def Nonterminal.role : Nonterminal → Role
  | .program | .block => .block
  | .statement | .declare | .assign | .print | .ifElse | .ifThen | .whileDo | .ret
  | .exprStatement => .statement
  | .expr | .and | .not | .compare | .add | .mul | .unary | .call | .primary | .function =>
    .expression

/-- Literals as they are written have no sign. -/
def Sorted (n : Nonterminal) (t : Tree) : Prop := WellSorted (0 ≤ ·) n.role t

variable {α β : Type} {Q : Nonterminal → Tree → Prop}

@[simp] theorem value_map (f : α → β) (a : Pattern α) (y : β) :
    (map f a).Value Q y ↔ ∃ x, a.Value Q x ∧ f x = y := by
  simp [map, Value]

theorem value_token {a : Pattern α} {m : Nat × α} (h : (token a).Value Q m) : a.Value Q m.2 := by
  simp only [token, value_map] at h
  obtain ⟨x, ⟨-, -, hx, -⟩, rfl⟩ := h
  exact hx

theorem isIdent_of_value {t : Tree} (h : ident.Value Q t) : IsIdent t := by
  simp only [Pattern.ident, value_map] at h
  obtain ⟨m, hm, rfl⟩ := h
  obtain ⟨cs, hcs, hname⟩ := value_token hm
  simp only [run, value_map] at hcs
  obtain ⟨⟨b, bs⟩, ⟨hb, hbs⟩, rfl⟩ := hcs
  simp only [name, Option.ite_none_left_eq_some, Option.some.injEq] at hname
  obtain ⟨hreserved, hx⟩ := hname
  rw [hx] at hreserved
  exact ⟨_, _, rfl, (Bool.not_eq_true _).mp hreserved, b, bs, hb, hbs, hx.symm⟩

theorem nonneg_of_value {t : Tree} (h : integer.Value Q t) :
    ∃ offset w, t = .int offset w ∧ 0 ≤ w := by
  simp only [integer, value_map] at h
  obtain ⟨m, hm, rfl⟩ := h
  obtain ⟨cs, -, hlit⟩ := value_token hm
  simp only [Pattern.literal, Option.ite_none_right_eq_some, Option.some.injEq] at hlit
  refine ⟨_, _, rfl, ?_⟩
  rw [← hlit.2, Int64.le_iff_toInt_le, Int64.toInt_ofNat_of_lt hlit.1]
  simp

theorem isType_of_value {t : Tree} (h : type.Value Q t) : IsType t := by
  simp only [type, Value, value_map] at h
  obtain ⟨p, -, rfl⟩ | ⟨p, -, rfl⟩ := h
  · exact ⟨p, _, rfl, .inl rfl⟩
  · exact ⟨p, _, rfl, .inr rfl⟩

theorem value_parens {a : Pattern α} {m : Nat × α} (h : (parens a).Value Q m) : a.Value Q m.2 := by
  simp only [parens, value_map] at h
  obtain ⟨x, ⟨-, hx, -⟩, rfl⟩ := h
  exact hx

theorem value_list {a : Pattern α} {xs : List α} (h : (Pattern.list a).Value Q xs) :
    ∀ x ∈ xs, a.Value Q x := by
  simp only [Pattern.list, value_map] at h
  obtain ⟨o, ho, rfl⟩ := h
  cases o with
  | none => simp
  | some l =>
    obtain ⟨hfirst, hrest⟩ := ho l rfl
    intro x hx
    simp only [Option.map_some, Option.getD_some, List.mem_cons, List.mem_map] at hx
    rcases hx with rfl | ⟨y, hy, rfl⟩
    · exact hfirst
    · exact (hrest y hy).2

theorem value_initializer {t : Tree} (h : Pattern.initializer.Value Q t) : Q .expr t := by
  simp only [Pattern.initializer, value_map] at h
  obtain ⟨m, ⟨-, hm, -⟩, rfl⟩ := h
  exact hm

theorem value_guardedBlock {s : String} {m : Nat × Tree × Tree} (h : (guardedBlock s).Value Q m) :
    Q .expr m.2.1 ∧ Q .block m.2.2 := by
  simp only [guardedBlock, value_map] at h
  obtain ⟨m, ⟨-, hcond, hbody⟩, rfl⟩ := h
  exact ⟨value_parens hcond, hbody⟩

theorem value_wordExpr {s : String} {f : Form} {t : Tree} (h : (wordExpr s f).Value Q t) :
    ∃ offset u, t = .form f offset [u] ∧ Q .expr u := by
  simp only [wordExpr, value_map] at h
  obtain ⟨m, ⟨-, hm, -⟩, rfl⟩ := h
  exact ⟨_, _, rfl, hm⟩

theorem wellSorted_foldl_apply {lhs : Tree} (rest : List ((BinaryOp × Nat) × Tree))
    (hlhs : WellSorted (0 ≤ ·) .expression lhs)
    (hrest : ∀ o ∈ rest, WellSorted (0 ≤ ·) .expression o.2) :
    WellSorted (0 ≤ ·) .expression (rest.foldl Pattern.apply lhs) := by
  induction rest generalizing lhs with
  | nil => exact hlhs
  | cons o rest ih =>
    exact ih (.binary hlhs (hrest o (by simp))) fun o' ho => hrest o' (by simp [ho])

theorem wellSorted_foldl_callTree {callee : Tree} (calls : List (Nat × List Tree))
    (hcallee : WellSorted (0 ≤ ·) .expression callee)
    (hcalls : ∀ c ∈ calls, ∀ t ∈ c.2, WellSorted (0 ≤ ·) .expression t) :
    WellSorted (0 ≤ ·) .expression (calls.foldl callTree callee) := by
  induction calls generalizing callee with
  | nil => exact hcallee
  | cons c calls ih =>
    exact ih (.call hcallee (hcalls c (by simp))) fun c' hc => hcalls c' (by simp [hc])

/-- A chain of operations on expressions is an expression. -/
theorem sorted_leftAssoc {operand : Nonterminal} {ops : List BinaryOp} {t : Tree}
    (hrole : operand.role = .expression) (h : (Pattern.leftAssoc operand ops).Value Sorted t) :
    WellSorted (0 ≤ ·) .expression t := by
  simp only [Pattern.leftAssoc, value_map] at h
  obtain ⟨⟨lhs, rest⟩, ⟨hlhs, hrest⟩, rfl⟩ := h
  have hlhs : WellSorted (0 ≤ ·) operand.role lhs := hlhs
  rw [hrole] at hlhs
  refine wellSorted_foldl_apply rest hlhs fun o ho => ?_
  have hrhs : WellSorted (0 ≤ ·) operand.role o.2 := (hrest o ho).2
  rwa [hrole] at hrhs

theorem isSignature_functionTree (start : Nat) (params : List (Option Tree × Tree))
    (result : Option Tree) (hparams : ∀ x ∈ params, param.Value Q x)
    (hresult : ∀ t, result = some t → IsType t) :
    IsSignature (params.map Prod.snd).length
      (if result.isSome || params.any (·.1.isSome) then
        [Tree.form .signature start
          (params.map tag ++ [result.getD (.ident start Tree.genericType)])]
      else []) := by
  have htype : ∀ x ∈ params, ∀ t, x.1 = some t → IsType (tag x) := by
    intro x hx t ht
    obtain ⟨offset, y, rfl, hy⟩ := isType_of_value ((hparams x hx).1 t ht)
    exact ⟨x.2.offset?.getD 0, y, by simp [tag, ht, Tree.ident, Tree.name?], hy⟩
  split
  · rename_i hann
    refine .inr ⟨_, _, rfl, by simp, ?_, ?_⟩
    · intro t ht
      simp only [List.mem_append, List.mem_map, List.mem_singleton] at ht
      rcases ht with ⟨x, hx, rfl⟩ | rfl
      · cases hx1 : x.1 with
        | none => exact .inr ⟨x.2.offset?.getD 0, by simp [tag, hx1]⟩
        | some u => exact .inl (htype x hx u hx1)
      · cases result with
        | none => exact .inr ⟨_, rfl⟩
        | some u => exact .inl (hresult u rfl)
    · simp only [Bool.or_eq_true, List.any_eq_true] at hann
      rcases hann with hann | ⟨x, hx, hann⟩
      · obtain ⟨t, rfl⟩ := Option.isSome_iff_exists.mp hann
        exact ⟨t, by simp, hresult t rfl⟩
      · obtain ⟨t, ht⟩ := Option.isSome_iff_exists.mp hann
        exact ⟨tag x, by simp only [List.mem_append, List.mem_map]; exact .inl ⟨x, hx, rfl⟩,
          htype x hx t ht⟩
  · exact .inl rfl

/-- Every rule makes well-sorted trees from well-sorted trees. -/
theorem sorted_of_value (n : Nonterminal) (t : Tree) (h : (syntaxOf n).Value Sorted t) :
    Sorted n t := by
  cases n with
  | program =>
    simp only [syntaxOf, value_map] at h
    obtain ⟨m, ⟨-, -, hm, -⟩, rfl⟩ := h
    exact .block hm
  | statement =>
    simp only [syntaxOf, Value] at h
    obtain h | h | h | h | h | h | h | h := h <;> exact h
  | declare =>
    simp only [syntaxOf, value_map] at h
    obtain ⟨m, ⟨hhead, hx, hv⟩, rfl⟩ := h
    refine .declare (isIdent_of_value hx) (value_initializer hv) ?_ ?_
    · intro u hu
      simp only [Value, value_map] at hhead
      obtain ⟨w, -, hm⟩ | ⟨v, hv, hm⟩ := hhead
      · simp [← hm] at hu
      · simp only [← hm, Option.mem_toList, Option.some.injEq] at hu
        exact hu ▸ isType_of_value hv
    · cases m.1.2 <;> simp
  | assign =>
    simp only [syntaxOf, value_map] at h
    obtain ⟨m, ⟨hx, hv⟩, rfl⟩ := h
    exact .assign (isIdent_of_value hx) (value_initializer hv)
  | print =>
    obtain ⟨offset, u, rfl, hu⟩ := value_wordExpr h
    exact .print hu
  | ret =>
    obtain ⟨offset, u, rfl, hu⟩ := value_wordExpr h
    exact .ret hu
  | ifElse =>
    simp only [syntaxOf, value_map] at h
    obtain ⟨m, ⟨hm, -, hb⟩, rfl⟩ := h
    exact .ifElse (value_guardedBlock hm).1 (value_guardedBlock hm).2 hb
  | ifThen =>
    simp only [syntaxOf, value_map] at h
    obtain ⟨m, hm, rfl⟩ := h
    exact .ifThen (value_guardedBlock hm).1 (value_guardedBlock hm).2
  | whileDo =>
    simp only [syntaxOf, value_map] at h
    obtain ⟨m, hm, rfl⟩ := h
    exact .whileDo (value_guardedBlock hm).1 (value_guardedBlock hm).2
  | exprStatement =>
    simp only [syntaxOf, value_map] at h
    obtain ⟨m, ⟨hm, -⟩, rfl⟩ := h
    exact .expression hm
  | block =>
    simp only [syntaxOf, value_map] at h
    obtain ⟨m, ⟨-, hm, -⟩, rfl⟩ := h
    generalize m.2.1 = u at hm
    cases hm with
    | block hts => exact .block hts
  | expr => exact sorted_leftAssoc rfl h
  | and => exact sorted_leftAssoc rfl h
  | add => exact sorted_leftAssoc rfl h
  | mul => exact sorted_leftAssoc rfl h
  | not =>
    simp only [syntaxOf, Value, value_map] at h
    obtain ⟨m, ⟨-, hm⟩, rfl⟩ | h := h
    · exact .not hm
    · exact h
  | compare =>
    simp only [syntaxOf, value_map] at h
    obtain ⟨⟨lhs, o⟩, ⟨hlhs, ho⟩, rfl⟩ := h
    cases o with
    | none => exact hlhs
    | some m => exact .binary hlhs (ho m rfl).2
  | unary =>
    simp only [syntaxOf, Value, value_map] at h
    obtain ⟨m, ⟨-, hm⟩, rfl⟩ | h := h
    · exact .binary (.int (by decide)) hm
    · exact h
  | call =>
    simp only [syntaxOf, value_map] at h
    obtain ⟨⟨callee, calls⟩, ⟨hcallee, hcalls⟩, rfl⟩ := h
    exact wellSorted_foldl_callTree calls hcallee fun c hc =>
      value_list (value_parens (hcalls c hc))
  | primary =>
    simp only [syntaxOf, Value, value_map] at h
    obtain ⟨m, hm, rfl⟩ | h | ⟨x, hx, rfl⟩ | h := h
    · exact value_parens hm
    · exact h
    · exact .lookup (isIdent_of_value hx)
    · obtain ⟨offset, w, rfl, hw⟩ := nonneg_of_value h
      exact .int hw
  | function =>
    simp only [syntaxOf, value_map] at h
    obtain ⟨m, ⟨-, hparams, hresult, hbody⟩, rfl⟩ := h
    have hparams := value_list (value_parens hparams)
    refine .function ?_ hbody (isSignature_functionTree _ _ _ hparams ?_)
    · intro x hx
      obtain ⟨y, hy, rfl⟩ := List.mem_map.mp hx
      exact isIdent_of_value (hparams y hy).2
    · intro t ht
      have := hresult t ht
      simp only [value_map] at this
      obtain ⟨y, ⟨-, hy⟩, rfl⟩ := this
      exact isType_of_value hy

theorem sorted_of_read {src : ByteArray} {n : Nonterminal} {p : Nat} {m : Tree × Nat}
    (h : read src n p = some m) : Sorted n m.1 := ranking.value_of_read sorted_of_value h

end ClosureLang.Grammar

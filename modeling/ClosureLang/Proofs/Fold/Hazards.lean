import ClosureLang.Proofs.Fold.Preservation
import ClosureLang.Proofs.Run.Failures

/-! What can go wrong in evaluating an expression that calls nothing: it always ends, and the
conditions with which it may fail can be read off it. -/
namespace ClosureLang.Fold

open ClosureLang.Tree ClosureLang.Action

variable {P : Int64 → Prop} {R : Tree → Tree → Prop} {options options' : Options} {t t' : Tree}
  {ts : List Term} {negative : Bool} {m m₁ m' : Machine} {c : Condition}

/-- A variable is the only inert expression whose value may be a function. -/
def isVariable (t : Tree) : Bool := t.isForm .lookup

/-- The conditions that an operator may raise at two operands. -/
def operationHazards (op : BinaryOp) (lhs rhs : Tree) : List Condition :=
  match op with
  | .eq | .ne | .and | .or => []
  | _ =>
    (if isVariable lhs || isVariable rhs then [.mathOnFunction] else []) ++
      if op = .div ∧ rhs.value?.all (· = 0) then [.divideByZero] else []

/-- The conditions that the evaluation of an inert expression may raise. -/
def hazards : Tree → List Condition
  | .node (.form .lookup) _ _ => [.undefinedVariable]
  | .node (.form .not) _ [t] => hazards t
  | .node (.form (.binary op)) _ [lhs, rhs] =>
    hazards lhs ++ hazards rhs ++ operationHazards op lhs rhs
  | _ => []

theorem value_of_literal {w : Int64} {k : Nat} {v : Value} (h : t.value? = some w)
    (heval : eval options k t m = .ok v m₁) : v = .int w := by
  cases k with
  | zero => cases heval
  | succ k =>
    rw [eval_literal h] at heval
    obtain ⟨n, n₁, -, hx, -⟩ := step_ok heval
    cases hx
    rfl

/-- The values of inert expressions are integers, variables apart. -/
theorem int_of_inert {v : Value} {k : Nat} (h : WellSorted P .expression t) (ht : Inert t)
    (hvariable : isVariable t = false) (heval : eval options k t m = .ok v m₁) :
    ∃ w, v = .int w := by
  cases k with
  | zero => cases heval
  | succ k =>
    cases h with
    | int =>
      exact ⟨_, value_of_literal rfl heval⟩
    | lookup => cases hvariable
    | binary =>
      obtain ⟨-, a, -, b, -, -, -, -, happly, -⟩ := eval_binary_ok heval
      exact int_of_apply happly
    | not =>
      rw [(Evaluation.not).eq] at heval
      obtain ⟨m₂, hstep, -⟩ := traced_ok heval
      obtain ⟨b, m₃, -, hpure⟩ := bind_ok.mp hstep
      cases hpure
      exact ⟨_, rfl⟩
    | call => exact absurd rfl (inert_node.mp ht).1.1
    | function => exact absurd rfl (inert_node.mp ht).1.2

/-- Given enough fuel, evaluation changes nothing or fails with one of some conditions. -/
def Ends (R : Tree → Tree → Prop) (cs : List Condition) (y : Nat → Action Value)
    (m : Machine) : Prop :=
  (∃ v, Follows R y m v m) ∨ ∃ c ∈ cs, Fails R y m c m.out

namespace Ends

variable {cs ds : List Condition} {y : Nat → Action Value}

theorem step {x : Nat → Action Value} (hx : ∀ n, Evaluation options n t (x n)) (h : Ends R cs x m) :
    Ends R cs (fun n => eval options n t) m := by
  have heq : (fun n => eval options (n + 1) t) = fun n => traced options "evaluate" t (x n) :=
    funext fun n => (hx n).eq
  obtain ⟨v, hfollows⟩ | ⟨c, hc, hfails⟩ := h
  · exact .inl ⟨v, Follows.succ (heq ▸ hfollows.step)⟩
  · exact .inr ⟨c, hc, Fails.succ (heq ▸ hfails.traced options "evaluate" t)⟩

theorem bind {g : Nat → Value → Action Value} (hy : Ends R cs y m)
    (hg : ∀ v, Follows R y m v m → Ends R ds (fun n => g n v) m) :
    Ends R (cs ++ ds) (fun n => y n >>= g n) m := by
  obtain ⟨v, hfollows⟩ | ⟨c, hc, hfails⟩ := hy
  · obtain ⟨w, hfollows'⟩ | ⟨c, hc, hfails⟩ := hg v hfollows
    · exact .inl ⟨w, hfollows.bind hfollows'⟩
    · exact .inr ⟨c, List.mem_append_right _ hc, hfollows.fails hfails⟩
  · exact .inr ⟨c, List.mem_append_left _ hc, hfails.bind g⟩

end Ends

theorem apply_cases (op : BinaryOp) {lhs rhs : Tree} {v w : Value}
    (hv : isVariable lhs = false → ∃ n, v = .int n) (hw : isVariable rhs = false → ∃ n, w = .int n)
    (hn : ∀ n, rhs.value? = some n → w = .int n) :
    (∃ x, op.apply v w = .ok x) ∨ ∃ c ∈ operationHazards op lhs rhs, op.apply v w = .error c := by
  cases happly : op.apply v w with
  | ok x => exact .inl ⟨x, rfl⟩
  | error c =>
    refine .inr ⟨c, ?_, rfl⟩
    cases v with
    | closure id =>
      have hvariable : isVariable lhs = true := by
        by_contra hne
        obtain ⟨n, hn⟩ := hv (by simpa using hne)
        cases hn
      cases op <;> cases happly <;> simp [operationHazards, hvariable]
    | int a =>
      cases w with
      | closure id =>
        have hvariable : isVariable rhs = true := by
          by_contra hne
          obtain ⟨n, hn⟩ := hw (by simpa using hne)
          cases hn
        cases op <;> cases happly <;> simp [operationHazards, hvariable]
      | int b =>
        cases op <;> try cases happly
        -- only a division is left
        simp only [BinaryOp.apply] at happly
        split at happly
        · rename_i hzero
          cases happly
          have hdivisor : ∀ n, rhs.value? = some n → n = 0 := by
            intro n hvalue
            cases hn n hvalue
            exact hzero
          cases hvalue : rhs.value? with
          | none => simp [operationHazards, hvalue]
          | some n => simp [operationHazards, hvalue, hdivisor n hvalue]
        · cases happly

/-- The evaluation of an inert expression ends. -/
theorem ends_of_inert (h : InPlace .expression t) (ht : Inert t) (hm : Corresponds R m m') :
    Ends R (hazards t) (fun n => eval options n t) m := by
  induction h using WellSorted.expression_induction with
  | int o w => exact .inl ⟨_, follows_literal rfl (.refl m)⟩
  | lookup o x hx =>
    refine .step (fun _ => .lookup) ?_
    obtain ⟨o', y, rfl⟩ := hx.leaf
    cases hget : m.store.get? m.scope y with
    | none =>
      refine .inr ⟨.undefinedVariable, List.mem_singleton.mpr rfl, fun n hn => ⟨0, fun _ _ => ?_⟩⟩
      refine ⟨form .lookup o [ident o' y], n, ?_, hn.out⟩
      simp only [onStore, lookupAt, named, form, ident, child, children, List.getElem?_cons_zero,
        Option.getD_some, name?, Store.get?_congr hn.scopes, hn.scope, hget]
    | some v =>
      refine .inl ⟨v, fun n hn => ⟨n, hn, 0, fun _ _ => ?_⟩⟩
      simp only [onStore, lookupAt, named, form, ident, child, children, List.getElem?_cons_zero,
        Option.getD_some, name?, Store.get?_congr hn.scopes, hn.scope, hget]
      rw [← hn.scope]
  | binary op o lhs rhs hl hr ihl ihr =>
    have hinert := (inert_node.mp ht).2
    have hvalues : ∀ {u v}, InPlace .expression u → Inert u →
        Follows R (fun n => eval options n u) m v m →
        (isVariable u = false → ∃ n, v = .int n) ∧ ∀ n, u.value? = some n → v = .int n := by
      intro u v hu hui hfollows
      obtain ⟨m₁', -, k, hk⟩ := hfollows m' hm
      exact ⟨fun hvar => int_of_inert hu hui hvar (hk k (Nat.le_refl k)),
        fun n hn => value_of_literal hn (hk k (Nat.le_refl k))⟩
    refine .step (fun _ => .binary) ?_
    rw [show hazards (binary op o lhs rhs) =
        hazards lhs ++ (hazards rhs ++ operationHazards op lhs rhs) from
      List.append_assoc ..]
    refine (ihl (hinert lhs (by simp))).bind fun v hv =>
      (ihr (hinert rhs (by simp))).bind fun w hw => ?_
    have hlhs := hvalues hl (hinert lhs (by simp)) hv
    have hrhs := hvalues hr (hinert rhs (by simp)) hw
    obtain ⟨x, hx⟩ | ⟨c, hc, happly⟩ := apply_cases op hlhs.1 hrhs.1 hrhs.2
    · refine .inl ⟨x, fun n hn => ⟨n, hn, 0, fun _ _ => ?_⟩⟩
      simp only [onStore, operateAt, hx]
    · refine .inr
        ⟨c, hc, fun n hn => ⟨0, fun _ _ => ⟨form (.binary op) o [lhs, rhs], n, ?_, hn.out⟩⟩⟩
      simp only [onStore, operateAt, happly]
  | not o t hs ih =>
    have hinert := (inert_node.mp ht).2
    refine .step (fun _ => .not) ?_
    rw [show hazards (form .not o [t]) = hazards t ++ [] from (List.append_nil _).symm]
    exact (ih (hinert t (by simp))).bind fun v _ => .inl ⟨_, .pure (.refl m)⟩
  | call => exact absurd rfl (inert_node.mp ht).1.1
  | function => exact absurd rfl (inert_node.mp ht).1.2

theorem inert_binary {op : BinaryOp} {o : Int} {lhs rhs : Tree} (hl : Inert lhs) (hr : Inert rhs) :
    Inert (binary op o lhs rhs) := by
  simp [binary, form, inert_node, form?, hl, hr]

theorem inert_foldProduct {op : BinaryOp} {o : Int} {lhs rhs : Tree} (hl : Inert lhs)
    (hr : Inert rhs) : Inert (foldProduct (binary op o lhs rhs)) := by
  obtain hsame | ⟨-, -, w, -, -, -, hint⟩ := foldProduct_cases op o lhs rhs
  · rw [hsame]
    exact inert_binary hl hr
  · rw [hint]
    exact inert_int 0 w

/-- What an expression is folded to is inert if its terms are. -/
theorem inert_of_terms (h : WellSorted P .expression t)
    (hts : ∀ negative ts, foldedTerms negative t = some ts → ∀ u ∈ ts, Inert u.node)
    (hf : fold t = some t') : Inert t' := by
  obtain ⟨ts, hfolded⟩ := Option.isSome_iff_exists.mp (foldedTerms_of_wellSorted h false)
  obtain rfl | rfl := fold_cases hfolded hf
  · exact chain_of_terms (inert_int 0) (fun _ _ _ hl hr => inert_binary hl hr)
      (hts false ts hfolded)
  · exact hts false _ hfolded _ (List.mem_singleton.mpr rfl)

theorem inert_terms (h : WellSorted P .expression t) (ht : Inert t)
    (hts : foldedTerms negative t = some ts) : ∀ u ∈ ts, Inert u.node := by
  induction h using WellSorted.expression_induction generalizing negative ts with
  | int o w =>
    obtain ⟨t', hf, rfl⟩ := term_of_foldedTerms (t := int o w) rfl rfl hts
    rw [fold_int] at hf
    cases hf
    simpa using ht
  | lookup o x hx =>
    obtain ⟨t', hf, rfl⟩ := term_of_foldedTerms (t := form .lookup o [x]) rfl rfl hts
    rw [fold_leaves rfl (by simpa using hx.leaf)] at hf
    cases hf
    simpa using ht
  | binary op o lhs rhs hl hr ihl ihr =>
    have hinert := (inert_node.mp ht).2
    cases hop : op.isAdditive with
    | true =>
      obtain ⟨ls, rs, hls, hrs, rfl⟩ := exists_terms_of_binary hop hts
      exact List.forall_mem_append.mpr
        ⟨ihl (hinert lhs (by simp)) hls, ihr (hinert rhs (by simp)) hrs⟩
    | false =>
      obtain ⟨t', hf, rfl⟩ := term_of_foldedTerms (t := binary op o lhs rhs) hop rfl hts
      obtain ⟨lhs', rhs', hlf, hrf, rfl⟩ := fold_binary hop hf
      have hlhs := inert_of_terms hl (fun _ _ h => ihl (hinert lhs (by simp)) h) hlf
      have hrhs := inert_of_terms hr (fun _ _ h => ihr (hinert rhs (by simp)) h) hrf
      simpa using inert_foldProduct hlhs hrhs
  | not o t hs ih =>
    obtain ⟨t', hf, rfl⟩ := term_of_foldedTerms (t := form .not o [t]) rfl rfl hts
    obtain ⟨_, hcs, rfl⟩ := fold_form_cases rfl hf
    let .cons hft .nil := hcs
    have hinner := inert_of_terms hs (fun _ _ h => ih ((inert_node.mp ht).2 t (by simp)) h) hft
    simp [form, inert_node, form?, hinner]
  | call => exact absurd rfl (inert_node.mp ht).1.1
  | function => exact absurd rfl (inert_node.mp ht).1.2

/-- The ways in which a binary operation fails. -/
theorem eval_binary_error {k : Nat} {op : BinaryOp} {o : Int} {lhs rhs node : Tree}
    (h : eval options (k + 1) (binary op o lhs rhs) m = .error (.condition c node) m₁) :
    let n := m.within options "evaluate" (binary op o lhs rhs)
    (∃ n₁, eval options k lhs n = .error (.condition c node) n₁ ∧ n₁.out = m₁.out) ∨
    (∃ a n₁ n₂, eval options k lhs n = .ok a n₁ ∧
      eval options k rhs n₁ = .error (.condition c node) n₂ ∧
      n₂.out = m₁.out) ∨
    ∃ a n₁ b n₂, eval options k lhs n = .ok a n₁ ∧ eval options k rhs n₁ = .ok b n₂ ∧
      op.apply a b = .error c ∧ n₂.out = m₁.out := by
  rw [binary, (Evaluation.binary).eq, traced_eq_within] at h
  obtain ⟨m₂, hx, rfl⟩ := mapEnd_eq_error h
  obtain hl | ⟨a, n₁, hl, hx⟩ := bind_eq_error.mp hx
  · exact .inl ⟨m₂, hl, rfl⟩
  obtain hr | ⟨b, n₂, hr, hx⟩ := bind_eq_error.mp hx
  · exact .inr (.inl ⟨a, n₁, m₂, hl, hr, rfl⟩)
  · refine .inr (.inr ⟨a, n₁, b, n₂, hl, hr, ?_⟩)
    simp only [onStore, operateAt] at hx
    cases happly : op.apply a b with
    | ok x => simp [happly] at hx
    | error d =>
      simp only [happly] at hx
      cases hx
      exact ⟨rfl, rfl⟩

theorem apply_int {op : BinaryOp} (hop : op.isAdditive = true) (a b : Int64) :
    ∃ w, op.apply (.int a) (.int b) = .ok (.int w) := by
  cases op <;> first | exact ⟨_, rfl⟩ | cases hop

/-- What folds to a literal is no variable. -/
theorem not_variable_of_literals (ht : foldedTerms negative t = some ts)
    (hts : ∀ u ∈ ts, u.isLiteral = true) : isVariable t = false := by
  by_contra hvariable
  obtain ⟨o, cs, rfl⟩ : ∃ o cs, t = form .lookup o cs := by
    cases t with
    | absent => exact absurd rfl hvariable
    | node l o cs =>
      cases l with
      | form f =>
        simp only [isVariable, isForm, form?, Option.some.injEq, decide_eq_true_eq,
          Bool.not_eq_false] at hvariable
        exact ⟨o, cs, by rw [hvariable]; rfl⟩
      | _ => exact absurd rfl hvariable
  exact not_literal_of_form rfl ht hts

/-- What folds to literals does not fail. -/
theorem unfailing_of_literals {p : Tree} {k : Nat} (heval : ∀ k, EvalFolds P options options' k)
    (h : WellSorted P .expression t) (horderly : OrderlyBelow p t)
    (ht : foldedTerms negative t = some ts) (hts : ∀ u ∈ ts, u.isLiteral = true)
    (hm : Corresponds (Folds P) m m') {node : Tree} :
    eval options k t m ≠ .error (.condition c node) m₁ := by
  intro hfail
  have hinert : Inert t := inert_of_literals h ht hts
  induction h using WellSorted.expression_induction generalizing p k m m₁ negative ts with
  | int o w =>
    cases k with
    | zero => cases hfail
    | succ k =>
      have hstop : (eval options (k + 1) (int o w)).stop? m = some (.condition c node) := by
        simp only [stop?, hfail]
      rw [int, (Evaluation.integer).eq, stop?_traced] at hstop
      cases hstop
  | lookup => exact absurd hts (not_literal_of_form rfl ht)
  | binary op o lhs rhs hl hr ihl ihr =>
    cases k with
    | zero => cases hfail
    | succ k =>
      have hparts := (inert_node.mp hinert).2
      have hlo := horderly.child lhs (by simp)
      have hro := horderly.child rhs (by simp)
      have hwithin := hm.congr (alike_within options "evaluate" (binary op o lhs rhs) m) (.refl m')
      have hbehind : ∀ a n₁,
          eval options k lhs (m.within options "evaluate" (binary op o lhs rhs)) =
          .ok a n₁ → Corresponds (Folds P) n₁ m' := fun a n₁ ha =>
        hwithin.congr (Still.eval hl (hparts lhs (by simp)) k _ a n₁ ha) (.refl m')
      -- the terms of the operands are literals, and their values are none but integers that agree
      obtain ⟨nl, ls, nr, rs, hls, hrs, hll, hrl, hvalues⟩ : ∃ nl ls nr rs,
          foldedTerms nl lhs = some ls ∧ foldedTerms nr rhs = some rs ∧
          (∀ u ∈ ls, u.isLiteral = true) ∧ (∀ u ∈ rs, u.isLiteral = true) ∧
          ∀ a n₁ b n₂, eval options k lhs (m.within options "evaluate" (binary op o lhs rhs)) =
            .ok a n₁ →
            eval options k rhs n₁ = .ok b n₂ → ∃ x, op.apply a b = .ok x := by
        cases hop : op.isAdditive with
        | true =>
          obtain ⟨ls, rs, hls, hrs, rfl⟩ := exists_terms_of_binary hop ht
          rw [List.forall_mem_append] at hts
          refine ⟨_, ls, _, rs, hls, hrs, hts.1, hts.2, fun a n₁ b n₂ ha hb => ?_⟩
          obtain ⟨v, rfl⟩ :=
            int_of_inert hl (hparts lhs (by simp)) (not_variable_of_literals hls hts.1) ha
          obtain ⟨w, rfl⟩ :=
            int_of_inert hr (hparts rhs (by simp)) (not_variable_of_literals hrs hts.2) hb
          obtain ⟨x, hx⟩ := apply_int hop v w
          exact ⟨_, hx⟩
        | false =>
          obtain ⟨t', hf, rfl⟩ := term_of_foldedTerms (t := binary op o lhs rhs) hop rfl ht
          obtain ⟨lhs', rhs', hlf, hrf, rfl⟩ := fold_binary hop hf
          have hlit := hts _ (List.mem_singleton.mpr rfl)
          obtain ⟨ls, hls⟩ := Option.isSome_iff_exists.mp (foldedTerms_of_wellSorted hl false)
          obtain ⟨rs, hrs⟩ := Option.isSome_iff_exists.mp (foldedTerms_of_wellSorted hr false)
          obtain hsame | ⟨v, w, x, hv, hw, hvalue, -⟩ := foldProduct_cases op o lhs' rhs'
          · rw [Term.isLiteral, hsame] at hlit
            cases hlit
          refine ⟨_, ls, _, rs, hls, hrs, isLiteral_of_fold hls hlf (by simp [hv]),
            isLiteral_of_fold hrs hrf (by simp [hw]), fun a n₁ b n₂ ha hb => ?_⟩
          obtain ⟨rfl, -⟩ := literal_operand (heval k) hl (hlo.root fun _ => hop) hlf hv ha hwithin
          obtain ⟨rfl, -⟩ :=
            literal_operand (heval k) hr (hro.root fun _ => hop) hrf hw hb (hbehind _ n₁ ha)
          exact ⟨_, hvalue⟩
      obtain ⟨n₁, hfail, -⟩ | ⟨a, n₁, n₂, ha, hfail, -⟩ | ⟨a, n₁, b, n₂, ha, hb, happly, -⟩ :=
        eval_binary_error hfail
      · exact ihl hlo hls hll hwithin hfail (hparts lhs (by simp))
      · exact ihr hro hrs hrl (hbehind a n₁ ha) hfail (hparts rhs (by simp))
      · obtain ⟨x, hx⟩ := hvalues a n₁ b n₂ ha hb
        cases hx.symm.trans happly
  | not => exact absurd hts (not_literal_of_form rfl ht)
  | call => exact absurd hts (not_literal_of_form rfl ht)
  | function => exact absurd hts (not_literal_of_form rfl ht)

end ClosureLang.Fold

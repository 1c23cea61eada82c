import ClosureLang.Proofs.Fold.Normal
import ClosureLang.Proofs.Fold.Preservation
import ClosureLang.Proofs.Run.Failures

/-! What folds to a literal has the value of the literal on every machine. -/
namespace ClosureLang.Fold

open ClosureLang.Tree ClosureLang.Action

variable {t t' lhs rhs : Tree} {op : BinaryOp} {o : Int} {negative : Bool}
  {ts : List Term} {a b c : Int64}

/-- An expression comes to the same integer on every machine, unless it runs out of fuel, and there
is fuel enough for it. -/
structure Constant (t : Tree) (c : Int64) : Prop where
  ends : ∃ enough, ∀ options fuel m, enough ≤ fuel → ∃ m₁, eval options fuel t m = .ok (.int c) m₁
  only : ∀ options fuel m, (∃ m₁, eval options fuel t m = .ok (.int c) m₁) ∨
    ∃ m₁, eval options fuel t m = .error .outOfFuel m₁

/-- The ending of an operation at a node, in terms of those of its operands. -/
theorem eval_binary_ending (options : Options) (k : Nat) (op : BinaryOp) (o : Int) (lhs rhs : Tree)
    (m : Machine) :
    eval options (k + 1) (binary op o lhs rhs) m =
      mapEnd (fun m' => { m' with level := m'.level - 1 })
        (match eval options k lhs (m.within options "evaluate" (binary op o lhs rhs)) with
        | .error s n₁ => .error s n₁
        | .ok v n₁ =>
          match eval options k rhs n₁ with
          | .error s n₂ => .error s n₂
          | .ok w n₂ =>
            match op.apply v w with
            | .error c => .error (.condition c (binary op o lhs rhs)) n₂
            | .ok x => .ok x n₂) := by
  rw [binary, (Evaluation.binary).eq, traced_eq_within]
  congr 1
  show EStateM.bind (eval options k lhs) _ _ = _
  unfold EStateM.bind
  cases eval options k lhs (m.within options "evaluate" (form (.binary op) o [lhs, rhs])) with
  | error s n₁ => rfl
  | ok v n₁ =>
    show EStateM.bind (eval options k rhs) _ n₁ = _
    unfold EStateM.bind
    dsimp only
    cases eval options k rhs n₁ with
    | error s n₂ => rfl
    | ok w n₂ =>
      simp only [onStore, operateAt]
      cases op.apply v w <;> rfl

theorem Constant.literal (h : t.value? = some c) : Constant t c := by
  have hvalue (options : Options) (k : Nat) (m : Machine) :
      ∃ m₁, eval options (k + 1) t m = .ok (.int c) m₁ := by
    have hstep := traced_eq_within options "evaluate" t (Pure.pure (Value.int c)) m
    exact ⟨_, (congrFun (eval_literal h k) m).trans hstep⟩
  refine ⟨⟨1, fun options fuel m hfuel => ?_⟩, fun options fuel m => ?_⟩
  · obtain ⟨k, rfl⟩ := Nat.exists_eq_add_of_le' hfuel
    exact hvalue options k m
  · cases fuel with
    | zero => exact .inr ⟨m, rfl⟩
    | succ k => exact .inl (hvalue options k m)

theorem Constant.binary (hl : Constant lhs a) (hr : Constant rhs b)
    (hop : op.apply (.int a) (.int b) = .ok (.int c)) : Constant (Tree.binary op o lhs rhs) c := by
  constructor
  · obtain ⟨k, hk⟩ := hl.ends
    obtain ⟨l, hl⟩ := hr.ends
    refine ⟨max k l + 1, fun options fuel m hfuel => ?_⟩
    obtain ⟨n, rfl⟩ := Nat.exists_eq_add_of_le' hfuel
    obtain ⟨n₁, hleft⟩ :=
      hk options (n + max k l) (m.within options "evaluate" (Tree.binary op o lhs rhs)) (by omega)
    obtain ⟨n₂, hright⟩ := hl options (n + max k l) n₁ (by omega)
    rw [← Nat.add_assoc, eval_binary_ending, hleft]
    simp only [hright, hop]
    exact ⟨_, rfl⟩
  · intro options fuel m
    cases fuel with
    | zero => exact .inr ⟨m, rfl⟩
    | succ k =>
      rw [eval_binary_ending]
      obtain ⟨n₁, hleft⟩ | ⟨n₁, hleft⟩ :=
        hl.only options k (m.within options "evaluate" (Tree.binary op o lhs rhs))
      · obtain ⟨n₂, hright⟩ | ⟨n₂, hright⟩ := hr.only options k n₁
        · simp only [hleft, hright, hop]
          exact .inl ⟨_, rfl⟩
        · simp only [hleft, hright]
          exact .inr ⟨_, rfl⟩
      · simp only [hleft]
        exact .inr ⟨_, rfl⟩

/-- A literal that is left of a chain is the sum of its terms. -/
theorem constant_of_folded (hts : foldedTerms false t = some ts) (hf : fold t = some t')
    (hc : t'.value? = some c) : (∀ u ∈ ts, u.isLiteral = true) ∧ constant ts = c := by
  have hlit : ∀ u ∈ ts, u.isLiteral = true := isLiteral_of_fold hts hf (by simp [hc])
  refine ⟨hlit, ?_⟩
  obtain rfl | rfl := fold_cases hts hf
  · rw [value?_chain hlit] at hc
    exact Option.some.inj (Option.filter_eq_some_iff.mp hc).1
  · simp [constant, hc]

/-- A sum or difference of constants, with the sign in front of it. -/
theorem constant_of_sum (hop : op.isAdditive = true) (hl : Constant lhs a) (hr : Constant rhs b) :
    ∃ c, Constant (Tree.binary op o lhs rhs) c ∧
      signed negative a + signed (rightSign op negative) b = signed negative c := by
  cases op with
  | add =>
    refine ⟨a + b, .binary hl hr rfl, ?_⟩
    cases negative with
    | true =>
      simp only [signed, rightSign]
      grind
    | false => rfl
  | sub =>
    refine ⟨a - b, .binary hl hr rfl, ?_⟩
    cases negative <;>
    · simp only [signed, rightSign]
      grind
  | _ => cases hop

/-- The sum of literal terms is the value of their chain. -/
theorem constant_of_terms (t : Tree) (h : Whole t) (negative : Bool) (ts : List Term)
    (hts : foldedTerms negative t = some ts) (hlit : ∀ u ∈ ts, u.isLiteral = true) :
    ∃ c, Constant t c ∧ constant ts = signed negative c := by
  induction t using Tree.induction generalizing negative ts with
  | absent => cases h.present
  | node l o cs ih =>
  cases l with
  | integer w =>
    obtain rfl := eq_nil_of_leaf h rfl
    obtain ⟨t', hf, rfl⟩ := term_of_foldedTerms (t := int o w) rfl rfl hts
    rw [fold_int] at hf
    cases hf
    refine ⟨w, .literal rfl, ?_⟩
    rw [constant_cons]
    simp [constant, Term.share, int, value?]
  | ident x =>
    obtain rfl := eq_nil_of_leaf h rfl
    obtain ⟨t', hf, rfl⟩ := term_of_foldedTerms (t := ident o x) rfl rfl hts
    cases hf
    cases hlit _ (List.mem_singleton.mpr rfl)
  | form f =>
    cases hbinary : f.isBinary with
    | false => exact absurd hlit (not_literal_of_form hbinary hts)
    | true =>
      obtain ⟨op, rfl⟩ : ∃ op, f = .binary op := by
        cases f with
        | binary op => exact ⟨op, rfl⟩
        | _ => cases hbinary
      cases Whole.shape h with
      | @binary _ lhs rhs =>
        have hl := (whole_node_iff.mp h).2 lhs (by simp)
        have hr := (whole_node_iff.mp h).2 rhs (by simp)
        have ihl := ih lhs (by simp) hl
        have ihr := ih rhs (by simp) hr
        change foldedTerms negative (Tree.binary op o lhs rhs) = some ts at hts
        show ∃ c, Constant (Tree.binary op o lhs rhs) c ∧ constant ts = signed negative c
        cases hop : op.isAdditive with
        | true =>
          obtain ⟨ls, rs, hls, hrs, rfl⟩ := exists_terms_of_binary hop hts
          rw [List.forall_mem_append] at hlit
          obtain ⟨a, ha, hsum⟩ := ihl _ ls hls hlit.1
          obtain ⟨b, hb, hsum'⟩ := ihr _ rs hrs hlit.2
          rw [constant_append, hsum, hsum']
          exact constant_of_sum hop ha hb
        | false =>
          obtain ⟨t', hf, rfl⟩ := term_of_foldedTerms (t := Tree.binary op o lhs rhs) hop rfl hts
          obtain ⟨lhs', rhs', hlf, hrf, rfl⟩ := fold_binary hop hf
          have hvalue := hlit _ (List.mem_singleton.mpr rfl)
          obtain hsame | ⟨a, b, c, ha, hb, happly, hfolded⟩ := foldProduct_cases op o lhs' rhs'
          · rw [Term.isLiteral, hsame] at hvalue
            cases hvalue
          obtain ⟨ls, hls⟩ := Option.isSome_iff_exists.mp (foldedTerms_of_whole lhs hl false)
          obtain ⟨rs, hrs⟩ := Option.isSome_iff_exists.mp (foldedTerms_of_whole rhs hr false)
          obtain ⟨hll, hlsum⟩ := constant_of_folded hls hlf ha
          obtain ⟨hrl, hrsum⟩ := constant_of_folded hrs hrf hb
          obtain ⟨a', hca, hsum⟩ := ihl _ ls hls hll
          obtain ⟨b', hcb, hsum'⟩ := ihr _ rs hrs hrl
          obtain rfl : a' = a := hsum.symm.trans hlsum
          obtain rfl : b' = b := hsum'.symm.trans hrsum
          refine ⟨c, .binary hca hcb happly, ?_⟩
          rw [constant_cons, Term.share, hfolded]
          simp [constant, int, value?]

/-- Folding to a literal is sound on every machine, and asks for nothing about the order of the
terms. -/
theorem constant_of_fold (h : Whole t) (hf : fold t = some t') (hc : t'.value? = some c) :
    Constant t c := by
  obtain ⟨ts, hts⟩ := Option.isSome_iff_exists.mp (foldedTerms_of_whole t h false)
  obtain ⟨hlit, hsum⟩ := constant_of_folded hts hf hc
  obtain ⟨c', hconstant, hsum'⟩ := constant_of_terms t h false ts hts hlit
  obtain rfl : c' = c := hsum'.symm.trans hsum
  exact hconstant

end ClosureLang.Fold

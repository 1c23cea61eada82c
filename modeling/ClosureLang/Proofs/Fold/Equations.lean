import Mathlib.Data.List.Forall2
import ClosureLang.Fold
import ClosureLang.Proofs.Tree.WellSorted

/-! What folding makes of each kind of node. -/
namespace ClosureLang.Fold

open ClosureLang.Tree

variable {t t' : Tree} {l : Label} {o o' : Int} {cs : List Tree} {negative : Bool}

theorem isChain_node (l : Label) (o o' : Int) (cs cs' : List Tree) :
    isChain (.node l o cs) = isChain (.node l o' cs') := by
  cases l with
  | form f => cases f <;> rfl
  | integer | ident => rfl

theorem isChain_foldProduct (h : isChain t = false) : isChain (foldProduct t) = false := by
  unfold foldProduct
  repeat' split
  all_goals exact h

theorem foldInnerAll_eq (cs : List Tree) : foldInnerAll cs = cs.mapM foldInner := by
  induction cs with
  | nil => rfl
  | cons c cs ih => simp [foldInnerAll, ih]

theorem foldInner_node (h : isChain (.node l o cs) = false) :
    foldInner (.node l o cs) =
      (cs.mapM fold).map fun cs => foldProduct (.node l o cs) := by
  have hchildren : (cs.mapM foldInner).bind (·.mapM foldChainChild) = cs.mapM fold := by
    clear h
    induction cs with
    | nil => rfl
    | cons c cs ih =>
      simp only [List.mapM_cons, ← ih, fold, Option.bind_eq_bind]
      cases foldInner c with
      | none => rfl
      | some c' =>
        cases cs.mapM foldInner with
        | none => cases h : foldChainChild c' <;> simp [h]
        | some cs' => simp [List.mapM_cons]
  rw [foldInner, foldInnerAll_eq, ← hchildren]
  cases cs.mapM foldInner with
  | none => rfl
  | some cs' =>
    have hchain : isChain (.node l o cs') = false := isChain_node l o o cs cs' ▸ h
    simp only [Option.bind_eq_bind, Option.bind_some, hchain]
    cases cs'.mapM foldChainChild <;> rfl

/-- Outside chains nothing is left to do after the inner folding. -/
theorem foldInner_eq_fold (h : isChain t = false) : foldInner t = fold t := by
  cases t with
  | absent => rfl
  | node l o cs =>
    rw [fold, foldInner_node h]
    cases cs.mapM fold with
    | none => rfl
    | some cs' =>
      have hchain : isChain (foldProduct (.node l o cs')) = false :=
        isChain_foldProduct (isChain_node l o o cs cs' ▸ h)
      simp [foldChainChild, hchain]

theorem fold_node (h : isChain (.node l o cs) = false) :
    fold (.node l o cs) = (cs.mapM fold).map fun cs => foldProduct (.node l o cs) := by
  rw [← foldInner_eq_fold h, foldInner_node h]

theorem fold_form {f : Form} (h : f.isBinary = false) :
    fold (form f o cs) = (cs.mapM fold).map (form f o) := by
  have hchain : isChain (form f o cs) = false := by cases f <;> first | rfl | cases h
  have hproduct : ∀ cs, foldProduct (form f o cs) = form f o cs := by
    intro cs
    cases f <;> first | rfl | cases h
  rw [form, fold_node hchain]
  exact congrArg (Option.map · _) (funext hproduct)

theorem mapM_fold_forall {cs cs' : List Tree} (h : cs.mapM fold = some cs') :
    List.Forall₂ (fun c c' => fold c = some c') cs cs' := by
  induction cs generalizing cs' with
  | nil =>
    cases h
    exact .nil
  | cons c cs ih =>
    simp only [List.mapM_cons, Option.bind_eq_bind, Option.bind_eq_some_iff, Option.pure_def,
      Option.some.injEq] at h
    obtain ⟨c', hc, cs', hcs, rfl⟩ := h
    exact .cons hc (ih hcs)

/-- What holds of all that the children fold to holds of the folded children. -/
theorem forall_folded {Q : Tree → Prop} {cs cs' : List Tree}
    (h : ∀ c ∈ cs, ∀ c', fold c = some c' → Q c')
    (hcs : List.Forall₂ (fun c c' => fold c = some c') cs cs') : ∀ c' ∈ cs', Q c' := by
  induction hcs with
  | nil => exact nofun
  | cons hc _ ih =>
    rw [List.forall_mem_cons] at h ⊢
    exact ⟨h.1 _ hc, ih h.2⟩

theorem fold_form_cases {f : Form} {o : Int} {cs : List Tree} (hf : f.isBinary = false)
    (h : fold (form f o cs) = some t') :
    ∃ cs', List.Forall₂ (fun c c' => fold c = some c') cs cs' ∧ t' = form f o cs' := by
  rw [fold_form hf, Option.map_eq_some_iff] at h
  obtain ⟨cs', hcs, rfl⟩ := h
  exact ⟨cs', mapM_fold_forall hcs, rfl⟩

theorem fold_int (w : Int64) : fold (int o w) = some (int o w) := rfl

theorem fold_ident (x : String) : fold (ident o x) = some (ident o x) := rfl

/-- Names and type tags stay as they are. -/
theorem mapM_fold_idents {xs : List Tree} (h : ∀ x ∈ xs, ∃ o y, x = ident o y) :
    xs.mapM fold = some xs := by
  induction xs with
  | nil => rfl
  | cons x xs ih =>
    obtain ⟨o, y, rfl⟩ := h x (by simp)
    simp [List.mapM_cons, fold_ident, ih fun x hx => h x (by simp [hx])]

/-- The signed terms of the chain that a tree starts, each of them folded. -/
def foldedTerms (negative : Bool) (t : Tree) : Option (List Term) :=
  (foldInner t).bind (terms negative)

/-- The sign of the terms on the right of an operator. -/
def rightSign (op : BinaryOp) (negative : Bool) : Bool := negative != decide (op = .sub)

theorem foldInner_binary {op : BinaryOp} {lhs rhs : Tree} (h : op.isAdditive = true) :
    foldInner (binary op o lhs rhs) =
      (foldInner lhs).bind fun lhs => (foldInner rhs).map (binary op o lhs) := by
  simp only [binary, form, foldInner, foldInnerAll_eq, List.mapM_cons, List.mapM_nil]
  cases foldInner lhs with
  | none => rfl
  | some lhs' =>
    cases foldInner rhs with
    | none => rfl
    | some rhs' => simp [isChain, h, binary, form]

theorem foldedTerms_binary {op : BinaryOp} {lhs rhs : Tree} (h : op.isAdditive = true) :
    foldedTerms negative (binary op o lhs rhs) =
      (foldedTerms negative lhs).bind fun ts =>
        (foldedTerms (rightSign op negative) rhs).map (ts ++ ·) := by
  simp only [foldedTerms, foldInner_binary h]
  cases foldInner lhs with
  | none => rfl
  | some lhs' =>
    cases foldInner rhs with
    | none => cases hts : terms negative lhs' <;> simp [hts]
    | some rhs' =>
      cases op <;> try cases h
      · simp [binary, form, terms, rightSign, Option.map_eq_bind, Function.comp_def]
      · simp [binary, form, terms, rightSign, Option.map_eq_bind, Function.comp_def]

/-- The terms of a sum or difference are those of its operands, one behind the other. -/
theorem exists_terms_of_binary {op : BinaryOp} {lhs rhs : Tree} (h : op.isAdditive = true)
    {ts : List Term} (hts : foldedTerms negative (binary op o lhs rhs) = some ts) :
    ∃ ls rs, foldedTerms negative lhs = some ls ∧
      foldedTerms (rightSign op negative) rhs = some rs ∧ ts = ls ++ rs := by
  rw [foldedTerms_binary h] at hts
  obtain ⟨ls, hls, hts⟩ := Option.bind_eq_some_iff.mp hts
  obtain ⟨rs, hrs, rfl⟩ := Option.map_eq_some_iff.mp hts
  exact ⟨ls, rs, hls, hrs, rfl⟩

theorem terms_of_not_chain (h : isChain t = false) (hne : t ≠ .absent) :
    terms negative t = some [⟨t, negative⟩] := by
  unfold terms
  split <;> first | rfl | exact absurd rfl hne | cases h

theorem foldProduct_ne_absent : foldProduct (.node l o cs) ≠ .absent := by
  unfold foldProduct
  repeat' split
  all_goals simp_all [Tree.int]

theorem fold_ne_absent (ht : t ≠ .absent) (h : isChain t = false) (hf : fold t = some t') :
    t' ≠ .absent := by
  cases t with
  | absent => exact absurd rfl ht
  | node l o cs =>
    rw [fold_node h, Option.map_eq_some_iff] at hf
    obtain ⟨cs', -, rfl⟩ := hf
    exact foldProduct_ne_absent

/-- A tree that is no chain is a term of its own. -/
theorem foldedTerms_of_not_chain (ht : t ≠ .absent) (h : isChain t = false) :
    foldedTerms negative t = (fold t).map fun t' => [⟨t', negative⟩] := by
  rw [foldedTerms, foldInner_eq_fold h]
  cases hf : fold t with
  | none => rfl
  | some t' =>
    have hchain : isChain t' = false := by
      cases t with
      | absent => exact absurd rfl ht
      | node l o cs =>
        rw [fold_node h, Option.map_eq_some_iff] at hf
        obtain ⟨cs', -, rfl⟩ := hf
        exact isChain_foldProduct (isChain_node l o o cs cs' ▸ h)
    exact terms_of_not_chain hchain (fold_ne_absent ht h hf)

theorem fold_chain {op : BinaryOp} {lhs rhs : Tree} (h : op.isAdditive = true) :
    fold (binary op o lhs rhs) =
      (foldedTerms false (binary op o lhs rhs)).map fun ts =>
        chain (positiveFirst (gathered ts)) := by
  rw [fold, foldedTerms, foldInner_binary h]
  cases foldInner lhs with
  | none => rfl
  | some lhs' =>
    cases foldInner rhs with
    | none => rfl
    | some rhs' =>
      have hchain : isChain (binary op o lhs' rhs') = true := h
      simp [foldChainChild, hchain, foldChain, ← Option.map_eq_map, map_eq_pure_bind]

end ClosureLang.Fold

import ClosureLang.Proofs.Fold.Equations
import ClosureLang.Proofs.Tree.Everywhere
import ClosureLang.Proofs.Tree.Shapes

/-! The terms of a folded chain: where they go, and when nothing but a literal is left. -/
namespace ClosureLang.Fold

open ClosureLang.Tree

variable {P : Int64 → Prop} {t t' : Tree} {negative : Bool} {ts : List Term}

def Term.isLiteral (t : Term) : Bool := t.node.value?.isSome

/-- The terms of a chain that are no literals. -/
def others (ts : List Term) : List Term := ts.filter (!·.isLiteral)

/-- The literal that folding puts at the end of a chain. -/
def literals (ts : List Term) : List Term :=
  if 0 < constant ts then [⟨int 0 (constant ts), false⟩]
  else if constant ts < 0 then [⟨int 0 (-constant ts), true⟩]
  else []

theorem gathered_eq (ts : List Term) : gathered ts = others ts ++ literals ts := by
  have hothers : (ts.filter fun t => t.node.value?.isNone) = others ts := by
    simp [others, Term.isLiteral]
  simp only [gathered, literals, hothers]
  split
  · rfl
  · split
    · rfl
    · simp

theorem node_of_mem_literals {u : Term} (h : u ∈ literals ts) : ∃ w, u.node = int 0 w := by
  simp only [literals] at h
  split at h
  · cases List.mem_singleton.mp h
    exact ⟨_, rfl⟩
  · split at h
    · cases List.mem_singleton.mp h
      exact ⟨_, rfl⟩
    · cases h

theorem literals_length_le (ts : List Term) : (literals ts).length ≤ 1 := by
  simp only [literals]
  repeat' split
  all_goals simp

/-- The first positive term goes to the front, if there is one. -/
theorem positiveFirst_cases (ts : List Term) :
    ((∀ t ∈ ts, t.negative = true) ∧ positiveFirst ts = ts) ∨
    ∃ as t bs, ts = as ++ t :: bs ∧ (∀ a ∈ as, a.negative = true) ∧ t.negative = false ∧
      positiveFirst ts = t :: (as ++ bs) := by
  cases hfind : ts.find? (!·.negative) with
  | none =>
    refine .inl ⟨?_, ?_⟩
    · simpa using hfind
    · simp only [positiveFirst, hfind]
  | some t =>
    obtain ⟨ht, as, bs, rfl, has⟩ := List.find?_eq_some_iff_append.mp hfind
    simp only [Bool.not_eq_true', Bool.not_not] at ht has
    refine .inr ⟨as, t, bs, rfl, has, ht, ?_⟩
    simp only [positiveFirst, hfind, List.takeWhile_append_of_pos has,
      List.dropWhile_append_of_pos has]
    simp [ht]

theorem mem_positiveFirst {u : Term} : u ∈ positiveFirst ts ↔ u ∈ ts := by
  obtain ⟨-, h⟩ | ⟨as, t, bs, rfl, -, -, h⟩ := positiveFirst_cases ts
  · rw [h]
  · rw [h]
    simp only [List.mem_cons, List.mem_append]
    exact or_left_comm

theorem value?_foldl_attach {acc : Tree} {ts : List Term} (h : ts ≠ []) :
    (ts.foldl attach acc).value? = none := by
  induction ts generalizing acc with
  | nil => exact absurd rfl h
  | cons t ts ih =>
    cases ts with
    | nil => rfl
    | cons u ts => exact ih (by simp)

/-- A chain comes down to a literal only if there is nothing else in it. -/
theorem isLiteral_of_chain {w : Int64} (h : (chain ts).value? = some w) :
    ∀ u ∈ ts, u.isLiteral = true := by
  cases ts with
  | nil => simp
  | cons t ts =>
    simp only [chain] at h
    split at h
    · rw [value?_foldl_attach (by simp)] at h
      cases h
    · cases ts with
      | nil => simpa [Term.isLiteral] using by simp_all
      | cons u ts =>
        rw [value?_foldl_attach (by simp)] at h
        cases h

theorem isLiteral_of_folded {w : Int64}
    (h : (chain (positiveFirst (gathered ts))).value? = some w) : ∀ u ∈ ts, u.isLiteral = true := by
  intro u hu
  cases hlit : u.isLiteral with
  | true => rfl
  | false =>
    have hmem : u ∈ positiveFirst (gathered ts) := by
      rw [mem_positiveFirst, gathered_eq]
      exact List.mem_append_left _ (List.mem_filter.mpr ⟨hu, by simp [hlit]⟩)
    exact hlit ▸ isLiteral_of_chain h u hmem

/-- Whatever can be split into terms can be folded. -/
theorem fold_of_foldedTerms (h : (foldedTerms false t).isSome) : (fold t).isSome := by
  obtain ⟨ts, hts⟩ := Option.isSome_iff_exists.mp h
  obtain ⟨u, hinner, hterms⟩ := Option.bind_eq_some_iff.mp hts
  rw [fold, hinner]
  by_cases hchain : isChain u = true
  · simp [foldChainChild, hchain, foldChain, hterms]
  · simp [foldChainChild, hchain]

theorem mapM_fold_isSome {cs : List Tree} (h : ∀ c ∈ cs, (fold c).isSome) :
    (cs.mapM fold).isSome := by
  induction cs with
  | nil => rfl
  | cons c cs ih =>
    obtain ⟨c', hc⟩ := Option.isSome_iff_exists.mp (h c (by simp))
    obtain ⟨cs', hcs⟩ := Option.isSome_iff_exists.mp (ih fun c hc => h c (by simp [hc]))
    simp [List.mapM_cons, hc, hcs]

theorem foldedTerms_isSome {l : Label} {o : Int} {cs : List Tree}
    (h : isChain (.node l o cs) = false) (hcs : ∀ c ∈ cs, (fold c).isSome) :
    (foldedTerms negative (.node l o cs)).isSome := by
  rw [foldedTerms_of_not_chain (by simp) h, fold_node h]
  simpa using mapM_fold_isSome hcs

theorem fold_leaf {x : Tree} (h : ∃ o y, x = ident o y) : fold x = some x := by
  obtain ⟨o, y, rfl⟩ := h
  rfl

theorem fold_leaves {f : Form} {o : Int} {xs : List Tree} (hf : f.isBinary = false)
    (h : ∀ x ∈ xs, ∃ o y, x = ident o y) : fold (form f o xs) = some (form f o xs) := by
  rw [fold_form hf, mapM_fold_idents h, Option.map_some]

theorem fold_signature {n : Nat} {sig : List Tree} (h : IsSignature n sig) :
    sig.mapM fold = some sig := by
  obtain rfl | ⟨o, tags, rfl, -, htags, -⟩ := h
  · rfl
  · simp [fold_leaves (f := .signature) rfl fun t ht => (htags t ht).leaf]

theorem fold_function {o o' : Int} {params sig : List Tree} {body : Tree}
    (hparams : ∀ x ∈ params, IsIdent x) (hsig : IsSignature params.length sig)
    (h : fold (form .function o (form .parameters o' params :: body :: sig)) = some t') :
    ∃ body', fold body = some body' ∧
      t' = form .function o (form .parameters o' params :: body' :: sig) := by
  have hps := fold_leaves (f := .parameters) (o := o') rfl fun x hx => (hparams x hx).leaf
  rw [fold_form rfl] at h
  simp only [List.mapM_cons, hps, fold_signature hsig, Option.bind_eq_bind, Option.bind_some,
    Option.map_eq_some_iff, Option.bind_eq_some_iff, Option.pure_def, Option.some.injEq] at h
  obtain ⟨_, ⟨_, ⟨body', hb, rfl⟩, rfl⟩, rfl⟩ := h
  exact ⟨body', hb, rfl⟩

theorem fold_declare {o : Int} {x value : Tree} {type : List Tree} (hx : IsIdent x)
    (htype : ∀ t ∈ type, IsType t) (h : fold (form .declare o (x :: value :: type)) = some t') :
    ∃ value', fold value = some value' ∧ t' = form .declare o (x :: value' :: type) := by
  have htypes := mapM_fold_idents fun t ht => (htype t ht).leaf
  rw [fold_form rfl] at h
  simp only [List.mapM_cons, fold_leaf hx.leaf, htypes, Option.bind_eq_bind, Option.bind_some,
    Option.map_eq_some_iff, Option.bind_eq_some_iff, Option.pure_def, Option.some.injEq] at h
  obtain ⟨_, ⟨_, ⟨value', hv, rfl⟩, rfl⟩, rfl⟩ := h
  exact ⟨value', hv, rfl⟩

theorem isChain_cases {l : Label} {o : Int} {cs : List Tree} (h : isChain (.node l o cs) = true) :
    ∃ op : BinaryOp, op.isAdditive = true ∧ l = .form (.binary op) := by
  unfold isChain at h
  split at h
  · rename_i op _ _ heq
    cases heq
    exact ⟨op, h, rfl⟩
  · cases h

/-- Valid trees can be folded. -/
theorem foldedTerms_of_whole : (t : Tree) → Whole t → ∀ negative, (foldedTerms negative t).isSome
  | absent, h, _ => nomatch h.present
  | node l o cs, h, negative => by
    have hcs : ∀ c ∈ cs, ∀ negative, (foldedTerms negative c).isSome := fun c hc =>
      foldedTerms_of_whole c ((whole_node_iff.mp h).2 c hc)
    cases hchain : isChain (.node l o cs) with
    | false => exact foldedTerms_isSome hchain fun c hc => fold_of_foldedTerms (hcs c hc false)
    | true =>
      obtain ⟨op, hop, rfl⟩ := isChain_cases hchain
      cases Whole.shape h with
      | @binary _ lhs rhs =>
        obtain ⟨ls, hls⟩ := Option.isSome_iff_exists.mp (hcs lhs (by simp) negative)
        obtain ⟨rs, hrs⟩ := Option.isSome_iff_exists.mp (hcs rhs (by simp) (rightSign op negative))
        show (foldedTerms negative (binary op o lhs rhs)).isSome
        simp [foldedTerms_binary hop, hls, hrs]

theorem foldedTerms_of_wellSorted {role : Role} (h : WellSorted P role t) (negative : Bool) :
    (foldedTerms negative t).isSome := foldedTerms_of_whole t h.whole negative

theorem fold_of_whole (h : Whole t) : (fold t).isSome :=
  fold_of_foldedTerms (foldedTerms_of_whole t h false)

/-- Programs and their parts can be folded. -/
theorem fold_isSome {role : Role} (h : WellSorted P role t) : (fold t).isSome :=
  fold_of_whole h.whole

theorem term_of_foldedTerms (hchain : isChain t = false) (hpresent : t.isAbsent = false)
    (h : foldedTerms negative t = some ts) : ∃ t', fold t = some t' ∧ ts = [⟨t', negative⟩] := by
  have hne : t ≠ .absent := by
    rintro rfl
    cases hpresent
  rw [foldedTerms_of_not_chain hne hchain, Option.map_eq_some_iff] at h
  obtain ⟨t', hf, rfl⟩ := h
  exact ⟨t', hf, rfl⟩

theorem not_literal_of_form {f : Form} {o : Int} {cs : List Tree} (hf : f.isBinary = false)
    (h : foldedTerms negative (form f o cs) = some ts) : ¬ ∀ u ∈ ts, u.isLiteral = true := by
  have hchain : isChain (form f o cs) = false := by cases f <;> first | rfl | cases hf
  obtain ⟨t', ht', rfl⟩ := term_of_foldedTerms hchain rfl h
  rw [fold_form hf, Option.map_eq_some_iff] at ht'
  obtain ⟨cs', -, rfl⟩ := ht'
  simp [Term.isLiteral, form, value?]

/-- The folded operands of a node that is no sum or difference. -/
theorem fold_binary {op : BinaryOp} {o : Int} {lhs rhs : Tree} (hop : op.isAdditive = false)
    (h : fold (binary op o lhs rhs) = some t') :
    ∃ lhs' rhs', fold lhs = some lhs' ∧ fold rhs = some rhs' ∧
      t' = foldProduct (binary op o lhs' rhs') := by
  have hchain : isChain (.node (.form (.binary op)) o [lhs, rhs]) = false := hop
  rw [binary, form, fold_node hchain, Option.map_eq_some_iff] at h
  obtain ⟨cs, hcs, rfl⟩ := h
  simp only [List.mapM_cons, List.mapM_nil, Option.bind_eq_bind, Option.bind_eq_some_iff,
    Option.pure_def, Option.some.injEq] at hcs
  obtain ⟨lhs', hl, rs, ⟨rhs', hr, -, rfl, rfl⟩, rfl⟩ := hcs
  exact ⟨lhs', rhs', hl, hr, rfl⟩

theorem foldProduct_literal {op : BinaryOp} {o : Int} {lhs rhs : Tree}
    (h : (foldProduct (binary op o lhs rhs)).value?.isSome) :
    lhs.value?.isSome ∧ rhs.value?.isSome := by
  simp only [binary, form, foldProduct, List.getElem?_cons_zero, List.getElem?_cons_succ,
    Option.bind_some] at h
  split at h
  · simp_all
  · simp_all
  · simp [value?] at h

/-- A folded tree is the chain of its terms, or its only term. -/
theorem fold_cases (ht : foldedTerms false t = some ts) (hf : fold t = some t') :
    t' = chain (positiveFirst (gathered ts)) ∨ ts = [⟨t', false⟩] := by
  obtain ⟨u, hinner, hterms⟩ := Option.bind_eq_some_iff.mp ht
  rw [fold, hinner] at hf
  by_cases hchain : isChain u = true
  · simp only [Option.bind_eq_bind, Option.bind_some, foldChainChild, hchain, if_true, foldChain,
      hterms, Option.pure_def, Option.some.injEq] at hf
    exact .inl hf.symm
  · simp only [Option.bind_eq_bind, Option.bind_some, foldChainChild, hchain, Bool.false_eq_true,
      if_false, Option.some.injEq] at hf
    subst hf
    have hne : u ≠ .absent := by
      rintro rfl
      cases hterms
    rw [terms_of_not_chain (by simpa using hchain) hne, Option.some.injEq] at hterms
    exact .inr hterms.symm

theorem isLiteral_of_fold (ht : foldedTerms false t = some ts) (hf : fold t = some t')
    (h : t'.value?.isSome) : ∀ u ∈ ts, u.isLiteral = true := by
  obtain rfl | rfl := fold_cases ht hf
  · obtain ⟨w, hw⟩ := Option.isSome_iff_exists.mp h
    exact isLiteral_of_folded hw
  · simpa [Term.isLiteral] using h

/-- What folds to literals calls nothing. -/
theorem inert_of_literals (h : WellSorted P .expression t) (ht : foldedTerms negative t = some ts)
    (hts : ∀ u ∈ ts, u.isLiteral = true) : Inert t := by
  induction h using WellSorted.expression_induction generalizing negative ts with
  | int => exact inert_int _ _
  | lookup o x hx =>
    obtain ⟨o', y, rfl⟩ := hx.leaf
    simp [form, inert_node, inert_ident, form?]
  | binary op o lhs rhs hl hr ihl ihr =>
    have hinert : Inert lhs ∧ Inert rhs := by
      cases hop : op.isAdditive with
      | true =>
        obtain ⟨ls, rs, hls, hrs, rfl⟩ := exists_terms_of_binary hop ht
        rw [List.forall_mem_append] at hts
        exact ⟨ihl hls hts.1, ihr hrs hts.2⟩
      | false =>
        obtain ⟨t', hf, rfl⟩ := term_of_foldedTerms (t := binary op o lhs rhs) hop rfl ht
        obtain ⟨lhs', rhs', hlf, hrf, rfl⟩ := fold_binary hop hf
        have hlit := hts _ (List.mem_singleton.mpr rfl)
        obtain ⟨hlv, hrv⟩ := foldProduct_literal hlit
        obtain ⟨ls, hls⟩ := Option.isSome_iff_exists.mp (foldedTerms_of_wellSorted hl false)
        obtain ⟨rs, hrs⟩ := Option.isSome_iff_exists.mp (foldedTerms_of_wellSorted hr false)
        exact ⟨ihl hls (isLiteral_of_fold hls hlf hlv), ihr hrs (isLiteral_of_fold hrs hrf hrv)⟩
    simp [binary, form, inert_node, form?, hinert]
  | not => exact absurd hts (not_literal_of_form rfl ht)
  | call => exact absurd hts (not_literal_of_form rfl ht)
  | function => exact absurd hts (not_literal_of_form rfl ht)

/-- The nodes that are evaluated when they stand in the place of a statement. -/
def isExpression : Tree → Bool
  | .node (.integer _) _ _ => true
  | .node (.form f) _ _ =>
    match f with
    | .lookup | .binary _ | .not | .call | .function => true
    | _ => false
  | _ => false

end ClosureLang.Fold

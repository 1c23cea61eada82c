import ClosureLang.Proofs.Fold.Shapes
import ClosureLang.Proofs.Fold.Sums
import ClosureLang.Tree.Basic

/-! The normal form that folding reaches, and that folding again does not change. -/
namespace ClosureLang.Fold

open ClosureLang.Tree

variable {t t' acc : Tree} {u v : Term} {ts us : List Term} {negative : Bool} {Q : Tree → Prop}

/-- The signed terms of a chain that is associated to the left, from left to right. -/
def spine : Tree → List Term
  | .node (.form (.binary .add)) _ [lhs, rhs] => spine lhs ++ [⟨rhs, false⟩]
  | .node (.form (.binary .sub)) _ [lhs, rhs] => spine lhs ++ [⟨rhs, true⟩]
  | t => [⟨t, false⟩]

/-- No other term than `u` is positive. -/
def OnlyPositive (u : Term) (others : List Term) : Prop :=
  u.negative = false ∧ ∀ v ∈ others, v.negative = true

/-- Among the terms there is at most one literal. It is not zero, and it stands at the end, or at
the front if it is the only positive term. -/
structure Collected (ts : List Term) : Prop where
  single : (ts.filter Term.isLiteral).length ≤ 1
  nonzero : ∀ u ∈ ts, u.node.value? ≠ some 0
  front : ∀ as u bs, ts = as ++ u :: bs → u.isLiteral = true → OnlyPositive u (as ++ bs) → as = []
  back : ∀ as u bs, ts = as ++ u :: bs → u.isLiteral = true → ¬ OnlyPositive u (as ++ bs) → bs = []

/-- The terms of a folded chain. A zero leads only where all terms are negative. -/
def NormalChain (ts : List Term) : Prop :=
  Collected ts ∨
    ∃ o us, ts = ⟨int o 0, false⟩ :: us ∧ us ≠ [] ∧ (∀ u ∈ us, u.negative = true) ∧ Collected us

/-- A node below `parent` at which nothing is left to fold. -/
structure Normal (t parent : Tree) : Prop where
  product : ∀ o lhs rhs, t = .binary .mul o lhs rhs → lhs.value?.isSome → rhs.value? = none
  quotient : ∀ o lhs rhs, t = .binary .div o lhs rhs → lhs.value?.isSome →
      ∀ w, rhs.value? = some w → w = 0
  operand : isChain t = true → isChain (t.child 1) = false
  chain : isChain t = true → isChain parent = false → NormalChain (spine t)

/-- The value of a tree as a literal, given what it comes to. A negative sum is no literal. -/
def settled (t : Tree) (c : Option Int64) : Option Int64 :=
  if isChain t then c.filter (0 ≤ ·) else c

/-- What a tree with literals only comes to, with wrap-around. There is nothing that products and
quotients of negative sums or a division by zero come to. -/
def literalValue : Tree → Option Int64
  | .node (.integer w) _ _ => some w
  | .node (.form (.binary .add)) _ [lhs, rhs] => do
    return (← literalValue lhs) + (← literalValue rhs)
  | .node (.form (.binary .sub)) _ [lhs, rhs] => do
    return (← literalValue lhs) - (← literalValue rhs)
  | .node (.form (.binary .mul)) _ [lhs, rhs] => do
    return (← settled lhs (literalValue lhs)) * (← settled rhs (literalValue rhs))
  | .node (.form (.binary .div)) _ [lhs, rhs] => do
    return (← settled lhs (literalValue lhs)) / (← (settled rhs (literalValue rhs)).filter (· ≠ 0))
  | _ => none

/-- The literal that a tree comes to. -/
def literal? (t : Tree) : Option Int64 := settled t (literalValue t)

/-- The sum of the literals among the terms of a chain, with wrap-around. -/
def literalPart : Tree → Int64
  | .node (.form (.binary .add)) _ [lhs, rhs] => literalPart lhs + literalPart rhs
  | .node (.form (.binary .sub)) _ [lhs, rhs] => literalPart lhs - literalPart rhs
  | t => (literalValue t).getD 0

/-- What is computed at a node, with wrap-around. -/
structure Computed (t : Tree) : Prop where
  literal : (fold t).bind value? = literal? t
  sum : ∀ s, isChain t = true → literalValue t = some s →
    fold t = some (if 0 ≤ s then int 0 s else .binary .sub 0 (int 0 0) (int 0 (-s)))
  mixed : ∀ t', fold t = some t' → ((spine t').map Term.share).sum = literalPart t
  product : ∀ o lhs rhs a b, t = .binary .mul o lhs rhs → literal? lhs = some a →
    literal? rhs = some b → fold t = some (int 0 (a * b))
  quotient : ∀ o lhs rhs a b, t = .binary .div o lhs rhs → literal? lhs = some a →
    literal? rhs = some b → b ≠ 0 → fold t = some (int 0 (a / b))

section Constants

theorem constant_append (ts us : List Term) : constant (ts ++ us) = constant ts + constant us := by
  induction ts with
  | nil => simp [constant]
  | cons t ts ih => rw [List.cons_append, constant_cons, constant_cons, ih, Int64.add_assoc]

theorem share_of_not_literal (h : u.isLiteral = false) : u.share = 0 := by
  have hnone : u.node.value? = none := by simpa [Term.isLiteral] using h
  simp [Term.share, hnone]

theorem not_literal_of_mem_others (h : u ∈ others ts) : u.isLiteral = false := by
  simpa using (List.mem_filter.mp h).2

theorem constant_of_not_literal (h : ∀ u ∈ ts, u.isLiteral = false) : constant ts = 0 := by
  induction ts with
  | nil => rfl
  | cons t ts ih =>
    rw [List.forall_mem_cons] at h
    rw [constant_cons, share_of_not_literal h.1, ih h.2, Int64.zero_add]

theorem constant_literals (ts : List Term) : constant (literals ts) = constant ts := by
  unfold literals
  split
  · simp [constant, int, value?]
  · split
    · simp [constant, int, value?]
    · rename_i hpos hneg
      exact Int64.le_antisymm (Int64.not_lt.mp hneg) (Int64.not_lt.mp hpos)

theorem others_of_not_literal (h : ∀ u ∈ ts, u.isLiteral = false) : others ts = ts :=
  List.filter_eq_self.mpr fun u hu => by simp [h u hu]

theorem others_literals (ts : List Term) : others (literals ts) = [] := by
  refine List.filter_eq_nil_iff.mpr fun u hu => ?_
  obtain ⟨w, hw⟩ := node_of_mem_literals hu
  simp [Term.isLiteral, hw, int, value?]

/-- The other terms and the sum of the literals are all that matters. -/
theorem gathered_congr (hothers : others ts = others us) (hconstant : constant ts = constant us) :
    gathered ts = gathered us := by
  rw [gathered_eq, gathered_eq, hothers, literals, literals, hconstant]

end Constants

/-- Where folding puts the terms: as they are gathered if all are negative, and otherwise with a
positive one in front, which is the literal only if it is the only one. -/
theorem positiveFirst_gathered (ts : List Term) :
    ((∀ u ∈ gathered ts, u.negative = true) ∧
      positiveFirst (gathered ts) = others ts ++ literals ts) ∨
    (∃ as v bs, others ts = as ++ v :: bs ∧ v.negative = false ∧
      positiveFirst (gathered ts) = v :: (as ++ bs) ++ literals ts) ∨
    ∃ v, literals ts = [v] ∧ v.negative = false ∧ (∀ a ∈ others ts, a.negative = true) ∧
      positiveFirst (gathered ts) = v :: others ts := by
  obtain ⟨hall, hfirst⟩ | ⟨as, v, bs, hsplit, has, hv, hfirst⟩ := positiveFirst_cases (gathered ts)
  · exact .inl ⟨hall, hfirst.trans (gathered_eq ts)⟩
  · refine .inr ?_
    rw [gathered_eq] at hsplit
    have hlength := literals_length_le ts
    obtain ⟨as', rfl, hliterals⟩ | ⟨bs', hothers, hrest⟩ := List.append_eq_append_iff.mp hsplit
    · obtain ⟨rfl, rfl⟩ : as' = [] ∧ bs = [] := by
        rw [hliterals, List.length_append, List.length_cons] at hlength
        exact ⟨List.length_eq_zero_iff.mp (by omega), List.length_eq_zero_iff.mp (by omega)⟩
      rw [List.append_nil] at has hfirst
      exact .inr ⟨v, hliterals, hv, has, by simpa using hfirst⟩
    · cases bs' with
      | nil =>
        rw [List.nil_append] at hrest
        obtain rfl : bs = [] := by
          rw [← hrest, List.length_cons] at hlength
          exact List.length_eq_zero_iff.mp (by omega)
        rw [List.append_nil] at hothers hfirst
        subst hothers
        exact .inr ⟨v, hrest.symm, hv, has, hfirst⟩
      | cons w bs' =>
        cases hrest
        exact .inl ⟨as, v, bs', hothers, hv, by simpa using hfirst⟩

/-- A tree that is a term of its own. -/
structure Bare (t : Tree) : Prop where
  single : isChain t = false
  present : t ≠ .absent

theorem bare_int (o : Int) (w : Int64) : Bare (int o w) := ⟨rfl, nofun⟩

theorem bare_foldProduct {l : Label} {o : Int} {cs cs' : List Tree}
    (h : isChain (.node l o cs) = false) : Bare (foldProduct (.node l o cs')) :=
  ⟨isChain_foldProduct (isChain_node l o o cs cs' ▸ h), foldProduct_ne_absent⟩

section Induction

variable
  (hnode : ∀ l o cs cs', isChain (.node l o cs) = false → (∀ c ∈ cs', Q c) →
    Q (foldProduct (.node l o cs')))
  (hchain : ∀ ts : List Term, (∀ u ∈ ts, Bare u.node ∧ Q u.node) →
    Q (chain (positiveFirst (gathered ts))))

include hchain in
theorem folded_of_terms (h : Whole t)
    (hterms : ∀ negative ts, foldedTerms negative t = some ts → ∀ u ∈ ts, Bare u.node ∧ Q u.node)
    (hf : fold t = some t') : Q t' := by
  obtain ⟨ts, hts⟩ := Option.isSome_iff_exists.mp (foldedTerms_of_whole t h false)
  obtain rfl | rfl := fold_cases hts hf
  · exact hchain ts (hterms false ts hts)
  · exact (hterms false _ hts ⟨t', false⟩ (List.mem_singleton.mpr rfl)).2

include hnode hchain

theorem folded_terms : (t : Tree) → Whole t →
    ∀ negative ts, foldedTerms negative t = some ts → ∀ u ∈ ts, Bare u.node ∧ Q u.node
  | .absent, h => nomatch h.present
  | .node l o cs, h => by
    have hcs : ∀ c ∈ cs, Whole c ∧ ∀ negative ts, foldedTerms negative c = some ts →
        ∀ u ∈ ts, Bare u.node ∧ Q u.node := fun c hc =>
      have hc' := (whole_node_iff.mp h).2 c hc
      ⟨hc', folded_terms c hc'⟩
    intro negative ts hts
    cases hadditive : isChain (.node l o cs) with
    | false =>
      obtain ⟨t', hf, rfl⟩ := term_of_foldedTerms hadditive rfl hts
      rw [fold_node hadditive, Option.map_eq_some_iff] at hf
      obtain ⟨cs', hcs', rfl⟩ := hf
      have hall : ∀ c' ∈ cs', Q c' := forall_folded
        (fun c hc c' => folded_of_terms hchain (hcs c hc).1 (hcs c hc).2) (mapM_fold_forall hcs')
      exact List.forall_mem_singleton.mpr
        ⟨bare_foldProduct hadditive, hnode l o cs cs' hadditive hall⟩
    | true =>
      obtain ⟨op, hop, rfl⟩ := isChain_cases hadditive
      cases Whole.shape h with
      | @binary _ lhs rhs =>
        obtain ⟨ls, rs, hls, hrs, rfl⟩ := exists_terms_of_binary hop hts
        exact List.forall_mem_append.mpr
          ⟨(hcs lhs (by simp)).2 negative ls hls, (hcs rhs (by simp)).2 _ rs hrs⟩

/-- What folding makes of a tree has every property that nodes get from their folded children, and
chains from their folded terms. -/
theorem fold_induction (h : Whole t) (hf : fold t = some t') : Q t' :=
  folded_of_terms hchain h (folded_terms hnode hchain t h) hf

end Induction

section Again

/-- Folding changes nothing. -/
def Fixed (t : Tree) : Prop := fold t = some t

theorem foldedTerms_of_fixed (hbare : Bare t) (hfixed : Fixed t) :
    foldedTerms negative t = some [⟨t, negative⟩] := by
  rw [foldedTerms_of_not_chain hbare.present hbare.single, hfixed, Option.map_some]

theorem foldedTerms_foldl_attach (hts : ∀ u ∈ ts, Bare u.node ∧ Fixed u.node)
    (hacc : foldedTerms false acc = some us) :
    foldedTerms false (ts.foldl attach acc) = some (us ++ ts) := by
  induction ts generalizing acc us with
  | nil => simpa using hacc
  | cons t ts ih =>
    rw [List.forall_mem_cons] at hts
    have hattach : foldedTerms false (attach acc t) = some (us ++ [t]) := by
      rw [attach, foldedTerms_binary (by split <;> rfl), hacc, Option.bind_some]
      obtain ⟨node, _ | _⟩ := t <;> simp [rightSign, foldedTerms_of_fixed hts.1.1 hts.1.2]
    simpa using ih hts.2 hattach

/-- What folding makes of a chain that is associated to the left and has folded terms. -/
theorem fold_foldl_attach (hne : ts ≠ []) (hts : ∀ u ∈ ts, Bare u.node ∧ Fixed u.node)
    (hacc : foldedTerms false acc = some us) :
    fold (ts.foldl attach acc) = some (chain (positiveFirst (gathered (us ++ ts)))) := by
  have hterms := foldedTerms_foldl_attach hts hacc
  obtain ⟨rest, u, rfl⟩ := (List.eq_nil_or_concat ts).resolve_left hne
  rw [List.concat_eq_append] at hterms ⊢
  rw [List.foldl_concat] at hterms ⊢
  rw [attach] at hterms ⊢
  rw [fold_chain (by split <;> rfl), hterms, Option.map_some]

theorem positiveFirst_cons (h : u.negative = false) : positiveFirst (u :: ts) = u :: ts := by
  simp [positiveFirst, h]

theorem terms_positiveFirst {P : Term → Prop} (hts : ∀ u ∈ ts, P u)
    (hliterals : ∀ u ∈ literals ts, P u) : ∀ u ∈ positiveFirst (gathered ts), P u := by
  intro u hu
  rw [mem_positiveFirst, gathered_eq, List.mem_append] at hu
  exact hu.elim (fun hu => hts u (List.mem_filter.mp hu).1) (hliterals u)

/-- Literals that are gathered already stay where they are. -/
theorem gathered_append_literals (hus : ∀ u ∈ us, u.isLiteral = false) :
    gathered (us ++ literals ts) = us ++ literals ts := by
  have hothers : others (us ++ literals ts) = us := by
    have hsplit : others (us ++ literals ts) = others us ++ others (literals ts) :=
      List.filter_append _ _
    rw [hsplit, others_of_not_literal hus, others_literals, List.append_nil]
  have hconstant : constant (us ++ literals ts) = constant ts := by
    rw [constant_append, constant_of_not_literal hus, constant_literals, Int64.zero_add]
  rw [gathered_eq, hothers, literals, hconstant]
  rfl

/-- Folding the terms of a folded chain puts them where they are. -/
theorem positiveFirst_again (ts : List Term) :
    positiveFirst (gathered (positiveFirst (gathered ts))) = positiveFirst (gathered ts) := by
  have hnot : ∀ u ∈ others ts, u.isLiteral = false := fun u => not_literal_of_mem_others
  obtain ⟨-, hfirst⟩ | ⟨as, v, bs, hothers, hv, hfirst⟩ | ⟨v, hliterals, -, -, hfirst⟩ :=
    positiveFirst_gathered ts
  · rw [hfirst, gathered_append_literals hnot, ← gathered_eq, hfirst, gathered_eq]
  · have hrest : ∀ u ∈ v :: (as ++ bs), u.isLiteral = false := by
      simp only [hothers, List.mem_append, List.mem_cons] at hnot ⊢
      exact fun u hu => hnot u (or_left_comm.mp hu)
    rw [hfirst, gathered_append_literals hrest, List.cons_append, positiveFirst_cons hv]
  · have hlit : v.isLiteral = true := by
      have hmem : v ∈ literals ts := by simp [hliterals]
      obtain ⟨w, hw⟩ := node_of_mem_literals hmem
      simp [Term.isLiteral, hw, int, value?]
    have hothers : others (v :: others ts) = others ts := by
      rw [others, List.filter_cons_of_neg (by simp [hlit])]
      exact others_of_not_literal hnot
    have hconstant : constant (v :: others ts) = constant ts := by
      rw [← constant_literals ts, hliterals, constant_cons, constant_cons,
        constant_of_not_literal hnot]
      rfl
    rw [hfirst, gathered_congr hothers hconstant, hfirst]

/-- A zero in front of gathered terms adds nothing. -/
theorem gathered_zero (o : Int) (ts : List Term) :
    gathered (⟨int o 0, false⟩ :: ts) = gathered ts := by
  refine gathered_congr (List.filter_cons_of_neg (by simp [Term.isLiteral, int, value?])) ?_
  rw [constant_cons, show Term.share ⟨int o 0, false⟩ = 0 from rfl, Int64.zero_add]

theorem bare_fixed_of_mem_literals (h : u ∈ literals ts) : Bare u.node ∧ Fixed u.node := by
  obtain ⟨w, hw⟩ := node_of_mem_literals h
  rw [hw]
  exact ⟨bare_int 0 w, fold_int w⟩

/-- A folded chain of folded terms is folded. -/
theorem fixed_chain (hts : ∀ u ∈ ts, Bare u.node ∧ Fixed u.node) :
    Fixed (chain (positiveFirst (gathered ts))) := by
  have hall := terms_positiveFirst (P := fun u => Bare u.node ∧ Fixed u.node) hts fun _ =>
    bare_fixed_of_mem_literals
  have hagain := positiveFirst_again ts
  generalize positiveFirst (gathered ts) = us at hall hagain
  cases us with
  | nil => exact fold_int 0
  | cons u us =>
    have hhead := List.forall_mem_cons.mp hall
    rw [Fixed, chain]
    cases hu : u.negative with
    | true =>
      rw [if_pos rfl, fold_foldl_attach (List.cons_ne_nil _ _)
        hall (foldedTerms_of_fixed (bare_int 0 0) (fold_int 0)),
        List.singleton_append, gathered_zero, hagain, chain, hu, if_pos rfl]
    | false =>
      obtain rfl | hne := eq_or_ne us []
      · exact hhead.1.2
      · have hsame : (⟨u.node, false⟩ : Term) = u := by rw [← hu]
        rw [if_neg Bool.false_ne_true,
          fold_foldl_attach hne hhead.2 (foldedTerms_of_fixed hhead.1.1 hhead.1.2), hsame,
          List.singleton_append, hagain, chain, hu, if_neg Bool.false_ne_true]

theorem mapM_fold_fixed {cs : List Tree} (h : ∀ c ∈ cs, Fixed c) : cs.mapM fold = some cs := by
  induction cs with
  | nil => rfl
  | cons c cs ih =>
    rw [List.forall_mem_cons] at h
    have hc : fold c = some c := h.1
    simp [List.mapM_cons, hc, ih h.2]

/-- Folding a folded tree changes nothing. -/
theorem fixed_of_fold (h : Whole t) (hf : fold t = some t') : Fixed t' := by
  refine fold_induction (Q := Fixed) (fun l o cs cs' hchain hcs => ?_) (fun ts => fixed_chain) h hf
  obtain heq | ⟨w, heq⟩ := foldProduct_eq_or (.node l o cs')
  · rw [Fixed, heq, fold_node (isChain_node l o o cs cs' ▸ hchain), mapM_fold_fixed hcs,
      Option.map_some, heq]
  · rw [heq]
    exact fold_int w

end Again

section Forms

theorem literals_ne_zero (h : u ∈ literals ts) : u.node.value? ≠ some 0 := by
  simp only [literals] at h
  split at h
  · rename_i hpos
    obtain rfl := List.mem_singleton.mp h
    intro hzero
    obtain heq : constant ts = 0 := Option.some.inj hzero
    rw [heq] at hpos
    exact absurd hpos (by decide)
  · split at h
    · rename_i hneg
      obtain rfl := List.mem_singleton.mp h
      intro hzero
      obtain heq : -constant ts = 0 := Option.some.inj hzero
      have hsum : constant ts = 0 := by grind
      rw [hsum] at hneg
      exact absurd hneg (by decide)
    · cases h

theorem nonzero_gathered (h : u ∈ positiveFirst (gathered ts)) : u.node.value? ≠ some 0 := by
  rw [mem_positiveFirst, gathered_eq, List.mem_append] at h
  rcases h with h | h
  · have hnot := not_literal_of_mem_others h
    intro hzero
    simp [Term.isLiteral, hzero] at hnot
  · exact literals_ne_zero h

/-- Behind terms that are no literals, the only place for one is the end. -/
theorem split_at_literal {as bs : List Term} (hus : ∀ u ∈ us, u.isLiteral = false)
    (hts : ts.length ≤ 1) (hu : u.isLiteral = true) (h : us ++ ts = as ++ u :: bs) :
    as = us ∧ ts = [u] ∧ bs = [] := by
  obtain ⟨as', rfl, hlast⟩ | ⟨bs', rfl, hlast⟩ := List.append_eq_append_iff.mp h
  · rw [hlast, List.length_append, List.length_cons] at hts
    obtain rfl := List.length_eq_zero_iff.mp (show as'.length = 0 by omega)
    obtain rfl := List.length_eq_zero_iff.mp (show bs.length = 0 by omega)
    exact ⟨List.append_nil us, hlast, rfl⟩
  · cases bs' with
    | nil =>
      rw [List.nil_append] at hlast
      rw [← hlast, List.length_cons] at hts
      obtain rfl := List.length_eq_zero_iff.mp (show bs.length = 0 by omega)
      exact ⟨(List.append_nil as).symm, hlast.symm, rfl⟩
    | cons w bs' =>
      cases hlast
      exact absurd hu (by simp [hus u (by simp)])

theorem collected_append (hus : ∀ u ∈ us, u.isLiteral = false) (hts : ts.length ≤ 1)
    (hzero : ∀ u ∈ us ++ ts, u.node.value? ≠ some 0) (hpositive : ∀ u ∈ ts, ¬ OnlyPositive u us) :
    Collected (us ++ ts) where
  single := by
    rw [List.filter_append, List.filter_eq_nil_iff.mpr (fun u hu => by simp [hus u hu]),
      List.nil_append]
    exact Nat.le_trans (List.length_filter_le _ _) hts
  nonzero := hzero
  front as u bs h hu honly := by
    obtain ⟨rfl, rfl, rfl⟩ := split_at_literal hus hts hu h
    rw [List.append_nil] at honly
    exact absurd honly (hpositive u (List.mem_singleton.mpr rfl))
  back as u bs h hu _ := (split_at_literal hus hts hu h).2.2

theorem collected_cons (hus : ∀ u ∈ us, u.isLiteral = false)
    (hzero : ∀ u ∈ v :: us, u.node.value? ≠ some 0) (hpositive : OnlyPositive v us) :
    Collected (v :: us) := by
  have hfront : ∀ as u bs, v :: us = as ++ u :: bs → u.isLiteral = true → as = [] := by
    intro as u bs h hu
    cases as with
    | nil => rfl
    | cons w as =>
      cases h
      exact absurd hu (by simp [hus u (by simp)])
  refine ⟨?_, hzero, fun as u bs h hu _ => hfront as u bs h hu, fun as u bs h hu hnot => ?_⟩
  · have hnone : us.filter Term.isLiteral = [] :=
      List.filter_eq_nil_iff.mpr fun u hu => by simp [hus u hu]
    rw [List.filter_cons, hnone]
    split <;> simp
  · obtain rfl := hfront as u bs h hu
    cases h
    exact absurd hpositive hnot

/-- The terms of a folded chain are collected. -/
theorem collected (ts : List Term) : Collected (positiveFirst (gathered ts)) := by
  have hnot : ∀ u ∈ others ts, u.isLiteral = false := fun u => not_literal_of_mem_others
  have hzero : ∀ u ∈ positiveFirst (gathered ts), u.node.value? ≠ some 0 :=
    fun u => nonzero_gathered
  obtain ⟨hall, hfirst⟩ | ⟨as, v, bs, hothers, hv, hfirst⟩ | ⟨v, hliterals, hv,
      hnegative, hfirst⟩ :=
    positiveFirst_gathered ts
  · rw [hfirst] at hzero ⊢
    refine collected_append hnot (literals_length_le ts) hzero fun u hu honly => ?_
    have hneg := hall u (by simp [gathered_eq, hu])
    rw [honly.1] at hneg
    cases hneg
  · have hrest : ∀ u ∈ v :: (as ++ bs), u.isLiteral = false := by
      simp only [hothers, List.mem_append, List.mem_cons] at hnot ⊢
      exact fun u hu => hnot u (or_left_comm.mp hu)
    rw [hfirst] at hzero ⊢
    refine collected_append hrest (literals_length_le ts) hzero fun u _ honly => ?_
    have hneg := honly.2 v List.mem_cons_self
    rw [hv] at hneg
    cases hneg
  · rw [hfirst] at hzero ⊢
    exact collected_cons hnot hzero ⟨hv, hnegative⟩

theorem spine_of_bare (h : Bare t) : spine t = [⟨t, false⟩] := by
  unfold spine
  split
  · cases h.single
  · cases h.single
  · rfl

theorem spine_attach (t : Tree) (u : Term) : spine (attach t u) = spine t ++ [u] := by
  obtain ⟨node, _ | _⟩ := u <;> rfl

theorem spine_foldl_attach (ts : List Term) (acc : Tree) :
    spine (ts.foldl attach acc) = spine acc ++ ts := by
  induction ts generalizing acc with
  | nil => simp
  | cons t ts ih => simp [ih, spine_attach]

/-- The first term is negative only if all of them are. -/
theorem negative_of_head (h : positiveFirst ts = u :: us) (hu : u.negative = true) :
    ∀ v ∈ u :: us, v.negative = true := by
  obtain ⟨hall, hfirst⟩ | ⟨as, v, bs, -, -, hv, hfirst⟩ := positiveFirst_cases ts
  · rw [← h, hfirst]
    exact hall
  · obtain ⟨rfl, -⟩ := List.cons.inj (hfirst.symm.trans h)
    rw [hu] at hv
    cases hv

/-- A folded chain is in normal form. -/
theorem normalChain_chain (hts : ∀ u ∈ positiveFirst (gathered ts), Bare u.node)
    (hne : isChain (chain (positiveFirst (gathered ts))) = true) :
    NormalChain (spine (chain (positiveFirst (gathered ts)))) := by
  have hcollected := collected ts
  cases hus : positiveFirst (gathered ts) with
  | nil =>
    rw [hus] at hne
    cases hne
  | cons u us =>
    rw [hus] at hts hcollected
    rw [chain]
    cases hu : u.negative with
    | true =>
      rw [if_pos rfl, spine_foldl_attach, spine_of_bare (bare_int 0 0), List.singleton_append]
      exact .inr ⟨0, u :: us, rfl, List.cons_ne_nil _ _, negative_of_head hus hu, hcollected⟩
    | false =>
      have hsame : (⟨u.node, false⟩ : Term) = u := by rw [← hu]
      rw [if_neg Bool.false_ne_true, spine_foldl_attach,
        spine_of_bare (List.forall_mem_cons.mp hts).1, hsame, List.singleton_append]
      exact .inl hcollected

/-- Nothing is left to fold in the tree, wherever it is not a part of a chain. -/
def InForm (t : Tree) : Prop :=
  ∀ parent, (isChain t = true → isChain parent = false) → Everywhere Normal parent t

theorem everywhere_normal_int (parent : Tree) (o : Int) (w : Int64) :
    Everywhere Normal parent (int o w) :=
  everywhere_node.mpr ⟨⟨nofun, nofun, nofun, nofun⟩, nofun⟩

theorem everywhere_normal_foldl_attach {parent : Tree} (hparent : isChain parent = true)
    (hacc : ∀ parent, isChain parent = true → Everywhere Normal parent acc)
    (hts : ∀ u ∈ ts, Bare u.node ∧ InForm u.node) :
    Everywhere Normal parent (ts.foldl attach acc) := by
  induction ts generalizing acc with
  | nil => exact hacc parent hparent
  | cons t ts ih =>
    rw [List.forall_mem_cons] at hts
    refine ih (fun parent hparent => ?_) hts.2
    have hadditive : isChain (attach acc t) = true := by
      unfold attach
      split <;> rfl
    have hoperands : ∀ c ∈ [acc, t.node], Everywhere Normal (attach acc t) c := by
      simp only [List.forall_mem_cons, List.not_mem_nil, false_imp_iff, implies_true, and_true]
      exact ⟨hacc _ hadditive, hts.1.2 _ fun hchain => absurd hchain (by simp [hts.1.1.single])⟩
    refine everywhere_node.mpr ⟨⟨?_, ?_, fun _ => hts.1.1.single, fun _ h => ?_⟩, hoperands⟩
    · intro o lhs rhs h
      obtain ⟨node, _ | _⟩ := t <;> cases h
    · intro o lhs rhs h
      obtain ⟨node, _ | _⟩ := t <;> cases h
    · rw [hparent] at h
      cases h

/-- Folded chains of folded terms are in normal form everywhere. -/
theorem inForm_chain (hts : ∀ u ∈ ts, Bare u.node ∧ InForm u.node) :
    InForm (chain (positiveFirst (gathered ts))) := by
  have hall := terms_positiveFirst (P := fun u => Bare u.node ∧ InForm u.node) hts fun u hu => by
    obtain ⟨w, hw⟩ := node_of_mem_literals hu
    rw [hw]
    exact ⟨bare_int 0 w, fun parent _ => everywhere_normal_int parent 0 w⟩
  have hchain := normalChain_chain fun u hu => (hall u hu).1
  intro parent hparent
  -- below another operator nothing is asked of the terms as a whole
  have hbelow :
      Everywhere Normal (binary .add 0 .absent .absent) (chain (positiveFirst (gathered ts))) := by
    generalize positiveFirst (gathered ts) = us at hall
    cases us with
    | nil => exact everywhere_normal_int _ 0 0
    | cons u us =>
      rw [chain]
      split
      · exact everywhere_normal_foldl_attach
          rfl (fun parent _ => everywhere_normal_int parent 0 0) hall
      · obtain ⟨⟨hbare, hu⟩, hus⟩ := List.forall_mem_cons.mp hall
        exact everywhere_normal_foldl_attach rfl
          (fun parent _ => hu parent fun hchain => absurd hchain (by simp [hbare.single])) hus
  exact everywhere_congr (fun h => ⟨h.product, h.quotient, h.operand, fun hc _ => hchain hc⟩) hbelow

theorem foldProduct_mul {o : Int} {lhs rhs : Tree} {a b : Int64} (ha : lhs.value? = some a)
    (hb : rhs.value? = some b) : foldProduct (.binary .mul o lhs rhs) = int 0 (a * b) := by
  simp [foldProduct, binary, form, ha, hb]

theorem foldProduct_div {o : Int} {lhs rhs : Tree} {a b : Int64} (ha : lhs.value? = some a)
    (hb : rhs.value? = some b) (hne : b ≠ 0) :
    foldProduct (.binary .div o lhs rhs) = int 0 (a / b) := by
  simp [foldProduct, binary, form, ha, hb, hne]

theorem inForm_foldProduct {l : Label} {o : Int} {cs cs' : List Tree}
    (hchain : isChain (.node l o cs) = false) (hcs : ∀ c ∈ cs', InForm c) :
    InForm (foldProduct (.node l o cs')) := by
  intro parent _
  have hchain : isChain (.node l o cs') = false := isChain_node l o o cs cs' ▸ hchain
  obtain heq | ⟨w, heq⟩ := foldProduct_eq_or (.node l o cs')
  · rw [heq]
    refine everywhere_node.mpr
      ⟨⟨?_, ?_, fun h => ?_, fun h => ?_⟩, fun c hc => hcs c hc _ fun _ => hchain⟩
    · intro o' lhs rhs h hl
      obtain ⟨a, ha⟩ := Option.isSome_iff_exists.mp hl
      cases hb : rhs.value? with
      | none => rfl
      | some b =>
        rw [h, foldProduct_mul ha hb] at heq
        cases heq
    · intro o' lhs rhs h hl b hb
      obtain ⟨a, ha⟩ := Option.isSome_iff_exists.mp hl
      refine of_not_not fun hne => ?_
      rw [h, foldProduct_div ha hb hne] at heq
      cases heq
    · rw [hchain] at h
      cases h
    · rw [hchain] at h
      cases h
  · rw [heq]
    exact everywhere_normal_int parent 0 w

theorem inForm_of_fold (h : Whole t) (hf : fold t = some t') : InForm t' :=
  fold_induction (fun _ _ _ _ hchain hcs => inForm_foldProduct hchain hcs)
    (fun _ => inForm_chain) h hf

end Forms

section Sums

variable {l : Label} {o : Int} {cs : List Tree} {op : BinaryOp} {lhs rhs lhs' rhs' : Tree}

/-- How the terms of a tree add up. -/
structure Tallied (t : Tree) : Prop where
  value : (fold t).bind value? = literal? t
  part : ∀ negative ts, foldedTerms negative t = some ts →
    constant ts = signed negative (literalPart t)
  whole : ∀ negative ts, foldedTerms negative t = some ts →
    literalValue t = if ts.all Term.isLiteral then some (literalPart t) else none

theorem signed_add (negative : Bool) (a b : Int64) :
    signed negative (a + b) = signed negative a + signed negative b := by
  cases negative with
  | false => rfl
  | true => exact Int64.neg_add.trans (Int64.sub_eq_add_neg ..)

theorem signed_rightSign (op : BinaryOp) (negative : Bool) (b : Int64) :
    signed (rightSign op negative) b = signed negative (signed (decide (op = .sub)) b) := by
  cases negative <;> cases hsub : decide (op = .sub) <;> simp [signed, rightSign, hsub]

theorem literalPart_binary (hop : op.isAdditive = true) :
    literalPart (.binary op o lhs rhs) =
      literalPart lhs + signed (decide (op = .sub)) (literalPart rhs) := by
  cases op <;> try cases hop
  · rfl
  · exact Int64.sub_eq_add_neg ..

theorem literalValue_binary (hop : op.isAdditive = true) :
    literalValue (.binary op o lhs rhs) = (literalValue lhs).bind fun a =>
      (literalValue rhs).map fun b => a + signed (decide (op = .sub)) b := by
  cases op <;> try cases hop
  all_goals
    cases hl : literalValue lhs <;> cases hr : literalValue rhs <;>
      simp [binary, form, literalValue, hl, hr, signed, Int64.sub_eq_add_neg]

theorem literalPart_of_not_chain (h : isChain t = false) :
    literalPart t = (literalValue t).getD 0 := by
  unfold literalPart
  split
  · cases h
  · cases h
  · rfl

theorem fold_of_operands (hop : op.isAdditive = false) (hl : fold lhs = some lhs')
    (hr : fold rhs = some rhs') :
    fold (.binary op o lhs rhs) = some (foldProduct (.binary op o lhs' rhs')) := by
  have hchain : isChain (.node (.form (.binary op)) o [lhs, rhs]) = false := hop
  rw [binary, form, fold_node hchain]
  simp [List.mapM_cons, hl, hr, binary, form]

theorem chain_of_literals (hts : ∀ u ∈ ts, u.isLiteral = true) :
    chain (positiveFirst (gathered ts)) =
      if 0 ≤ constant ts then int 0 (constant ts)
      else .binary .sub 0 (int 0 0) (int 0 (-constant ts)) := by
  have hothers : others ts = [] := List.filter_eq_nil_iff.mpr fun u hu => by simp [hts u hu]
  rw [gathered_eq, hothers, List.nil_append, literals]
  split
  · rename_i hpos
    rw [if_pos (Int64.le_of_lt hpos)]
    rfl
  · rename_i hpos
    split
    · rename_i hneg
      rw [if_neg (Int64.not_le.mpr hneg)]
      rfl
    · rename_i hneg
      have hzero : constant ts = 0 :=
        Int64.le_antisymm (Int64.not_lt.mp hpos) (Int64.not_lt.mp hneg)
      rw [hzero]
      rfl

/-- Literals are gathered to a single literal only if their sum is not negative. -/
theorem value?_chain (hts : ∀ u ∈ ts, u.isLiteral = true) :
    (chain (positiveFirst (gathered ts))).value? = (some (constant ts)).filter (0 ≤ ·) := by
  rw [chain_of_literals hts, Option.filter_some]
  simp only [decide_eq_true_eq]
  split
  · rfl
  · rfl

theorem foldProduct_of_none (h : lhs.value? = none ∨ rhs.value? = none) :
    foldProduct (.binary op o lhs rhs) = .binary op o lhs rhs := by
  simp only [foldProduct, binary, form, List.getElem?_cons_zero, List.getElem?_cons_succ,
    Option.bind_some]
  obtain h | h := h
  · rw [h]
    split <;> first | rfl | contradiction
  · rw [h]
    split <;> first | rfl | contradiction

/-- The value of a product or quotient of folded operands. -/
theorem value?_foldProduct (hop : op.isAdditive = false) (hl : lhs'.value? = literal? lhs)
    (hr : rhs'.value? = literal? rhs) :
    (foldProduct (.binary op o lhs' rhs')).value? = literalValue (.binary op o lhs rhs) := by
  cases op with
  | mul =>
    have hvalue : literalValue (.binary .mul o lhs rhs) =
        (literal? lhs).bind fun a => (literal? rhs).bind fun b => some (a * b) := rfl
    rw [hvalue, ← hl, ← hr]
    cases ha : lhs'.value? with
    | none => exact congrArg value? (foldProduct_of_none (.inl ha))
    | some a =>
      cases hb : rhs'.value? with
      | none => exact congrArg value? (foldProduct_of_none (.inr hb))
      | some b => exact congrArg value? (foldProduct_mul ha hb)
  | div =>
    have hvalue : literalValue (.binary .div o lhs rhs) =
        (literal? lhs).bind fun a => ((literal? rhs).filter (· ≠ 0)).bind fun b =>
          some (a / b) := rfl
    rw [hvalue, ← hl, ← hr]
    cases ha : lhs'.value? with
    | none => exact congrArg value? (foldProduct_of_none (.inl ha))
    | some a =>
      cases hb : rhs'.value? with
      | none => exact congrArg value? (foldProduct_of_none (.inr hb))
      | some b =>
        by_cases hzero : b = 0
        · subst hzero
          have hsame : foldProduct (.binary .div o lhs' rhs') = .binary .div o lhs' rhs' := by
            simp [foldProduct, binary, form, ha, hb]
          exact congrArg value? hsame
        · rw [foldProduct_div ha hb hzero, Option.filter_some, if_pos (by simpa using hzero)]
          rfl
  | _ => first | rfl | cases hop

/-- Outside chains the value of the folded node is computed from those of the folded children. -/
theorem value?_fold_node (h : Whole (.node l o cs)) (hchain : isChain (.node l o cs) = false)
    (hcs : ∀ c ∈ cs, (fold c).bind value? = literal? c) (hf : fold (.node l o cs) = some t') :
    t'.value? = literalValue (.node l o cs) := by
  have hfold := (fold_node hchain).symm.trans hf
  obtain ⟨cs', -, ht'⟩ := Option.map_eq_some_iff.mp hfold
  cases l with
  | integer w | ident x => rw [← ht']; rfl
  | form f =>
    cases Whole.shape h with
    | @binary op lhs rhs =>
      obtain ⟨lhs', rhs', hl, hr, rfl⟩ := fold_binary hchain hf
      refine value?_foldProduct hchain ?_ ?_
      · rw [← hcs lhs (by simp), hl, Option.bind_some]
      · rw [← hcs rhs (by simp), hr, Option.bind_some]
    | _ => rw [← ht']; rfl

theorem tallied_of_not_chain (h : Whole (.node l o cs)) (hchain : isChain (.node l o cs) = false)
    (hcs : ∀ c ∈ cs, Tallied c) : Tallied (.node l o cs) := by
  have hliteral : literal? (.node l o cs) = literalValue (.node l o cs) := by
    simp [literal?, settled, hchain]
  obtain ⟨t', hf⟩ := Option.isSome_iff_exists.mp (fold_of_whole h)
  have hvalue := value?_fold_node h hchain (fun c hc => (hcs c hc).value) hf
  have hterms {negative ts} (hts : foldedTerms negative (.node l o cs) = some ts) :
      ts = [⟨t', negative⟩] := by
    rw [foldedTerms_of_not_chain (by simp) hchain, hf, Option.map_some] at hts
    exact (Option.some.inj hts).symm
  refine ⟨by rw [hf, Option.bind_some, hvalue, hliteral], fun negative ts hts => ?_,
    fun negative ts hts => ?_⟩
  · rw [hterms hts, constant_cons, Term.share, hvalue, literalPart_of_not_chain hchain]
    cases literalValue (.node l o cs) with
    | none => simp [signed, constant]
    | some w => exact Int64.add_zero _
  · rw [hterms hts, literalPart_of_not_chain hchain]
    cases hc : literalValue (.node l o cs) <;> simp [Term.isLiteral, hvalue, hc]

theorem tallied_binary (hop : op.isAdditive = true) (h : Whole (.binary op o lhs rhs))
    (hl : Tallied lhs) (hr : Tallied rhs) : Tallied (.binary op o lhs rhs) := by
  have hpart : ∀ negative ts, foldedTerms negative (.binary op o lhs rhs) = some ts →
      constant ts = signed negative (literalPart (.binary op o lhs rhs)) := by
    intro negative ts hts
    obtain ⟨ls, rs, hls, hrs, rfl⟩ := exists_terms_of_binary hop hts
    rw [constant_append, hl.part _ _ hls, hr.part _ _ hrs, literalPart_binary hop, signed_add,
      signed_rightSign]
  have hwhole : ∀ negative ts, foldedTerms negative (.binary op o lhs rhs) = some ts →
      literalValue (.binary op o lhs rhs) =
        if ts.all Term.isLiteral then some (literalPart (.binary op o lhs rhs)) else none := by
    intro negative ts hts
    obtain ⟨ls, rs, hls, hrs, rfl⟩ := exists_terms_of_binary hop hts
    rw [literalValue_binary hop, hl.whole _ _ hls, hr.whole _ _ hrs, literalPart_binary hop,
      List.all_append]
    cases ls.all Term.isLiteral <;> cases rs.all Term.isLiteral <;> rfl
  refine ⟨?_, hpart, hwhole⟩
  obtain ⟨ts, hts⟩ := Option.isSome_iff_exists.mp (foldedTerms_of_whole _ h false)
  have hsum : constant ts = literalPart (.binary op o lhs rhs) := hpart false ts hts
  have hliteral : literal? (.binary op o lhs rhs) =
      (literalValue (.binary op o lhs rhs)).filter (0 ≤ ·) := if_pos hop
  rw [fold_chain hop, hts, Option.map_some, Option.bind_some, hliteral, hwhole false ts hts, ← hsum]
  by_cases hall : ts.all Term.isLiteral = true
  · rw [if_pos hall]
    exact value?_chain (List.all_eq_true.mp hall)
  · rw [if_neg hall, Option.filter_none]
    refine Option.eq_none_iff_forall_ne_some.mpr fun w hw => hall ?_
    exact List.all_eq_true.mpr (isLiteral_of_folded hw)

theorem tallied : (t : Tree) → Whole t → Tallied t
  | .absent, h => nomatch h.present
  | .node l o cs, h => by
    have hcs : ∀ c ∈ cs, Tallied c := fun c hc => tallied c ((whole_node_iff.mp h).2 c hc)
    cases hchain : isChain (.node l o cs) with
    | false => exact tallied_of_not_chain h hchain hcs
    | true =>
      obtain ⟨op, hop, rfl⟩ := isChain_cases hchain
      cases Whole.shape h with
      | @binary _ lhs rhs => exact tallied_binary hop h (hcs lhs (by simp)) (hcs rhs (by simp))

/-- Nothing is added to a sum or taken from it when its terms are put into their places. -/
theorem constant_positiveFirst (ts : List Term) :
    constant (positiveFirst (gathered ts)) = constant ts := by
  have hothers : constant (others ts) = 0 :=
    constant_of_not_literal fun u => not_literal_of_mem_others
  obtain ⟨-, hfirst⟩ | ⟨as, v, bs, hsplit, -, hfirst⟩ | ⟨v, hliterals, -, -, hfirst⟩ :=
    positiveFirst_gathered ts
  · rw [hfirst, constant_append, hothers, constant_literals, Int64.zero_add]
  · have hfront : constant (v :: (as ++ bs)) = 0 := by
      refine constant_of_not_literal fun u hu => ?_
      have hmem : u ∈ others ts := by
        rw [hsplit]
        simpa [or_left_comm] using hu
      exact not_literal_of_mem_others hmem
    rw [hfirst, constant_append, hfront, constant_literals, Int64.zero_add]
  · rw [hfirst, constant_cons, hothers, ← constant_literals ts, hliterals, constant_cons]
    rfl

theorem sum_shares (ts : List Term) : (ts.map Term.share).sum = constant ts := by
  induction ts with
  | nil => rfl
  | cons t ts ih => rw [List.map_cons, List.sum_cons, ih, constant_cons]

theorem sum_spine_chain (hts : ∀ u ∈ ts, Bare u.node) :
    ((spine (chain ts)).map Term.share).sum = constant ts := by
  rw [sum_shares]
  cases ts with
  | nil => rfl
  | cons u us =>
    rw [chain]
    cases hu : u.negative with
    | true =>
      rw [if_pos rfl, spine_foldl_attach, spine_of_bare (bare_int 0 0), List.singleton_append,
        constant_cons, show Term.share ⟨int 0 0, false⟩ = 0 from rfl, Int64.zero_add]
    | false =>
      have hsame : (⟨u.node, false⟩ : Term) = u := by rw [← hu]
      rw [if_neg Bool.false_ne_true, spine_foldl_attach,
        spine_of_bare (List.forall_mem_cons.mp hts).1, hsame, List.singleton_append]

theorem bare_of_foldedTerms (h : Whole t) (hts : foldedTerms negative t = some ts) :
    ∀ u ∈ ts, Bare u.node := fun u hu =>
  (folded_terms (Q := fun _ => True) (fun _ _ _ _ _ _ => trivial) (fun _ _ => trivial) t h negative
    ts hts u hu).1

theorem sum_spine_fold (h : Whole t) (hf : fold t = some t') :
    ((spine t').map Term.share).sum = literalPart t := by
  obtain ⟨ts, hts⟩ := Option.isSome_iff_exists.mp (foldedTerms_of_whole t h false)
  have hsum : constant ts = literalPart t := (tallied t h).part false ts hts
  have hbare := bare_of_foldedTerms h hts
  obtain rfl | rfl := fold_cases hts hf
  · have hplaced : ∀ u ∈ positiveFirst (gathered ts), Bare u.node :=
      terms_positiveFirst hbare fun u hu => (bare_fixed_of_mem_literals hu).1
    rw [sum_spine_chain hplaced, constant_positiveFirst, hsum]
  · rw [spine_of_bare (hbare _ List.mem_cons_self), sum_shares, hsum]

/-- The operands that come to literals fold to them. -/
theorem folded_operands {a b : Int64} (h : Whole (.binary op o lhs rhs))
    (ha : literal? lhs = some a) (hb : literal? rhs = some b) :
    ∃ lhs' rhs', fold lhs = some lhs' ∧ lhs'.value? = some a ∧
      fold rhs = some rhs' ∧ rhs'.value? = some b := by
  have hcs := (whole_node_iff.mp h).2
  rw [← (tallied lhs (hcs lhs (by simp))).value] at ha
  rw [← (tallied rhs (hcs rhs (by simp))).value] at hb
  obtain ⟨lhs', hl, ha⟩ := Option.bind_eq_some_iff.mp ha
  obtain ⟨rhs', hr, hb⟩ := Option.bind_eq_some_iff.mp hb
  exact ⟨lhs', rhs', hl, ha, hr, hb⟩

theorem computed (h : Whole t) : Computed t where
  literal := (tallied t h).value
  sum s hchain hs := by
    obtain ⟨ts, hts⟩ := Option.isSome_iff_exists.mp (foldedTerms_of_whole t h false)
    have htallied := tallied t h
    have hwhole := htallied.whole false ts hts
    have hsum : constant ts = literalPart t := htallied.part false ts hts
    have hall : ts.all Term.isLiteral = true := by
      refine of_not_not fun hnot => ?_
      rw [hs, if_neg hnot] at hwhole
      cases hwhole
    rw [hs, if_pos hall, Option.some.injEq] at hwhole
    cases t with
    | absent => cases hchain
    | node l o cs =>
      obtain ⟨op, hop, rfl⟩ := isChain_cases hchain
      cases Whole.shape h with
      | @binary _ lhs rhs =>
        have hfold : fold (.binary op o lhs rhs) = _ := fold_chain hop
        refine hfold.trans ?_
        rw [show foldedTerms false (.binary op o lhs rhs) = some ts from hts, Option.map_some,
          chain_of_literals (List.all_eq_true.mp hall), hsum, hwhole]
  mixed t' hf := sum_spine_fold h hf
  product o lhs rhs a b ht ha hb := by
    subst ht
    obtain ⟨lhs', rhs', hl, ha, hr, hb⟩ := folded_operands h ha hb
    rw [fold_of_operands rfl hl hr, foldProduct_mul ha hb]
  quotient o lhs rhs a b ht ha hb hne := by
    subst ht
    obtain ⟨lhs', rhs', hl, ha, hr, hb⟩ := folded_operands h ha hb
    rw [fold_of_operands rfl hl hr, foldProduct_div ha hb hne]

end Sums

/-- Folding a valid tree succeeds, and folding the result again changes nothing. Everywhere in the
result products, quotients, sums and differences are in normal form. The literals in it are the
sums, products and quotients of those in the tree, with wrap-around. -/
theorem fold_normal {t : Tree} (h : t.validate = none) :
    ∃ t', fold t = some t' ∧ (∃ t'', fold t' = some t'' ∧ t''.equal t' = true) ∧
      (∀ v ∈ t'.visits, Normal v.node v.parent) ∧ ∀ u ∈ t.nodes, Computed u := by
  cases t with
  | absent =>
    exact ⟨absent, rfl, ⟨absent, rfl, agree_self true absent⟩,
      everywhere_absent (p := absent), nofun⟩
  | node l o cs =>
    have ht : Whole (node l o cs) := ⟨rfl, List.findSome?_eq_none_iff.mp h⟩
    obtain ⟨t', hf⟩ := Option.isSome_iff_exists.mp (fold_of_whole ht)
    refine ⟨t', hf, ⟨t', fixed_of_fold ht hf, agree_self true t'⟩,
      inForm_of_fold ht hf _ fun _ => rfl, ?_⟩
    exact fun u hu => computed (whole_of_mem ht hu)

/-- The least integer is its own negation, so that it is subtracted from zero for good. -/
theorem fold_normal_least :
    let t := binary .sub 2 (int 0 0) (int 4 Int64.minValue)
    t.validate = none ∧ ∃ t', fold t = some t' ∧
      t' = binary .sub 0 (int 0 0) (int 0 Int64.minValue) ∧
      (∃ t'', fold t' = some t'' ∧ t''.equal t' = true) ∧
        ∀ v ∈ t'.visits, Normal v.node v.parent := by
  intro t
  obtain ⟨t', hf, hagain, hnormal, hcomputed⟩ := fold_normal (t := t) rfl
  have hsum := (hcomputed t List.mem_cons_self).sum Int64.minValue rfl rfl
  exact ⟨rfl, t', hf, Option.some.inj (hf.symm.trans hsum), hagain, hnormal⟩

end ClosureLang.Fold

import ClosureLang.Proofs.Fold.Constants
import ClosureLang.Proofs.Grammar.Inorder
import ClosureLang.Proofs.Lint.Checks

/-! The check for divisions by a constant zero works on the folded tree. What it reports are
divisions of the tree as it is written, whose evaluation has no value. -/
namespace ClosureLang.Lint

open ClosureLang.Tree Fold Grammar

variable {P : Int64 → Prop} {t t' u lhs rhs : Tree} {l : Label} {o : Int} {cs cs' : List Tree}
  {ts us : List Term} {negative : Bool}

/-! Divisions in the folded tree, and the ones in the tree itself that they come from. -/

section Tracking

/-- The places of the divisions that `zero` tells of. -/
def divisions (zero : Tree → Bool) (t : Tree) : List (Option Int) :=
  ((nodesOf (.binary .div) t).filter zero).map offset?

/-- The divisor is a literal zero. -/
def hasZero (div : Tree) : Bool := (div.child 1).value? = some 0

/-- The divisor is folded to a literal zero. -/
def foldsToZero (div : Tree) : Bool := (fold (div.child 1)).bind value? = some 0

/-- What a node by itself has to do with it. -/
def ownDivision (zero : Tree → Bool) (t : Tree) : List (Option Int) :=
  if t.isForm (.binary .div) && zero t then [t.offset?] else []

theorem divisions_node (zero : Tree → Bool) :
    divisions zero (node l o cs) =
      ownDivision zero (node l o cs) ++ cs.flatMap (divisions zero) := by
  have hparts : (((cs.flatMap nodes).filter (·.isForm (.binary .div))).filter zero).map offset? =
      cs.flatMap (divisions zero) := by
    induction cs with
    | nil => rfl
    | cons c cs ih =>
      rw [List.flatMap_cons, List.filter_append, List.filter_append, List.map_append, ih]
      rfl
  rw [← hparts, divisions, nodesOf, nodes_node]
  cases hdiv : (node l o cs).isForm (.binary .div) with
  | false => simp [ownDivision, hdiv]
  | true => cases hzero : zero (node l o cs) <;> simp [ownDivision, hdiv, hzero]

theorem divisions_literal {zero : Tree → Bool} (h : Whole t) (ht : t.value?.isSome) :
    divisions zero t = [] := by
  cases t with
  | absent => cases ht
  | node l o cs =>
    cases l with
    | integer w =>
      obtain rfl := eq_nil_of_leaf h rfl
      rfl
    | ident x => cases ht
    | form f => cases ht

theorem divisions_int (zero : Tree → Bool) (o : Int) (w : Int64) :
    divisions zero (int o w) = [] := rfl

/-- The places in the terms of a chain. -/
def divisionsOf (ts : List Term) : List (Option Int) := ts.flatMap fun u => divisions hasZero u.node

theorem divisions_attach (acc : Tree) (u : Term) :
    divisions hasZero (attach acc u) = divisions hasZero acc ++ divisions hasZero u.node := by
  have hown : ownDivision hasZero (attach acc u) = [] := by
    unfold attach
    cases u.negative <;> rfl
  rw [attach, Tree.binary, form, divisions_node, ← form, ← Tree.binary, ← attach, hown]
  simp

theorem divisions_foldl_attach (acc : Tree) (ts : List Term) :
    divisions hasZero (ts.foldl attach acc) = divisions hasZero acc ++ divisionsOf ts := by
  induction ts generalizing acc with
  | nil => simp [divisionsOf]
  | cons u ts ih => rw [List.foldl_cons, ih, divisions_attach, List.append_assoc]; rfl

theorem divisions_chain (ts : List Term) : divisions hasZero (chain ts) = divisionsOf ts := by
  cases ts with
  | nil => rfl
  | cons u ts =>
    rw [chain]
    split
    · rw [divisions_foldl_attach, divisions_int, List.nil_append]
    · rw [divisions_foldl_attach]
      rfl

theorem divisionsOf_positiveFirst (ts : List Term) :
    (divisionsOf (positiveFirst ts)).Perm (divisionsOf ts) := by
  obtain ⟨-, hfirst⟩ | ⟨as, u, bs, rfl, -, -, hfirst⟩ := positiveFirst_cases ts
  · rw [hfirst]
  · rw [hfirst]
    exact List.perm_middle.symm.flatMap_right _

/-- Gathering loses literals only. -/
theorem divisionsOf_gathered (hts : ∀ u ∈ ts, Whole u.node) :
    divisionsOf (gathered ts) = divisionsOf ts := by
  have hliterals : divisionsOf (literals ts) = [] := by
    refine List.flatMap_eq_nil_iff.mpr fun u hu => ?_
    obtain ⟨w, hw⟩ := node_of_mem_literals hu
    rw [hw, divisions_int]
  have hothers : divisionsOf (others ts) = divisionsOf ts := by
    clear hliterals
    induction ts with
    | nil => rfl
    | cons u ts ih =>
      rw [List.forall_mem_cons] at hts
      have ih := ih hts.2
      unfold others divisionsOf at ih ⊢
      cases hlit : u.isLiteral with
      | true =>
        rw [List.filter_cons_of_neg (by simp [hlit]), List.flatMap_cons,
          divisions_literal hts.1 hlit, ih, List.nil_append]
      | false =>
        rw [List.filter_cons_of_pos (by simp [hlit]), List.flatMap_cons, List.flatMap_cons, ih]
  rw [gathered_eq, ← hothers, ← List.append_nil (divisionsOf (others ts)), ← hliterals]
  exact List.flatMap_append

/-- The divisions by a literal zero of the folded tree are those by something that is folded to
zero. -/
def Tracked (t : Tree) : Prop :=
  ∀ negative ts, foldedTerms negative t = some ts → (divisionsOf ts).Perm (divisions foldsToZero t)

theorem tracked_fold (h : Whole t) (ht : Tracked t) (hf : fold t = some t') :
    (divisions hasZero t').Perm (divisions foldsToZero t) := by
  obtain ⟨ts, hts⟩ := Option.isSome_iff_exists.mp (foldedTerms_of_whole t h false)
  obtain rfl | rfl := fold_cases hts hf
  · rw [divisions_chain]
    refine (divisionsOf_positiveFirst _).trans ?_
    rw [divisionsOf_gathered (termsWhole t h false ts hts)]
    exact ht false ts hts
  · have hterms := ht false _ hts
    simpa [divisionsOf] using hterms

/-- A divisor that is folded by itself. -/
theorem hasZero_folded (h : List.Forall₂ (fun c c' => fold c = some c') cs cs') :
    hasZero (node l o cs') = foldsToZero (node l o cs) := by
  have hchild : fold ((node l o cs).child 1) = some ((node l o cs').child 1) := by
    cases h with
    | nil => rfl
    | cons _ h =>
      cases h with
      | nil => rfl
      | cons h _ => exact h
  rw [hasZero, foldsToZero, hchild, Option.bind_some]

/-- A product or quotient that is computed holds no division by zero. -/
theorem divisions_foldProduct (h : Whole (node l o cs)) :
    divisions hasZero (foldProduct (node l o cs)) = divisions hasZero (node l o cs) := by
  cases l with
  | integer | ident => rfl
  | form f =>
    cases f with
    | binary op =>
      cases Whole.shape h with
      | @binary _ lhs rhs =>
        obtain hsame | ⟨a, b, w, ha, hb, happly, hint⟩ := foldProduct_cases op o lhs rhs
        · exact congrArg _ hsame
        · have hparts := (whole_node_iff.mp h).2
          have hown : ownDivision hasZero (node (.form (.binary op)) o [lhs, rhs]) = [] := by
            refine if_neg fun hzero => ?_
            simp only [isForm, form?, hasZero, child, children, List.getElem?_cons_succ,
              List.getElem?_cons_zero, Option.getD_some, hb, Bool.and_eq_true, decide_eq_true_eq,
              Option.some.injEq, Form.binary.injEq] at hzero
            obtain ⟨rfl, rfl⟩ := hzero
            cases happly
          rw [show foldProduct (node (.form (.binary op)) o [lhs, rhs]) = int 0 w from hint,
            divisions_int, divisions_node, hown]
          simp [divisions_literal (hparts lhs (by simp)) (by simp [ha]),
            divisions_literal (hparts rhs (by simp)) (by simp [hb])]
    | _ => rfl

theorem divisions_children (hcs : ∀ c ∈ cs, Whole c ∧ Tracked c)
    (h : List.Forall₂ (fun c c' => fold c = some c') cs cs') :
    (cs'.flatMap (divisions hasZero)).Perm (cs.flatMap (divisions foldsToZero)) := by
  induction h with
  | nil => exact .nil
  | cons hc _ ih =>
    rw [List.forall_mem_cons] at hcs
    exact (tracked_fold hcs.1.1 hcs.1.2 hc).append (ih hcs.2)

theorem tracked_node (h : Whole (node l o cs)) (hchain : isChain (node l o cs) = false)
    (hcs : ∀ c ∈ cs, Tracked c) : Tracked (node l o cs) := by
  intro negative ts hts
  obtain ⟨t', hf, rfl⟩ := term_of_foldedTerms hchain rfl hts
  rw [fold_node hchain, Option.map_eq_some_iff] at hf
  obtain ⟨cs', hcs', rfl⟩ := hf
  have hfolded := mapM_fold_forall hcs'
  have hwhole := (whole_node_iff.mp h).2
  have hover : Whole (node l o cs') := by
    refine whole_over h (fun c hc c' hf => ?_) hfolded
    exact whole_of_terms (hwhole c hc) (termsWhole c (hwhole c hc)) hf
  have hown : ownDivision hasZero (node l o cs') = ownDivision foldsToZero (node l o cs) := by
    rw [ownDivision, hasZero_folded hfolded]
    cases l <;> rfl
  rw [divisionsOf, List.flatMap_singleton, divisions_foldProduct hover, divisions_node,
    divisions_node, hown]
  exact (divisions_children (fun c hc => ⟨hwhole c hc, hcs c hc⟩) hfolded).append_left _

theorem tracked (t : Tree) (h : Whole t) : Tracked t := by
  induction t using Tree.induction with
  | absent => cases h.present
  | node l o cs ih =>
    have hcs : ∀ c ∈ cs, Tracked c := fun c hc => ih c hc ((whole_node_iff.mp h).2 c hc)
    cases hchain : isChain (.node l o cs) with
    | false => exact tracked_node h hchain hcs
    | true =>
      obtain ⟨op, hop, rfl⟩ := isChain_cases hchain
      cases Whole.shape h with
      | @binary _ lhs rhs =>
        intro negative ts hts
        obtain ⟨ls, rs, hls, hrs, rfl⟩ := exists_terms_of_binary hop hts
        have hown : ownDivision foldsToZero (node (.form (.binary op)) o [lhs, rhs]) = [] := by
          cases op <;> first | rfl | cases hop
        have hparts := (hcs lhs (by simp) _ _ hls).append (hcs rhs (by simp) _ _ hrs)
        rw [divisions_node, hown, divisionsOf, List.flatMap_append]
        simpa [divisionsOf] using hparts

end Tracking

/-! What a division by something that is folded to zero comes to. -/

/-- A division comes to no value. Where its left operand is an integer, it fails with a division by
zero, given fuel enough for the right one. -/
structure DividesByZero (div : Tree) : Prop where
  no_value : ∀ options fuel m v m₁, eval options fuel div m ≠ .ok v m₁
  fails : ∀ options fuel m a m₁ stop m₂,
    eval options fuel (div.child 0) (m.within options "evaluate" div) = .ok (.int a) m₁ →
    eval options (fuel + 1) div m = .error stop m₂ →
    stop = .outOfFuel ∨ stop = .condition .divideByZero div
  ends : ∃ enough, ∀ options fuel m a m₁, enough ≤ fuel →
    eval options fuel (div.child 0) (m.within options "evaluate" div) = .ok (.int a) m₁ →
    ∃ m₂, eval options (fuel + 1) div m = .error (.condition .divideByZero div) m₂

theorem apply_div_zero (v w : Value) : BinaryOp.div.apply v (.int 0) ≠ .ok w := by
  cases v <;> nofun

theorem dividesByZero (h : Constant rhs 0) : DividesByZero (.binary .div o lhs rhs) where
  no_value options fuel m v m₁ hok := by
    cases fuel with
    | zero => cases hok
    | succ fuel =>
      rw [eval_binary_ending] at hok
      obtain ⟨n, hend, -⟩ := Action.mapEnd_ok hok
      split at hend
      · cases hend
      rename_i a n₁ hleft
      obtain ⟨n₂, hright⟩ | ⟨n₂, hright⟩ := h.only options fuel n₁
      · rw [hright] at hend
        dsimp only at hend
        split at hend
        · cases hend
        · exact apply_div_zero _ _ ‹_›
      · rw [hright] at hend
        cases hend
  fails options fuel m a m₁ stop m₂ hleft herror := by
    change eval options fuel lhs _ = _ at hleft
    rw [eval_binary_ending, hleft] at herror
    dsimp only at herror
    obtain ⟨n₂, hright⟩ | ⟨n₂, hright⟩ := h.only options fuel m₁
    · rw [hright] at herror
      cases herror
      exact .inr rfl
    · rw [hright] at herror
      cases herror
      exact .inl rfl
  ends := by
    obtain ⟨enough, henough⟩ := h.ends
    refine ⟨enough, fun options fuel m a m₁ hfuel hleft => ?_⟩
    change eval options fuel lhs _ = _ at hleft
    obtain ⟨n₂, hright⟩ := henough options fuel m₁ hfuel
    rw [eval_binary_ending, hleft]
    dsimp only
    rw [hright]
    exact ⟨_, rfl⟩

/-- A division whose divisor is folded to zero. -/
theorem dividesByZero_of_fold (h : Whole u) (hdiv : u.isForm (.binary .div) = true)
    (hzero : foldsToZero u = true) : DividesByZero u := by
  obtain ⟨o, cs, rfl⟩ := eq_form_of_isForm hdiv
  cases h.shape with
  | @binary _ lhs rhs =>
    simp only [foldsToZero, decide_eq_true_eq, Option.bind_eq_some_iff] at hzero
    obtain ⟨rhs', hf, hvalue⟩ := hzero
    exact dividesByZero (constant_of_fold ((whole_node_iff.mp h).2 rhs (by simp)) hf hvalue)

/-! The place of a division names it. -/

/-- No other division of a program stands at the place of a given one. -/
theorem division_alone {src : String} (h : parseProgram src = .ok t)
    (hu : u ∈ nodesOf (.binary .div) t) :
    (nodesOf (.binary .div) t).filter (·.offset? = u.offset?) = [u] := by
  obtain ⟨hmem, hdiv⟩ := List.mem_filter.mp hu
  rw [nodesOf, List.filter_filter]
  obtain ⟨o, cs, rfl⟩ := eq_form_of_isForm hdiv
  refine filter_of_nodup (nodup_operators h) hmem (a := o) (List.mem_singleton.mpr rfl)
    (fun v _ hv => ?_) (by simp [hdiv])
  simp only [Bool.and_eq_true, decide_eq_true_eq] at hv
  obtain ⟨o', cs', rfl⟩ := eq_form_of_isForm hv.2
  cases hv.1
  exact List.mem_singleton.mpr rfl

theorem mem_divisions {zero : Tree → Bool} {a : Option Int} :
    a ∈ divisions zero t ↔ ∃ div ∈ nodesOf (.binary .div) t, zero div = true ∧ div.offset? = a := by
  simp only [divisions, List.mem_map, List.mem_filter, and_assoc]

theorem position_of_form (target : Target) (f : Form) (o : Int) (cs : List Tree) :
    (target.position (form f o cs)).offset = o := by
  by_cases hsource : target.source = "" <;> simp [Target.position, form, offset?, hsource]

/-- What the check reports stands where the folded tree divides by zero. -/
theorem findings_of_folded {c : Check} (hc : c ∈ checks) (hname : c.name = "literal-div-zero")
    (target : Target) (hf : fold target.tree = some t') :
    ∃ findings, c.findings target = some findings ∧
      findings.map (fun f => some f.pos.offset) = divisions hasZero t' := by
  have hrun : c.run target = literalDivisions target := by
    simp only [checks, List.mem_cons, List.not_mem_nil, or_false] at hc
    obtain rfl | rfl | rfl | rfl | rfl | rfl := hc <;> first | rfl | exact absurd hname (by decide)
  refine ⟨_, by rw [Check.findings, hrun, literalDivisions, hf]; rfl, ?_⟩
  rw [List.map_map, List.map_map, divisions]
  refine List.map_congr_left fun u hu => ?_
  obtain ⟨hmem, -⟩ := List.mem_filter.mp hu
  obtain ⟨o, cs, rfl⟩ := eq_form_of_isForm (List.mem_filter.mp hmem).2
  exact congrArg some (position_of_form target (.binary .div) o cs)

/-- A report of a division by zero is no false alarm: it is at the place of one division of the
program, whose evaluation has no value on any machine and is a division by zero if the left operand
is an integer. Every division whose divisor is folded to zero is reported. -/
theorem zero_divisions_reported {src : String} (h : parseProgram src = .ok t) (file source : String)
    {c : Check} (hc : c ∈ checks) (hname : c.name = "literal-div-zero") :
    ∃ findings, c.findings ⟨file, source, t⟩ = some findings ∧
      (∀ f ∈ findings, ∃ div,
        (nodesOf (.binary .div) t).filter (·.offset? = some f.pos.offset) = [div] ∧
        DividesByZero div) ∧
      ∀ div ∈ nodesOf (.binary .div) t, (fold (div.child 1)).bind value? = some 0 →
        ∃ f ∈ findings, div.offset? = some f.pos.offset := by
  have hwhole : Whole t := (sorted_of_read (parseProgram_ok.mp h)).whole
  obtain ⟨t', hf⟩ := Option.isSome_iff_exists.mp (fold_of_whole hwhole)
  obtain ⟨findings, hfindings, hplaces⟩ := findings_of_folded hc hname ⟨file, source, t⟩ hf
  have hsame (a : Option Int) :
      a ∈ findings.map (fun f => some f.pos.offset) ↔ a ∈ divisions foldsToZero t := by
    rw [hplaces]
    exact (tracked_fold hwhole (tracked t hwhole) hf).mem_iff
  refine ⟨findings, hfindings, fun f hfound => ?_, fun div hdiv hzero => ?_⟩
  · obtain ⟨div, hdiv, hzero, hplace⟩ :=
      mem_divisions.mp ((hsame _).mp (List.mem_map_of_mem hfound))
    obtain ⟨hmem, hform⟩ := List.mem_filter.mp hdiv
    refine ⟨div, ?_, dividesByZero_of_fold (whole_of_mem hwhole hmem) hform hzero⟩
    rw [← hplace]
    exact division_alone h hdiv
  · obtain ⟨f, hfound, hplace⟩ := List.mem_map.mp
      ((hsame div.offset?).mpr (mem_divisions.mpr ⟨div, hdiv, by simp [foldsToZero, hzero], rfl⟩))
    exact ⟨f, hfound, hplace.symm⟩

/-- The divisor is a difference, in the first term of a sum. -/
theorem zero_divisions_reported_difference :
    ∃ t findings, parseProgram "var x = 1; print 8 / (2 * 3 - 6) + x;" = .ok t ∧
      (checks[2]).findings ⟨"difference", "", t⟩ = some findings ∧
      findings.map (·.pos.offset) = [19] ∧
      ∀ f ∈ findings, ∃ div,
        (nodesOf (.binary .div) t).filter (·.offset? = some f.pos.offset) = [div] ∧
        DividesByZero div := by
  have hcheck : (parseProgram "var x = 1; print 8 / (2 * 3 - 6) + x;").toOption.any (fun t =>
      ((checks[2]).findings ⟨"difference", "", t⟩).any fun fs =>
        fs.map (·.pos.offset) = [19]) = true := by
    decide +kernel
  obtain ⟨t, hparse, hcheck⟩ := Grammar.exists_ok_of_any hcheck
  obtain ⟨findings, hfindings, hreports, -⟩ :=
    zero_divisions_reported hparse "difference" "" (c := checks[2]) (List.getElem_mem _) rfl
  simp only [hfindings, Option.any_some, decide_eq_true_eq] at hcheck
  exact ⟨t, findings, hparse, hfindings, hcheck, hreports⟩

end ClosureLang.Lint

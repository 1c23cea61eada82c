import ClosureLang.Proofs.Fold.Terms

/-! Folding puts no node where its kind may not stand. -/
namespace ClosureLang.Fold

open ClosureLang.Tree

variable {P : Int64 → Prop} {t t' : Tree} {negative : Bool} {ts : List Term}

theorem inPlace_foldProduct {op : BinaryOp} {o : Int} {lhs rhs : Tree}
    (hl : InPlace .expression lhs) (hr : InPlace .expression rhs) :
    InPlace .expression (foldProduct (binary op o lhs rhs)) := by
  have hsame : InPlace .expression (binary op o lhs rhs) := .binary hl hr
  simp only [binary, form, foldProduct]
  repeat' split
  all_goals first | exact .int trivial | exact hsame

theorem foldl_attach_of_terms {Q : Tree → Prop}
    (hattach : ∀ op lhs rhs, Q lhs → Q rhs → Q (binary op 0 lhs rhs)) {acc : Tree} (hacc : Q acc)
    (hts : ∀ u ∈ ts, Q u.node) : Q (ts.foldl attach acc) := by
  induction ts generalizing acc with
  | nil => exact hacc
  | cons t ts ih =>
    rw [List.forall_mem_cons] at hts
    exact ih (hattach _ _ _ hacc hts.1) hts.2

/-- What holds of literals and of the terms of a chain, and is kept by operators, holds of the
folded chain. -/
theorem chain_of_terms {Q : Tree → Prop} (hint : ∀ w, Q (int 0 w))
    (hattach : ∀ op lhs rhs, Q lhs → Q rhs → Q (binary op 0 lhs rhs)) (hts : ∀ u ∈ ts, Q u.node) :
    Q (chain (positiveFirst (gathered ts))) := by
  have hall : ∀ u ∈ positiveFirst (gathered ts), Q u.node := by
    intro u hu
    rw [mem_positiveFirst, gathered_eq, List.mem_append] at hu
    rcases hu with hu | hu
    · exact hts u (List.mem_filter.mp hu).1
    · obtain ⟨w, hw⟩ := node_of_mem_literals hu
      rw [hw]
      exact hint w
  generalize positiveFirst (gathered ts) = us at hall
  cases us with
  | nil => exact hint 0
  | cons u us =>
    simp only [chain]
    split
    · exact foldl_attach_of_terms hattach (hint 0) hall
    · rw [List.forall_mem_cons] at hall
      exact foldl_attach_of_terms hattach hall.1 hall.2

/-- The terms of a folded expression are expressions. -/
def TermsInPlace (t : Tree) : Prop :=
  ∀ negative ts, foldedTerms negative t = some ts → ∀ u ∈ ts, InPlace .expression u.node

theorem inPlace_of_terms (h : TermsInPlace t) (hsorted : WellSorted P .expression t)
    (hf : fold t = some t') : InPlace .expression t' := by
  obtain ⟨ts, hts⟩ := Option.isSome_iff_exists.mp (foldedTerms_of_wellSorted hsorted false)
  obtain rfl | rfl := fold_cases hts hf
  · exact chain_of_terms (fun w => .int trivial) (fun _ _ _ hl hr => .binary hl hr) (h false ts hts)
  · exact h false _ hts ⟨t', false⟩ (List.mem_singleton.mpr rfl)

/-- An expression that is no sum or difference is its only term. -/
theorem termsInPlace_of_fold {l : Label} {o : Int} {cs : List Tree}
    (hchain : isChain (.node l o cs) = false)
    (h : ∀ t', fold (.node l o cs) = some t' → InPlace .expression t') :
    TermsInPlace (.node l o cs) := by
  intro negative ts hts u hu
  obtain ⟨t', hf, rfl⟩ := term_of_foldedTerms hchain rfl hts
  cases List.mem_singleton.mp hu
  exact h t' hf

/-- What a part of a program is folded to may stand in its place, and so may the terms of an
expression. -/
theorem inPlace_folded {role : Role} (h : WellSorted P role t) :
    (∀ t', fold t = some t' → InPlace role t') ∧ (role = .expression → TermsInPlace t) := by
  induction h with
  | @int o w =>
    have hfold : ∀ t', fold (int o w) = some t' → InPlace .expression t' := by
      rintro t' ⟨⟩
      exact .int trivial
    exact ⟨hfold, fun _ => termsInPlace_of_fold rfl hfold⟩
  | @lookup o x hx =>
    have hfold : ∀ t', fold (form .lookup o [x]) = some t' → InPlace .expression t' := by
      intro t' hf
      rw [fold_leaves rfl (by simpa using hx.leaf)] at hf
      cases hf
      exact .lookup hx
    exact ⟨hfold, fun _ => termsInPlace_of_fold rfl hfold⟩
  | @binary op o lhs rhs hl hr ihl ihr =>
    have hterms : TermsInPlace (binary op o lhs rhs) := by
      cases hop : op.isAdditive with
      | true =>
        intro negative ts hts
        obtain ⟨ls, rs, hls, hrs, rfl⟩ := exists_terms_of_binary hop hts
        exact List.forall_mem_append.mpr ⟨ihl.2 rfl negative ls hls, ihr.2 rfl _ rs hrs⟩
      | false =>
        refine termsInPlace_of_fold hop fun t' hf => ?_
        obtain ⟨lhs', rhs', hlf, hrf, rfl⟩ := fold_binary hop hf
        exact inPlace_foldProduct (ihl.1 lhs' hlf) (ihr.1 rhs' hrf)
    exact ⟨fun t' => inPlace_of_terms hterms (.binary hl hr), fun _ => hterms⟩
  | @not o t _ ih =>
    have hfold : ∀ t', fold (form .not o [t]) = some t' → InPlace .expression t' := by
      intro t' hf
      obtain ⟨_, hcs, rfl⟩ := fold_form_cases rfl hf
      let .cons ht .nil := hcs
      exact .not (ih.1 _ ht)
    exact ⟨hfold, fun _ => termsInPlace_of_fold rfl hfold⟩
  | @call o o' callee args _ _ ihc ihargs =>
    have hfold : ∀ t', fold (form .call o [callee, form .arguments o' args]) = some t' →
        InPlace .expression t' := by
      intro t' hf
      obtain ⟨_, hcs, rfl⟩ := fold_form_cases rfl hf
      let .cons hcallee (.cons harguments .nil) := hcs
      obtain ⟨args', hargs, rfl⟩ := fold_form_cases rfl harguments
      exact .call (ihc.1 _ hcallee) (forall_folded (fun t ht => (ihargs t ht).1) hargs)
    exact ⟨hfold, fun _ => termsInPlace_of_fold rfl hfold⟩
  | @function o o' params body sig hparams _ hsig ih =>
    have hfold : ∀ t', fold (form .function o (form .parameters o' params :: body :: sig)) =
        some t' →
        InPlace .expression t' := by
      intro t' hf
      obtain ⟨body', hb, rfl⟩ := fold_function hparams hsig hf
      exact .function hparams (ih.1 body' hb) hsig
    exact ⟨hfold, fun _ => termsInPlace_of_fold rfl hfold⟩
  | block _ ih =>
    refine ⟨fun t' hf => ?_, nofun⟩
    obtain ⟨ts', hts, rfl⟩ := fold_form_cases rfl hf
    exact .block (forall_folded (fun t ht => (ih t ht).1) hts)
  | declare hx _ htype hlen ih =>
    refine ⟨fun t' hf => ?_, nofun⟩
    obtain ⟨value', hv, rfl⟩ := fold_declare hx htype hf
    exact .declare hx (ih.1 value' hv) htype hlen
  | assign hx _ ih =>
    refine ⟨fun t' hf => ?_, nofun⟩
    obtain ⟨_, hcs, rfl⟩ := fold_form_cases rfl hf
    let .cons hloc (.cons hv .nil) := hcs
    rw [fold_leaves rfl (by simpa using hx.leaf)] at hloc
    cases hloc
    exact .assign hx (ih.1 _ hv)
  | print _ ih =>
    refine ⟨fun t' hf => ?_, nofun⟩
    obtain ⟨_, hcs, rfl⟩ := fold_form_cases rfl hf
    let .cons ht .nil := hcs
    exact .print (ih.1 _ ht)
  | ret _ ih =>
    refine ⟨fun t' hf => ?_, nofun⟩
    obtain ⟨_, hcs, rfl⟩ := fold_form_cases rfl hf
    let .cons ht .nil := hcs
    exact .ret (ih.1 _ ht)
  | ifThen _ _ ihc ihb =>
    refine ⟨fun t' hf => ?_, nofun⟩
    obtain ⟨_, hcs, rfl⟩ := fold_form_cases rfl hf
    let .cons hc (.cons hb .nil) := hcs
    exact .ifThen (ihc.1 _ hc) (ihb.1 _ hb)
  | ifElse _ _ _ ihc ihb iha =>
    refine ⟨fun t' hf => ?_, nofun⟩
    obtain ⟨_, hcs, rfl⟩ := fold_form_cases rfl hf
    let .cons hc (.cons hb (.cons ha .nil)) := hcs
    exact .ifElse (ihc.1 _ hc) (ihb.1 _ hb) (iha.1 _ ha)
  | whileDo _ _ ihc ihb =>
    refine ⟨fun t' hf => ?_, nofun⟩
    obtain ⟨_, hcs, rfl⟩ := fold_form_cases rfl hf
    let .cons hc (.cons hb .nil) := hcs
    exact .whileDo (ihc.1 _ hc) (ihb.1 _ hb)
  | expression _ ih => exact ⟨fun t' hf => .expression (ih.1 t' hf), nofun⟩

theorem inPlace_of_fold {role : Role} (h : WellSorted P role t) (hf : fold t = some t') :
    InPlace role t' := (inPlace_folded h).1 t' hf

end ClosureLang.Fold

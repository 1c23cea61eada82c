import ClosureLang.Proofs.Fold.Sorts

/-! Folding keeps valid trees valid. -/
namespace ClosureLang.Fold

open ClosureLang.Tree

variable {f : Form} {o : Int} {cs cs' xs : List Tree} {t t' : Tree}

theorem foldProduct_eq_or (t : Tree) : foldProduct t = t ∨ ∃ w, foldProduct t = int 0 w := by
  unfold foldProduct
  repeat' split
  all_goals first | exact .inl rfl | exact .inr ⟨_, rfl⟩

theorem whole_int (o : Int) (w : Int64) : Whole (int o w) := whole_node nofun rfl

theorem whole_binary {op : BinaryOp} {lhs rhs : Tree} (hl : Whole lhs) (hr : Whole rhs) :
    Whole (binary op o lhs rhs) := Shape.binary.whole (by simp [hl, hr])

theorem eq_of_tagLeaves (hxs : ∀ x ∈ xs, IsTagLeaf x)
    (h : List.Forall₂ (fun c c' => fold c = some c') xs cs') : cs' = xs := by
  induction h with
  | nil => rfl
  | cons hc _ ih =>
    rw [List.forall_mem_cons] at hxs
    rw [ih hxs.2, Option.some.inj ((fold_leaf hxs.1).symm.trans hc)]

theorem fold_tagLeaves (hf : f.isBinary = false) (hxs : ∀ x ∈ xs, IsTagLeaf x)
    (h : fold (form f o xs) = some t') : t' = form f o xs :=
  Option.some.inj (h.symm.trans (fold_leaves hf hxs))

theorem fold_sequence {ts : List Tree} (h : fold (form .sequence o ts) = some t') :
    ∃ ts', t' = form .sequence o ts' := by
  obtain ⟨ts', -, rfl⟩ := fold_form_cases rfl h
  exact ⟨ts', rfl⟩

theorem eq_tagging {n : Nat} {sig : List Tree} (hsig : IsTagging n sig)
    (h : List.Forall₂ (fun c c' => fold c = some c') sig cs') : cs' = sig := by
  obtain rfl | ⟨o, tags, rfl, -, htags⟩ := hsig
  · cases h
    rfl
  · let .cons hs .nil := h
    rw [fold_tagLeaves rfl htags hs]

/-- Folded children have the kinds that the children had. -/
theorem shape_folded (h : Shape f cs)
    (hcs : List.Forall₂ (fun c c' => fold c = some c') cs cs') : Shape f cs' := by
  cases h with
  | sequence => exact .sequence
  | arguments => exact .arguments
  | parameters hxs => exact eq_of_tagLeaves hxs hcs ▸ .parameters hxs
  | signature htags => exact eq_of_tagLeaves htags hcs ▸ .signature htags
  | binary =>
    let .cons _ (.cons _ .nil) := hcs
    exact .binary
  | not =>
    let .cons _ .nil := hcs
    exact .not
  | print =>
    let .cons _ .nil := hcs
    exact .print
  | ret =>
    let .cons _ .nil := hcs
    exact .ret
  | lookup =>
    let .cons hx .nil := hcs
    cases hx
    exact .lookup
  | varLoc =>
    let .cons hx .nil := hcs
    cases hx
    exact .varLoc
  | call =>
    let .cons _ (.cons harguments .nil) := hcs
    obtain ⟨args', -, rfl⟩ := fold_form_cases rfl harguments
    exact .call
  | function hparams hsig =>
    let .cons hps (.cons hbody hs) := hcs
    obtain rfl := fold_tagLeaves rfl hparams hps
    obtain ⟨ts', rfl⟩ := fold_sequence hbody
    obtain rfl := eq_tagging hsig hs
    exact .function hparams hsig
  | declare htype hlength =>
    let .cons hx (.cons _ ht) := hcs
    cases hx
    obtain rfl := eq_of_tagLeaves htype ht
    exact .declare htype hlength
  | @assign o' o'' x =>
    let .cons hplace (.cons _ .nil) := hcs
    obtain rfl := fold_tagLeaves rfl (List.forall_mem_singleton.mpr ⟨o'', x, rfl⟩) hplace
    exact .assign
  | ifThen =>
    let .cons _ (.cons hbody .nil) := hcs
    obtain ⟨ts', rfl⟩ := fold_sequence hbody
    exact .ifThen
  | whileDo =>
    let .cons _ (.cons hbody .nil) := hcs
    obtain ⟨ts', rfl⟩ := fold_sequence hbody
    exact .whileDo
  | ifElse =>
    let .cons _ (.cons hbody (.cons halternative .nil)) := hcs
    obtain ⟨ts', rfl⟩ := fold_sequence hbody
    obtain ⟨us', rfl⟩ := fold_sequence halternative
    exact .ifElse

/-- The same node over folded children. -/
theorem whole_over {l : Label} (h : Whole (node l o cs))
    (hcs : ∀ c ∈ cs, ∀ c', fold c = some c' → Whole c')
    (hcs' : List.Forall₂ (fun c c' => fold c = some c') cs cs') : Whole (node l o cs') := by
  cases l with
  | form f => exact (shape_folded h.shape hcs').whole (forall_folded hcs hcs')
  | integer w =>
    obtain rfl := eq_nil_of_leaf h rfl
    cases hcs'
    exact h
  | ident x =>
    obtain rfl := eq_nil_of_leaf h rfl
    cases hcs'
    exact h

/-- A folded node outside chains is valid if its folded children are. -/
theorem whole_fold_node {l : Label} (h : Whole (node l o cs))
    (hchain : isChain (.node l o cs) = false) (hcs : ∀ c ∈ cs, ∀ c', fold c = some c' → Whole c')
    (hf : fold (.node l o cs) = some t') : Whole t' := by
  rw [fold_node hchain, Option.map_eq_some_iff] at hf
  obtain ⟨cs', hcs', rfl⟩ := hf
  have hsame := whole_over h hcs (mapM_fold_forall hcs')
  obtain heq | ⟨w, heq⟩ := foldProduct_eq_or (.node l o cs')
  · rwa [heq]
  · rw [heq]
    exact whole_int 0 w

/-- The terms of a folded tree are valid. -/
def TermsWhole (t : Tree) : Prop :=
  ∀ negative ts, foldedTerms negative t = some ts → ∀ u ∈ ts, Whole u.node

theorem whole_of_terms (h : Whole t) (hterms : TermsWhole t) (hf : fold t = some t') :
    Whole t' := by
  obtain ⟨ts, hts⟩ := Option.isSome_iff_exists.mp (foldedTerms_of_whole t h false)
  obtain rfl | rfl := fold_cases hts hf
  · exact chain_of_terms (whole_int 0) (fun _ _ _ hl hr => whole_binary hl hr) (hterms false ts hts)
  · exact hterms false _ hts ⟨t', false⟩ (List.mem_singleton.mpr rfl)

theorem termsWhole : (t : Tree) → Whole t → TermsWhole t
  | absent, h => nomatch h.present
  | node l o cs, h => by
    have hcs : ∀ c ∈ cs, Whole c ∧ TermsWhole c := fun c hc =>
      have hc' := (whole_node_iff.mp h).2 c hc
      ⟨hc', termsWhole c hc'⟩
    intro negative ts hts
    cases hchain : isChain (.node l o cs) with
    | false =>
      obtain ⟨t', hf, rfl⟩ := term_of_foldedTerms hchain rfl hts
      have ht' :=
        whole_fold_node h hchain (fun c hc c' => whole_of_terms (hcs c hc).1 (hcs c hc).2) hf
      exact List.forall_mem_singleton.mpr ht'
    | true =>
      obtain ⟨op, hop, rfl⟩ := isChain_cases hchain
      cases Whole.shape h with
      | @binary _ lhs rhs =>
        obtain ⟨ls, rs, hls, hrs, rfl⟩ := exists_terms_of_binary hop hts
        exact List.forall_mem_append.mpr
          ⟨(hcs lhs (by simp)).2 negative ls hls, (hcs rhs (by simp)).2 _ rs hrs⟩

/-- Folding a valid tree gives a valid tree. -/
theorem exists_whole_fold (h : Whole t) : ∃ t', fold t = some t' ∧ Whole t' := by
  obtain ⟨t', hf⟩ := Option.isSome_iff_exists.mp (fold_of_whole h)
  exact ⟨t', hf, whole_of_terms h (termsWhole t h) hf⟩

end ClosureLang.Fold

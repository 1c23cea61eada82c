import ClosureLang.Proofs.Fold.Sorts
import ClosureLang.Proofs.Run.Origins

/-! Folding moves no node into another block, so that a program which keeps to the rules of scopes
does so folded, too. -/
namespace ClosureLang.Fold

open ClosureLang.Tree

variable {P : Int64 → Prop} {Q : Context → Tree → Prop} {t t' : Tree} {c : Context} {role : Role}
  {o : Int} {f : Form} {cs cs' : List Tree} {ts : List Term}

theorem isForm_sequence (h : WellSorted P role t) : t.isForm .sequence = true ↔ role = .block := by
  cases h with
  | block => exact iff_of_true rfl rfl
  | expression he => exact iff_of_false (by simp [isForm_of_expression he]) nofun
  | _ => exact iff_of_false nofun nofun

theorem declared_fold_expression (h : WellSorted P .expression t) (hf : fold t = some t') :
    t'.declared = t.declared := by
  rw [declared_of_expression h, declared_of_expression (inPlace_of_fold h hf)]

/-- A folded statement declares the same names. -/
theorem declared_fold (h : WellSorted P role t) (hf : fold t = some t') :
    t'.declared = t.declared := by
  induction h generalizing t' with
  | int hw => exact declared_fold_expression (.int hw) hf
  | lookup hx => exact declared_fold_expression (P := P) (.lookup hx) hf
  | binary hl hr => exact declared_fold_expression (.binary hl hr) hf
  | not ht => exact declared_fold_expression (.not ht) hf
  | call hc hargs => exact declared_fold_expression (.call hc hargs) hf
  | function hparams hbody hsig => exact declared_fold_expression (.function hparams hbody hsig) hf
  | block hts ih =>
    obtain ⟨ts', hts', rfl⟩ := fold_form_cases rfl hf
    change declaredAll ts' = declaredAll _
    clear hts hf
    induction hts' with
    | nil => rfl
    | cons ht _ ih' =>
      rw [List.forall_mem_cons] at ih
      rw [declaredAll, declaredAll, ih.1 ht, ih' ih.2]
  | declare hx _ htype =>
    obtain ⟨value', -, rfl⟩ := fold_declare hx htype hf
    rfl
  | assign | print | ret | ifThen | ifElse | whileDo =>
    obtain ⟨_, -, rfl⟩ := fold_form_cases rfl hf
    rfl
  | expression he ih => exact ih hf

theorem inner_fold (h : WellSorted P role t) (hf : fold t = some t') (c : Context) :
    c.inner t' = c.inner t := by
  have hform : t'.isForm .sequence = t.isForm .sequence := by
    rw [Bool.eq_iff_iff, isForm_sequence h, isForm_sequence (inPlace_of_fold h hf)]
  rw [Context.inner, Context.inner, hform, Context.block, Context.block, declared_fold h hf]

theorem inner_expression (h : WellSorted P .expression t) (c : Context) : c.inner t = c := by
  rw [Context.inner, isForm_of_expression h, if_neg Bool.false_ne_true]

/-- A node with other parts that stand where its own do. -/
theorem sited_parts (hsequence : f ≠ .sequence) (hfunction : f ≠ .function)
    (hnode : Q c (form f o cs')) (h : Sited Q c (form f o cs))
    (hparts : List.Forall₂ (fun t t' => Sited Q (c.inner t) t → Sited Q (c.inner t') t') cs cs') :
    Sited Q c (form f o cs') := by
  have hcs := ((sited_node (by simpa using hsequence) (by simpa using hfunction)).mp h).2
  refine (sited_node (by simpa using hsequence) (by simpa using hfunction)).mpr ⟨hnode, ?_⟩
  clear h hnode
  induction hparts with
  | nil => exact nofun
  | cons ht _ ih =>
    rw [List.forall_mem_cons] at hcs ⊢
    exact ⟨ht hcs.1, ih hcs.2⟩

theorem sited_binary {op : BinaryOp} {lhs rhs : Tree} (hl : WellSorted P .expression lhs)
    (hr : WellSorted P .expression rhs) :
    Sited Q c (binary op o lhs rhs) ↔
    Q c (binary op o lhs rhs) ∧ Sited Q c lhs ∧ Sited Q c rhs := by
  rw [binary, form, sited_node (l := .form (.binary op)) (by simp) (by simp), List.forall_mem_cons,
    List.forall_mem_singleton, inner_expression hl, inner_expression hr]

/-- Only functions, returns and declarations can break the rules. -/
theorem keepsRules_form (hfunction : f ≠ .function) (hret : f ≠ .ret) (hdeclare : f ≠ .declare) :
    KeepsRules c (form f o cs) :=
  ⟨fun h => absurd (by simpa [isForm, form, form?] using h) hfunction,
    fun h => absurd (by simpa [isForm, form, form?] using h) hret,
    fun h => absurd (by simpa [isForm, form, form?] using h) hdeclare⟩

theorem sited_int (w : Int64) : Sited KeepsRules c (int o w) :=
  (sited_node (l := .integer w) nofun nofun).mpr ⟨⟨nofun, nofun, nofun⟩, nofun⟩

theorem sited_foldProduct {op : BinaryOp} {lhs rhs : Tree} (hl : InPlace .expression lhs)
    (hr : InPlace .expression rhs) (hlhs : Sited KeepsRules c lhs) (hrhs : Sited KeepsRules c rhs) :
    Sited KeepsRules c (foldProduct (binary op o lhs rhs)) := by
  have hsame : Sited KeepsRules c (binary op o lhs rhs) :=
    (sited_binary hl hr).mpr ⟨keepsRules_form nofun nofun nofun, hlhs, hrhs⟩
  simp only [binary, form, foldProduct]
  repeat' split
  all_goals first | exact sited_int _ | exact hsame

/-- The terms keep to the rules where the chain stands. -/
def TermsSited (c : Context) (ts : List Term) : Prop :=
  ∀ u ∈ ts, InPlace .expression u.node ∧ Sited KeepsRules c u.node

theorem sited_foldl_attach {acc : Tree} (hacc : InPlace .expression acc ∧ Sited KeepsRules c acc)
    (hts : TermsSited c ts) : Sited KeepsRules c (ts.foldl attach acc) := by
  induction ts generalizing acc with
  | nil => exact hacc.2
  | cons t ts ih =>
    rw [TermsSited, List.forall_mem_cons] at hts
    refine ih ⟨.binary hacc.1 hts.1.1, ?_⟩ hts.2
    exact (sited_binary hacc.1 hts.1.1).mpr ⟨keepsRules_form nofun nofun nofun, hacc.2, hts.1.2⟩

theorem sited_chain (hts : TermsSited c ts) :
    Sited KeepsRules c (chain (positiveFirst (gathered ts))) := by
  have hall : TermsSited c (positiveFirst (gathered ts)) := by
    intro u hu
    rw [mem_positiveFirst, gathered_eq, List.mem_append] at hu
    rcases hu with hu | hu
    · exact hts u (List.mem_filter.mp hu).1
    · obtain ⟨w, hw⟩ := node_of_mem_literals hu
      rw [hw]
      exact ⟨.int trivial, sited_int w⟩
  generalize positiveFirst (gathered ts) = us at hall
  cases us with
  | nil => exact sited_int 0
  | cons u us =>
    simp only [chain]
    split
    · exact sited_foldl_attach ⟨.int trivial, sited_int 0⟩ hall
    · rw [TermsSited, List.forall_mem_cons] at hall
      exact sited_foldl_attach hall.1 hall.2

/-- The folded terms of an expression keep to the rules where it does. -/
def TermsKeep (t : Tree) : Prop :=
  ∀ c negative ts, Sited KeepsRules c t → foldedTerms negative t = some ts → TermsSited c ts

/-- What a tree is folded to keeps to the rules where it does. -/
def FoldKeeps (t : Tree) : Prop :=
  ∀ c t', Sited KeepsRules c t → fold t = some t' → Sited KeepsRules c t'

theorem termsKeep_of_fold {l : Label} (hchain : isChain (.node l o cs) = false)
    (hsorted : WellSorted P .expression (.node l o cs)) (h : FoldKeeps (.node l o cs)) :
    TermsKeep (.node l o cs) := by
  intro c negative ts hsited hts u hu
  refine ⟨(inPlace_folded hsorted).2 rfl negative ts hts u hu, ?_⟩
  obtain ⟨t', hf, rfl⟩ := term_of_foldedTerms hchain rfl hts
  cases List.mem_singleton.mp hu
  exact h c t' hsited hf

theorem foldKeeps_of_terms (h : TermsKeep t) (hsorted : WellSorted P .expression t) :
    FoldKeeps t := by
  intro c t' hsited hf
  obtain ⟨ts, hts⟩ := Option.isSome_iff_exists.mp (foldedTerms_of_wellSorted hsorted false)
  obtain rfl | rfl := fold_cases hts hf
  · exact sited_chain (h c false ts hsited hts)
  · exact (h c false _ hsited hts ⟨t', false⟩ (List.mem_singleton.mpr rfl)).2

/-- A part that folding keeps to the rules. -/
theorem FoldKeeps.part (h : FoldKeeps t) (hsorted : WellSorted P role t) (hf : fold t = some t') :
    Sited KeepsRules (c.inner t) t → Sited KeepsRules (c.inner t') t' := by
  rw [inner_fold hsorted hf]
  exact fun hsited => h _ _ hsited hf

theorem sited_leaf {x : Tree} (hx : ∃ o y, x = ident o y) : Sited KeepsRules c x := by
  obtain ⟨o, y, rfl⟩ := hx
  exact (sited_node (l := .ident y) nofun nofun).mpr ⟨⟨nofun, nofun, nofun⟩, nofun⟩

theorem foldKeeps_folded (h : WellSorted P role t) :
    FoldKeeps t ∧ (role = .expression → TermsKeep t) := by
  induction h with
  | @int o w hw =>
    have hfold : FoldKeeps (int o w) := by
      rintro c t' hsited ⟨⟩
      exact hsited
    exact ⟨hfold, fun _ => termsKeep_of_fold rfl (.int hw) hfold⟩
  | @lookup o x hx =>
    have hfold : FoldKeeps (form .lookup o [x]) := by
      intro c t' hsited hf
      rw [fold_leaves rfl (by simpa using hx.leaf)] at hf
      cases hf
      exact hsited
    exact ⟨hfold, fun _ => termsKeep_of_fold (P := P) rfl (.lookup hx) hfold⟩
  | @binary op o lhs rhs hl hr ihl ihr =>
    have hterms : TermsKeep (binary op o lhs rhs) := by
      cases hop : op.isAdditive with
      | true =>
        intro c negative ts hsited hts
        obtain ⟨-, hlhs, hrhs⟩ := (sited_binary hl hr).mp hsited
        obtain ⟨ls, rs, hls, hrs, rfl⟩ := exists_terms_of_binary hop hts
        exact List.forall_mem_append.mpr
          ⟨ihl.2 rfl c negative ls hlhs hls, ihr.2 rfl c _ rs hrhs hrs⟩
      | false =>
        refine termsKeep_of_fold hop (.binary hl hr) fun c t' hsited hf => ?_
        obtain ⟨-, hlhs, hrhs⟩ := (sited_binary hl hr).mp hsited
        obtain ⟨lhs', rhs', hlf, hrf, rfl⟩ := fold_binary hop hf
        exact sited_foldProduct (inPlace_of_fold hl hlf) (inPlace_of_fold hr hrf)
          (ihl.1 c lhs' hlhs hlf) (ihr.1 c rhs' hrhs hrf)
    exact ⟨foldKeeps_of_terms hterms (.binary hl hr), fun _ => hterms⟩
  | @not o t ht ih =>
    have hfold : FoldKeeps (form .not o [t]) := by
      intro c t' hsited hf
      obtain ⟨_, hcs, rfl⟩ := fold_form_cases rfl hf
      let .cons htf .nil := hcs
      exact sited_parts nofun nofun (keepsRules_form nofun nofun nofun)
        hsited (.cons (ih.1.part ht htf) .nil)
    exact ⟨hfold, fun _ => termsKeep_of_fold rfl (.not ht) hfold⟩
  | @call o o' callee args hc hargs ihc ihargs =>
    have harguments : ∀ {args'}, List.Forall₂ (fun t t' => fold t = some t') args args' →
        ∀ c, List.Forall₂ (fun t t' => Sited KeepsRules (Context.inner c t) t →
          Sited KeepsRules (Context.inner c t') t') args args' := by
      intro args' h c
      clear hc ihc
      induction h with
      | nil => exact .nil
      | cons ht _ ih =>
        rw [List.forall_mem_cons] at hargs ihargs
        exact .cons (ihargs.1.1.part hargs.1 ht) (ih hargs.2 ihargs.2)
    have hfold : FoldKeeps (form .call o [callee, form .arguments o' args]) := by
      intro c t' hsited hf
      obtain ⟨_, hcs, rfl⟩ := fold_form_cases rfl hf
      let .cons hcallee (.cons hlist .nil) := hcs
      obtain ⟨args', hargs', rfl⟩ := fold_form_cases rfl hlist
      refine sited_parts nofun nofun (keepsRules_form nofun nofun nofun) hsited
        (.cons (ihc.1.part hc hcallee) (.cons (fun hlist => ?_) .nil))
      exact sited_parts nofun nofun (keepsRules_form nofun nofun nofun) hlist (harguments hargs' c)
    exact ⟨hfold, fun _ => termsKeep_of_fold rfl (.call hc hargs) hfold⟩
  | @function o o' params body sig hparams hbody hsig ih =>
    have hfold : FoldKeeps (form .function o (form .parameters o' params :: body :: sig)) := by
      intro c t' hsited hf
      obtain ⟨body', hb, rfl⟩ := fold_function hparams hsig hf
      obtain ⟨names, hnames⟩ := mapM_name?_of_leaves fun x hx => (hparams x hx).leaf
      have hnames : ∀ body,
          (form .function o (form .parameters o' params :: body :: sig)).paramNames? =
          some names := fun _ => hnames
      have hfunction : c.function names body' = c.function names body := by
        rw [Context.function, Context.function, declared_fold hbody hb]
      rw [sited_function (hnames _)] at hsited ⊢
      simp only [List.forall_mem_cons] at hsited ⊢
      refine ⟨⟨hsited.1.parameters, nofun, nofun⟩, hsited.2.1, ?_, hsited.2.2.2⟩
      rw [hfunction]
      exact ih.1 _ _ hsited.2.2.1 hb
    exact ⟨hfold, fun _ => termsKeep_of_fold rfl (.function hparams hbody hsig) hfold⟩
  | @block o ts hts ih =>
    refine ⟨fun c t' hsited hf => ?_, nofun⟩
    obtain ⟨ts', hts', rfl⟩ := fold_form_cases rfl hf
    rw [sited_sequence] at hsited ⊢
    refine ⟨keepsRules_form nofun nofun nofun, ?_⟩
    have hstatements := hsited.2
    clear hsited hf
    induction hts' generalizing c with
    | nil => exact nofun
    | cons ht _ ih' =>
      rw [List.forall_mem_cons] at hts ih
      rw [sitedInOrder_cons] at hstatements ⊢
      rw [declared_fold hts.1 ht]
      exact ⟨ih.1.1 c _ hstatements.1 ht, ih' hts.2 ih.2 _ hstatements.2⟩
  | @declare o x value type hx hvalue htype hlen ih =>
    refine ⟨fun c t' hsited hf => ?_, nofun⟩
    obtain ⟨value', hv, rfl⟩ := fold_declare hx htype hf
    have hrules : KeepsRules c (form .declare o (x :: value' :: type)) :=
      ⟨nofun, nofun, hsited.here.declarations⟩
    refine sited_parts nofun nofun hrules hsited (.cons id (.cons (ih.1.part hvalue hv) ?_))
    exact List.forall₂_same.mpr fun _ _ => id
  | @assign o o' x value hx hvalue ih =>
    refine ⟨fun c t' hsited hf => ?_, nofun⟩
    obtain ⟨_, hcs, rfl⟩ := fold_form_cases rfl hf
    let .cons hloc (.cons hv .nil) := hcs
    rw [fold_leaves rfl (by simpa using hx.leaf)] at hloc
    cases hloc
    exact sited_parts nofun nofun (keepsRules_form nofun nofun nofun) hsited
      (.cons id (.cons (ih.1.part hvalue hv) .nil))
  | @print o t ht ih =>
    refine ⟨fun c t' hsited hf => ?_, nofun⟩
    obtain ⟨_, hcs, rfl⟩ := fold_form_cases rfl hf
    let .cons htf .nil := hcs
    exact sited_parts nofun nofun (keepsRules_form nofun nofun nofun)
      hsited (.cons (ih.1.part ht htf) .nil)
  | @ret o t ht ih =>
    refine ⟨fun c t' hsited hf => ?_, nofun⟩
    obtain ⟨_, hcs, rfl⟩ := fold_form_cases rfl hf
    let .cons htf .nil := hcs
    exact sited_parts nofun nofun ⟨nofun, hsited.here.returns, nofun⟩ hsited
      (.cons (ih.1.part ht htf) .nil)
  | @ifThen o cond body hc hb ihc ihb =>
    refine ⟨fun c t' hsited hf => ?_, nofun⟩
    obtain ⟨_, hcs, rfl⟩ := fold_form_cases rfl hf
    let .cons hcf (.cons hbf .nil) := hcs
    exact sited_parts nofun nofun (keepsRules_form nofun nofun nofun) hsited
      (.cons (ihc.1.part hc hcf) (.cons (ihb.1.part hb hbf) .nil))
  | @ifElse o cond body alternative hc hb ha ihc ihb iha =>
    refine ⟨fun c t' hsited hf => ?_, nofun⟩
    obtain ⟨_, hcs, rfl⟩ := fold_form_cases rfl hf
    let .cons hcf (.cons hbf (.cons haf .nil)) := hcs
    exact sited_parts nofun nofun (keepsRules_form nofun nofun nofun) hsited
      (.cons (ihc.1.part hc hcf) (.cons (ihb.1.part hb hbf) (.cons (iha.1.part ha haf) .nil)))
  | @whileDo o cond body hc hb ihc ihb =>
    refine ⟨fun c t' hsited hf => ?_, nofun⟩
    obtain ⟨_, hcs, rfl⟩ := fold_form_cases rfl hf
    let .cons hcf (.cons hbf .nil) := hcs
    exact sited_parts nofun nofun (keepsRules_form nofun nofun nofun) hsited
      (.cons (ihc.1.part hc hcf) (.cons (ihb.1.part hb hbf) .nil))
  | expression _ ih => exact ⟨ih.1, nofun⟩

/-- A program that keeps to the rules of scopes does so when it is folded. -/
theorem sited_of_fold (h : WellSorted P .block t) (hrules : Sited KeepsRules (.program t) t)
    (hf : fold t = some t') : Sited KeepsRules (.program t') t' := by
  have hprogram : Context.program t' = .program t := by
    rw [Context.program, Context.program, declared_fold h hf]
  rw [hprogram]
  exact (foldKeeps_folded h).1 _ _ hrules hf

end ClosureLang.Fold

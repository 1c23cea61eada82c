import ClosureLang.Proofs.Fold.Scopes
import ClosureLang.Proofs.Lint.Checks
import ClosureLang.Proofs.Run.Progress

/-! A program in which no check finds a repeated parameter, a return outside of functions or a
repeated declaration keeps to the rules of scopes, and no run of it breaks them. -/
namespace ClosureLang.Lint

open ClosureLang.Tree

/-! What it means that a check finds nothing. -/

section Findings

variable {t : Tree} {ts : List Tree} {target : Target}

theorem lookup_cons_eq_none {α : Type} {seen : List (String × α)} {x y : String} {a : α} :
    ((x, a) :: seen).lookup y = none ↔ y ≠ x ∧ seen.lookup y = none := by
  rw [List.lookup_cons]
  by_cases hyx : y = x
  · simp [hyx]
  · have hne : (y == x) = false := by simpa using hyx
    simp only [hne, ne_eq, hyx, not_false_eq_true, true_and]

/-- A name that was not seen before, and names that were not with it. -/
theorem nodup_cons_fresh {α : Type} {seen : List (String × α)} {x : String} {a : α}
    {xs : List String} (hx : seen.lookup x = none)
    (h : xs.Nodup ∧ ∀ y ∈ xs, ((x, a) :: seen).lookup y = none) :
    (x :: xs).Nodup ∧ ∀ y ∈ x :: xs, seen.lookup y = none := by
  simp only [lookup_cons_eq_none] at h
  refine ⟨List.nodup_cons.mpr ⟨fun hmem => (h.2 x hmem).1 rfl, h.1⟩, ?_⟩
  rw [List.forall_mem_cons]
  exact ⟨hx, fun y hy => (h.2 y hy).2⟩

theorem nodup_of_repeats {seen : List (String × Tree)} (h : repeats seen ts = some [])
    {names : List String} (hnames : ts.mapM name? = some names) :
    names.Nodup ∧ ∀ x ∈ names, seen.lookup x = none := by
  induction ts generalizing seen names with
  | nil =>
    cases hnames
    exact ⟨.nil, nofun⟩
  | cons t ts ih =>
    simp only [List.mapM_cons, Option.bind_eq_bind, Option.bind_eq_some_iff, Option.pure_def,
      Option.some.injEq] at hnames
    obtain ⟨x, hx, xs, hxs, rfl⟩ := hnames
    simp only [repeats, hx, Option.bind_eq_bind, Option.bind_some] at h
    split at h
    · obtain ⟨pairs, -, h⟩ := Option.bind_eq_some_iff.mp h
      cases h
    · rename_i hlookup
      exact nodup_cons_fresh hlookup (ih h hxs)

/-- A statement that is no declaration declares nothing. -/
theorem declared_of_statement (h : InPlace .statement t) (hdeclare : t.isForm .declare = false) :
    t.declared = [] := by
  cases h with
  | declare => cases hdeclare
  | expression he => exact declared_of_expression he
  | _ => rfl

theorem nodup_of_redeclarations {scope : List (String × Tree)}
    (hts : ∀ t ∈ ts, InPlace .statement t) (h : redeclarations scope ts = some []) :
    (declaredAll ts).Nodup ∧ ∀ x ∈ declaredAll ts, scope.lookup x = none := by
  induction ts generalizing scope with
  | nil => exact ⟨.nil, nofun⟩
  | cons t ts ih =>
    rw [List.forall_mem_cons] at hts
    rw [redeclarations_cons hts.1.whole.present] at h
    split at h
    · rename_i hdeclare
      obtain ⟨o, cs, rfl⟩ := eq_form_of_isForm hdeclare
      obtain ⟨x, hx, h⟩ := Option.bind_eq_some_iff.mp h
      have hdeclared : (form .declare o cs).declared = [x] := by
        show ((form .declare o cs).child 0).name?.toList = [x]
        rw [hx, Option.toList_some]
      rw [declaredAll, hdeclared]
      split at h
      · obtain ⟨pairs, -, h⟩ := Option.bind_eq_some_iff.mp h
        cases h
      · rename_i hlookup
        exact nodup_cons_fresh hlookup (ih hts.2 h)
    · rename_i hdeclare
      rw [declaredAll, declared_of_statement hts.1 (by simpa using hdeclare)]
      exact ih hts.2 h

/-- A check that reports nothing has found nothing. -/
theorem run_of_no_findings {c : Check} {fs : List Finding} (hsource : target.source = "")
    (h : lintTree checks target = some fs) (hc : c ∈ checks) (hfs : ∀ f ∈ fs, f.check ≠ c.name) :
    c.run target = some [] := by
  obtain ⟨problems, hrun, hfound⟩ := mem_lintTree hsource h hc
  cases problems with
  | nil => exact hrun
  | cons p ps => exact absurd rfl (hfs _ (hfound p List.mem_cons_self))

/-- What a check does at every node comes to nothing if it finds nothing. -/
theorem none_of_flatten {α β γ : Type} {f : α → Option (List β)} {g : β → γ} {as : List α}
    (h : ((as.mapM fun a => (f a).bind fun bs => some (bs.map g)).bind fun bs => some bs.flatten) =
      some []) {a : α} (ha : a ∈ as) : f a = some [] := by
  obtain ⟨bs, hbs, hflatten⟩ := Option.bind_eq_some_iff.mp h
  obtain ⟨cs, hcs, hfa⟩ := mem_of_mapM hbs ha
  have hnil : cs = [] := List.flatten_eq_nil_iff.mp (Option.some.inj hflatten) cs hcs
  obtain ⟨bs', hbs', hmap⟩ := Option.bind_eq_some_iff.mp hfa
  rw [hnil, Option.some.injEq, List.map_eq_nil_iff] at hmap
  rw [hbs', hmap]

/-- A visit at which no check finds anything. -/
structure Clean (v : Visit) : Prop where
  parameters : v.node.isForm .function = true →
      ∀ names, v.node.paramNames? = some names → names.Nodup
  declarations : v.node.isForm .sequence = true →
    ∃ scope, boundParams? v = some scope ∧ redeclarations scope.reverse v.node.children = some []

theorem parameters_of_no_problems (h : duplicateParams target = some []) {fn : Tree}
    (hfn : fn ∈ nodesOf .function target.tree) {names : List String}
    (hnames : fn.paramNames? = some names) :
    names.Nodup := by
  simp only [duplicateParams, Option.bind_eq_bind, Option.pure_def, ← Option.bind_assoc] at h
  have hrepeats := none_of_flatten h hfn
  obtain ⟨params, hparams, hrepeats⟩ := Option.bind_eq_some_iff.mp hrepeats
  unfold paramNames? at hnames
  unfold childrenOf? at hparams
  revert hnames hparams
  cases fn.child 0 with
  | absent =>
    intro hnames
    cases hnames
  | node l o cs =>
    rintro hnames ⟨⟩
    exact (nodup_of_repeats hrepeats hnames).1

theorem redeclarations_of_no_problems (h : redeclared target = some []) {v : Visit}
    (hv : v ∈ target.tree.visits) (hsequence : v.node.isForm .sequence = true) :
    ∃ scope, boundParams? v = some scope ∧
      redeclarations scope.reverse v.node.children = some [] := by
  simp only [redeclared, Option.bind_eq_bind, Option.pure_def, ← Option.bind_assoc] at h
  have hredeclared := none_of_flatten h (List.mem_filter.mpr ⟨hv, hsequence⟩)
  exact Option.bind_eq_some_iff.mp hredeclared

theorem clean_of_no_problems (hparams : duplicateParams target = some [])
    (hblocks : redeclared target = some []) {v : Visit} (hv : v ∈ target.tree.visits) :
    Clean v where
  parameters hfunction _ hnames :=
    parameters_of_no_problems hparams
      (List.mem_filter.mpr ⟨List.mem_map_of_mem hv, hfunction⟩) hnames
  declarations hsequence := redeclarations_of_no_problems hblocks hv hsequence

theorem no_return_of_no_problems (h : toplevelReturns target = some []) {u : Tree}
    (hu : u ∈ outsideFunctions target.tree) : u.isForm .ret = false := by
  rw [toplevelReturns, Option.some.injEq, List.map_eq_nil_iff, List.filter_eq_nil_iff] at h
  simpa using h u hu

end Findings

/-! From the visits of a tree to the contexts of its nodes. -/

section Contexts

variable {P : Int64 → Prop} {c c' : Context} {p t : Tree} {i d : Nat} {l : Label} {o : Int}
  {cs : List Tree} {role : Role}

/-- A tree below `p` in which no check finds anything, wherever returns matter. -/
structure Checked (c : Context) (p : Tree) (i d : Nat) (t : Tree) : Prop where
  clean : ∀ v ∈ visitsFrom (fun _ => true) p i d t, Clean v
  returns : c.outside = true →
      ∀ v ∈ visitsFrom (!·.isForm .function) p i d t, v.node.isForm .ret = false

theorem visitsFrom_subset_children {descend : Tree → Bool} {k : Nat} (h : cs[k]? = some t) :
    visitsFrom descend p (i + k) d t ⊆ visitsOfChildren descend p i d cs := by
  induction cs generalizing i k with
  | nil => cases h
  | cons c cs ih =>
    rw [visitsOfChildren]
    cases k with
    | zero =>
      cases h
      exact List.subset_append_left ..
    | succ k =>
      have hrest := ih (i := i + 1) (k := k) h
      rw [show i + (k + 1) = i + 1 + k by omega]
      exact List.subset_append_of_subset_right _ hrest

namespace Checked

theorem here (h : Checked c p i d (node l o cs)) : Clean ⟨node l o cs, p, i, d⟩ :=
  h.clean _ List.mem_cons_self

theorem not_ret (h : Checked c p i d (node l o cs)) (ho : c.outside = true) :
    (node l o cs).isForm .ret = false := h.returns ho _ List.mem_cons_self

theorem child {k : Nat} (h : Checked c p i d (node l o cs)) (ht : cs[k]? = some t)
    (houtside : c'.outside = true → c.outside = true ∧ l ≠ .form .function) :
    Checked c' (node l o cs) k (d + 1) t := by
  have hsubset : ∀ descend, visitsFrom descend (node l o cs) k (d + 1) t ⊆
      visitsOfChildren descend (node l o cs) 0 (d + 1) cs := by
    intro descend
    have hchild : visitsFrom descend (node l o cs) (0 + k) (d + 1) t ⊆ _ :=
      visitsFrom_subset_children ht
    rwa [Nat.zero_add] at hchild
  refine ⟨fun v hv => h.clean v ?_, fun ho v hv => ?_⟩
  · rw [visitsFrom, if_pos rfl]
    exact List.mem_cons_of_mem _ (hsubset _ hv)
  · obtain ⟨ho, hl⟩ := houtside ho
    refine h.returns ho v ?_
    have hdescend : (!(node l o cs).isForm .function) = true := by
      cases l with
      | form f => simpa [isForm, form?] using hl
      | _ => rfl
    rw [visitsFrom, if_pos hdescend]
    exact List.mem_cons_of_mem _ (hsubset _ hv)

end Checked

/-- What is bound where a visited part of a program begins: in a block the parameters at most, and
at a declaration not its name. -/
def Opens (c : Context) (v : Visit) : Role → Prop
  | .block => ∀ scope, boundParams? v = some scope → ∀ x ∈ c.bound, x ∈ scope.map Prod.fst
  | .statement => ∀ x ∈ v.node.declared, x ∉ c.bound
  | .expression => True

/-- A tree in which no check finds anything keeps to the rules. -/
def Tidy (role : Role) (t : Tree) : Prop :=
  ∀ p i d c, Checked c p i d t → Opens c ⟨t, p, i, d⟩ role → Sited KeepsRules c t

/-- A part of a node that is no function keeps to the rules, if no check finds anything in it. -/
def TidyPart (t : Tree) : Prop := Tidy (if t.isForm .sequence then .block else .expression) t

theorem tidyPart_expression (h : WellSorted P .expression t) (ht : Tidy .expression t) :
    TidyPart t := by
  rwa [TidyPart, isForm_of_expression h, if_neg Bool.false_ne_true]

theorem tidyPart_block (h : WellSorted P .block t) (ht : Tidy .block t) : TidyPart t := by
  rwa [TidyPart, isForm_of_block h, if_pos rfl]

theorem tidyPart_leaf (h : ∃ o x, t = ident o x) : TidyPart t := by
  obtain ⟨o, x, rfl⟩ := h
  exact fun _ _ _ _ _ _ => Fold.sited_leaf ⟨o, x, rfl⟩

theorem Checked.parts {f : Form} (h : Checked c p i d (form f o cs)) (hsequence : f ≠ .sequence)
    (hfunction : f ≠ .function) (hrules : KeepsRules c (form f o cs)) (hcs : ∀ t ∈ cs, TidyPart t) :
    Sited KeepsRules c (form f o cs) := by
  refine (sited_node (by simpa using hsequence) (by simpa using hfunction)).mpr
    ⟨hrules, fun t ht => ?_⟩
  obtain ⟨k, hk⟩ := List.getElem?_of_mem ht
  have htidy := hcs t ht
  rw [Context.inner]
  rw [TidyPart] at htidy
  split at htidy
  · rename_i hblock
    rw [if_pos hblock]
    exact htidy _ k _ _ (h.child hk fun ho => ⟨ho, by simpa using hfunction⟩) fun _ _ _ hx =>
      absurd hx List.not_mem_nil
  · rename_i hblock
    rw [if_neg hblock]
    exact htidy _ k _ _ (h.child hk fun ho => ⟨ho, by simpa using hfunction⟩) trivial

/-- The statements of a block, of which none declares a bound name. -/
theorem sitedInOrder_of_checked {ts : List Tree} (us : List Tree)
    (h : Checked c p i d (form .sequence o (us ++ ts))) (hts : ∀ t ∈ ts, Tidy .statement t)
    (hnodup : (declaredAll ts).Nodup) (hfresh : ∀ x ∈ declaredAll ts, x ∉ c'.bound)
    (houtside : c'.outside = c.outside) :
    SitedInOrder KeepsRules c' ts := by
  induction ts generalizing us c' with
  | nil => exact fun _ hs => absurd hs List.not_mem_nil
  | cons t ts ih =>
    rw [List.forall_mem_cons] at hts
    rw [declaredAll, List.nodup_append] at hnodup
    rw [declaredAll] at hfresh
    rw [sitedInOrder_cons]
    have ht : (us ++ t :: ts)[us.length]? = some t := by simp
    refine ⟨hts.1 _ us.length _ c' (h.child ht fun ho => ⟨houtside ▸ ho, by simp⟩) ?_, ?_⟩
    · exact fun x hx => hfresh x (List.mem_append_left _ hx)
    · refine ih (us ++ [t]) (by simpa using h) hts.2 hnodup.2.1 (fun x hx hbound => ?_) ?_
      · rcases List.mem_append.mp (c'.bound_declare_subset _ hbound) with hbound | hdeclared
        · exact hfresh x (List.mem_append_right _ hx) hbound
        · exact hnodup.2.2 x hdeclared x hx rfl
      · rw [Context.outside_declare, houtside]

/-- A node without rules of its own keeps to them if its parts are tidy. -/
theorem Checked.plain {f : Form} (h : Checked c p i d (form f o cs))
    (hf : f ∉ [.sequence, .function, .ret, .declare]) (hcs : ∀ t ∈ cs, TidyPart t) :
    Sited KeepsRules c (form f o cs) := by
  simp only [List.mem_cons, List.not_mem_nil, or_false, not_or] at hf
  obtain ⟨hsequence, hfunction, hret, hdeclare⟩ := hf
  exact h.parts hsequence hfunction (Fold.keepsRules_form hfunction hret hdeclare) hcs

theorem tidyPart_leaves {f : Form} (hf : f ∉ [.sequence, .function, .ret, .declare])
    (hcs : ∀ t ∈ cs, ∃ o x, t = ident o x) : Tidy .expression (form f o cs) :=
  fun _ _ _ _ h _ => h.plain hf fun t ht => tidyPart_leaf (hcs t ht)

theorem names_of_boundParams {params : List Tree} {scope : List (String × Tree)}
    (h : (params.mapM fun p => p.name?.bind fun x => some (x, p)) = some scope) :
    params.mapM name? = some (scope.map Prod.fst) := by
  induction params generalizing scope with
  | nil =>
    cases h
    rfl
  | cons p ps ih =>
    simp only [List.mapM_cons, Option.bind_eq_bind, Option.bind_eq_some_iff, Option.pure_def,
      Option.some.injEq] at h
    obtain ⟨_, ⟨x, hx, rfl⟩, scope, hscope, rfl⟩ := h
    simp [List.mapM_cons, hx, ih hscope]

theorem tidy_function {o' : Int} {params sig : List Tree} {body : Tree}
    (hparams : ∀ x ∈ params, IsIdent x) (hsig : IsSignature params.length sig)
    (ih : Tidy .block body) :
    Tidy .expression (form .function o (form .parameters o' params :: body :: sig)) := by
  intro p i d c h _
  obtain ⟨names, hmap⟩ := mapM_name?_of_leaves fun x hx => (hparams x hx).leaf
  have hnames : (form .function o (form .parameters o' params :: body :: sig)).paramNames? =
      some names := hmap
  have hparts : ∀ {t k}, (form .parameters o' params :: body :: sig)[k]? = some t →
      Checked (c.function names t) _ k (d + 1) t :=
        fun ht => h.child ht fun ho => absurd ho Bool.false_ne_true
  refine (sited_function hnames).mpr
    ⟨⟨fun _ => h.here.parameters rfl, fun hret => absurd hret Bool.false_ne_true,
    fun hdeclare => absurd hdeclare Bool.false_ne_true⟩, ?_⟩
  simp only [List.forall_mem_cons]
  refine ⟨?_, ?_, fun t ht => ?_⟩
  · exact tidyPart_leaves (f := .parameters) (by simp) (fun x hx => (hparams x hx).leaf) _ _ _ _
      (hparts (k := 0) rfl) trivial
  · refine ih _ _ _ _ (hparts (k := 1) rfl) fun scope hscope x hx => ?_
    cases hmap.symm.trans (names_of_boundParams hscope)
    exact hx
  · obtain rfl | ⟨o'', tags, rfl, -, htags, -⟩ := hsig
    · cases ht
    · cases List.mem_singleton.mp ht
      exact tidyPart_leaves (f := .signature) (by simp) (fun x hx => (htags x hx).leaf) _ _ _ _
        (hparts (k := 2) rfl) trivial

theorem tidy_block {ts : List Tree} (hts : ∀ t ∈ ts, InPlace .statement t)
    (ih : ∀ t ∈ ts, Tidy .statement t) : Tidy .block (form .sequence o ts) := by
  intro p i d c h hopens
  obtain ⟨scope, hscope, hredeclared⟩ := h.here.declarations rfl
  obtain ⟨hnodup, hfresh⟩ := nodup_of_redeclarations hts hredeclared
  refine sited_sequence.mpr ⟨Fold.keepsRules_form nofun nofun nofun, ?_⟩
  refine sitedInOrder_of_checked [] h ih hnodup (fun x hx hbound => ?_) rfl
  obtain ⟨⟨y, param⟩, hmem, rfl⟩ := List.mem_map.mp (hopens scope hscope x hbound)
  have hlookup := hfresh y hx
  simp only [List.lookup_eq_none_iff] at hlookup
  simpa using hlookup (y, param) (List.mem_reverse.mpr hmem)

theorem tidy (h : WellSorted P role t) : Tidy role t := by
  induction h with
  | int => exact fun _ _ _ _ _ _ => Fold.sited_int _
  | lookup hx =>
    exact tidyPart_leaves (by simp) (by simpa using hx.leaf)
  | binary hl hr ihl ihr =>
    refine fun p i d c h _ => Checked.plain h (by simp) ?_
    simpa using ⟨tidyPart_expression hl ihl, tidyPart_expression hr ihr⟩
  | not ht ih =>
    exact fun p i d c h _ => h.plain (by simp)
      (by simpa using tidyPart_expression ht ih)
  | @call o o' callee args hc hargs ihc ihargs =>
    have hlist : TidyPart (form .arguments o' args) := fun p i d c h _ =>
      h.plain (by simp)
        fun t ht => tidyPart_expression (hargs t ht) (ihargs t ht)
    refine fun p i d c h _ => h.plain (by simp) ?_
    simpa using ⟨tidyPart_expression hc ihc, hlist⟩
  | function hparams hbody hsig ih => exact tidy_function hparams hsig ih
  | block hts ih => exact tidy_block (fun t ht => (hts t ht).inPlace) ih
  | @declare o x value type hx hvalue htype hlen ih =>
    intro p i d c h hopens
    have hrules : KeepsRules c (form .declare o (x :: value :: type)) := by
      refine ⟨fun hfunction => absurd hfunction Bool.false_ne_true,
        fun hret => absurd hret Bool.false_ne_true, fun _ y hy => hopens y ?_⟩
      show y ∈ ((form .declare o (x :: value :: type)).child 0).name?.toList
      simp [hy]
    refine h.parts (by simp) (by simp) hrules ?_
    simp only [List.forall_mem_cons]
    exact ⟨tidyPart_leaf hx.leaf, tidyPart_expression hvalue ih,
      fun t ht => tidyPart_leaf (htype t ht).leaf⟩
  | @assign o o' x value hx hvalue ih =>
    have hplace : TidyPart (form .varLoc o' [x]) :=
      tidyPart_leaves (by simp) (by simpa using hx.leaf)
    refine fun p i d c h _ => h.plain (by simp) ?_
    simpa using ⟨hplace, tidyPart_expression hvalue ih⟩
  | print ht ih =>
    exact fun p i d c h _ => h.plain (by simp)
      (by simpa using tidyPart_expression ht ih)
  | ret ht ih =>
    intro p i d c h _
    have hinside : c.outside = false := by
      by_contra houtside
      have hret := h.not_ret (by simpa using houtside)
      contradiction
    exact h.parts (by simp) (by simp)
      ⟨fun hfunction => absurd hfunction Bool.false_ne_true, fun _ => hinside,
      fun hdeclare => absurd hdeclare Bool.false_ne_true⟩ (by simpa using tidyPart_expression ht ih)
  | ifThen hc hb ihc ihb =>
    refine fun p i d c h _ => h.plain (by simp) ?_
    simpa using ⟨tidyPart_expression hc ihc, tidyPart_block hb ihb⟩
  | ifElse hc hb ha ihc ihb iha =>
    refine fun p i d c h _ => h.plain (by simp) ?_
    simpa using ⟨tidyPart_expression hc ihc, tidyPart_block hb ihb, tidyPart_block ha iha⟩
  | whileDo hc hb ihc ihb =>
    refine fun p i d c h _ => h.plain (by simp) ?_
    simpa using ⟨tidyPart_expression hc ihc, tidyPart_block hb ihb⟩
  | expression _ ih => exact fun p i d c h _ => ih p i d c h trivial

end Contexts

/-- A program in which no check finds anything keeps to the rules. -/
theorem sited_of_no_problems {P : Int64 → Prop} {target : Target}
    (h : WellSorted P .block target.tree) (hparams : duplicateParams target = some [])
    (hreturns : toplevelReturns target = some []) (hblocks : redeclared target = some []) :
    Sited KeepsRules (.program target.tree) target.tree := by
  refine tidy h absent 0 0 _ ⟨fun v hv => ?_, fun _ v hv => ?_⟩ fun _ _ => nofun
  · exact clean_of_no_problems hparams hblocks hv
  · exact no_return_of_no_problems hreturns (List.mem_map_of_mem hv)

/-- A program in which two of the checks find nothing keeps to the rules, except that it may return
outside of calls. -/
theorem sited_of_distinct {P : Int64 → Prop} {target : Target} (h : WellSorted P .block target.tree)
    (hparams : duplicateParams target = some []) (hblocks : redeclared target = some []) :
    Sited (fun c u => KeepsRules c.inside u) (.program target.tree) target.tree := by
  have hsited : Sited KeepsRules (Context.program target.tree).inside target.tree :=
    tidy h absent 0 0 _ ⟨fun v hv => clean_of_no_problems hparams hblocks hv, nofun⟩
      fun _ _ => nofun
  intro s hs
  refine hsited (s.1.inside, s.2) ?_
  rw [sites_inside]
  exact List.mem_map_of_mem hs

/-- The checks find every program that can break the rules of scopes: if none of three reports
anything, no run of the program, folded or not and with whatever limit, repeats a parameter, returns
outside of a call or declares a name twice. -/
theorem scoping_errors_are_found {src file : String} {t : Tree}
    (h : Grammar.parseProgram src = .ok t) :
    ∃ findings, lintTree checks ⟨file, "", t⟩ = some findings ∧
      ((∀ f ∈ findings, f.check ≠ "duplicate-param" ∧ f.check ≠ "toplevel-return" ∧
        f.check ≠ "redeclare") →
        ∀ (options : Options) (fuel : Nat) (condition : Condition) (node : Tree),
          (runWith fuel options t {}).1.stop = some (.condition condition node) →
          condition ≠ .duplicateParameter ∧ condition ≠ .illegalReturn ∧
            condition ≠ .variableAlreadyDefined) := by
  have hsorted := sorted_of_parse h
  have hsome : (lintTree checks ⟨file, "", t⟩).isSome := lintTree_isSome hsorted
  obtain ⟨findings, hfindings⟩ := Option.isSome_iff_exists.mp hsome
  refine ⟨findings, hfindings, fun hnone options fuel condition node hstop => ?_⟩
  have hparams := run_of_no_findings rfl hfindings (c := checks[0]) (List.getElem_mem _) fun f hf =>
    (hnone f hf).1
  have hreturns :=
    run_of_no_findings rfl hfindings (c := checks[1]) (List.getElem_mem _) fun f hf =>
      (hnone f hf).2.1
  have hblocks := run_of_no_findings rfl hfindings (c := checks[4]) (List.getElem_mem _) fun f hf =>
    (hnone f hf).2.2
  have hrules : Sited KeepsRules (.program t) t :=
    sited_of_no_problems hsorted hparams hreturns hblocks
  obtain ⟨t', hprepare, hplace⟩ := prepare_of_parse options h
  have hrules' : Sited KeepsRules (.program t') t' := by
    unfold Options.prepare at hprepare
    split at hprepare
    · exact Fold.sited_of_fold hsorted hrules hprepare
    · cases hprepare
      exact hrules
  obtain ⟨-, -, hrun⟩ := runWith_eq options fuel hprepare {}
  have hscoping := Task.not_scoping_of_rules hplace hrules' fuel (hrun ▸ hstop)
  simpa [Condition.IsScoping] using hscoping

/-- A loop declares a variable in each of its rounds, and stops for another reason. -/
theorem scoping_errors_are_found_loop :
    ∃ t findings node,
      Grammar.parseProgram
        "var f = func(x) \x7b ret x; \x7d; while (f(1)) \x7b var y = 1; print z; \x7d" = .ok t ∧
      lintTree checks ⟨"loop", "", t⟩ = some findings ∧ findings = [] ∧
      (runWith 30 {} t {}).1.stop = some (.condition .undefinedVariable node) ∧
      ∀ (options : Options) (fuel : Nat) (condition : Condition) (node : Tree),
        (runWith fuel options t {}).1.stop = some (.condition condition node) →
        condition ≠ .duplicateParameter ∧ condition ≠ .illegalReturn ∧
          condition ≠ .variableAlreadyDefined := by
  have hcheck : (Grammar.parseProgram
      "var f = func(x) \x7b ret x; \x7d; while (f(1)) \x7b var y = 1; print z; \x7d").toOption.any
          (fun t =>
        (lintTree checks ⟨"loop", "", t⟩).any List.isEmpty &&
        decide ((runWith 30 {} t {}).1.condition? = some .undefinedVariable)) = true := by
          decide +kernel
  obtain ⟨t, hparse, hcheck⟩ := Grammar.exists_ok_of_any hcheck
  simp only [Bool.and_eq_true, decide_eq_true_eq] at hcheck
  obtain ⟨hempty, hstop⟩ := hcheck
  obtain ⟨findings, hfindings, hruns⟩ := @scoping_errors_are_found _ "loop" t hparse
  rw [hfindings, Option.any_some, List.isEmpty_iff] at hempty
  obtain ⟨node, hnode⟩ := Output.stop_of_condition? hstop
  exact ⟨t, findings, node, hparse, hfindings, hempty, hnode, hruns (by simp [hempty])⟩

end ClosureLang.Lint

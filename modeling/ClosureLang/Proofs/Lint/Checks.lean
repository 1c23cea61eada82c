import ClosureLang.Lint.Linter
import ClosureLang.Proofs.Fold.Terms
import ClosureLang.Proofs.Tree.Validity

/-! Every check answers on a program, and without the text of the program every problem found is
reported. -/
namespace ClosureLang.Lint

open ClosureLang.Tree

section Lists

variable {α β : Type} {f : α → Option β} {as : List α} {bs : List β}

theorem mapM_isSome (h : ∀ a ∈ as, (f a).isSome) : (as.mapM f).isSome := by
  induction as with
  | nil => rfl
  | cons a as ih =>
    rw [List.forall_mem_cons] at h
    obtain ⟨b, hb⟩ := Option.isSome_iff_exists.mp h.1
    obtain ⟨bs, hbs⟩ := Option.isSome_iff_exists.mp (ih h.2)
    simp [List.mapM_cons, hb, hbs]

theorem mem_of_mapM (h : as.mapM f = some bs) {a : α} (ha : a ∈ as) : ∃ b ∈ bs, f a = some b := by
  induction as generalizing bs with
  | nil => cases ha
  | cons a' as ih =>
    simp only [List.mapM_cons, Option.bind_eq_bind, Option.bind_eq_some_iff, Option.pure_def,
      Option.some.injEq] at h
    obtain ⟨b, hb, bs, hbs, rfl⟩ := h
    rcases List.mem_cons.mp ha with rfl | ha
    · exact ⟨b, List.mem_cons_self, hb⟩
    · obtain ⟨b', hb', hfa⟩ := ih hbs ha
      exact ⟨b', List.mem_cons_of_mem _ hb', hfa⟩

theorem filterMapM_isSome {g : α → Option (Option β)} (h : ∀ a ∈ as, (g a).isSome) :
    (as.filterMapM g).isSome := by
  induction as with
  | nil => rfl
  | cons a as ih =>
    rw [List.forall_mem_cons] at h
    obtain ⟨b?, hb⟩ := Option.isSome_iff_exists.mp h.1
    obtain ⟨bs, hbs⟩ := Option.isSome_iff_exists.mp (ih h.2)
    rw [List.filterMapM_cons, hb]
    cases b? <;> simp [hbs]

theorem bind_some_isSome {x : Option α} {g : α → β} (h : x.isSome) :
    (x.bind fun a => some (g a)).isSome := by
  obtain ⟨a, rfl⟩ := Option.isSome_iff_exists.mp h
  rfl

end Lists

/-! Where every node is whole, every check answers. -/

section Answers

variable {t u : Tree} {ts : List Tree} {f : Form} {o : Int} {target : Target}

theorem name?_isSome (h : u.isAbsent = false) : u.name?.isSome := by
  cases u with
  | absent => cases h
  | node l o cs => cases l <;> rfl

/-- The first part of a node that asks for parts. -/
theorem present_child {i : Nat} (h : Whole u) (hi : i < u.children.length) :
    (u.child i).isAbsent = false := by
  cases u with
  | absent => cases hi
  | node l o cs =>
    have hi : i < cs.length := hi
    show ((cs[i]?).getD absent).isAbsent = false
    rw [List.getElem?_eq_getElem hi, Option.getD_some]
    exact ((whole_node_iff.mp h).2 _ (List.getElem_mem hi)).present

theorem eq_form_of_isForm (h : u.isForm f = true) : ∃ o cs, u = form f o cs := by
  unfold isForm form? at h
  split at h
  · simp only [decide_eq_true_eq, Option.some.injEq] at h
    exact ⟨_, _, by rw [h]; rfl⟩
  · simp at h

/-- A form that asks for some numbers of parts has as many of them. -/
theorem length_mem_of_whole {allowed : List Nat} {defect : Option Defect} (h : Whole (form f o ts))
    (hf : checkForm f ts = (checkArity allowed ts <|> defect)) : ts.length ∈ allowed := by
  by_contra hlength
  have hcheck := (whole_form_iff.mp h).1
  rw [hf, checkArity, if_neg hlength] at hcheck
  cases hcheck

theorem two_le_of_declare (h : Whole (form .declare o ts)) : 2 ≤ ts.length := by
  have hlength := length_mem_of_whole h rfl
  simp only [List.mem_cons, List.not_mem_nil, or_false] at hlength
  omega

theorem two_le_of_function (h : Whole (form .function o ts)) : 2 ≤ ts.length := by
  have hlength := length_mem_of_whole h rfl
  simp only [List.mem_cons, List.not_mem_nil, or_false] at hlength
  omega

theorem one_le_of_lookup (h : Whole (form .lookup o ts)) : 1 ≤ ts.length := by
  have hlength := length_mem_of_whole h rfl
  simp only [List.mem_cons, List.not_mem_nil, or_false] at hlength
  omega

theorem repeats_isSome (h : ∀ u ∈ ts, u.isAbsent = false) (seen : List (String × Tree)) :
    (repeats seen ts).isSome := by
  induction ts generalizing seen with
  | nil => rfl
  | cons t ts ih =>
    rw [List.forall_mem_cons] at h
    obtain ⟨name, hname⟩ := Option.isSome_iff_exists.mp (name?_isSome h.1)
    simp only [repeats, hname, Option.bind_eq_bind, Option.bind_some]
    split
    · exact bind_some_isSome (ih h.2 seen)
    · exact ih h.2 _

theorem redeclarations_cons (h : t.isAbsent = false) (scope : List (String × Tree)) :
    redeclarations scope (t :: ts) =
      if t.isForm .declare then (t.child 0).name?.bind fun name =>
        match scope.lookup name with
        | some earlier =>
          (redeclarations scope ts).bind fun pairs => some ((name, t, earlier) :: pairs)
        | none => redeclarations ((name, t.child 0) :: scope) ts
      else redeclarations scope ts := by
  cases t with
  | absent => cases h
  | node l o cs => exact redeclarations.eq_3 scope (node l o cs) ts nofun

theorem behindReturn_cons (h : t.isAbsent = false) :
    behindReturn (t :: ts) = if t.isForm .ret then some ts.head? else behindReturn ts := by
  cases t with
  | absent => cases h
  | node l o cs =>
    simp only [behindReturn]
    cases ts <;> rfl

theorem redeclarations_isSome (h : ∀ u ∈ ts, Whole u) (scope : List (String × Tree)) :
    (redeclarations scope ts).isSome := by
  induction ts generalizing scope with
  | nil => rfl
  | cons t ts ih =>
    rw [List.forall_mem_cons] at h
    rw [redeclarations_cons h.1.present]
    split
    · rename_i hdeclare
      obtain ⟨o, cs, rfl⟩ := eq_form_of_isForm hdeclare
      have hpresent : ((form .declare o cs).child 0).isAbsent = false :=
        present_child h.1 (Nat.lt_of_lt_of_le Nat.two_pos (two_le_of_declare h.1))
      obtain ⟨name, hname⟩ := Option.isSome_iff_exists.mp (name?_isSome hpresent)
      rw [hname, Option.bind_some]
      split
      · exact bind_some_isSome (ih h.2 scope)
      · exact ih h.2 _
    · exact ih h.2 scope

theorem behindReturn_isSome (h : ∀ u ∈ ts, u.isAbsent = false) : (behindReturn ts).isSome := by
  induction ts with
  | nil => rfl
  | cons t ts ih =>
    rw [List.forall_mem_cons] at h
    rw [behindReturn_cons h.1]
    split
    · rfl
    · exact ih h.2

theorem form_of_mem_nodesOf (h : Whole t) (hu : u ∈ nodesOf f t) :
    ∃ o cs, u = form f o cs ∧ Whole u := by
  obtain ⟨hmem, hf⟩ := List.mem_filter.mp hu
  obtain ⟨o, cs, rfl⟩ := eq_form_of_isForm hf
  exact ⟨o, cs, rfl, whole_of_mem h hmem⟩

theorem childrenOf?_eq (h : u.isAbsent = false) : childrenOf? u = some u.children := by
  cases u with
  | absent => cases h
  | node l o cs => rfl

theorem parameters_present (h : Whole (form .function o ts)) :
    ((form .function o ts).child 0).isAbsent = false ∧
      ∀ u ∈ ((form .function o ts).child 0).children, u.isAbsent = false := by
  match ts, two_le_of_function h, h with
  | params :: body :: rest, _, h =>
    have hparams := (whole_form_iff.mp h).2 params List.mem_cons_self
    refine ⟨hparams.present, fun u hu => ?_⟩
    change u ∈ params.children at hu
    cases params with
    | absent => cases hu
    | node l o cs => exact ((whole_node_iff.mp hparams).2 u hu).present

theorem duplicateParams_isSome (h : Whole target.tree) : (duplicateParams target).isSome := by
  simp only [duplicateParams, Option.bind_eq_bind, Option.pure_def]
  refine bind_some_isSome (mapM_isSome fun fn hfn => ?_)
  obtain ⟨o, cs, rfl, hwhole⟩ := form_of_mem_nodesOf h hfn
  obtain ⟨hpresent, hparams⟩ := parameters_present hwhole
  rw [childrenOf?_eq hpresent]
  exact bind_some_isSome (repeats_isSome hparams [])

mutual

/-- A traversal that leaves nodes out meets no others. -/
theorem visitsFrom_subset (descend : Tree → Bool) (p : Tree) (i d : Nat) : (t : Tree) →
    visitsFrom descend p i d t ⊆ visitsFrom (fun _ => true) p i d t
  | absent => List.Subset.refl _
  | node l o cs => by
    simp only [visitsFrom, if_true]
    refine List.cons_subset_cons _ ?_
    split
    · exact visitsOfChildren_subset descend _ _ _ cs
    · exact List.nil_subset _

theorem visitsOfChildren_subset (descend : Tree → Bool) (p : Tree) (i d : Nat) : (cs : List Tree) →
    visitsOfChildren descend p i d cs ⊆ visitsOfChildren (fun _ => true) p i d cs
  | [] => List.Subset.refl _
  | c :: cs => by
    simp only [visitsOfChildren]
    exact List.append_subset.mpr
      ⟨List.subset_append_of_subset_left _ (visitsFrom_subset descend p i d c),
        List.subset_append_of_subset_right _ (visitsOfChildren_subset descend p (i + 1) d cs)⟩

end

theorem outsideFunctions_subset (t : Tree) : outsideFunctions t ⊆ t.nodes :=
  List.map_subset _ (visitsFrom_subset ..)

theorem lookupsOf?_isSome (name : String) (h : Whole t) : (lookupsOf? name t).isSome := by
  simp only [lookupsOf?, Option.bind_eq_bind, Option.pure_def]
  refine filterMapM_isSome fun u hu => bind_some_isSome (name?_isSome ?_)
  obtain ⟨hmem, hlookup⟩ := List.mem_filter.mp hu
  obtain ⟨o, cs, rfl⟩ := eq_form_of_isForm hlookup
  have hwhole := whole_of_mem h (outsideFunctions_subset t hmem)
  exact present_child hwhole (one_le_of_lookup hwhole)

theorem selfInitializers_isSome (h : Whole target.tree) : (selfInitializers target).isSome := by
  simp only [selfInitializers, Option.bind_eq_bind, Option.pure_def]
  refine bind_some_isSome (mapM_isSome fun decl hdecl => ?_)
  obtain ⟨o, cs, rfl, hwhole⟩ := form_of_mem_nodesOf h hdecl
  match cs, two_le_of_declare hwhole, hwhole with
  | x :: value :: rest, _, hwhole =>
    have hparts := (whole_form_iff.mp hwhole).2
    obtain ⟨name, hname⟩ := Option.isSome_iff_exists.mp (name?_isSome (hparts x (by simp)).present)
    have hlookups := lookupsOf?_isSome name (hparts value (by simp))
    rw [show (form .declare o (x :: value :: rest)).child 0 = x from rfl, hname, Option.bind_some]
    exact bind_some_isSome hlookups

theorem unreachable_isSome (h : Whole target.tree) : (unreachable target).isSome := by
  simp only [unreachable, Option.bind_eq_bind, Option.pure_def]
  refine bind_some_isSome (mapM_isSome fun seq hseq => ?_)
  obtain ⟨o, cs, rfl, hwhole⟩ := form_of_mem_nodesOf h hseq
  exact behindReturn_isSome fun u hu => ((whole_form_iff.mp hwhole).2 u hu).present

theorem everywhere_whole {p : Tree} (hp : p = absent ∨ Whole p) : (t : Tree) → Whole t →
    Everywhere (fun u p => Whole u ∧ (p = absent ∨ Whole p)) p t
  | absent, _ => everywhere_absent
  | node l o cs, h =>
    everywhere_node.mpr ⟨⟨h, hp⟩,
      fun c hc => everywhere_whole (.inr h) c ((whole_node_iff.mp h).2 c hc)⟩

theorem boundParams?_isSome {v : Visit} (h : v.parent = absent ∨ Whole v.parent) :
    (boundParams? v).isSome := by
  unfold boundParams?
  split
  · rename_i hfunction
    obtain ⟨o, cs, hparent⟩ := eq_form_of_isForm hfunction.1
    rw [hparent] at h ⊢
    obtain ⟨hpresent, hparams⟩ := parameters_present (h.resolve_left nofun)
    rw [childrenOf?_eq hpresent]
    exact mapM_isSome fun param hparam => bind_some_isSome (name?_isSome (hparams param hparam))
  · rfl

theorem redeclared_isSome (h : Whole target.tree) : (redeclared target).isSome := by
  simp only [redeclared, Option.bind_eq_bind, Option.pure_def]
  refine bind_some_isSome (mapM_isSome fun v hv => ?_)
  obtain ⟨hmem, -⟩ := List.mem_filter.mp hv
  obtain ⟨hnode, hparent⟩ := forall_visits.mpr (everywhere_whole (.inl rfl) target.tree h) v hmem
  obtain ⟨scope, hscope⟩ := Option.isSome_iff_exists.mp (boundParams?_isSome hparent)
  rw [hscope, Option.bind_some]
  refine bind_some_isSome (redeclarations_isSome (fun u hu => ?_) _)
  cases hu' : v.node with
  | absent => simp [hu', children] at hu
  | node l o cs =>
    rw [hu'] at hnode hu
    exact (whole_node_iff.mp hnode).2 u hu

theorem literalDivisions_isSome (h : Whole target.tree) : (literalDivisions target).isSome := by
  obtain ⟨t', hf⟩ := Option.isSome_iff_exists.mp (Fold.fold_of_whole h)
  simp only [literalDivisions, hf]
  rfl

/-- The checks answer on every valid tree. -/
theorem lintTree_of_whole (h : Whole target.tree) : (lintTree checks target).isSome := by
  refine bind_some_isSome (mapM_isSome fun c hc => ?_)
  rw [Check.findings, Option.isSome_map]
  simp only [checks, List.mem_cons, List.not_mem_nil, or_false] at hc
  obtain rfl | rfl | rfl | rfl | rfl | rfl := hc
  · exact duplicateParams_isSome h
  · rfl
  · exact literalDivisions_isSome h
  · exact selfInitializers_isSome h
  · exact redeclared_isSome h
  · exact unreachable_isSome h

/-- The checks answer on every program. -/
theorem lintTree_isSome {P : Int64 → Prop} (h : WellSorted P .block target.tree) :
    (lintTree checks target).isSome := lintTree_of_whole h.whole

end Answers

/-- Without the text no finding has a line, so that none is suppressed. -/
theorem mem_lintTree {target : Target} {selected : List Check} {fs : List Finding} {c : Check}
    (hsource : target.source = "") (h : lintTree selected target = some fs) (hc : c ∈ selected) :
    ∃ problems, c.run target = some problems ∧ ∀ p ∈ problems, c.sign target p ∈ fs := by
  simp only [lintTree, Option.bind_eq_bind, Option.bind_eq_some_iff, Option.pure_def,
    Option.some.injEq] at h
  obtain ⟨found, hfound, rfl⟩ := h
  obtain ⟨signed, hsigned, hfindings⟩ := mem_of_mapM hfound hc
  obtain ⟨problems, hrun, rfl⟩ := Option.map_eq_some_iff.mp hfindings
  refine ⟨problems, hrun, fun p hp => List.mem_filter.mpr ⟨?_, ?_⟩⟩
  · rw [List.mem_mergeSort]
    exact List.mem_flatten.mpr ⟨_, hsigned, List.mem_map_of_mem hp⟩
  · have hline : (c.sign target p).pos.line = 0 := by
      show (target.position p.node).line = 0
      unfold Target.position
      split
      · rfl
      · rw [if_pos hsource]
    rw [hline]
    rfl

end ClosureLang.Lint

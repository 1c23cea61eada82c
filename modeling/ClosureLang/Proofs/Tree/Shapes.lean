import ClosureLang.Proofs.Tree.Validity

/-! The children that the nodes of a valid tree have, form by form. -/
namespace ClosureLang.Tree

/-- A node that holds a name or a type tag. -/
def IsTagLeaf (t : Tree) : Prop := ∃ offset x, t = ident offset x

/-- What may stand behind the body of a function with `n` parameters: nothing, or tags for all
parameters and the result. -/
def IsTagging (n : Nat) (sig : List Tree) : Prop :=
  sig = [] ∨ ∃ offset tags, sig = [form .signature offset tags] ∧ tags.length = n + 1 ∧
    ∀ t ∈ tags, IsTagLeaf t

theorem IsSignature.tagging {n : Nat} {sig : List Tree} (h : IsSignature n sig) : IsTagging n sig :=
  h.imp_right fun ⟨offset, tags, hsig, hlength, htags, _⟩ =>
    ⟨offset, tags, hsig, hlength, fun t ht => (htags t ht).leaf⟩

theorem mapM_name?_of_leaves {xs : List Tree} (h : ∀ x ∈ xs, IsTagLeaf x) :
    ∃ names, xs.mapM name? = some names := by
  induction xs with
  | nil => exact ⟨[], rfl⟩
  | cons x xs ih =>
    rw [List.forall_mem_cons] at h
    obtain ⟨⟨o, y, rfl⟩, hxs⟩ := h
    obtain ⟨names, hnames⟩ := ih hxs
    exact ⟨y :: names, by simp [List.mapM_cons, ident, name?, hnames]⟩

/-- The names of the parameters and the tags of a function can be read off. -/
theorem exists_names_of_function {params sig : List Tree} (o o' : Int) (body : Tree)
    (hparams : ∀ x ∈ params, IsTagLeaf x) (hsig : IsTagging params.length sig) :
    ∃ names tags, params.mapM name? = some names ∧
      (form .function o (form .parameters o' params :: body :: sig)).paramNames? = some names ∧
      ((form .function o (form .parameters o' params :: body :: sig)).child 2).typeTags? =
        some tags := by
  obtain ⟨names, hnames⟩ := mapM_name?_of_leaves hparams
  obtain rfl | ⟨_, tags, rfl, -, htags⟩ := hsig
  · exact ⟨names, [], hnames, hnames, rfl⟩
  · obtain ⟨tagNames, htagNames⟩ := mapM_name?_of_leaves htags
    exact ⟨names, tagNames, hnames, hnames, htagNames⟩

/-- The children that a valid node of a form has. What is said about children of children is what
other nodes of a program rely on. -/
inductive Shape : Form → List Tree → Prop where
  | sequence {ts} : Shape .sequence ts
  | arguments {ts} : Shape .arguments ts
  | parameters {xs} : (∀ x ∈ xs, IsTagLeaf x) → Shape .parameters xs
  | signature {tags} : (∀ t ∈ tags, IsTagLeaf t) → Shape .signature tags
  | binary {op lhs rhs} : Shape (.binary op) [lhs, rhs]
  | not {t} : Shape .not [t]
  | lookup {o x} : Shape .lookup [ident o x]
  | varLoc {o x} : Shape .varLoc [ident o x]
  | call {callee o args} : Shape .call [callee, form .arguments o args]
  | function {o o' params ts sig} : (∀ x ∈ params, IsTagLeaf x) → IsTagging params.length sig →
      Shape .function (form .parameters o params :: form .sequence o' ts :: sig)
  | declare {o x value type} : (∀ t ∈ type, IsTagLeaf t) → type.length ≤ 1 →
      Shape .declare (ident o x :: value :: type)
  | assign {o o' x value} : Shape .assign [form .varLoc o [ident o' x], value]
  | print {t} : Shape .print [t]
  | ret {t} : Shape .ret [t]
  | ifThen {cond o ts} : Shape .ifThen [cond, form .sequence o ts]
  | ifElse {cond o ts o' us} : Shape .ifElse [cond, form .sequence o ts, form .sequence o' us]
  | whileDo {cond o ts} : Shape .whileDo [cond, form .sequence o ts]

variable {f : Form} {offset : Int} {cs : List Tree} {t : Tree}

theorem kind?_eq_form (h : t.kind? = some (.form f)) : ∃ o cs, t = form f o cs := by
  match t, h with
  | node (.form _) o cs, rfl => exact ⟨o, cs, rfl⟩

/-- Leaves have no children. -/
theorem eq_nil_of_leaf {l : Label} (h : Whole (node l offset cs))
    (hl : (node l offset cs).form? = none) : cs = [] := by
  have hleaf := (whole_node_iff.mp h).1
  simp only [checkNode] at hleaf
  cases l with
  | form f => cases hl
  | integer w =>
    split at hleaf
    · cases hleaf
    · simpa using hleaf
  | ident x =>
    split at hleaf
    · cases hleaf
    · simpa using hleaf

theorem Whole.children (h : Whole t) : ∀ c ∈ t.children, Whole c := by
  match t, h with
  | node l o cs, h => exact (whole_node_iff.mp h).2

theorem Whole.tagLeaf (h : Whole t) (hkind : t.kind? = some .ident) : IsTagLeaf t := by
  match t, hkind, h with
  | node (.ident x) o cs, _, h =>
    obtain rfl := eq_nil_of_leaf h rfl
    exact ⟨o, x, rfl⟩

theorem checkArity_eq_none {allowed : List Nat} :
    checkArity allowed cs = none ↔ cs.length ∈ allowed := by
  simp [checkArity]

theorem checkKind_eq_none {kind : Kind} {i : Nat} :
    checkKind kind i cs = none ↔ ∃ t, cs[i]? = some t ∧ t.kind? = some kind := by
  simp [checkKind, Option.bind_eq_some_iff]

theorem tagLeaves_of_checkIdents (hcs : ∀ c ∈ cs, Whole c) (h : checkIdents cs = none) :
    ∀ c ∈ cs, IsTagLeaf c := by
  rw [checkIdents, Option.map_eq_none_iff, List.findIdx?_eq_none_iff] at h
  exact fun c hc => (hcs c hc).tagLeaf (by simpa using h c hc)

theorem tagLeaves_of_form (h : Whole (form f offset cs)) (hf : checkForm f cs = checkIdents cs) :
    ∀ c ∈ cs, IsTagLeaf c := by
  obtain ⟨hcheck, hcs⟩ := whole_form_iff.mp h
  exact tagLeaves_of_checkIdents hcs (hf ▸ hcheck)

theorem orElse_eq_none {α : Type} {x y : Option α} : (x <|> y) = none ↔ x = none ∧ y = none := by
  cases x <;> simp

theorem eq_singleton_of_arity (h : checkArity [1] cs = none) : ∃ t, cs = [t] :=
  List.length_eq_one_iff.mp (by simpa using checkArity_eq_none.mp h)

theorem eq_pair_of_arity (h : checkArity [2] cs = none) : ∃ t u, cs = [t, u] :=
  List.length_eq_two.mp (by simpa using checkArity_eq_none.mp h)

theorem eq_triple_of_arity (h : checkArity [3] cs = none) : ∃ t u v, cs = [t, u, v] :=
  List.length_eq_three.mp (by simpa using checkArity_eq_none.mp h)

theorem eq_nil_or_singleton {α : Type} {xs : List α} (h : xs.length ≤ 1) :
    xs = [] ∨ ∃ x, xs = [x] := by
  rcases xs with _ | ⟨x, _ | ⟨y, ys⟩⟩
  · exact .inl rfl
  · exact .inr ⟨x, rfl⟩
  · simp at h

theorem eq_cons_cons_of_arity (h : checkArity [2, 3] cs = none) :
    ∃ t u vs, cs = t :: u :: vs ∧ vs.length ≤ 1 := by
  have hlength := checkArity_eq_none.mp h
  match cs, hlength with
  | [t, u], _ => exact ⟨t, u, [], rfl, Nat.zero_le 1⟩
  | [t, u, v], _ => exact ⟨t, u, [v], rfl, Nat.le_refl 1⟩

theorem form_of_checkKind {i : Nat} (h : checkKind (.form f) i cs = none) (ht : cs[i]? = some t) :
    ∃ o ts, t = form f o ts := by
  obtain ⟨u, hu, hkind⟩ := checkKind_eq_none.mp h
  obtain rfl : t = u := by simpa using ht.symm.trans hu
  exact kind?_eq_form hkind

theorem tagLeaf_of_checkKind {i : Nat} (hcs : ∀ c ∈ cs, Whole c) (h : checkKind .ident i cs = none)
    (ht : cs[i]? = some t) : IsTagLeaf t := by
  obtain ⟨u, hu, hkind⟩ := checkKind_eq_none.mp h
  obtain rfl : t = u := by simpa using ht.symm.trans hu
  exact (hcs t (List.mem_of_getElem? ht)).tagLeaf hkind

theorem shape_function (hcheck : checkFunction cs = none) (hcs : ∀ c ∈ cs, Whole c) :
    Shape .function cs := by
  simp only [checkFunction, orElse_eq_none] at hcheck
  obtain ⟨hlength, hparams, hbody, hsig⟩ := hcheck
  obtain ⟨params, body, sig, rfl, hsigLength⟩ := eq_cons_cons_of_arity hlength
  obtain ⟨o, xs, rfl⟩ := form_of_checkKind hparams rfl
  obtain ⟨o', ts, rfl⟩ := form_of_checkKind hbody rfl
  simp only [List.forall_mem_cons] at hcs
  refine .function (tagLeaves_of_form hcs.1 rfl) ?_
  obtain rfl | ⟨sig, rfl⟩ := eq_nil_or_singleton hsigLength
  · exact .inl rfl
  · simp only [orElse_eq_none] at hsig
    obtain ⟨o'', tags, rfl⟩ := form_of_checkKind hsig.1 rfl
    have hcount : tags.length = xs.length + 1 := by
      by_contra hne
      simp [hne] at hsig
    exact .inr ⟨o'', tags, rfl, hcount, tagLeaves_of_form (hcs.2.2 _ List.mem_cons_self) rfl⟩

theorem shape_declare (hcheck : checkForm .declare cs = none) (hcs : ∀ c ∈ cs, Whole c) :
    Shape .declare cs := by
  simp only [checkForm, orElse_eq_none] at hcheck
  obtain ⟨hlength, hname, htype⟩ := hcheck
  obtain ⟨x, value, type, rfl, htypeLength⟩ := eq_cons_cons_of_arity hlength
  obtain ⟨o, x, rfl⟩ := tagLeaf_of_checkKind hcs hname rfl
  refine .declare ?_ htypeLength
  obtain rfl | ⟨tag, rfl⟩ := eq_nil_or_singleton htypeLength
  · exact List.forall_mem_nil _
  · simp only [List.length_cons, List.length_nil, if_true] at htype
    exact List.forall_mem_singleton.mpr (tagLeaf_of_checkKind hcs htype rfl)

/-- The children of a valid node are those that its form asks for. -/
theorem Whole.shape (h : Whole (form f offset cs)) : Shape f cs := by
  obtain ⟨hcheck, hcs⟩ := whole_form_iff.mp h
  cases f with
  | invalid => cases hcheck
  | unknown => cases hcheck
  | sequence => exact .sequence
  | arguments => exact .arguments
  | parameters => exact .parameters (tagLeaves_of_form h rfl)
  | signature => exact .signature (tagLeaves_of_form h rfl)
  | binary op =>
    obtain ⟨lhs, rhs, rfl⟩ := eq_pair_of_arity hcheck
    exact .binary
  | not =>
    obtain ⟨t, rfl⟩ := eq_singleton_of_arity hcheck
    exact .not
  | print =>
    obtain ⟨t, rfl⟩ := eq_singleton_of_arity hcheck
    exact .print
  | ret =>
    obtain ⟨t, rfl⟩ := eq_singleton_of_arity hcheck
    exact .ret
  | declare => exact shape_declare hcheck hcs
  | function => exact shape_function hcheck hcs
  | lookup =>
    obtain ⟨hlength, hname⟩ := orElse_eq_none.mp hcheck
    obtain ⟨x, rfl⟩ := eq_singleton_of_arity hlength
    obtain ⟨o, x, rfl⟩ := tagLeaf_of_checkKind hcs hname rfl
    exact .lookup
  | varLoc =>
    obtain ⟨hlength, hname⟩ := orElse_eq_none.mp hcheck
    obtain ⟨x, rfl⟩ := eq_singleton_of_arity hlength
    obtain ⟨o, x, rfl⟩ := tagLeaf_of_checkKind hcs hname rfl
    exact .varLoc
  | call =>
    obtain ⟨hlength, harguments⟩ := orElse_eq_none.mp hcheck
    obtain ⟨callee, arguments, rfl⟩ := eq_pair_of_arity hlength
    obtain ⟨o, args, rfl⟩ := form_of_checkKind harguments rfl
    exact .call
  | assign =>
    obtain ⟨hlength, hplace⟩ := orElse_eq_none.mp hcheck
    obtain ⟨place, value, rfl⟩ := eq_pair_of_arity hlength
    obtain ⟨o, xs, rfl⟩ := form_of_checkKind hplace rfl
    -- the place is a valid node itself
    obtain ⟨hcheck', hxs⟩ := whole_form_iff.mp (hcs _ List.mem_cons_self)
    obtain ⟨hlength', hname⟩ := orElse_eq_none.mp hcheck'
    obtain ⟨x, rfl⟩ := eq_singleton_of_arity hlength'
    obtain ⟨o', x, rfl⟩ := tagLeaf_of_checkKind hxs hname rfl
    exact .assign
  | ifThen =>
    obtain ⟨hlength, hbody⟩ := orElse_eq_none.mp hcheck
    obtain ⟨cond, body, rfl⟩ := eq_pair_of_arity hlength
    obtain ⟨o, ts, rfl⟩ := form_of_checkKind hbody rfl
    exact .ifThen
  | whileDo =>
    obtain ⟨hlength, hbody⟩ := orElse_eq_none.mp hcheck
    obtain ⟨cond, body, rfl⟩ := eq_pair_of_arity hlength
    obtain ⟨o, ts, rfl⟩ := form_of_checkKind hbody rfl
    exact .whileDo
  | ifElse =>
    obtain ⟨hlength, hblocks⟩ := orElse_eq_none.mp hcheck
    obtain ⟨hbody, halternative⟩ := orElse_eq_none.mp hblocks
    obtain ⟨cond, body, alternative, rfl⟩ := eq_triple_of_arity hlength
    obtain ⟨o, ts, rfl⟩ := form_of_checkKind hbody rfl
    obtain ⟨o', us, rfl⟩ := form_of_checkKind halternative rfl
    exact .ifElse

theorem checkIdents_of_tagLeaves (h : ∀ c ∈ cs, IsTagLeaf c) : checkIdents cs = none := by
  rw [checkIdents, Option.map_eq_none_iff, List.findIdx?_eq_none_iff]
  exact fun c hc => by simp [kind_of_leaf (h c hc)]

theorem Shape.checkForm (h : Shape f cs) : checkForm f cs = none := by
  cases h with
  | parameters hxs => exact checkIdents_of_tagLeaves hxs
  | signature htags => exact checkIdents_of_tagLeaves htags
  | function hparams hsig =>
    obtain rfl | ⟨o'', tags, rfl, hlength, -⟩ := hsig
    · rfl
    · simp [ClosureLang.Tree.checkForm, checkFunction, checkArity, checkKind, hlength]
  | @declare _ _ _ type htype hlength =>
    obtain rfl | ⟨tag, rfl⟩ := eq_nil_or_singleton hlength
    · rfl
    · obtain ⟨o, tag, rfl⟩ := htype tag List.mem_cons_self
      rfl
  | _ => rfl

/-- Nodes of these shapes over valid trees are valid. -/
theorem Shape.whole (h : Shape f cs) (hcs : ∀ c ∈ cs, Whole c) : Whole (form f offset cs) :=
  whole_form hcs h.checkForm

end ClosureLang.Tree

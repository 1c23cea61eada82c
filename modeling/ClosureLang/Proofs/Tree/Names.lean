import ClosureLang.Proofs.Tree.Similar
import ClosureLang.Proofs.Tree.Uses

/-! The names in a tree: where each stands, and whether it is declared or used there. -/
namespace ClosureLang

/-- A place where a name stands. -/
structure Mark where
  offset : Int
  name : String
  /-- The name is declared here, and else used. -/
  declares : Bool
deriving DecidableEq

/-- The place of the name at a leaf. -/
def Tree.mark (declares : Bool) (t : Tree) : Mark := ⟨t.offset?.getD 0, t.name?.getD "", declares⟩

/-- The places of the names that a node declares or uses, by its children. -/
def Form.ownMarks (f : Form) (cs : List Tree) : List Mark :=
  match f with
  | .lookup | .varLoc => [(cs.headD .absent).mark false]
  | .declare => [(cs.headD .absent).mark true]
  | .parameters => cs.map (Tree.mark true)
  | _ => []

namespace Tree

open Grammar (IsName)

variable {o : Int} {x : String} {w : Int64} {f : Form} {t : Tree} {ts cs : List Tree}

def ownMarks : Tree → List Mark
  | node (.form f) _ cs => f.ownMarks cs
  | _ => []

/-- The places of all names in a tree, in the order of its nodes. -/
def marks (t : Tree) : List Mark := t.nodes.flatMap ownMarks

theorem marks_node (l : Label) :
    (node l o cs).marks = (node l o cs).ownMarks ++ cs.flatMap marks := by
  rw [marks, nodes_node, List.flatMap_cons, List.flatMap_assoc]
  rfl

theorem marks_children (t : Tree) : (t.children.flatMap marks).Sublist t.marks := by
  cases t with
  | absent => exact List.nil_sublist _
  | node l o cs =>
    rw [marks_node]
    exact List.sublist_append_right _ _

@[simp] theorem marks_ident : (ident o x).marks = [] := marks_node _

@[simp] theorem marks_int : (int o w).marks = [] := marks_node _

@[simp] theorem marks_form (f : Form) : (form f o cs).marks = f.ownMarks cs ++ cs.flatMap marks :=
  marks_node _

/-- A leaf alone is neither declared nor used. -/
theorem marks_of_leaf (h : ∃ o x, t = ident o x) : t.marks = [] := by
  obtain ⟨o, x, rfl⟩ := h
  exact marks_ident

theorem marks_of_leaves (hcs : ∀ t ∈ cs, ∃ o x, t = ident o x) : cs.flatMap marks = [] :=
  List.flatMap_eq_nil_iff.mpr fun t ht => marks_of_leaf (hcs t ht)

/-- The names in a function are those of its parameters and of its body. -/
theorem marks_function {o' : Int} {params sig : List Tree} {body : Tree}
    (hparams : ∀ x ∈ params, IsIdent x) (hsig : IsSignature params.length sig) :
    (form .function o (form .parameters o' params :: body :: sig)).marks =
      params.map (mark true) ++ body.marks := by
  have hleaves : params.flatMap marks = [] := marks_of_leaves fun x hx => (hparams x hx).leaf
  have hnil : sig.flatMap marks = [] := by
    obtain rfl | ⟨o, tags, rfl, -, htags, -⟩ := hsig
    · rfl
    · rw [List.flatMap_singleton, marks_form, marks_of_leaves fun t ht => (htags t ht).leaf]
      rfl
  simp [Form.ownMarks, hleaves, hnil]

theorem ownMarks_of_isUse (h : t.isUse = true) : t.ownMarks = [(t.child 0).mark false] := by
  cases t with
  | absent => cases h
  | node l o cs =>
    cases l with
    | form f =>
      have hchild : (node (.form f) o cs).child 0 = cs.headD absent := by cases cs <;> rfl
      rw [hchild]
      cases f <;> first | rfl | cases h
    | _ => cases h

/-- Every use stands at one of the places. -/
theorem useOffsets_sublist (t : Tree) : t.useOffsets.Sublist (t.marks.map Mark.offset) := by
  rw [useOffsets, marks]
  induction t.nodes with
  | nil => exact List.Sublist.slnil
  | cons u us ih =>
    rw [List.filter_cons, List.flatMap_cons, List.map_append]
    split
    · rename_i huse
      rw [ownMarks_of_isUse huse]
      exact ih.cons_cons u.useOffset
    · exact ih.trans (List.sublist_append_right _ _)

/-! Trees with other names. -/

section Renaming

variable {f : Mark → String} {name : Int → String → String} {place : Int → Int} {role : Role}

/-- A leaf with its new name. -/
def renameLeaf (f : Mark → String) (declares : Bool) : Tree → Tree
  | node (.ident x) o cs => node (.ident (f ⟨o, x, declares⟩)) o cs
  | t => t

/-- The children of a node, with new names where the node declares or uses one. -/
def renameOwn (f : Mark → String) : Form → List Tree → List Tree
  | .lookup, cs | .varLoc, cs => cs.map (renameLeaf f false)
  | .declare, x :: cs => renameLeaf f true x :: cs
  | .parameters, cs => cs.map (renameLeaf f true)
  | _, cs => cs

mutual

/-- The tree with the name `f m` for the name of each of its marks `m`. Nothing else is changed. -/
def rename (f : Mark → String) : Tree → Tree
  | absent => absent
  | node (.form g) o cs => form g o (renameOwn f g (renameAll f cs))
  | node l o cs => node l o (renameAll f cs)

def renameAll (f : Mark → String) : List Tree → List Tree
  | [] => []
  | t :: ts => rename f t :: renameAll f ts

end

theorem renameAll_eq_map (ts : List Tree) : renameAll f ts = ts.map (rename f) := by
  induction ts with
  | nil => rfl
  | cons t ts ih => rw [renameAll, ih, List.map_cons]

theorem rename_form (g : Form) :
    (form g o cs).rename f = form g o (renameOwn f g (cs.map (rename f))) := by
  rw [form, rename, renameAll_eq_map]

theorem strip_form (g : Form) : (form g o cs).strip = form g 0 (cs.map strip) := by
  rw [form, strip, stripAll_eq_map]

/-- Where a name is declared or used, both ways of renaming say the same. -/
theorem strip_renameLeaf (place : Int → Int) {declares : Bool} (ht : IsIdent t)
    (hf : name (t.mark declares).offset (t.mark declares).name = f (t.mark declares)) :
    (renameLeaf f declares (t.rename f)).strip = (t.relabel name place).strip := by
  obtain ⟨o, x, rfl, -⟩ := ht
  rw [relabel_ident, show name o x = f ⟨o, x, declares⟩ from hf]
  rfl

theorem strip_rename_tag (hname : ∀ o x, Grammar.isReserved x = true → name o x = x)
    (ht : IsTag t) : (t.rename f).strip = (t.relabel name place).strip := by
  have hleaf {o : Int} {x : String} (hx : Grammar.isReserved x = true) :
      ((ident o x).rename f).strip = ((ident o x).relabel name place).strip := by
    rw [relabel_ident, hname o x hx]
    rfl
  obtain ⟨o, x, rfl, rfl | rfl⟩ | ⟨o, rfl⟩ := ht
  · exact hleaf (by decide)
  · exact hleaf (by decide)
  · exact hleaf (by decide)

/-- A node that names nothing is renamed part by part. -/
theorem strip_rename_parts (g : Form) (hown : ∀ cs, renameOwn f g cs = cs)
    (h : ∀ t ∈ cs, (t.rename f).strip = (t.relabel name place).strip) :
    ((form g o cs).rename f).strip = ((form g o cs).relabel name place).strip := by
  rw [rename_form, relabel_form, hown, strip_form, strip_form, List.map_map, List.map_map]
  exact congrArg (form g 0) (List.map_congr_left h)

theorem mem_marks_form {m : Mark} (g : Form) (ht : t ∈ cs) (hm : m ∈ t.marks) :
    m ∈ (form g o cs).marks := by
  rw [marks_form, List.mem_append, List.mem_flatMap]
  exact .inr ⟨t, ht, hm⟩

/-- Renaming by marks is renaming by offsets if both agree on the marks and no reserved word is a
name. -/
theorem strip_rename (hname : ∀ o x, Grammar.isReserved x = true → name o x = x)
    (h : InPlace role t) (hf : ∀ m ∈ t.marks, name m.offset m.name = f m) :
    (t.rename f).strip = (t.relabel name place).strip := by
  induction h with
  | int => rfl
  | @lookup o x hx =>
    rw [rename_form, relabel_form, strip_form, strip_form]
    have hleaf := strip_renameLeaf place hx (hf (x.mark false) (by simp [Form.ownMarks]))
    simp [renameOwn, hleaf]
  | binary _ _ ihl ihr =>
    refine strip_rename_parts _ (fun _ => rfl) ?_
    have hl := ihl fun m hm => hf m (mem_marks_form _ (by simp) hm)
    have hr := ihr fun m hm => hf m (mem_marks_form _ (by simp) hm)
    simpa using ⟨hl, hr⟩
  | not _ ih =>
    refine strip_rename_parts _ (fun _ => rfl) ?_
    simpa using ih fun m hm => hf m (mem_marks_form _ (by simp) hm)
  | @call o o' callee args _ _ ihc ihargs =>
    refine strip_rename_parts _ (fun _ => rfl) ?_
    have hc := ihc fun m hm => hf m (mem_marks_form _ (by simp) hm)
    have hargs : ((form .arguments o' args).rename f).strip =
        ((form .arguments o' args).relabel name place).strip :=
      strip_rename_parts _ (fun _ => rfl) fun t ht => ihargs t ht fun m hm =>
        hf m (mem_marks_form _ (t := form .arguments o' args) (by simp) (mem_marks_form _ ht hm))
    exact List.forall_mem_cons.mpr ⟨hc, List.forall_mem_singleton.mpr hargs⟩
  | @function o o' params body sig hparams _ hsig ih =>
    rw [marks_function hparams hsig] at hf
    refine strip_rename_parts _ (fun _ => rfl) ?_
    have hparameters : ((form .parameters o' params).rename f).strip =
        ((form .parameters o' params).relabel name place).strip := by
      rw [rename_form, relabel_form, strip_form, strip_form, renameOwn, List.map_map, List.map_map,
        List.map_map]
      refine congrArg (form .parameters 0) (List.map_congr_left fun x hx => ?_)
      exact strip_renameLeaf place (hparams x hx)
        (hf _ (List.mem_append_left _ (List.mem_map_of_mem hx)))
    have hbody := ih fun m hm => hf m (List.mem_append_right _ hm)
    refine List.forall_mem_cons.mpr ⟨hparameters, List.forall_mem_cons.mpr ⟨hbody, ?_⟩⟩
    obtain rfl | ⟨o'', tags, rfl, -, htags, -⟩ := hsig
    · exact List.forall_mem_nil _
    · refine List.forall_mem_singleton.mpr (strip_rename_parts _ (fun _ => rfl) fun t ht => ?_)
      exact strip_rename_tag hname (htags t ht)
  | block _ ih =>
    exact strip_rename_parts _ (fun _ => rfl) fun t ht => ih t ht fun m hm =>
      hf m (mem_marks_form _ ht hm)
  | @declare o x value type hx _ htype _ ih =>
    have hleaf := strip_renameLeaf place hx (hf (x.mark true) (by simp [Form.ownMarks]))
    have hvalue := ih fun m hm => hf m (mem_marks_form _ (by simp) hm)
    have htypes : type.map (strip ∘ rename f) = type.map (strip ∘ relabel name place) :=
      List.map_congr_left fun t ht => strip_rename_tag hname (.inl (htype t ht))
    rw [rename_form, relabel_form, strip_form, strip_form]
    simp [renameOwn, hleaf, hvalue, htypes]
  | @assign o o' x value hx _ ih =>
    have hplace : ((form .varLoc o' [x]).rename f).strip =
        ((form .varLoc o' [x]).relabel name place).strip := by
      have hmark : x.mark false ∈ (form .varLoc o' [x]).marks := by simp [Form.ownMarks]
      have hleaf := strip_renameLeaf place hx (hf _ (mem_marks_form _ (by simp) hmark))
      rw [rename_form, relabel_form, strip_form, strip_form]
      simp [renameOwn, hleaf]
    refine strip_rename_parts _ (fun _ => rfl) ?_
    have hvalue := ih fun m hm => hf m (mem_marks_form _ (by simp) hm)
    simpa using ⟨hplace, hvalue⟩
  | print _ ih | ret _ ih =>
    refine strip_rename_parts _ (fun _ => rfl) ?_
    simpa using ih fun m hm => hf m (mem_marks_form _ (by simp) hm)
  | ifThen _ _ ihc ihb | whileDo _ _ ihc ihb =>
    refine strip_rename_parts _ (fun _ => rfl) ?_
    have hc := ihc fun m hm => hf m (mem_marks_form _ (by simp) hm)
    have hb := ihb fun m hm => hf m (mem_marks_form _ (by simp) hm)
    simpa using ⟨hc, hb⟩
  | ifElse _ _ _ ihc ihb iha =>
    refine strip_rename_parts _ (fun _ => rfl) ?_
    have hc := ihc fun m hm => hf m (mem_marks_form _ (by simp) hm)
    have hb := ihb fun m hm => hf m (mem_marks_form _ (by simp) hm)
    have ha := iha fun m hm => hf m (mem_marks_form _ (by simp) hm)
    simpa using ⟨hc, hb, ha⟩
  | expression _ ih => exact ih hf

end Renaming

end Tree

end ClosureLang

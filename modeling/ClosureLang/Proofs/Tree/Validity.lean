import ClosureLang.Proofs.Tree.Everywhere
import ClosureLang.Proofs.Tree.Similar
import ClosureLang.Tree.Validate

/-! Programs and their parts are valid trees. -/
namespace ClosureLang.Tree

variable {P : Int64 → Prop} {role : Role} {t : Tree} {l : Label} {f : Form} {o : Int}
  {cs : List Tree}

/-- A tree that is there, and in which no node is misshapen. -/
structure Whole (t : Tree) : Prop where
  present : t.isAbsent = false
  shaped : ∀ u ∈ t.nodes, misshapen? u = none

theorem Whole.validate (h : Whole t) : t.validate = none := List.findSome?_eq_none_iff.mpr h.shaped

theorem whole_node (hcs : ∀ c ∈ cs, Whole c) (hnode : checkNode l cs = none) :
    Whole (node l o cs) := by
  refine ⟨rfl, forall_nodes_node.mpr ⟨?_, fun c hc => (hcs c hc).shaped⟩⟩
  rw [misshapen?, hnode, Option.map_none]

/-- A compound node whose parts are as many and of the kinds that its form asks for. -/
theorem whole_form (hcs : ∀ c ∈ cs, Whole c) (hf : checkForm f cs = none) :
    Whole (form f o cs) := by
  refine whole_node hcs ?_
  have hpresent : firstAbsent cs = none :=
    List.findIdx?_eq_none_iff.mpr fun c hc => (hcs c hc).present
  simp only [checkNode, hpresent, hf]

theorem whole_node_iff :
    Whole (node l o cs) ↔ checkNode l cs = none ∧ ∀ c ∈ cs, Whole c := by
  refine ⟨fun h => ?_, fun h => whole_node h.2 h.1⟩
  obtain ⟨hnode, hbelow⟩ := forall_nodes_node.mp h.shaped
  have hcheck : checkNode l cs = none := Option.map_eq_none_iff.mp hnode
  refine ⟨hcheck, fun c hc => ⟨?_, hbelow c hc⟩⟩
  cases hfirst : firstAbsent cs with
  | some i => simp [checkNode, hfirst] at hcheck
  | none => exact List.findIdx?_eq_none_iff.mp hfirst c hc

theorem whole_of_mem (h : Whole t) {u : Tree} (hu : u ∈ t.nodes) : Whole u :=
  forall_nodes (fun _ _ _ h => (whole_node_iff.mp h).2) t h u hu

theorem whole_form_iff :
    Whole (form f o cs) ↔ checkForm f cs = none ∧ ∀ c ∈ cs, Whole c := by
  refine ⟨fun h => ?_, fun h => whole_form h.2 h.1⟩
  obtain ⟨hcheck, hcs⟩ := whole_node_iff.mp h
  have hpresent : firstAbsent cs = none :=
    List.findIdx?_eq_none_iff.mpr fun c hc => (hcs c hc).present
  simp only [checkNode, hpresent] at hcheck
  exact ⟨hcheck, hcs⟩

theorem whole_leaf {x : Tree} (h : ∃ offset y, x = ident offset y) : Whole x := by
  obtain ⟨offset, y, rfl⟩ := h
  exact whole_node nofun rfl

@[simp] theorem kind?_form : (form f o cs).kind? = some (.form f) := rfl

@[simp] theorem children_form : (form f o cs).children = cs := rfl

theorem kind_of_leaf {x : Tree} (h : ∃ offset y, x = ident offset y) : x.kind? = some .ident := by
  obtain ⟨offset, y, rfl⟩ := h
  rfl

/-- A node whose parts are all names or types. -/
theorem whole_leaves {xs : List Tree} (h : ∀ x ∈ xs, ∃ offset y, x = ident offset y)
    (hf : checkForm f xs = checkIdents xs) : Whole (form f o xs) := by
  refine whole_form (fun x hx => whole_leaf (h x hx)) ?_
  rw [hf, checkIdents, Option.map_eq_none_iff, List.findIdx?_eq_none_iff]
  exact fun x hx => by simp [kind_of_leaf (h x hx)]

theorem kind_of_block (h : WellSorted P .block t) : t.kind? = some (.form .sequence) := by
  cases h
  rfl

theorem checkFunction_eq_none {o : Int} {params sig : List Tree} {body : Tree}
    (hbody : WellSorted P .block body) (hsig : IsSignature params.length sig) :
    checkFunction (form .parameters o params :: body :: sig) = none := by
  obtain rfl | ⟨offset, tags, rfl, htags, -⟩ := hsig
  · simp [checkFunction, checkArity, checkKind, kind_of_block hbody]
  · simp [checkFunction, checkArity, checkKind, kind_of_block hbody, htags]

theorem whole_signature {n : Nat} {sig : List Tree} (h : IsSignature n sig) :
    ∀ s ∈ sig, Whole s := by
  obtain rfl | ⟨offset, tags, rfl, -, htags, -⟩ := h
  · exact nofun
  · simpa using whole_leaves (f := .signature) (fun t ht => (htags t ht).leaf) rfl

theorem checkDeclare_eq_none {x value : Tree} {type : List Tree} (hx : IsIdent x)
    (htype : ∀ t ∈ type, IsType t) (hlen : type.length ≤ 1) :
    checkForm .declare (x :: value :: type) = none := by
  cases type with
  | nil => simp [checkForm, checkArity, checkKind, kind_of_leaf hx.leaf]
  | cons t type =>
    obtain rfl : type = [] := by simpa using hlen
    simp [checkForm, checkArity, checkKind, kind_of_leaf hx.leaf,
      kind_of_leaf (htype t (by simp)).leaf]

/-- Leaves of a valid tree have no children that could be lost. -/
theorem Whole.length_strip (h : Whole t) : t.strip.children.length = t.children.length := by
  cases t with
  | absent => rfl
  | node l o cs =>
    cases l with
    | form f => simp [strip, form, children, stripAll_eq_map]
    | _ =>
      have hcheck := (whole_node_iff.mp h).1
      have hleaf : cs = [] := by
        simp only [checkNode] at hcheck
        split at hcheck
        · contradiction
        · simpa using hcheck
      rw [hleaf]
      rfl

/-- What a form asks of its parts is not about offsets. -/
theorem checkForm_strip (h : ∀ c ∈ cs, Whole c) : checkForm f (cs.map strip) = checkForm f cs := by
  have hkind : ∀ kind i, checkKind kind i (cs.map strip) = checkKind kind i cs := by
    intro kind i
    simp only [checkKind, List.getElem?_map, Option.bind_map, Function.comp_def, kind?_strip]
  have harity : ∀ allowed, checkArity allowed (cs.map strip) = checkArity allowed cs := by
    intro allowed
    simp only [checkArity, List.length_map]
  have hidents : checkIdents (cs.map strip) = checkIdents cs := by
    simp only [checkIdents, List.findIdx?_map, Function.comp_def, kind?_strip]
  have hfunction : checkFunction (cs.map strip) = checkFunction cs := by
    simp only [checkFunction, hkind, harity]
    match cs, h with
    | [], _ | [_], _ | [_, _], _ | _ :: _ :: _ :: _ :: _, _ => rfl
    | [params, body, sig], h =>
      have hparams := (h params (by simp)).length_strip
      have hsig := (h sig (by simp)).length_strip
      simp only [List.map_cons, List.map_nil, hparams, hsig]
  cases f <;> simp only [checkForm, hkind, harity, hidents, hfunction, List.length_map]

/-- Programs and their parts are whole. -/
theorem WellSorted.whole (h : WellSorted P role t) : Whole t := by
  induction h with
  | int => exact whole_node nofun rfl
  | lookup hx =>
    refine whole_form (by simpa using whole_leaf hx.leaf) ?_
    simp [checkForm, checkArity, checkKind, kind_of_leaf hx.leaf]
  | binary _ _ ihl ihr => exact whole_form (by simp [ihl, ihr]) rfl
  | not _ ih => exact whole_form (by simp [ih]) rfl
  | @call _ offset' _ args _ _ ihc ihargs =>
    have harguments : Whole (form .arguments offset' args) := whole_form ihargs rfl
    exact whole_form (by simp [ihc, harguments]) rfl
  | @function _ offset' params _ _ hparams hb hsig ihb =>
    have hparameters : Whole (form .parameters offset' params) :=
      whole_leaves (fun x hx => (hparams x hx).leaf) rfl
    refine whole_form ?_ (checkFunction_eq_none hb hsig)
    simp only [List.forall_mem_cons]
    exact ⟨hparameters, ihb, whole_signature hsig⟩
  | block _ ih => exact whole_form ih rfl
  | declare hx _ htype hlen ihv =>
    refine whole_form ?_ (checkDeclare_eq_none hx htype hlen)
    simp only [List.forall_mem_cons]
    exact ⟨whole_leaf hx.leaf, ihv, fun t ht => whole_leaf (htype t ht).leaf⟩
  | @assign _ offset' x _ hx _ ih =>
    have hloc : Whole (form .varLoc offset' [x]) := by
      refine whole_form (by simpa using whole_leaf hx.leaf) ?_
      simp [checkForm, checkArity, checkKind, kind_of_leaf hx.leaf]
    exact whole_form (by simp [hloc, ih]) rfl
  | print _ ih => exact whole_form (by simp [ih]) rfl
  | ret _ ih => exact whole_form (by simp [ih]) rfl
  | ifThen _ hb ihc ihb =>
    refine whole_form (by simp [ihc, ihb]) ?_
    simp [checkForm, checkArity, checkKind, kind_of_block hb]
  | ifElse _ hb ha ihc ihb iha =>
    refine whole_form (by simp [ihc, ihb, iha]) ?_
    simp [checkForm, checkArity, checkKind, kind_of_block hb, kind_of_block ha]
  | whileDo _ hb ihc ihb =>
    refine whole_form (by simp [ihc, ihb]) ?_
    simp [checkForm, checkArity, checkKind, kind_of_block hb]
  | expression _ ih => exact ih

end ClosureLang.Tree

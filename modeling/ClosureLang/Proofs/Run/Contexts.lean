import ClosureLang.Proofs.Run.Effects
import ClosureLang.Proofs.Tree.WellSorted

/-! The static context of every node of a program: which names the blocks around it have bound where
it stands, and which they bind in the end. -/
namespace ClosureLang

/-- A block around a node. -/
structure Frame where
  /-- The names that are bound where the node stands. -/
  bound : List String
  /-- The names that are bound in the end. -/
  final : List String

/-- The block around a function literal, seen from its body, which may run at any later time. -/
def Frame.finished (f : Frame) : Frame := ⟨f.final, f.final⟩

/-- Where a node stands. -/
structure Context where
  /-- The blocks around it, innermost first. -/
  frames : List Frame
  /-- No function is around it. -/
  outside : Bool

namespace Context

/-- The innermost block has bound some more names. -/
def declare (c : Context) (names : List String) : Context :=
  match c.frames with
  | [] => c
  | f :: fs => { c with frames := ⟨f.bound ++ names, f.final⟩ :: fs }

/-- Inside a further block. -/
def block (c : Context) (t : Tree) : Context := { c with frames := ⟨[], t.declared⟩ :: c.frames }

/-- Where a part of a node stands that is no function. -/
def inner (c : Context) (t : Tree) : Context := if t.isForm .sequence then c.block t else c

/-- In the body of a function, which starts with the parameters bound. -/
def function (c : Context) (params : List String) (body : Tree) : Context :=
  { frames := ⟨params, params ++ body.declared⟩ :: c.frames.map Frame.finished, outside := false }

/-- The names that the innermost block has bound. -/
def bound (c : Context) : List String := (c.frames.head?.map Frame.bound).getD []

/-- The names that the innermost block binds in the end. -/
def final (c : Context) : List String := (c.frames.head?.map Frame.final).getD []

@[simp] theorem final_declare (c : Context) (names : List String) :
    (c.declare names).final = c.final := by
  obtain ⟨frames, outside⟩ := c
  cases frames <;> rfl

@[simp] theorem outside_declare (c : Context) (names : List String) :
    (c.declare names).outside = c.outside := by
  obtain ⟨frames, outside⟩ := c
  cases frames <;> rfl

@[simp] theorem declare_nil (c : Context) : c.declare [] = c := by
  obtain ⟨frames, outside⟩ := c
  cases frames <;> simp [declare]

@[simp] theorem declare_declare (c : Context) (names names' : List String) :
    (c.declare names).declare names' = c.declare (names ++ names') := by
  obtain ⟨frames, outside⟩ := c
  cases frames <;> simp [declare]

theorem bound_declare_subset (c : Context) (names : List String) :
    (c.declare names).bound ⊆ c.bound ++ names := by
  obtain ⟨frames, outside⟩ := c
  cases frames with
  | nil => exact List.nil_subset _
  | cons f fs => exact List.Subset.refl _

/-- The context of a program. -/
def program (t : Tree) : Context := { frames := [⟨[], t.declared⟩], outside := true }

/-- The context as if some function were around it. -/
def inside (c : Context) : Context := { c with outside := false }

theorem declare_inside (c : Context) (names : List String) :
    c.inside.declare names = (c.declare names).inside := by
  obtain ⟨frames, outside⟩ := c
  cases frames <;> rfl

theorem inner_inside (c : Context) : c.inside.inner = fun t => (c.inner t).inside := by
  funext t
  unfold inner
  split <;> rfl

end Context

namespace Tree

mutual

/-- The nodes of a tree with their contexts. -/
def sites (c : Context) : Tree → List (Context × Tree)
  | absent => []
  | node (.form .sequence) o cs => (c, form .sequence o cs) :: sitesInOrder c cs
  | node (.form .function) o cs =>
    (c, form .function o cs) ::
      sitesBelow (c.function (((form .function o cs).paramNames?).getD [])) cs
  | node l o cs => (c, node l o cs) :: sitesBelow c.inner cs

/-- The nodes of statements that follow each other. -/
def sitesInOrder (c : Context) : List Tree → List (Context × Tree)
  | [] => []
  | t :: ts => sites c t ++ sitesInOrder (c.declare t.declared) ts

/-- The nodes of trees that stand each where `inner` says. -/
def sitesBelow (inner : Tree → Context) : List Tree → List (Context × Tree)
  | [] => []
  | t :: ts => sites (inner t) t ++ sitesBelow inner ts

end

variable {P : Context → Tree → Prop} {c : Context} {inner : Tree → Context} {t : Tree}
  {ts cs : List Tree} {l : Label} {o : Int}

/-- `P` holds of every node of a tree in its context. -/
def Sited (P : Context → Tree → Prop) (c : Context) (t : Tree) : Prop := ∀ s ∈ t.sites c, P s.1 s.2

/-- `P` holds of every node of statements that follow each other. -/
def SitedInOrder (P : Context → Tree → Prop) (c : Context) (ts : List Tree) : Prop :=
  ∀ s ∈ sitesInOrder c ts, P s.1 s.2

theorem sitedInOrder_cons :
    SitedInOrder P c (t :: ts) ↔ Sited P c t ∧ SitedInOrder P (c.declare t.declared) ts := by
  simp only [SitedInOrder, sitesInOrder, List.forall_mem_append, Sited]

theorem forall_sitesBelow :
    (∀ s ∈ sitesBelow inner ts, P s.1 s.2) ↔ ∀ t ∈ ts, Sited P (inner t) t := by
  induction ts with
  | nil => simp [sitesBelow]
  | cons t ts ih => simp only [sitesBelow, List.forall_mem_append, List.forall_mem_cons, ih, Sited]

theorem sited_sequence :
    Sited P c (form .sequence o cs) ↔ P c (form .sequence o cs) ∧ SitedInOrder P c cs := by
  simp only [Sited, form, sites, List.forall_mem_cons, SitedInOrder]

theorem sites_function {names : List String}
    (hnames : (form .function o cs).paramNames? = some names) :
    (form .function o cs).sites c =
      (c, form .function o cs) :: sitesBelow (c.function names) cs := by
  simp only [form, sites]
  rw [show paramNames? (node (.form .function) o cs) = some names from hnames, Option.getD_some]

theorem sites_node (hsequence : l ≠ .form .sequence) (hfunction : l ≠ .form .function) :
    (node l o cs).sites c = (c, node l o cs) :: sitesBelow c.inner cs := by
  cases l with
  | form f => cases f <;> first | rfl | contradiction
  | _ => rfl

theorem sited_function {names : List String}
    (hnames : (form .function o cs).paramNames? = some names) :
    Sited P c (form .function o cs) ↔
      P c (form .function o cs) ∧ ∀ t ∈ cs, Sited P (c.function names t) t := by
  rw [Sited, sites_function hnames, List.forall_mem_cons, forall_sitesBelow]

theorem sited_node (hsequence : l ≠ .form .sequence) (hfunction : l ≠ .form .function) :
    Sited P c (node l o cs) ↔ P c (node l o cs) ∧ ∀ t ∈ cs, Sited P (c.inner t) t := by
  rw [Sited, sites_node hsequence hfunction, List.forall_mem_cons, forall_sitesBelow]

mutual

/-- What stands where does not depend on whether a function is around it. -/
theorem sites_inside (c : Context) :
    (t : Tree) → t.sites c.inside = (t.sites c).map fun s => (s.1.inside, s.2)
  | absent => rfl
  | node l o cs => by
    by_cases hsequence : l = .form .sequence
    · subst hsequence
      rw [sites, sites, List.map_cons, sitesInOrder_inside c cs]
    by_cases hfunction : l = .form .function
    · subst hfunction
      rw [sites, sites, List.map_cons, ← sitesBelow_inside _ cs]
      rfl
    rw [sites_node hsequence hfunction, sites_node hsequence hfunction, List.map_cons,
      ← sitesBelow_inside _ cs, Context.inner_inside]

theorem sitesInOrder_inside (c : Context) : (ts : List Tree) →
    sitesInOrder c.inside ts = (sitesInOrder c ts).map fun s => (s.1.inside, s.2)
  | [] => rfl
  | t :: ts => by
    rw [sitesInOrder, sitesInOrder, List.map_append, sites_inside c t, Context.declare_inside,
      sitesInOrder_inside _ ts]

theorem sitesBelow_inside (inner : Tree → Context) : (ts : List Tree) →
    sitesBelow (fun t => (inner t).inside) ts = (sitesBelow inner ts).map fun s => (s.1.inside, s.2)
  | [] => rfl
  | t :: ts => by
    rw [sitesBelow, sitesBelow, List.map_append, sites_inside _ t, sitesBelow_inside inner ts]

end

theorem isForm_of_expression {Q : Int64 → Prop} (h : WellSorted Q .expression t) :
    t.isForm .sequence = false := by
  cases h <;> rfl

theorem declared_of_expression {Q : Int64 → Prop} (h : WellSorted Q .expression t) :
    t.declared = [] := by
  cases h <;> rfl

theorem isForm_of_block {Q : Int64 → Prop} (h : WellSorted Q .block t) :
    t.isForm .sequence = true := by
  cases h
  rfl

namespace Sited

theorem here (h : Sited P c (node l o cs)) : P c (node l o cs) := by
  refine h (c, node l o cs) ?_
  cases l with
  | form f => cases f <;> exact List.mem_cons_self
  | _ => exact List.mem_cons_self

/-- The parts of a node that are no blocks stand where the node does. -/
theorem part {f : Form} (h : Sited P c (form f o cs)) (ht : t ∈ cs) (hsequence : f ≠ .sequence)
    (hfunction : f ≠ .function) (hpart : t.isForm .sequence = false) : Sited P c t := by
  have hbelow := ((sited_node (by simpa using hsequence) (by simpa using hfunction)).mp h).2 t ht
  rwa [Context.inner, hpart, if_neg Bool.false_ne_true] at hbelow

theorem expression {Q : Int64 → Prop} {f : Form} (h : Sited P c (form f o cs)) (ht : t ∈ cs)
    (hsequence : f ≠ .sequence) (hfunction : f ≠ .function) (he : WellSorted Q .expression t) :
    Sited P c t := h.part ht hsequence hfunction (isForm_of_expression he)

theorem block {Q : Int64 → Prop} {f : Form} (h : Sited P c (form f o cs)) (ht : t ∈ cs)
    (hsequence : f ≠ .sequence) (hfunction : f ≠ .function) (hblock : WellSorted Q .block t) :
    Sited P (c.block t) t := by
  have hbelow := ((sited_node (by simpa using hsequence) (by simpa using hfunction)).mp h).2 t ht
  rwa [Context.inner, isForm_of_block hblock, if_pos rfl] at hbelow

theorem body {names : List String} (h : Sited P c (form .function o cs))
    (hnames : (form .function o cs).paramNames? = some names) (ht : t ∈ cs) :
    Sited P (c.function names t) t := ((sited_function hnames).mp h).2 t ht

end Sited

end Tree

end ClosureLang

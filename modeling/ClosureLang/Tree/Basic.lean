import ClosureLang.Tree.Kind

/-! Program trees. A child may be absent, and nothing restricts the shape of a tree:
`Tree.validate` says which shapes are programs. -/
namespace ClosureLang

/-- What stands at a node: the payload of a leaf or the form of a compound node. -/
inductive Label where
  | integer (value : Int64)
  | ident (name : String)
  | form (form : Form)
deriving DecidableEq

def Label.kind : Label → Kind
  | integer _ => .integer
  | ident _ => .ident
  | form f => .form f

inductive Tree where
  | absent
  | node (label : Label) (offset : Int) (children : List Tree)

namespace Tree

instance : Inhabited Tree := ⟨absent⟩

/-- What holds of a node when it holds of its children holds of every tree. -/
@[elab_as_elim]
theorem induction {Q : Tree → Prop} (absent : Q absent)
    (node : ∀ l o cs, (∀ c ∈ cs, Q c) → Q (node l o cs)) (t : Tree) : Q t := by
  refine @Tree.rec Q (fun cs => ∀ c ∈ cs, Q c) absent node ?_ ?_ t
  · intro c hc
    cases hc
  · exact fun c cs hc hcs => List.forall_mem_cons.mpr ⟨hc, hcs⟩

def int (offset : Int) (value : Int64) : Tree := node (.integer value) offset []

def ident (offset : Int) (name : String) : Tree := node (.ident name) offset []

/-- A compound node. -/
def form (f : Form) (offset : Int) (children : List Tree) : Tree := node (.form f) offset children

def binary (op : BinaryOp) (offset : Int) (lhs rhs : Tree) : Tree :=
  form (.binary op) offset [lhs, rhs]

def children : Tree → List Tree
  | absent => []
  | node _ _ cs => cs

/-- The child at an index, absent if there is none. -/
def child (t : Tree) (i : Nat) : Tree := (t.children[i]?).getD absent

def kind? : Tree → Option Kind
  | absent => none
  | node label _ _ => some label.kind

def form? : Tree → Option Form
  | node (.form f) _ _ => some f
  | _ => none

def isForm (f : Form) (t : Tree) : Bool := t.form? = some f

/-- The value of an integer leaf. -/
def value? : Tree → Option Int64
  | node (.integer value) _ _ => some value
  | _ => none

/-- The name at a present node, empty unless the node is an identifier. -/
def name? : Tree → Option String
  | absent => none
  | node (.ident name) _ _ => some name
  | node _ _ _ => some ""

def offset? : Tree → Option Int
  | absent => none
  | node _ offset _ => some offset

def isAbsent : Tree → Bool
  | absent => true
  | node _ _ _ => false

/-- The tag that stands for an unannotated position of a signature. -/
def genericType : String := "var"

/-- The parameter names of a function node, unless one of the nodes involved is absent. -/
def paramNames? (fn : Tree) : Option (List String) :=
  match fn.child 0 with
  | absent => none
  | params => params.children.mapM name?

/-- The type tags of a signature node, none for an absent signature. -/
def typeTags? (sig : Tree) : Option (List String) := sig.children.mapM name?

end Tree

end ClosureLang

import ClosureLang.Tree.Basic

/-! Traversals: the nodes of a tree in preorder, and rebuilding a tree from its leaves up. -/
namespace ClosureLang.Tree

/-- A node as it is met in a traversal. -/
structure Visit where
  node : Tree
  /-- The node above, absent for the root. -/
  parent : Tree
  /-- The position among the children of the node above. -/
  index : Nat
  depth : Nat

mutual

def visitsFrom (descend : Tree → Bool) (parent : Tree) (index depth : Nat) : Tree → List Visit
  | absent => []
  | node label offset cs =>
    ⟨node label offset cs, parent, index, depth⟩ ::
      if descend (node label offset cs) then
        visitsOfChildren descend (node label offset cs) 0 (depth + 1) cs
      else []

def visitsOfChildren (descend : Tree → Bool) (parent : Tree) (index depth : Nat) :
    List Tree → List Visit
  | [] => []
  | c :: cs =>
    visitsFrom descend parent index depth c ++ visitsOfChildren descend parent (index + 1) depth cs

end

/-- The present nodes in preorder; the children of a node that `descend` refuses are left out. -/
def visitsWhere (descend : Tree → Bool) (t : Tree) : List Visit := visitsFrom descend absent 0 0 t

def visits (t : Tree) : List Visit := t.visitsWhere fun _ => true

/-- The present nodes in preorder. -/
def nodes (t : Tree) : List Tree := t.visits.map Visit.node

/-- The offsets of the present nodes in preorder. -/
def offsets (t : Tree) : List Int := t.nodes.filterMap offset?

mutual

/-- Rebuilds the tree bottom-up: `f` receives each node with its children already rebuilt. -/
def rebuild (f : Tree → Tree) : Tree → Tree
  | absent => absent
  | node label offset cs => f (node label offset (rebuildAll f cs))

def rebuildAll (f : Tree → Tree) : List Tree → List Tree
  | [] => []
  | c :: cs => rebuild f c :: rebuildAll f cs

end

/-- Renames identifiers and shifts integers; leaves lose their children. -/
def renameAndShift (source target : String) (shift : Int64) : Tree → Tree :=
  rebuild fun
    | node (.ident name) offset cs =>
      if name = source then ident offset target else node (.ident name) offset cs
    | node (.integer value) offset _ => int offset (value + shift)
    | t => t

end ClosureLang.Tree

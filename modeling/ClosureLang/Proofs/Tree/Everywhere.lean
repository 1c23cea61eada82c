import ClosureLang.Tree.Walk
import ClosureLang.Proofs.Tree.WellSorted

/-! What holds at every node of a tree, and what it says about the children. -/
namespace ClosureLang.Tree

variable {Q : Tree → Tree → Prop} {p p' : Tree} {l : Label} {o : Int} {cs : List Tree}

/-- `Q` holds of every node of a tree below `p` and of the node above it. -/
def Everywhere (Q : Tree → Tree → Prop) (p t : Tree) : Prop :=
  ∀ v ∈ visitsFrom (fun _ => true) p 0 0 t, Q v.node v.parent

mutual

theorem forall_visitsFrom (p : Tree) (i d : Nat) : (t : Tree) →
    ((∀ v ∈ visitsFrom (fun _ => true) p i d t, Q v.node v.parent) ↔ Everywhere Q p t)
  | absent => by simp [visitsFrom, Everywhere]
  | node l o cs => by
    simp only [Everywhere, visitsFrom, List.forall_mem_cons, if_true]
    rw [forall_visitsOfChildren _ _ _ cs, forall_visitsOfChildren _ _ _ cs]

theorem forall_visitsOfChildren (p : Tree) (i d : Nat) : (cs : List Tree) →
    ((∀ v ∈ visitsOfChildren (fun _ => true) p i d cs, Q v.node v.parent) ↔
      ∀ c ∈ cs, Everywhere Q p c)
  | [] => by simp [visitsOfChildren]
  | c :: cs => by
    simp only [visitsOfChildren, List.forall_mem_append, List.forall_mem_cons]
    rw [forall_visitsFrom p i d c, forall_visitsOfChildren p (i + 1) d cs]

end

theorem everywhere_node :
    Everywhere Q p (node l o cs) ↔
      Q (node l o cs) p ∧ ∀ c ∈ cs, Everywhere Q (node l o cs) c := by
  simp only [Everywhere, visitsFrom, List.forall_mem_cons, if_true]
  rw [forall_visitsOfChildren]
  rfl

theorem forall_visits {t : Tree} : (∀ v ∈ t.visits, Q v.node v.parent) ↔ Everywhere Q absent t :=
  Iff.rfl

theorem everywhere_absent : Everywhere Q p absent := by simp [Everywhere, visitsFrom]

/-- The node above matters to the root alone. -/
theorem everywhere_congr {t : Tree} (h : Q t p → Q t p') (ht : Everywhere Q p t) :
    Everywhere Q p' t := by
  cases t with
  | absent => exact everywhere_absent
  | node l o cs =>
    rw [everywhere_node] at ht ⊢
    exact ⟨h ht.1, ht.2⟩

theorem forall_nodes_node {p : Tree → Prop} :
    (∀ u ∈ (node l o cs).nodes, p u) ↔ p (node l o cs) ∧ ∀ c ∈ cs, ∀ u ∈ c.nodes, p u := by
  have hnodes : ∀ t q, (∀ u ∈ t.nodes, p u) ↔ Everywhere (fun u _ => p u) q t := by
    intro t q
    have hvisits : (∀ u ∈ t.nodes, p u) ↔ Everywhere (fun u _ => p u) absent t := by
      simp only [nodes, List.forall_mem_map]
      rfl
    exact hvisits.trans ⟨everywhere_congr id, everywhere_congr id⟩
  rw [hnodes _ absent, everywhere_node]
  simp only [hnodes _ (node l o cs)]

/-- What holds of a node and of the parts of every node of which it does holds everywhere below. -/
theorem forall_nodes {p : Tree → Prop} (hp : ∀ l o cs, p (node l o cs) → ∀ c ∈ cs, p c) :
    (t : Tree) → p t → ∀ u ∈ t.nodes, p u
  | absent, _ => nofun
  | node l o cs, h => forall_nodes_node.mpr ⟨h, fun c hc => forall_nodes hp c (hp l o cs h c hc)⟩

/-- What holds everywhere in a tree holds everywhere in the trees of its nodes. -/
theorem everywhere_of_mem_nodes {p : Tree} : (t : Tree) → Everywhere Q p t →
    ∀ u ∈ t.nodes, ∃ q, Everywhere Q q u
  | absent, _ => by simp [nodes, visits, visitsWhere, visitsFrom]
  | node l o cs, h => forall_nodes_node.mpr
      ⟨⟨p, h⟩, fun c hc => everywhere_of_mem_nodes c ((everywhere_node.mp h).2 c hc)⟩

/-- A tree in which nothing is called and no function is made. -/
def Inert (t : Tree) : Prop := ∀ u ∈ t.nodes, u.form? ≠ some .call ∧ u.form? ≠ some .function

theorem inert_node :
    Inert (node l o cs) ↔
      ((node l o cs).form? ≠ some .call ∧ (node l o cs).form? ≠ some .function) ∧
        ∀ c ∈ cs, Inert c := forall_nodes_node

theorem inert_int (o : Int) (w : Int64) : Inert (int o w) := by simp [int, inert_node, form?]

theorem inert_ident (o : Int) (x : String) : Inert (ident o x) := by simp [ident, inert_node, form?]

/-- Induction on expressions. -/
@[elab_as_elim]
theorem WellSorted.expression_induction {P : Int64 → Prop}
    {motive : (t : Tree) → WellSorted P .expression t → Prop}
    (int : ∀ o w h, motive (Tree.int o w) (.int h))
    (lookup : ∀ o x hx, motive (Tree.form .lookup o [x]) (.lookup hx))
    (binary : ∀ op o lhs rhs hl hr, motive lhs hl → motive rhs hr →
      motive (Tree.binary op o lhs rhs) (.binary hl hr))
    (not : ∀ o t ht, motive t ht → motive (Tree.form .not o [t]) (.not ht))
    (call : ∀ o o' callee args hc hargs, motive callee hc → (∀ t ht, motive t (hargs t ht)) →
      motive (Tree.form .call o [callee, Tree.form .arguments o' args]) (.call hc hargs))
    (function : ∀ o o' params body sig hparams hbody hsig,
      motive (Tree.form .function o (Tree.form .parameters o' params :: body :: sig))
        (.function hparams hbody hsig))
    {t : Tree} (h : WellSorted P .expression t) : motive t h := by
  have hall : ∀ {role t} (h : WellSorted P role t) (hrole : role = .expression),
      motive t (hrole ▸ h) := by
    intro role t h
    induction h with
    | int hw => exact fun _ => int _ _ hw
    | lookup hx => exact fun _ => lookup _ _ hx
    | binary hl hr ihl ihr => exact fun _ => binary _ _ _ _ hl hr (ihl rfl) (ihr rfl)
    | not ht ih => exact fun _ => not _ _ ht (ih rfl)
    | call hc hargs ihc ihargs =>
      exact fun _ => call _ _ _ _ hc hargs (ihc rfl) fun t ht => ihargs t ht rfl
    | function hparams hbody hsig => exact fun _ => function _ _ _ _ _ hparams hbody hsig
    | _ => exact fun hrole => nomatch hrole
  exact hall h rfl

end ClosureLang.Tree

import Mathlib.Data.List.Nodup
import ClosureLang.Lint.Checks
import ClosureLang.Proofs.Run.Contexts
import ClosureLang.Tree.Walk

/-! The nodes of a tree that use a name, and where they stand. -/
namespace ClosureLang.Tree

variable {c : Context} {inner : Tree → Context} {t u : Tree} {ts cs : List Tree}
  {l : Label} {o : Int}

/-- A variable is read or assigned. -/
def isUse (t : Tree) : Bool := t.isForm .lookup || t.isForm .varLoc

/-- A node uses a name. -/
def UsesName (t : Tree) (x : String) : Prop := t.isUse = true ∧ (t.child 0).name? = some x

/-- Where the name stands that a node uses. -/
def useOffset (t : Tree) : Int := (t.child 0).offset?.getD 0

/-- The offsets of the uses of a tree, in the order of its nodes. -/
def useOffsets (t : Tree) : List Int := (t.nodes.filter isUse).map useOffset

/-- Where no entry is held twice, one alone holds a given entry. -/
theorem filter_of_nodup {α β : Type} {own : β → List α} {bs : List β} (h : (bs.flatMap own).Nodup)
    {a : α} {b : β} (hb : b ∈ bs) (ha : a ∈ own b) {p : β → Bool}
    (hp : ∀ c ∈ bs, p c = true → a ∈ own c) (hpb : p b = true) :
    bs.filter p = [b] := by
  induction bs with
  | nil => cases hb
  | cons c bs ih =>
    rw [List.flatMap_cons, List.nodup_append] at h
    obtain ⟨-, hrest, hdisjoint⟩ := h
    rw [List.forall_mem_cons] at hp
    have hbehind (hc : a ∈ own c) : bs.filter p = [] := by
      refine List.filter_eq_nil_iff.mpr fun d hd hpd => ?_
      exact hdisjoint a hc a (List.mem_flatMap.mpr ⟨d, hd, hp.2 d hd hpd⟩) rfl
    rcases List.mem_cons.mp hb with rfl | hb
    · rw [List.filter_cons_of_pos hpb, hbehind ha]
    · have hc : p c = false := by
        by_contra hpc
        have hnone := hbehind (hp.1 (by simpa using hpc))
        exact (List.filter_eq_nil_iff.mp hnone) b hb hpb
      rw [List.filter_cons_of_neg (by simp [hc]), ih hrest hb hp.2]

theorem filter_of_nodup_map {α β : Type} [DecidableEq α] {f : β → α} {bs : List β}
    (h : (bs.map f).Nodup) {b : β} (hb : b ∈ bs) :
    bs.filter (fun c => decide (f c = f b)) = [b] := by
  rw [List.map_eq_flatMap] at h
  refine filter_of_nodup h hb (List.mem_singleton.mpr rfl) (fun c _ hc => ?_) (decide_eq_true rfl)
  exact List.mem_singleton.mpr (of_decide_eq_true hc).symm

/-! The nodes of a tree are its root and those of its children. -/

mutual

theorem map_node_visitsFrom (p : Tree) (i d : Nat) : (t : Tree) →
    (visitsFrom (fun _ => true) p i d t).map Visit.node = t.nodes
  | absent => rfl
  | node l o cs => by
    simp only [nodes, visits, visitsWhere, visitsFrom, if_true, List.map_cons]
    rw [map_node_visitsOfChildren _ _ _ cs, map_node_visitsOfChildren _ _ _ cs]

theorem map_node_visitsOfChildren (p : Tree) (i d : Nat) : (cs : List Tree) →
    (visitsOfChildren (fun _ => true) p i d cs).map Visit.node = cs.flatMap nodes
  | [] => rfl
  | c :: cs => by
    rw [visitsOfChildren, List.map_append, map_node_visitsFrom p i d c,
      map_node_visitsOfChildren p (i + 1) d cs, List.flatMap_cons]

end

theorem nodes_node : (node l o cs).nodes = node l o cs :: cs.flatMap nodes := by
  rw [← map_node_visitsFrom absent 0 0, visitsFrom, if_pos rfl, List.map_cons,
    map_node_visitsOfChildren]

theorem isUse_form {f : Form} (hlookup : f ≠ .lookup) (hvarLoc : f ≠ .varLoc) :
    (form f o cs).isUse = false := by
  simp [isUse, isForm, form?, form, hlookup, hvarLoc]

theorem isUse_of_leaf (ht : ∃ o x, t = ident o x) (hu : u ∈ t.nodes) : u.isUse = false := by
  obtain ⟨o, x, rfl⟩ := ht
  rw [ident, nodes_node] at hu
  obtain rfl : u = _ := by simpa using hu
  rfl

/-- There is no use in a list of identifiers. -/
theorem isUse_of_leaves {f : Form} (hlookup : f ≠ .lookup) (hvarLoc : f ≠ .varLoc)
    (hcs : ∀ t ∈ cs, ∃ o x, t = ident o x) (hu : u ∈ (form f o cs).nodes) : u.isUse = false := by
  rw [form, nodes_node, List.mem_cons, List.mem_flatMap] at hu
  obtain rfl | ⟨t, ht, hu⟩ := hu
  · exact isUse_form hlookup hvarLoc
  · exact isUse_of_leaf (hcs t ht) hu

/-! The sites of a tree are its nodes. -/

mutual

theorem map_snd_sites (c : Context) : (t : Tree) → (t.sites c).map Prod.snd = t.nodes
  | absent => rfl
  | node l o cs => by
    rw [nodes_node]
    by_cases hsequence : l = .form .sequence
    · subst hsequence
      rw [sites, List.map_cons, map_snd_sitesInOrder c cs]
      rfl
    by_cases hfunction : l = .form .function
    · subst hfunction
      rw [sites, List.map_cons, map_snd_sitesBelow _ cs]
      rfl
    rw [sites_node hsequence hfunction, List.map_cons, map_snd_sitesBelow _ cs]

theorem map_snd_sitesInOrder (c : Context) : (ts : List Tree) →
    (sitesInOrder c ts).map Prod.snd = ts.flatMap nodes
  | [] => rfl
  | t :: ts => by
    rw [sitesInOrder, List.map_append, map_snd_sites c t, map_snd_sitesInOrder _ ts,
      List.flatMap_cons]

theorem map_snd_sitesBelow (inner : Tree → Context) : (ts : List Tree) →
    (sitesBelow inner ts).map Prod.snd = ts.flatMap nodes
  | [] => rfl
  | t :: ts => by
    rw [sitesBelow, List.map_append, map_snd_sites _ t, map_snd_sitesBelow inner ts,
      List.flatMap_cons]

end

theorem mem_sites_self : (c, node l o cs) ∈ (node l o cs).sites c := by
  by_cases hsequence : l = .form .sequence
  · subst hsequence
    exact List.mem_cons_self
  by_cases hfunction : l = .form .function
  · subst hfunction
    exact List.mem_cons_self
  rw [sites_node hsequence hfunction]
  exact List.mem_cons_self

/-- Uses with different offsets are different sites. -/
theorem eq_of_offset_eq {s s' : Context × Tree} (h : t.useOffsets.Nodup) (hs : s ∈ t.sites c)
    (hs' : s' ∈ t.sites c) (huse : s.2.isUse = true) (huse' : s'.2.isUse = true)
    (hoffset : s.2.useOffset = s'.2.useOffset) : s = s' := by
  have hmap :
      ((t.sites c).filter fun s => s.2.isUse).map (fun s => s.2.useOffset) = t.useOffsets := by
    rw [useOffsets, ← map_snd_sites c t, List.filter_map, List.map_map]
    rfl
  rw [← hmap] at h
  exact List.inj_on_of_nodup_map h (List.mem_filter.mpr ⟨hs, huse⟩)
    (List.mem_filter.mpr ⟨hs', huse'⟩) hoffset

/-! A node that a traversal meets without entering functions stands outside of functions, if the
tree does. -/

mutual

theorem outside_of_visitsFrom (c : Context) (p : Tree) (i d : Nat) : (t : Tree) →
    ∀ v ∈ visitsFrom (!·.isForm .function) p i d t, ∃ c', (c', v.node) ∈ t.sites c ∧
      c'.outside = c.outside
  | absent => fun _ hv => nomatch hv
  | node l o cs => by
    intro v hv
    rw [visitsFrom, List.mem_cons] at hv
    rcases hv with rfl | hv
    · exact ⟨c, mem_sites_self, rfl⟩
    split at hv
    · rename_i hdescend
      by_cases hsequence : l = .form .sequence
      · subst hsequence
        obtain ⟨c', hmem, hc'⟩ := outside_of_visitsInOrder c _ _ _ cs v hv
        exact ⟨c', List.mem_cons_of_mem _ hmem, hc'⟩
      have hfunction : l ≠ .form .function := by
        rintro rfl
        cases hdescend
      have hinner : ∀ t, (c.inner t).outside = c.outside := by
        intro t
        unfold Context.inner
        split <;> rfl
      obtain ⟨c', hmem, hc'⟩ := outside_of_visitsBelow c.inner _ hinner _ _ _ cs v hv
      rw [sites_node hsequence hfunction]
      exact ⟨c', List.mem_cons_of_mem _ hmem, hc'⟩
    · cases hv

theorem outside_of_visitsInOrder (c : Context) (p : Tree) (i d : Nat) : (ts : List Tree) →
    ∀ v ∈ visitsOfChildren (!·.isForm .function) p i d ts,
      ∃ c', (c', v.node) ∈ sitesInOrder c ts ∧ c'.outside = c.outside
  | [] => fun _ hv => nomatch hv
  | t :: ts => by
    intro v hv
    rw [visitsOfChildren, List.mem_append] at hv
    rw [sitesInOrder]
    rcases hv with hv | hv
    · obtain ⟨c', hmem, hc'⟩ := outside_of_visitsFrom c p i d t v hv
      exact ⟨c', List.mem_append_left _ hmem, hc'⟩
    · obtain ⟨c', hmem, hc'⟩ := outside_of_visitsInOrder (c.declare t.declared) p (i + 1) d ts v hv
      exact ⟨c', List.mem_append_right _ hmem, by rw [hc', Context.outside_declare]⟩

theorem outside_of_visitsBelow (inner : Tree → Context) (outside : Bool)
    (hinner : ∀ t, (inner t).outside = outside) (p : Tree) (i d : Nat) : (ts : List Tree) →
    ∀ v ∈ visitsOfChildren (!·.isForm .function) p i d ts,
      ∃ c', (c', v.node) ∈ sitesBelow inner ts ∧ c'.outside = outside
  | [] => fun _ hv => nomatch hv
  | t :: ts => by
    intro v hv
    rw [visitsOfChildren, List.mem_append] at hv
    rw [sitesBelow]
    rcases hv with hv | hv
    · obtain ⟨c', hmem, hc'⟩ := outside_of_visitsFrom (inner t) p i d t v hv
      exact ⟨c', List.mem_append_left _ hmem, by rw [hc', hinner]⟩
    · obtain ⟨c', hmem, hc'⟩ := outside_of_visitsBelow inner outside hinner p (i + 1) d ts v hv
      exact ⟨c', List.mem_append_right _ hmem, hc'⟩

end

theorem outside_of_mem (hu : u ∈ Lint.outsideFunctions t) :
    ∃ c', (c', u) ∈ t.sites c ∧ c'.outside = c.outside := by
  obtain ⟨v, hv, rfl⟩ := List.mem_map.mp hu
  exact outside_of_visitsFrom c absent 0 0 t v hv

end ClosureLang.Tree

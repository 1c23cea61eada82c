import ClosureLang.Proofs.Editor.Totality
import ClosureLang.Proofs.Layout.Faults
import ClosureLang.Proofs.Lint.Checks
import ClosureLang.Proofs.Run.Presence

/-! Nothing that walks over a tree misses a node in a valid one. -/
namespace ClosureLang

open ClosureLang.Action ClosureLang.Tree

theorem Tree.whole_iff {t : Tree} : Whole t ↔ t.isAbsent = false ∧ t.validate = none :=
  ⟨fun h => ⟨h.present, h.validate⟩, fun h => ⟨h.1, List.findSome?_eq_none_iff.mp h.2⟩⟩

theorem Canonical.treeOf_present {d : Datum} {t : Tree} (h : treeOf d = .ok t) :
    t.isAbsent = false := by
  cases d with
  | integer text offset =>
    simp only [treeOf] at h
    split at h <;> cases h
    rfl
  | symbol text offset =>
    simp only [treeOf] at h
    cases h
    rfl
  | compound tag offset items =>
    simp only [treeOf] at h
    split at h
    · cases h
    · split at h <;> cases h
      rfl

/-- What is read from canonical text is valid, wherever statements and expressions stand in it. -/
theorem Canonical.whole_of_parse {text : String} {t : Tree} (h : Canonical.parse text = .ok t) :
    Whole t := by
  unfold Canonical.parse at h
  split at h
  · cases h
  · cases h
  · split at h
    · cases h
    · rename_i u htree
      split at h
      · cases h
      · rename_i hvalid
        cases h
        exact whole_iff.mpr ⟨treeOf_present htree, hvalid⟩

/-- A tree that is there and passes validation lacks no node that anything needs: it can be folded,
to a tree that is valid again; run, executed or evaluated, folded or not, with any options and on a
machine on which nothing but valid trees ran, it does not stop for want of a node; its layout fails
at a node of the tree, if it fails; all checks answer; and it has an index. What is read from
canonical text is such a tree. -/
theorem validation_suffices (t : Tree) (hpresent : t.isAbsent = false)
    (hvalid : t.validate = none) :
    (∃ t', Fold.fold t = some t' ∧ t'.isAbsent = false ∧ t'.validate = none ∧
      ∀ requests : List Request,
        (∀ r ∈ requests, r.tree.isAbsent = false ∧ r.tree.validate = none) →
        let m := Request.serveAll requests {}
        ∀ u ∈ [t, t'], ∀ options fuel,
          (runWith fuel options u m).1.stop ≠ some .absentNode ∧
          (exec options fuel u).stop? m ≠ some .absentNode ∧
          (eval options fuel u).stop? m ≠ some .absentNode) ∧
    (∀ style src e, Layout.render style src t = .error e → ∃ u ∈ t.nodes, e = .unprintable u) ∧
    (∀ file source, (Lint.lintTree Lint.checks ⟨file, source, t⟩).isSome) ∧
    (∀ src, (Editor.Index.build? t src).isSome) ∧
    ∀ text u, Canonical.parse text = .ok u → u.isAbsent = false ∧ u.validate = none := by
  have ht : Whole t := whole_iff.mpr ⟨hpresent, hvalid⟩
  obtain ⟨t', hfold, ht'⟩ := Fold.exists_whole_fold ht
  refine ⟨⟨t', hfold, ht'.present, ht'.validate, fun requests hrequests => ?_⟩, ?_, ?_, ?_, ?_⟩
  · intro m u hu options fuel
    have hm : m.Sound Whole :=
      Request.sound_serveAll requests (fun r hr => whole_iff.mpr (hrequests r hr))
      ⟨Store.sound_initial _, trivial⟩
    have hwhole : Whole u := by
      rcases List.mem_pair.mp hu with rfl | rfl
      · exact ht
      · exact ht'
    refine ⟨(supplied_runWith fuel options hwhole hm.store).2, fun hs => ?_, fun hs => ?_⟩
    · exact ((supplied options fuel).2.1 hwhole m hm).allowed_stop hs rfl
    · exact ((supplied options fuel).1 hwhole m hm).allowed_stop hs rfl
  · exact fun style src => Layout.blames_render ht
  · exact fun file source => Lint.lintTree_of_whole ht
  · exact fun src => Editor.build?_isSome src ht
  · exact fun text u hu => whole_iff.mp (Canonical.whole_of_parse hu)

/-- A return in the place of an expression. -/
theorem validation_suffices_misplaced :
    let t := form .sequence 0 [form .print 0 [form .ret 0 [int 0 1]]]
    t.isAbsent = false ∧ t.validate = none ∧ (Editor.Index.build? t "").isSome ∧
      ∃ e, Layout.render {} "" t = .error e ∧ ∃ u ∈ t.nodes, e = .unprintable u := by
  intro t
  have h := validation_suffices t rfl rfl
  exact ⟨rfl, rfl, h.2.2.2.1 "", _, rfl, h.2.1 {} "" _ rfl⟩

end ClosureLang

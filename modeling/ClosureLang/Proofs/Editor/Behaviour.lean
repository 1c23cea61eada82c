import ClosureLang.Proofs.Editor.Renaming
import ClosureLang.Proofs.Lint.Scopes
import ClosureLang.Proofs.Run.Unison

/-! What programs do when a symbol of their index is renamed: the same, as long as the index is
right about the old name. -/
namespace ClosureLang

namespace Respelling

open ClosureLang.Tree

/-- The nodes of a program are tame if they keep to the rules. -/
theorem tame_of_rules {ρ : Respelling}
    (hrules : Sited (fun c u => KeepsRules c.inside u) (.program ρ.program) ρ.program) :
    Sited ρ.Tame (.program ρ.program) ρ.program := by
  intro s hs
  obtain ⟨c, u⟩ := s
  have hu : u ∈ ρ.program.nodes := by
    rw [← map_snd_sites (.program ρ.program) ρ.program]
    exact List.mem_map_of_mem hs
  have hkeeps := hrules _ hs
  exact ⟨fun m hm => List.mem_flatMap.mpr ⟨u, hu, hm⟩, hkeeps.parameters, hkeeps.declarations⟩

end Respelling

namespace Editor

open ClosureLang.Tree
open Grammar (IsName NameAt ReadAsName)

variable {content : String} {t : Tree} {ix : Index} {id : SymbolId} {s : Symbol}

/-- In a run, every use of a name that finds a variable finds the one whose declaration is the
symbol that the index says the use means. -/
def Index.RightAbout (ix : Index) (options : Options) (fuel : Nat) (t : Tree) (x : String) : Prop :=
  ∀ τ u m e d, Task.Reaches options (.exec fuel t (Machine.ready {})) τ → τ.Uses u m →
    u.UsesName x →
    m.store.locate m.scope x = some e → ⟨d, x, true⟩ ∈ t.marks →
    Task.DeclaredBy options (.exec fuel t (Machine.ready {})) e x d →
    ∃ r ∈ ix.references, r.offset = u.useOffset ∧ ∃ s, ix.symbol? r.symbol = some s ∧ s.offset = d

/-- The renaming of a symbol as a respelling. -/
def Index.respelling (ix : Index) (id : SymbolId) (s : Symbol) (new : String)
    (hs : Grammar.isReserved s.name = false) (hfresh : ∀ m ∈ t.marks, m.name ≠ new)
    (place : Int → Int) : Respelling where
  program := t
  old := s.name
  new := new
  name := Grammar.respell (ix.places id s) s.name new
  place := place
  unreserved := hs
  fresh := hfresh
  name_eq o x := by
    rw [Grammar.respell]
    split
    · rename_i h
      exact .inr ⟨h.2, rfl⟩
    · exact .inl rfl

/-- The index is right about a name that the program declares at one place only. -/
theorem rightAbout_of_sole (hparse : Grammar.parseProgram content = .ok t)
    (hbuild : Index.build? t content = some ix) {x : String} {o : Int}
    (hsole : ∀ m ∈ t.marks, m.declares = true → m.name = x → m.offset = o) (options : Options)
    (fuel : Nat) : ix.RightAbout options fuel t x := by
  intro τ u m e d hreaches huses hname hlocate hmark _
  have hplace : InPlace .block t := (sorted_of_parse hparse).inPlace
  have hsited : Sited (fun c u => (c, u) ∈ t.sites (.program t)) (.program t) t := fun _ hs => hs
  obtain ⟨ix', hbuild', hcorrect, hnotes⟩ := Index.build?_notes hplace hsited content
  rw [hbuild] at hbuild'
  cases hbuild'
  obtain ⟨φ, hplaced⟩ := Task.placed_program hplace hsited fuel
  obtain ⟨φ', hplaced'⟩ := Task.placed_of_reaches hplaced hreaches
  obtain ⟨c, hat, hsite⟩ := huses.placed hplaced'
  have hmem : u ∈ t.nodes := by
    rw [← map_snd_sites (.program t) t]
    exact List.mem_map_of_mem hsite
  obtain hu | ⟨r, hr, hoffset⟩ := hnotes u hmem hname.1
  · obtain ⟨c', y, hsite', hy, hfree⟩ := hcorrect.unresolved u hu
    obtain ⟨rfl, -⟩ :=
      Prod.mk.inj
        (eq_of_offset_eq (Grammar.nodup_useOffsets hparse) hsite hsite' hname.1 hname.1 rfl)
    cases hname.2.symm.trans hy.2
    rw [hat.locate_eq_none hfree] at hlocate
    cases hlocate
  · obtain ⟨s, hs, hused⟩ := mark_of_reference hparse hbuild hr
    have hown : (u.child 0).mark false ∈ t.marks :=
      List.mem_flatMap.mpr
        ⟨u, hmem, by rw [ownMarks_of_isUse hname.1]; exact List.mem_singleton_self _⟩
    have hsame : s.name = x := by
      have hmarks := congrArg Mark.name (eq_of_offset hparse hused hown hoffset)
      rwa [mark, hname.2] at hmarks
    have hdeclared : s.offset = o := hsole _ (mark_of_symbol hparse hbuild hs) rfl hsame
    exact ⟨r, hr, hoffset, s, hs, hdeclared.trans (hsole _ hmark rfl rfl).symm⟩

/-- A run about whose old name the index is right fits the renaming. -/
theorem fits_of_rightAbout (hparse : Grammar.parseProgram content = .ok t)
    (hbuild : Index.build? t content = some ix) (hs : ix.symbol? id = some s) {new : String}
    (hreserved : Grammar.isReserved s.name = false) (place : Int → Int)
    (hrules : Sited (fun c u => KeepsRules c.inside u) (.program t) t)
    (hfresh : ∀ m ∈ t.marks, m.name ≠ new) {options : Options} {fuel : Nat}
    (hright : ix.RightAbout options fuel t s.name) :
    (ix.respelling id s new hreserved hfresh place).Fits options
      (.exec fuel t (Machine.ready {})) where
  placed := Task.placed_program (sorted_of_parse hparse).inPlace
    (Respelling.tame_of_rules (ρ := ix.respelling id s new hreserved hfresh place) hrules) fuel
  uses := by
    intro τ u m x e d hreaches huses hname hlocate hmark hdeclared
    by_cases hx : x = s.name
    · subst hx
      obtain ⟨r, hr, hoffset, s', hs', rfl⟩ :=
        hright τ u m e d hreaches huses hname hlocate hmark hdeclared
      have hplaces := mem_places_iff hparse hbuild hs hr hs'
      rw [hoffset] at hplaces
      simp only [Index.respelling, Grammar.respell, hplaces]
    · rw [Respelling.name_of_ne hx, Respelling.name_of_ne hx]

/-- Renaming preserves behaviour. Every symbol of the index of a program can be renamed to a name
that occurs nowhere in it, and if no parameter is repeated and nothing is declared twice, every run
of the new program prints what the run of the old one prints and stops for the same reason at the
same node, if it does, provided that the index is right about the old name in the run. -/
theorem rename_keeps_runs {uri file new : String} {version : Int} {h : Document.Hit}
    {findings : List Lint.Finding} (hparse : Grammar.parseProgram content = .ok t)
    (hlint : Lint.lintTree Lint.checks ⟨file, "", t⟩ = some findings)
    (hclean : ∀ f ∈ findings, f.check ≠ "duplicate-param" ∧ f.check ≠ "redeclare")
    (hbuild : Index.build? t content = some ix) (hsymbol : ix.symbol? h.id = some h.symbol)
    (hnew : ReadAsName new) (hfresh : ∀ m ∈ t.marks, m.name ≠ new) :
    (∀ (server : Server) (pos : Position), server.doc? uri = some (.ofContent uri version content) →
      (Document.ofContent uri version content).hit? pos = some h →
      server.rename uri pos new =
        .ok (.renamed uri (Server.renameEdits (.ofContent uri version content) h new))) ∧
    ∃ text place, applyEdits content (Server.renameEdits (.ofContent uri version content) h new) =
      some text ∧
      Grammar.parseProgram text =
        .ok (t.relabel (Grammar.respell (ix.places h.id h.symbol) h.symbol.name new) place) ∧
      ∀ (options : Options) (fuel : Nat) (t' : Tree), Grammar.parseProgram text = .ok t' →
        options.fold = false →
        ix.RightAbout options fuel t h.symbol.name →
        (runWith fuel options t' {}).1.out = (runWith fuel options t {}).1.out ∧
        (runWith fuel options t' {}).1.stop = (runWith fuel options t {}).1.stop.map
          (Stop.mapNode
            (relabel (Grammar.respell (ix.places h.id h.symbol) h.symbol.name new) place)) := by
  have hnames : ∀ o ∈ ix.places h.id h.symbol, NameAt content.toUTF8 o h.symbol.name :=
    fun o => nameAt_of_mem_places hparse hbuild hsymbol
  have hold : IsName h.symbol.name := isName_of_symbol hparse hbuild hsymbol
  have hname : IsName new := readAsName_iff.mp hnew
  refine ⟨fun server pos hdoc hhit => ?_, ?_⟩
  · simp only [Server.rename, hdoc, hhit, isName_iff.mpr hname, if_true]
  · obtain ⟨text, shift, happly, hrespells⟩ :=
      applyEdits_nameEdits hold hname hnames (nodup_places hparse hbuild hsymbol)
    have hparams := Lint.run_of_no_findings rfl hlint (c := Lint.checks[0]) (List.getElem_mem _)
      fun f hf => (hclean f hf).1
    have hblocks := Lint.run_of_no_findings rfl hlint (c := Lint.checks[4]) (List.getElem_mem _)
      fun f hf => (hclean f hf).2
    have hrules : Sited (fun c u => KeepsRules c.inside u) (.program t) t :=
      Lint.sited_of_distinct (sorted_of_parse hparse) hparams hblocks
    have hparse' := Grammar.parse_respelled hrespells hparse
    refine ⟨text, _, by rw [renameEdits_eq hparse hbuild, happly], hparse',
      fun options fuel t' ht' hfold hright => ?_⟩
    obtain rfl := Except.ok.inj (hparse'.symm.trans ht')
    exact Respelling.runWith_tree hfold
      (fits_of_rightAbout hparse hbuild hsymbol hold.1 (Grammar.moved shift) hrules hfresh hright)

/-- A parameter gets another name, and the function is called. -/
theorem rename_keeps_runs_parameter : ∃ t t' ix h text,
    Grammar.parseProgram "print func(a)\x7bret a;\x7d(1);" = .ok t ∧
    Lint.lintTree Lint.checks ⟨"p", "", t⟩ = some [] ∧
    Index.build? t "print func(a)\x7bret a;\x7d(1);" = some ix ∧
    ix.symbol? h.id = some h.symbol ∧ h.symbol.name = "a" ∧ Grammar.ReadAsName "b2" ∧
    (∀ m ∈ t.marks, m.name ≠ "b2") ∧
    applyEdits "print func(a)\x7bret a;\x7d(1);"
      (Server.renameEdits (.ofContent "p" 1 "print func(a)\x7bret a;\x7d(1);") h "b2") = some text ∧
    Grammar.parseProgram text = .ok t' ∧ (runWith 99 {} t {}).1.out = "1" ∧
    (runWith 99 {} t' {}).1.out = "1" ∧
    ∀ fuel, ix.RightAbout {} fuel t "a" ∧
      (runWith fuel {} t' {}).1.out = (runWith fuel {} t {}).1.out := by
  have hcheck : (Grammar.parseProgram "print func(a)\x7bret a;\x7d(1);").toOption.any (fun t =>
      (Lint.lintTree Lint.checks ⟨"p", "", t⟩).any List.isEmpty &&
      t.marks.all (fun m => m.name ≠ "b2" && (!m.declares || m.offset = 11)) &&
      (Index.build? t "print func(a)\x7bret a;\x7d(1);").any (fun ix =>
        (ix.symbol? 0).any fun s => s.name = "a") &&
      (runWith 99 {} t {}).1.out = "1") = true := by decide +kernel
  obtain ⟨t, hparse, hcheck⟩ := Grammar.exists_ok_of_any hcheck
  simp only [Bool.and_eq_true, Bool.or_eq_true, List.all_eq_true, Option.any_eq_true,
    List.isEmpty_iff, decide_eq_true_eq] at hcheck
  obtain ⟨⟨⟨⟨_, hfindings, rfl⟩, hmarks⟩, ix, hbuild, s, hsymbol, hname⟩, hout⟩ := hcheck
  have hnew : ReadAsName "b2" := readAsName_iff.mpr (isName_iff.mp (by decide +kernel))
  have hfresh : ∀ m ∈ t.marks, m.name ≠ "b2" := fun m hm => (hmarks m hm).1
  have hright : ∀ fuel, ix.RightAbout {} fuel t "a" := fun fuel =>
    rightAbout_of_sole hparse hbuild (o := 11)
      (fun m hm hdeclares _ => (hmarks m hm).2.resolve_left (by simp [hdeclares])) {} fuel
  obtain ⟨-, text, place, happly, hparse', hruns⟩ :=
    @rename_keeps_runs _ t ix "p" "p" "b2" 1 ⟨0, s, 11⟩ [] hparse
    hfindings (List.forall_mem_nil _) hbuild hsymbol hnew hfresh
  have hsame := fun fuel => (hruns {} fuel _ hparse' rfl (by rw [hname]; exact hright fuel)).1
  exact ⟨t, _, ix, ⟨0, s, 11⟩, text, hparse, hfindings, hbuild, hsymbol, hname, hnew, hfresh,
    happly, hparse', hout, (hsame 99).trans hout, fun fuel => ⟨hright fuel, hsame fuel⟩⟩

/-- In general the index need not be right: it resolves the body of a function where the block
around it ends, and a call may come earlier. Here the call prints the outer variable, but fails when
the inner one has another name. -/
theorem rename_changes_run : ∃ t ix h text t' node,
    Grammar.parseProgram "var x=1;if(1)\x7bvar f=func()\x7bprint x;\x7d;f();var x=2;\x7d" = .ok t ∧
    Lint.lintTree Lint.checks ⟨"p", "", t⟩ = some [] ∧
    Index.build? t "var x=1;if(1)\x7bvar f=func()\x7bprint x;\x7d;f();var x=2;\x7d" = some ix ∧
    ix.symbol? h.id = some h.symbol ∧ Grammar.ReadAsName "y" ∧ (∀ m ∈ t.marks, m.name ≠ "y") ∧
    applyEdits "var x=1;if(1)\x7bvar f=func()\x7bprint x;\x7d;f();var x=2;\x7d" (Server.renameEdits
      (.ofContent "p" 1 "var x=1;if(1)\x7bvar f=func()\x7bprint x;\x7d;f();var x=2;\x7d") h "y") =
        some text ∧
    text = "var x=1;if(1)\x7bvar f=func()\x7bprint y;\x7d;f();var y=2;\x7d" ∧
    Grammar.parseProgram text = .ok t' ∧
    (runWith 99 {} t {}).1.out = "1" ∧ (runWith 99 {} t {}).1.stop = none ∧
    (runWith 99 {} t' {}).1.out = "" ∧
    (runWith 99 {} t' {}).1.stop = some (.condition .undefinedVariable node) := by
  have hcheck :
      (Grammar.parseProgram
        "var x=1;if(1)\x7bvar f=func()\x7bprint x;\x7d;f();var x=2;\x7d").toOption.any (fun t =>
      (Lint.lintTree Lint.checks ⟨"p", "", t⟩).any List.isEmpty &&
        t.marks.all (fun m => m.name ≠ "y") &&
      ((Indexer.program "var x=1;if(1)\x7bvar f=func()\x7bprint x;\x7d;f();var x=2;\x7d" t).run
        (Indexer.start "var x=1;if(1)\x7bvar f=func()\x7bprint x;\x7d;f();var x=2;\x7d")).any
          (fun r => (r.2.index.symbol? 2).any (fun s => s.name = "x" && s.offset = 45) &&
            (r.2.index.references.filter fun r => r.symbol = 2).map Reference.offset = [33]) &&
      ((runWith 99 {} t {}).1.out = "1" && (runWith 99 {} t {}).1.stop.isNone)) = true := by
        decide +kernel
  have hcheck' :
      (Grammar.parseProgram
        "var x=1;if(1)\x7bvar f=func()\x7bprint y;\x7d;f();var y=2;\x7d").toOption.any (fun t =>
      (runWith 99 {} t {}).1.out = "" &&
        (runWith 99 {} t {}).1.condition? = some .undefinedVariable) = true := by
    decide +kernel
  obtain ⟨t, hparse, hcheck⟩ := Grammar.exists_ok_of_any hcheck
  obtain ⟨t', hparse', hcheck'⟩ := Grammar.exists_ok_of_any hcheck'
  simp only [Bool.and_eq_true, List.all_eq_true, Option.any_eq_true, List.isEmpty_iff,
    Option.isNone_iff_eq_none, decide_eq_true_eq] at hcheck hcheck'
  obtain ⟨⟨⟨⟨_, hfindings, rfl⟩, hfresh⟩, ⟨⟨⟩, st⟩, hdone, ⟨s, hsymbol, hname, hoffset⟩, huses⟩,
    hout, hstop⟩ := hcheck
  obtain ⟨node, hnode⟩ := Output.stop_of_condition? hcheck'.2
  -- the symbol has one use only, which stays when the uses are sorted
  obtain ⟨ix, hbuild, hsymbol, hplaces⟩ : ∃ ix,
      Index.build? t "var x=1;if(1)\x7bvar f=func()\x7bprint x;\x7d;f();var x=2;\x7d" =
        some ix ∧ ix.symbol? 2 = some s ∧ ix.places 2 s = [45, 33] :=
    ⟨_, Index.build?_eq (sorted_of_parse hparse).inPlace hdone, hsymbol,
      congrArg₂ List.cons hoffset (List.perm_singleton.mp
        (huses ▸ ((List.mergeSort_perm _ _).filter _).map Reference.offset))⟩
  have hnew : ReadAsName "y" := readAsName_iff.mpr (isName_iff.mp (by decide +kernel))
  refine ⟨t, ix, ⟨2, s, 45⟩, _, t', node, hparse, hfindings, hbuild, hsymbol, hnew, hfresh, ?_, rfl,
    hparse', hout, hstop, hcheck'.1, hnode⟩
  have hsites := fun o => nameAt_of_mem_places hparse hbuild hsymbol (o := o)
  rw [hname, hplaces] at hsites
  have hsorted : (namePatches "x" "y" [45, 33]).mergeSort (fun p q => p.start ≤ q.start) =
      [⟨33, 34, "y"⟩, ⟨45, 46, "y"⟩] := by
    have hsize : "x".utf8ByteSize = 1 := rfl
    simp [namePatches, hsize, List.mergeSort, List.MergeSort.Internal.splitInTwo]
  rw [renameEdits_eq hparse hbuild, hname, hplaces, applyEdits,
    mapM_patch?_nameEdits hsites, Option.bind_eq_bind, Option.bind_some, hsorted]
  decide +kernel

end Editor

end ClosureLang

import ClosureLang.Proofs.Fold.Sorts
import ClosureLang.Proofs.Grammar.Memoization
import ClosureLang.Proofs.Run.Effects
import ClosureLang.Proofs.Run.Safety

/-! Parsed programs never get stuck, whatever parsed programs ran before them. -/
namespace ClosureLang

open ClosureLang.Tree ClosureLang.Action

/-- The machines on which nothing but parsed programs ran, with the trees that were executed. -/
inductive RanParsed : List Tree → Machine → Prop where
  | new : RanParsed [] {}
  | run {ts m src t t'} (fuel : Nat) (options : Options) : RanParsed ts m →
      Grammar.parseProgram src = .ok t → options.prepare t = some t' →
      RanParsed (t' :: ts) (runWith fuel options t m).2

variable {src : String} {t t' : Tree} {ts : List Tree} {m : Machine}

/-- A node of one of the given trees. -/
def NodeOf (ts : List Tree) (u : Tree) : Prop := ∃ t ∈ ts, u ∈ t.nodes

theorem sorted_of_parse (h : Grammar.parseProgram src = .ok t) : WellSorted (0 ≤ ·) .block t :=
  Grammar.sorted_of_read (Grammar.parseProgram_ok.mp h)

/-- Folded or not, a program whose literals have no sign is run, and what is run is a program. -/
theorem prepare_of_sorted (options : Options) (h : WellSorted (0 ≤ ·) .block t) :
    ∃ t', options.prepare t = some t' ∧ InPlace .block t' := by
  unfold Options.prepare
  split
  · obtain ⟨t', hf⟩ := Option.isSome_iff_exists.mp (Fold.fold_isSome h)
    exact ⟨t', hf, Fold.inPlace_of_fold h hf⟩
  · exact ⟨t, rfl, h.inPlace⟩

theorem prepare_of_parse (options : Options) (h : Grammar.parseProgram src = .ok t) :
    ∃ t', options.prepare t = some t' ∧ InPlace .block t' :=
  prepare_of_sorted options (sorted_of_parse h)

/-- The step lemma: running one more program. -/
theorem safe_runWith (fuel : Nat) (options : Options) (hprepare : options.prepare t = some t')
    (hsorted : InPlace .block t') (hm : m.store.Sound (IsPart (NodeOf ts) .block)) :
    (runWith fuel options t m).2.store.Sound (IsPart (NodeOf (t' :: ts)) .block) ∧
    ∀ s, (runWith fuel options t m).1.stop = some s →
      s.Allowed (NodeOf (t' :: ts)) options.maxDepth := by
  obtain ⟨events, hmachine, hstop⟩ := runWith_eq options fuel hprepare m
  have hready : m.ready.Sound (IsPart (NodeOf (t' :: ts)) .block) :=
    ⟨hm.mono fun _ h => h.mono fun u ⟨v, hv, hu⟩ => ⟨v, List.mem_cons_of_mem _ hv, hu⟩, trivial⟩
  have hpart : t'.IsPart (NodeOf (t' :: ts)) .block :=
    ⟨hsorted, fun u hu => ⟨t', List.mem_cons_self, hu⟩⟩
  have hsafe := (safe (NodeOf (t' :: ts)) options fuel).2.1 hpart m.ready hready
  rw [hmachine, hstop]
  exact ⟨hsafe.sound_after.store, fun s hs => hsafe.allowed_stop hs⟩

/-- The run lemma: any number of programs. -/
theorem RanParsed.sound (h : RanParsed ts m) : m.store.Sound (IsPart (NodeOf ts) .block) := by
  induction h with
  | new => exact Store.sound_initial _
  | run fuel options _ hparse hprepare ih =>
    obtain ⟨t', hprepare', hsorted⟩ := prepare_of_parse options hparse
    cases hprepare.symm.trans hprepare'
    exact (safe_runWith fuel options hprepare hsorted ih).1

/-- A parsed program is valid. On a machine on which nothing but parsed programs ran, whatever the
options, it ends well if it ends, or with a condition of the language at a node of a program that
was executed; and with a stack overflow only if there is a limit. -/
theorem never_stuck (hparse : Grammar.parseProgram src = .ok t) (hm : RanParsed ts m) (fuel : Nat)
    (options : Options) :
    t.validate = none ∧ ∃ t', options.prepare t = some t' ∧
      ∀ s, (runWith fuel options t m).1.stop = some s → s = .outOfFuel ∨
        ∃ c node, s = .condition c node ∧ (∃ u ∈ t' :: ts, node ∈ u.nodes) ∧
          (c = .stackOverflow → 0 < options.maxDepth) := by
  refine ⟨(sorted_of_parse hparse).whole.validate, ?_⟩
  obtain ⟨t', hprepare, hsorted⟩ := prepare_of_parse options hparse
  refine ⟨t', hprepare, fun s hs => ?_⟩
  have hallowed := (safe_runWith fuel options hprepare hsorted hm.sound).2 s hs
  cases s with
  | condition c node => exact .inr ⟨c, node, rfl, hallowed.1, hallowed.2⟩
  | outOfFuel => exact .inl rfl
  | unknownNode | absentNode => exact hallowed.elim

/-- The second program stops inside the function that the first declared. -/
theorem never_stuck_call :
    ∃ t₁ t₂ m, Grammar.parseProgram "var f=func(x)\x7bret 1/x;\x7d;" = .ok t₁ ∧ RanParsed [t₁] m ∧
      Grammar.parseProgram "f(0);" = .ok t₂ ∧
      (runWith 20 { fold := true, maxDepth := 3 } t₂ m).1.stop.isSome ∧
      t₂.validate = none ∧ ∃ t', Options.prepare { fold := true, maxDepth := 3 } t₂ = some t' ∧
        ∀ s, (runWith 20 { fold := true, maxDepth := 3 } t₂ m).1.stop = some s → s = .outOfFuel ∨
          ∃ c node, s = .condition c node ∧ (∃ u ∈ [t', t₁], node ∈ u.nodes) ∧
            (c = .stackOverflow → 0 < 3) := by
  have hcheck : (Grammar.parseProgram "var f=func(x)\x7bret 1/x;\x7d;").toOption.any (fun t₁ =>
      (Grammar.parseProgram "f(0);").toOption.any fun t₂ =>
        (runWith 20 { fold := true, maxDepth := 3 } t₂ (runWith 20 {} t₁ {}).2).1.stop.isSome) =
          true := by
    decide +kernel
  obtain ⟨t₁, hparse₁, hcheck⟩ := Grammar.exists_ok_of_any hcheck
  obtain ⟨t₂, hparse₂, hcheck⟩ := Grammar.exists_ok_of_any hcheck
  have hm : RanParsed [t₁] (runWith 20 {} t₁ {}).2 := .run 20 {} .new hparse₁ rfl
  exact ⟨t₁, t₂, _, hparse₁, hm, hparse₂, hcheck,
    never_stuck hparse₂ hm 20 { fold := true, maxDepth := 3 }⟩

end ClosureLang

import ClosureLang.Profile.Callgrind
import ClosureLang.Profile.Labels
import ClosureLang.Profile.Spans
import ClosureLang.Proofs.Run.Comparison
import ClosureLang.Proofs.Run.Reports

/-! Observers of runs. What is reported of a run has no influence on it, and profilers that follow
its calls are in the same calls behind it as in front of it, whatever the outcome. -/
namespace ClosureLang.Profile

/-- The end of a call behind its start: it is shown if the start was. -/
def Moment.Closes : Moment → Moment → Prop
  | .start shown c, .finish shown' c' => shown' = shown ∧ c.Became c'
  | _, _ => False

theorem Moment.closes_iff {a b : Moment} :
    a.Closes b ↔ ∃ shown c c', a = .start shown c ∧ b = .finish shown c' ∧ c.Became c' := by
  constructor
  · intro h
    cases a with
    | finish => exact h.elim
    | start shown c =>
      cases b with
      | start => exact h.elim
      | finish shown' c' =>
        obtain ⟨rfl, hbecame⟩ := h
        exact ⟨shown', c, c', rfl, rfl, hbecame⟩
  · rintro ⟨shown, c, c', rfl, rfl, hbecame⟩
    exact ⟨rfl, hbecame⟩

/-- Every moment is the start of a call or the end of one. -/
abbrev NestedMoments : List Moment → Prop := Nested (fun _ => False) Moment.Closes

/-- What goes back to where it was with every call does so with all of them. -/
theorem NestedMoments.foldl {β : Type} {R : β → β → Prop} [Std.Refl R] [IsTrans β R]
    {f : β → Moment → β}
    (hcall : ∀ p q shown c c', R (f p (.start shown c)) q → R p (f q (.finish shown c')))
    {ms : List Moment} (h : NestedMoments ms) (p : β) : R p (ms.foldl f p) := by
  refine Nested.foldl (fun _ _ hpass => hpass.elim) (fun p q a b hcloses hinner => ?_) h p
  obtain ⟨shown, c, c', rfl, rfl, -⟩ := Moment.closes_iff.mp hcloses
  exact hcall p q shown c c' hinner

/-- The view of nested calls is nested, and behind them the view is what it was in front of them. -/
theorem View.nested_momentsWith (v : View) {events : List Event}
    (h : Nested Event.Passes Event.Closes events) (active : List Bool) :
    NestedMoments (v.momentsWith active events) ∧
      ∀ rest, v.momentsWith active (events ++ rest) =
        v.momentsWith active events ++ v.momentsWith active rest := by
  induction h generalizing active with
  | nil => exact ⟨.nil, fun _ => rfl⟩
  | @pass e events hpass _ ih =>
    cases e with
    | step line => exact ih active
    | internalError message => exact ih active
    | enter c => exact hpass.elim
    | leave c => exact hpass.elim
  | @pair a b inner rest hcloses _ _ ihinner ih =>
    cases a with
    | step | internalError | leave => exact hcloses.elim
    | enter c =>
      cases b with
      | step | internalError | enter => exact hcloses.elim
      | leave c' =>
        obtain ⟨hinner, happend⟩ := ihinner ((!v.skips c) :: active)
        obtain ⟨hrest, happend'⟩ := ih active
        -- the end of the call takes away what its start put in front
        have hmoments : ∀ events,
            v.momentsWith active (.enter c :: (inner ++ .leave c' :: events)) =
            .start (!v.skips c) c :: (v.momentsWith ((!v.skips c) :: active) inner ++
              .finish (!v.skips c) c' :: v.momentsWith active events) := by
          intro events
          exact congrArg (.start (!v.skips c) c :: ·) (happend _)
        refine ⟨?_, fun events => ?_⟩
        · rw [hmoments]
          have hshown : Moment.Closes (.start (!v.skips c) c) (.finish (!v.skips c) c') :=
            ⟨rfl, hcloses⟩
          exact .pair hshown hinner hrest
        · rw [List.cons_append, List.append_assoc, List.cons_append, hmoments, hmoments, happend']
          simp

theorem View.nested_moments (v : View) {events : List Event}
    (h : Nested Event.Passes Event.Closes events) :
    NestedMoments (v.moments events) := (v.nested_momentsWith h []).1

variable {events : List Event}

namespace Callgrind

/-- The profile is where it was: the same records are open, and only the innermost one may list more
calls. -/
structure Resumes (p q : Callgrind) : Prop where
  view : q.view = p.view
  enabled : q.enabled = p.enabled
  outer : q.frames.tail = p.frames.tail
  sites : q.frames.map Frame.site = p.frames.map Frame.site

instance : Std.Refl Resumes := ⟨fun _ => ⟨rfl, rfl, rfl, rfl⟩⟩

instance : IsTrans Callgrind Resumes :=
  ⟨fun _ _ _ h h' => ⟨h'.view.trans h.view, h'.enabled.trans h.enabled, h'.outer.trans h.outer,
    h'.sites.trans h.sites⟩⟩

/-- The end of a call closes the innermost record, whether or not it can be written. -/
theorem finish_eq (c : Closure) (p : Callgrind) :
    (p.finish c).view = p.view ∧ (p.finish c).enabled = p.enabled ∧
    (p.finish c).frames = p.frames.tail := by
  unfold finish
  cases hframes : p.frames with
  | nil => exact ⟨rfl, rfl, hframes⟩
  | cons f fs =>
    dsimp only
    split <;> exact ⟨rfl, rfl, rfl⟩

/-- The step lemma: whatever happens inside a call, its end goes back to where it started. -/
theorem resumes_call (p q : Callgrind) (c c' : Closure) (h : Resumes (p.start c) q) :
    Resumes p (q.finish c') := by
  obtain ⟨hview, henabled, hframes⟩ := finish_eq c' q
  obtain ⟨view, enabled, outer, -⟩ := h
  have hstart : (p.start c).view = p.view ∧ (p.start c).enabled = p.enabled ∧
      (p.start c).frames.tail.tail = p.frames.tail ∧
      (p.start c).frames.tail.map Frame.site = p.frames.map Frame.site := by
    unfold start push
    split
    · rename_i hframes
      exact ⟨rfl, rfl, by rw [hframes]; rfl, by rw [hframes]; rfl⟩
    · rename_i hframes
      exact ⟨rfl, rfl, by rw [hframes]; rfl, by rw [hframes]; rfl⟩
  obtain ⟨hview', henabled', houter, hsites⟩ := hstart
  refine ⟨(hview.trans view).trans hview', (henabled.trans enabled).trans henabled', ?_, ?_⟩
  · rw [hframes, outer, houter]
  · rw [hframes, outer, hsites]

theorem resumes_follow (p : Callgrind) (h : Nested Event.Passes Event.Closes events) :
    Resumes p (p.follow events) := by
  unfold follow
  split
  · refine (p.view.nested_moments h).foldl (fun p q shown c c' hinner => ?_) p
    cases shown with
    | false => exact hinner
    | true => exact resumes_call p q c c' hinner
  · exact Std.Refl.refl p

end Callgrind

/-- Labels are the same behind a run as in front of it. -/
theorem Labels.observe_nested (p : Labels) {ms : List Moment} (h : NestedMoments ms) :
    ms.foldl observe p = p := by
  refine (h.foldl (R := fun p q => q = p) (fun p q shown c c' hinner => ?_) p)
  cases shown with
  | false => exact hinner
  | true =>
    rw [hinner]
    rfl

namespace Spans

/-- The same spans are active, and all that were started in the meantime have ended. -/
structure Resumes (p q : Spans) : Prop where
  view : q.view = p.view
  system : q.system = p.system
  hasContext : q.hasContext = p.hasContext
  enabled : q.enabled = p.enabled
  active : q.active = p.active
  ended : ∃ spans, q.ended = p.ended ++ spans ∧ q.started = p.started + spans.length

instance : Std.Refl Resumes :=
  ⟨fun _ => ⟨rfl, rfl, rfl, rfl, rfl, [], (List.append_nil _).symm, rfl⟩⟩

instance : IsTrans Spans Resumes where
  trans p q r h h' := by
    obtain ⟨spans, hended, hstarted⟩ := h.ended
    obtain ⟨spans', hended', hstarted'⟩ := h'.ended
    refine ⟨h'.view.trans h.view, h'.system.trans h.system, h'.hasContext.trans h.hasContext,
      h'.enabled.trans h.enabled, h'.active.trans h.active, spans ++ spans', ?_, ?_⟩
    · rw [hended', hended, List.append_assoc]
    · rw [hstarted', hstarted, List.length_append, Nat.add_assoc]

/-- The step lemma: whatever happens inside a call, its end ends its span. -/
theorem resumes_call (p q : Spans) (c c' : Closure) (h : Resumes (p.observe (.start true c)) q) :
    Resumes p (q.observe (.finish true c')) := by
  obtain ⟨view, system, hasContext, enabled, active, spans, hended, hstarted⟩ := h
  obtain ⟨span, hspan⟩ : ∃ span, q.active = span :: p.active := ⟨_, active⟩
  simp only [observe] at hended hstarted
  simp only [observe, hspan]
  refine ⟨view, system, hasContext, enabled, rfl, spans ++ [span], ?_, ?_⟩
  · rw [hended, List.append_assoc]
  · rw [hstarted, List.length_append, List.length_singleton]
    omega

theorem resumes_follow (p : Spans) (h : Nested Event.Passes Event.Closes events) :
    Resumes p (p.follow events) := by
  unfold follow
  split
  · refine (p.view.nested_moments h).foldl (fun p q shown c c' hinner => ?_) p
    cases shown with
    | false => exact hinner
    | true => exact resumes_call p q c c' hinner
  · exact Std.Refl.refl p

end Spans

end ClosureLang.Profile

namespace ClosureLang

open Profile

/-- Traces and profiles do not count for the depth of calls. -/
theorem mirrorsChecks_of_reports (options : Options) (trace calls trace' calls' : Bool) :
    MirrorsChecks (fun _ => False) { options with trace, calls }
      { options with trace := trace', calls := calls' } :=
  fun node c args => .of_oblivious (.checkCall node c args)

/-- However a run is watched, it ends like a run that nobody watches, with the same output, the same
failure, and the same store. Whatever its outcome, the calls that were reported of it have all
ended, the last first, also as profiles show them; and profilers that followed them are where they
were before. -/
theorem watching_changes_nothing (fuel : Nat) (options : Options) (trace calls : Bool) (t : Tree)
    (m : Machine) : let watched := runWith fuel { options with trace, calls } t m
    let alone := runWith fuel { options with trace := false, calls := false } t m
    watched.1 = alone.1 ∧ watched.2.silent = alone.2.silent ∧ watched.2.globals = alone.2.globals ∧
    ∃ events, watched.2.events.toList = m.events.toList ++ events ∧
      Nested Event.Passes Event.Closes events ∧
      (∀ view : View, NestedMoments (view.moments events)) ∧
      (∀ p : Callgrind, p.Resumes (p.follow events)) ∧
      (∀ p : Labels, (p.view.moments events).foldl Labels.observe p = p) ∧
      ∀ p : Spans, p.Resumes (p.follow events) := by
  intro watched alone
  obtain ⟨hout, hsilent⟩ : watched.1 = alone.1 ∧ watched.2.silent = alone.2.silent := by
    obtain ⟨s, -, hfalse⟩ | hsame :=
      runWith_mirrors (mirrorsChecks_of_reports options trace calls false false) rfl fuel t m
    · exact hfalse.elim
    · exact hsame
  have hglobals : watched.2.globals = alone.2.globals := by
    show watched.2.silent.globals = alone.2.silent.globals
    rw [hsilent]
  obtain ⟨events, hevents, hnested⟩ := nested_runWith fuel { options with trace, calls } t m
  exact ⟨hout, hsilent, hglobals, events, hevents, hnested, fun view => view.nested_moments hnested,
    fun p => p.resumes_follow hnested, fun p => p.observe_nested (p.view.nested_moments hnested),
    fun p => p.resumes_follow hnested⟩

end ClosureLang

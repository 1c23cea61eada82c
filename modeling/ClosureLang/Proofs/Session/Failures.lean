import ClosureLang.Proofs.Run.Progress
import ClosureLang.Session

/-! Where a session reports failures. Functions outlive the inputs that made them, so that an input
may fail at a node of an earlier one; its place is looked up in the text of the input that runs. -/
namespace ClosureLang.Session

open ClosureLang.Tree

/-- A session, with the trees that ran in it, the last one first. Lines that are not complete yet
run nothing. -/
inductive Ran : List Tree → Session → Prop where
  | new (options : Options) (palette : Palette) : Ran [] { options, palette }
  | pending {ts s} (lines : String) : Ran ts s → Ran ts { s with pending := lines }
  | input {ts s src t t'} : Ran ts s → parse src = .ok t → s.options.prepare t = some t' →
      Ran (t' :: ts) (s.evaluate src (.ok t)).2

variable {ts : List Tree} {s : Session} {src : String} {t t' : Tree}

/-- An input is a program, also if it is read as an expression. -/
theorem sorted_of_input (h : parse src = .ok t) : WellSorted (0 ≤ ·) .block t := by
  unfold parse at h
  cases hprogram : Grammar.parseProgram src with
  | ok u =>
    simp only [hprogram, Except.ok.injEq] at h
    exact h ▸ sorted_of_parse hprogram
  | error e =>
    cases hexpression : Grammar.parseExpression src with
    | error e' => simp [hprogram, hexpression] at h
    | ok u =>
      simp only [hprogram, hexpression, Except.ok.injEq] at h
      have hsorted : WellSorted (0 ≤ ·) .expression u :=
        Grammar.sorted_of_read (Grammar.parseExpression_ok.mp hexpression)
      rw [← h]
      refine .block fun v hv => ?_
      rw [List.mem_singleton.mp hv]
      exact .print hsorted

/-- A failure is reported behind all that the input printed. -/
theorem evaluate_failed (src : String) {stop : Stop}
    (hstop : (run s.options t s.machine).1.stop = some stop) :
    ∃ shown, (s.evaluate src (.ok t)).1 = shown ++ s.render src (stopReport src stop) := by
  simp only [Session.evaluate, hstop]
  exact ⟨_, rfl⟩

theorem Ran.sound (h : Ran ts s) : s.machine.store.Sound (IsPart (NodeOf ts) .block) := by
  induction h with
  | new => exact Store.sound_initial _
  | pending _ _ ih => exact ih
  | input _ hparse hprepare ih =>
    obtain ⟨t', hprepare', hsorted⟩ := prepare_of_sorted _ (sorted_of_input hparse)
    cases hprepare.symm.trans hprepare'
    exact (safe_runWith Machine.ample _ hprepare hsorted ih).1

theorem Ran.evaluate (h : Ran ts s) (hparse : parse src = .ok t) :
    ∃ t', s.options.prepare t = some t' ∧ Ran (t' :: ts) (s.evaluate src (.ok t)).2 := by
  obtain ⟨t', hprepare, -⟩ := prepare_of_sorted s.options (sorted_of_input hparse)
  exact ⟨t', hprepare, h.input hparse hprepare⟩

theorem Ran.reset (h : Ran ts s) : Ran ts s.reset := h.pending ""

/-- Whatever is entered, only whole inputs run. -/
theorem Ran.flush (h : Ran ts s) : ∃ ts', Ran (ts' ++ ts) s.flush.2 := by
  unfold Session.flush
  split
  · exact ⟨[], h⟩
  · cases hparse : parse s.pending with
    | error e => exact ⟨[], h.reset⟩
    | ok t =>
      obtain ⟨t', -, hran⟩ := h.reset.evaluate hparse
      exact ⟨[t'], hran⟩

theorem Ran.feed (h : Ran ts s) (line : String) : ∃ ts', Ran (ts' ++ ts) (s.feed line).2.2 := by
  unfold Session.feed
  split
  · exact h.flush
  · simp only
    split
    · split
      · exact ⟨[], h.pending _⟩
      · exact ⟨[], h.reset⟩
    · rename_i t hparse
      obtain ⟨t', -, hran⟩ := h.reset.evaluate hparse
      exact ⟨[t'], hran⟩

/-- The bodies of the functions that there are. -/
def bodies (s : Session) : List Tree := s.machine.store.closures.toList.map Closure.body

theorem mem_bodies {body : Tree} :
    body ∈ s.bodies ↔ ∃ id c, s.machine.store.closure? id = some c ∧ c.body = body := by
  simp only [bodies, List.mem_map, Array.mem_toList_iff, Array.mem_iff_getElem?, Store.closure?]
  constructor
  · rintro ⟨c, ⟨id, hc⟩, hbody⟩
    exact ⟨id, c, hc, hbody⟩
  · rintro ⟨id, c, hc, hbody⟩
    exact ⟨c, ⟨id, hc⟩, hbody⟩

theorem Ran.sound_bodies (h : Ran ts s) :
    s.machine.store.Sound (IsPart (NodeOf s.bodies) .block) where
  bodies id c hc :=
    ⟨(h.sound.bodies id c hc).inPlace, fun _ hu => ⟨c.body, mem_bodies.mpr ⟨id, c, hc, rfl⟩, hu⟩⟩
  values := h.sound.values

/-- An input fails at one of its own nodes or in a function that an earlier input made, and the
report places the node where its offset is in the text of the input. This is the place of the node
if no earlier input made a function. -/
theorem failure_located (hs : Ran ts s) (hparse : parse src = .ok t) {stop : Stop}
    (hstop : (run s.options t s.machine).1.stop = some stop) : stop = .outOfFuel ∨
      ∃ c node t' shown, stop = .condition c node ∧ s.options.prepare t = some t' ∧
        (node ∈ t'.nodes ∨ ∃ body ∈ s.bodies, node ∈ body.nodes ∧ ∃ u ∈ ts, node ∈ u.nodes) ∧
        (s.evaluate src (.ok t)).1 = shown ++ s.render src {
          level := some .error, message := c.message
          spans := ((node.offset?).bind (Span.at? sourceName src)).toList
          notes := if c = .undefinedVariable then [declareFirst] else [] } := by
  obtain ⟨t', hprepare, hsorted⟩ := prepare_of_sorted s.options (sorted_of_input hparse)
  have hallowed :=
    (safe_runWith Machine.ample s.options hprepare hsorted hs.sound_bodies).2 stop hstop
  cases stop with
  | outOfFuel => exact .inl rfl
  | unknownNode | absentNode => exact hallowed.elim
  | condition c node =>
    obtain ⟨⟨body, hbody, hnode⟩, -⟩ := hallowed
    obtain ⟨shown, hshown⟩ := evaluate_failed src hstop
    refine .inr ⟨c, node, t', shown, rfl, hprepare, ?_, hshown⟩
    obtain rfl | hbody := List.mem_cons.mp hbody
    · exact .inl hnode
    · obtain ⟨id, fn, hfn, rfl⟩ := mem_bodies.mp hbody
      exact .inr ⟨fn.body, hbody, hnode, (hs.sound.bodies id fn hfn).nodes node hnode⟩

end ClosureLang.Session

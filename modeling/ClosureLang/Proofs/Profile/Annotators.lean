import ClosureLang.Proofs.Profile.Hooks

/-! Annotators mirror the calls of a run: a span for every call that is shown, inside the span of
the innermost shown call around it, and labels that are the same behind a call as in front of it. -/
namespace ClosureLang.Profile

open Callgrind (Call Traced)

variable {v : View} {events : List Event} {calls behind : List Call}

/-- Calls are watched through a view. -/
def Watch.Enabled (v : View) (p : Watch) : Prop := p = { view := v, enabled := true }

theorem Watch.Enabled.skips {p : Watch} (hp : p.Enabled v) (c : Closure) :
    p.skips c = v.skips c := by
  rw [hp]
  exact Bool.false_or _

/-! ### Spans -/

variable {Context Span : Type}

/-- The context that comes with a span carries it. -/
def Tracing.Lawful (lib : Tracing Context Span) : Prop := ∀ history context name,
  lib.span? (lib.start history context name).1 = some (lib.start history context name).2

namespace System

/-- What is asked for at the start of a call. -/
def opening (s : System) (v : View) (context : Context) (c : Closure) (inner : Context)
    (span : Span) : List (Request Context Span) :=
  .start context (v.label c) inner span ::
    match s with
    | openTelemetry => [.annotate span (openTelemetry.details v c)]
    | openCensus => []

/-- What is asked for at the end of a call. -/
def closing (s : System) (v : View) (c : Closure) (span : Span) : List (Request Context Span) :=
  match s with
  | openTelemetry => [.finish span]
  | openCensus => [.annotate span (openCensus.details v c), .finish span]

end System

/-- What is asked for in the course of some calls that are made in a context: every call has a span,
which is started in this context and ends behind the spans of the calls made from there, which are
started in the context that carries it. -/
inductive Mirrors (lib : Tracing Context Span) (s : System) (v : View) :
    List (Request Context Span) → Context → List Call → List (Request Context Span) → Prop where
  | nil {history context} : Mirrors lib s v history context [] []
  | call {history context c c' calls behind inner span within rest} :
      lib.start history context (v.label c) = (inner, span) → lib.span? inner = some span →
      Mirrors lib s v (history ++ s.opening v context c inner span) inner calls within →
      Mirrors lib s v (history ++
        (s.opening v context c inner span ++ within ++ s.closing v c' span)) context behind rest →
      Mirrors lib s v history context (.made c c' calls :: behind)
        (s.opening v context c inner span ++ within ++ s.closing v c' span ++ rest)

section Spans

variable {lib : Tracing Context Span} {s : System}
  {history requests requests' : List (Request Context Span)} {context : Context}

theorem Mirrors.append (h : Mirrors lib s v history context calls requests)
    (h' : Mirrors lib s v (history ++ requests) context behind requests') :
    Mirrors lib s v history context (calls ++ behind) (requests ++ requests') := by
  induction h with
  | nil => simpa using h'
  | call hstart hspan hinner _ _ ih =>
    rw [List.append_assoc _ _ requests']
    exact .call hstart hspan hinner (ih (by rwa [List.append_assoc]))

namespace Annotator

variable {p q r : Annotator Context Span} {c c' : Closure}

/-- The annotator is where it was, and has asked for the spans of some calls. -/
structure Resumes (lib : Tracing Context Span) (s : System) (calls : List Call)
    (p q : Annotator Context Span) : Prop where
  watch : q.toWatch = p.toWatch
  context : q.context = p.context
  contexts : q.contexts = p.contexts
  span : p.span = lib.span? p.context → q.span = lib.span? q.context
  requests : ∃ requests, q.requests = p.requests ++ requests ∧
      Mirrors lib s p.view p.requests p.context calls requests

theorem Resumes.refl (p : Annotator Context Span) : Resumes lib s [] p p :=
  ⟨rfl, rfl, rfl, id, [], (List.append_nil _).symm, .nil⟩

theorem Resumes.trans (h : Resumes lib s calls p q) (h' : Resumes lib s behind q r) :
    Resumes lib s (calls ++ behind) p r := by
  obtain ⟨made, hrequests, hmade⟩ := h.requests
  obtain ⟨made', hrequests', hmade'⟩ := h'.requests
  refine ⟨h'.watch.trans h.watch, h'.context.trans h.context, h'.contexts.trans h.contexts,
    h'.span ∘ h.span, made ++ made', by rw [hrequests', hrequests, List.append_assoc],
    hmade.append ?_⟩
  rw [hrequests, h.context, congrArg Watch.view h.watch] at hmade'
  exact hmade'

/-- The context and the span that the library gives a call. -/
abbrev answer (lib : Tracing Context Span) (c : Closure) (p : Annotator Context Span) :
    Context × Span :=
  lib.start p.requests p.context (p.view.label c)

/-- The annotator at the start of a call. -/
def opened (lib : Tracing Context Span) (s : System) (c : Closure) (contexts : List Context)
    (p : Annotator Context Span) : Annotator Context Span :=
  { p with
    context := (p.answer lib c).1, span := some (p.answer lib c).2, contexts
    requests := p.requests ++ s.opening p.view p.context c (p.answer lib c).1 (p.answer lib c).2 }

/-- The annotator at the end of a call, where `p` was the annotator in front of it. -/
def closed (lib : Tracing Context Span) (s : System) (c c' : Closure)
    (p q : Annotator Context Span) : Annotator Context Span :=
  { q with
    context := p.context, span := lib.span? p.context, contexts := p.contexts
    requests := q.requests ++ s.closing q.view c' (p.answer lib c).2 }

theorem openTelemetry_start (hp : p.Enabled v) (hskips : v.skips c = false) :
    openTelemetry lib c p =
    some (fun _ q => q.finish.map (resume lib p.context),
      p.opened lib .openTelemetry c p.contexts) := by
  rw [openTelemetry, hp.skips, hskips, if_neg Bool.false_ne_true]
  simp [start, annotate, opened, System.opening]

theorem openTelemetry_finish (hspan : q.span = some (p.answer lib c).2)
    (hcontexts : q.contexts = p.contexts) :
    q.finish.map (resume lib p.context) = some (closed lib .openTelemetry c c' p q) := by
  simp [finish, hspan, resume, closed, System.closing, ← hcontexts]

theorem openCensus_start (hp : p.Enabled v) (hskips : v.skips c = false) : openCensus lib c p =
    some (finishCall lib, p.opened lib .openCensus c (p.contexts ++ [p.context])) := by
  rw [openCensus, hp.skips, hskips, if_neg Bool.false_ne_true]
  rfl

theorem openCensus_finish (hspan : q.span = some (p.answer lib c).2)
    (hcontexts : q.contexts = p.contexts ++ [p.context]) :
    finishCall lib c' q = some (closed lib .openCensus c c' p q) := by
  simp [finishCall, annotate, finish, hspan, hcontexts, resume, closed, System.closing]

variable {contexts : List Context}

/-- Behind the calls made from a call, its span is the one that ends next. -/
theorem Resumes.span_of_opened (hlib : lib.Lawful)
    (h : Resumes lib s calls (p.opened lib s c contexts) q) : q.span = some (p.answer lib c).2 := by
  rw [h.span (hlib ..).symm, h.context]
  exact hlib ..

/-- The step lemma: a call that is shown has a span around those of the calls made from there. -/
theorem Resumes.closed (hlib : lib.Lawful) (h : Resumes lib s calls (p.opened lib s c contexts) q) :
    Resumes lib s [.made c c' calls] p (closed lib s c c' p q) := by
  obtain ⟨within, hwithin, hmirrors⟩ := h.requests
  have hview : q.view = p.view := congrArg Watch.view h.watch
  refine ⟨h.watch, rfl, rfl, fun _ => rfl,
    s.opening p.view p.context c (p.answer lib c).1 (p.answer lib c).2 ++ within ++
    s.closing p.view c' (p.answer lib c).2, ?_, ?_⟩
  · simp only [Annotator.closed, hwithin, opened, hview, List.append_assoc]
  · rw [← List.append_nil (_ ++ _)]
    exact .call rfl (hlib ..) hmirrors .nil

theorem skipped (hp : p.Enabled v) (hskips : v.skips c = true) (s : System) :
    s.profiler lib c p = some (.idle, p) := by
  have hskips' : p.skips c = true := (hp.skips c).trans hskips
  cases s with
  | openTelemetry => exact if_pos hskips'
  | openCensus => exact if_pos hskips'

theorem follows (hlib : lib.Lawful) (s : System) (v : View) :
    (s.profiler lib).Follows v (fun p => p.Enabled v) (Resumes lib s) where
  nil := .refl
  append := .trans
  keeps h hp := h.watch.trans hp
  skipped hp hskips := skipped hp hskips s
  shown := by
    intro c p hp hskips
    cases s with
    | openTelemetry =>
      exact ⟨_, _, openTelemetry_start hp hskips, hp, fun hinner =>
        ⟨_, openTelemetry_finish (hinner.span_of_opened hlib) hinner.contexts, hinner.closed hlib⟩⟩
    | openCensus =>
      exact ⟨_, _, openCensus_start hp hskips, hp, fun hinner =>
        ⟨_, openCensus_finish (hinner.span_of_opened hlib) hinner.contexts, hinner.closed hlib⟩⟩

end Annotator

end Spans

/-! ### Numbered spans -/

/-- A tracing library that numbers the spans in the order in which they start. Contexts are the
numbers of spans. -/
def numbering : Tracing (Option Nat) Nat where
  start history _ _ := (some (history.countP Request.isStart), history.countP Request.isStart)
  span? context := context

theorem numbering_lawful : numbering.Lawful := fun _ _ _ => rfl

namespace Spans

/-- The spans that were asked for. -/
def collect (p : Spans) : Request (Option Nat) Nat → Spans
  | .start context name _ id =>
    { p with
      started := p.started + 1,
      active := { id, name, parent := context, details := [] } :: p.active }
  | .annotate id details =>
    match p.active with
    | [] => p
    | span :: active =>
      if span.id = id then { p with active := { span with details } :: active } else p
  | .finish id =>
    match p.active with
    | [] => p
    | span :: active => if span.id = id then { p with active, ended := p.ended ++ [span] } else p

mutual

/-- The spans of a call, numbered from `id` on, in the order in which they end. -/
def ofCall (s : System) (v : View) (parent : Option Nat) (id : Nat) : Call → List CallSpan
  | .made started _ calls =>
    ofCalls s v (some id) (id + 1) calls ++
      [{ id, name := v.label started, parent, details := s.details v started }]

def ofCalls (s : System) (v : View) (parent : Option Nat) (id : Nat) : List Call → List CallSpan
  | [] => []
  | call :: calls =>
    ofCall s v parent id call ++ ofCalls s v parent (id + (ofCall s v parent id call).length) calls

end

variable {s : System} {parent : Option Nat} {id : Nat} {p : Spans}

theorem ofCalls_append : ofCalls s v parent id (calls ++ behind) =
    ofCalls s v parent id calls ++
      ofCalls s v parent (id + (ofCalls s v parent id calls).length) behind := by
  induction calls generalizing id with
  | nil => rfl
  | cons call calls ih =>
    rw [List.cons_append, ofCalls, ofCalls, ih, List.append_assoc, List.length_append,
      Nat.add_assoc]

/-- The spans behind some calls. -/
def after (p : Spans) (calls : List Call) : Spans :=
  let spans := ofCalls p.system p.view (p.active.head?.map (·.id)) p.started calls
  { p with started := p.started + spans.length, ended := p.ended ++ spans }

theorem after_nil (p : Spans) : p.after [] = p := by
  simp [after, ofCalls]

theorem after_append : (p.after calls).after behind = p.after (calls ++ behind) := by
  simp only [after, ofCalls_append, List.length_append, List.append_assoc, Nat.add_assoc]

/-- The span of a call is active during the calls made from it. -/
def inside (p : Spans) (span : CallSpan) : Spans :=
  { p with started := p.started + 1, active := span :: p.active }

/-- The span of a call that starts now. -/
def spanOf (p : Spans) (c : Closure) : CallSpan :=
  { id := p.started, name := p.view.label c, parent := p.active.head?.map (·.id),
    details := p.system.details p.view c }

/-- The spans of a call, from its start to its end, whatever is known of its span in the course of
it. -/
theorem after_made (p : Spans) (c c' : Closure) (span : CallSpan) (hid : span.id = p.started) :
    p.after [.made c c' calls] = { (p.inside span).after calls with
      active := p.active, ended := ((p.inside span).after calls).ended ++ [p.spanOf c] } := by
  simp only [after, inside, ofCalls, ofCall, spanOf, hid, List.append_nil, List.length_append,
    List.length_singleton, List.head?_cons, Option.map_some, List.append_assoc, mk.injEq,
    true_and, and_true]
  omega

/-- The run lemma of the spans that a run is shown with. -/
theorem observe_traced {ms : List Moment} (h : Traced ms calls) :
    ms.foldl observe p = p.after calls := by
  induction h generalizing p with
  | nil => exact p.after_nil.symm
  | @shown c c' inner rest calls behind _ _ _ ihinner ih =>
    rw [List.foldl_cons, List.foldl_append, List.foldl_cons, ihinner, ih, ← List.singleton_append,
      ← after_append, after_made p c c' (p.spanOf c) rfl]
    rfl
  | @hidden c c' inner rest calls behind _ _ ihinner ih =>
    rw [List.foldl_cons, List.foldl_append, List.foldl_cons, ihinner, ih, ← after_append]
    rfl

theorem started_collect (p : Spans) (requests : List (Request (Option Nat) Nat)) :
    (requests.foldl collect p).started = p.started + requests.countP Request.isStart := by
  induction requests generalizing p with
  | nil => rfl
  | cons r requests ih =>
    rw [List.foldl_cons, ih, List.countP_cons]
    have hstarted : (p.collect r).started = p.started + if r.isStart = true then 1 else 0 := by
      cases r with
      | start => rfl
      | annotate | finish =>
        simp only [collect]
        split <;> [rfl; split <;> rfl]
    omega

/-- What is recorded at the end of a call does not depend on a name that its function got. -/
theorem details_became {c c' : Closure} (h : c.Became c') :
    System.openCensus.details v c' = System.openCensus.details v c := by
  obtain rfl | ⟨-, h⟩ := h
  · rfl
  · have hlocation : v.location? c' = v.location? c := by
      rw [h]
      rfl
    have hparams : c'.params = c.params := by rw [h]
    unfold System.details
    rw [hlocation, hparams]
    cases v.location? c <;> rfl

/-- The requests at the start of a call open its span, and those at its end close it. -/
theorem collect_opening (p : Spans) {c c' : Closure} (h : c.Became c') :
    ∃ span : CallSpan, span.id = p.started ∧
    (p.system.opening p.view (p.active.head?.map (·.id)) c (some p.started) p.started).foldl collect
      p = p.inside span ∧
    ∀ q : Spans, q.active = span :: p.active →
      (p.system.closing p.view c' p.started).foldl collect q =
      { q with active := p.active, ended := q.ended ++ [p.spanOf c] } := by
  cases hs : p.system with
  | openTelemetry =>
    refine ⟨p.spanOf c, rfl, ?_, fun q hq => ?_⟩
    · simp [System.opening, collect, inside, spanOf, hs]
    · simp [System.closing, collect, hq, spanOf]
  | openCensus =>
    refine ⟨{ p.spanOf c with details := [] }, rfl, rfl, fun q hq => ?_⟩
    simp [System.closing, collect, hq, spanOf, hs, details_became h]

variable {history requests : List (Request (Option Nat) Nat)} {context : Option Nat}

/-- The spans that mirror some calls. -/
theorem collect_mirrors (h : Mirrors numbering s v history context calls requests)
    (hbecame : ∀ started ended inner, .made started ended inner ∈ Call.inOrderAll calls →
      started.Became ended) (hsystem : p.system = s) (hview : p.view = v)
    (hstarted : p.started = history.countP Request.isStart)
    (hcontext : context = p.active.head?.map (·.id)) :
    requests.foldl collect p = p.after calls := by
  induction h generalizing p with
  | nil => exact p.after_nil.symm
  | @call history context c c' calls behind inner span within rest hstart _ _ _ ihinner ih =>
    obtain ⟨rfl, rfl⟩ := Prod.mk.inj hstart
    obtain ⟨span, hid, hopening, hclosing⟩ :=
      p.collect_opening (hbecame c c' _ (Call.mem_inOrderAll_cons.mpr (.inr (.inl rfl))))
    simp only [hsystem, hview, ← hcontext, hstarted] at hopening hclosing
    have hwithin : within.foldl collect (p.inside span) = (p.inside span).after calls := by
      refine ihinner (fun _ _ _ h => hbecame _ _ _ (Call.mem_inOrderAll_cons.mpr (.inl h)))
        hsystem hview ?_ ?_
      · rw [List.countP_append, ← hstarted, ← started_collect, hstarted, hopening]
      · exact congrArg some (hstarted.symm.trans hid.symm)
    have hcall := hclosing ((p.inside span).after calls) rfl
    have hmade : (s.opening v context c (some (history.countP Request.isStart))
        (history.countP Request.isStart) ++ within ++
        s.closing v c' (history.countP Request.isStart)).foldl collect p =
          p.after [.made c c' calls] := by
      rw [List.foldl_append, List.foldl_append, hopening, hwithin, hcall,
        ← p.after_made c c' span hid]
    have hrest : rest.foldl collect (p.after [.made c c' calls]) =
        (p.after [.made c c' calls]).after behind := by
      refine ih (fun _ _ _ h => hbecame _ _ _ (Call.mem_inOrderAll_cons.mpr (.inr (.inr h))))
        hsystem hview ?_ hcontext
      rw [List.countP_append, ← hstarted, ← started_collect, hstarted, hmade]
    rw [List.foldl_append, hmade, hrest, after_append]
    rfl

end Spans

/-! ### Labels -/

/-- The labels of a context inside of the call with a name, if any. -/
def labelsUnder (labels : List (String × String)) : Option String → List (String × String)
  | none => labels
  | some name => withLabel functionKey name labels

/-- The name of a function replaces that of its caller. -/
theorem withLabel_labelsUnder (labels : List (String × String)) (caller? : Option String)
    (name : String) :
    withLabel functionKey name (labelsUnder labels caller?) =
      withLabel functionKey name labels := by
  cases caller? with
  | none => rfl
  | some caller => simp [labelsUnder, withLabel]

namespace Sampler

variable {p q : Sampler} {outer : List (String × String)} {hooks hooks' : List (Hook Sampler)}

/-- The labels are the same. -/
structure Resumes (p q : Sampler) : Prop where
  watch : q.toWatch = p.toWatch
  labels : q.labels = p.labels

theorem follows_profiler (v : View) :
    profiler.Follows v (fun p => p.Enabled v) (fun _ => Resumes) where
  nil _ := ⟨rfl, rfl⟩
  append h h' := ⟨h'.watch.trans h.watch, h'.labels.trans h.labels⟩
  keeps h hp := h.watch.trans hp
  skipped hp hskips := if_pos ((hp.skips _).trans hskips)
  shown hp hskips :=
      ⟨_, _, if_neg (by rw [hp.skips, hskips]; exact Bool.false_ne_true), hp, fun hinner =>
    ⟨_, rfl, hinner.watch, rfl⟩⟩

/-- What is left to do for the active calls. The names are those of the calls that are shown. -/
inductive Left (outer : List (String × String)) :
    List (Hook Sampler) → List Bool → List String → Prop where
  | nil : Left outer [] [] []
  | shown {hooks shown names name} : Left outer hooks shown names →
      Left outer ((fun _ q => some (q.apply (labelsUnder outer names.head?))) :: hooks)
        (true :: shown) (name :: names)
  | hidden {hooks shown names} :
      Left outer hooks shown names → Left outer (.idle :: hooks) (false :: shown) names

/-- The labels of the sampler are those of the innermost call that is shown. -/
structure Shows (outer : List (String × String)) (v : View) (hooks : List (Hook Sampler))
    (p : Sampler) (shown : List Bool) (l : Labels) : Prop where
  watch : p.Enabled v
  view : l.view = v
  labels : p.labels = labelsUnder outer l.current?
  left : Left outer hooks shown l.active

variable {shown : List Bool} {l : Labels}

/-- The step lemma. -/
theorem Shows.observe {e : Event} (h : Shows outer v hooks p shown l)
    (hstep : profiler.observe (hooks, p) e = some (hooks', q)) :
    Shows outer v hooks' q (v.moment shown e).1
      ((v.moment shown e).2.toList.foldl Labels.observe l) := by
  obtain ⟨hwatch, hview, hlabels, hleft⟩ := h
  cases e with
  | step | internalError =>
    obtain ⟨rfl, rfl⟩ := Prod.mk.inj (Option.some.inj hstep)
    exact ⟨hwatch, hview, hlabels, hleft⟩
  | enter c =>
    cases hskips : v.skips c with
    | true =>
      rw [Profiler.observe, (follows_profiler v).skipped hwatch hskips] at hstep
      obtain ⟨rfl, rfl⟩ := Prod.mk.inj (Option.some.inj hstep)
      simp only [View.moment, hskips]
      exact ⟨hwatch, hview, hlabels, .hidden hleft⟩
    | false =>
      rw [Profiler.observe, profiler, hwatch.skips, hskips, if_neg Bool.false_ne_true,
        hlabels] at hstep
      obtain ⟨rfl, rfl⟩ := Prod.mk.inj (Option.some.inj hstep)
      simp only [View.moment, hskips]
      refine ⟨hwatch, hview, ?_, .shown hleft⟩
      have hname : p.view.label c = l.view.label c := by rw [hwatch, hview]
      exact (withLabel_labelsUnder outer l.current? _).trans
        (congrArg (withLabel functionKey · outer) hname)
  | leave c =>
    cases l with | mk view enabled active =>
    cases hleft with
    | nil => cases hstep
    | shown hleft =>
      obtain ⟨rfl, rfl⟩ := Prod.mk.inj (Option.some.inj hstep)
      exact ⟨hwatch, hview, rfl, hleft⟩
    | hidden hleft =>
      obtain ⟨rfl, rfl⟩ := Prod.mk.inj (Option.some.inj hstep)
      exact ⟨hwatch, hview, hlabels, hleft⟩

/-- The run lemma, for runs that need not be over. -/
theorem Shows.follow (h : Shows outer v hooks p shown l)
    (hfollow : profiler.follow events (hooks, p) = some (hooks', q)) :
    ∃ shown',
      Shows outer v hooks' q shown' ((v.momentsWith shown events).foldl Labels.observe l) := by
  induction events generalizing hooks p shown l with
  | nil =>
    obtain ⟨rfl, rfl⟩ := Prod.mk.inj (Option.some.inj hfollow)
    exact ⟨shown, h⟩
  | cons e events ih =>
    rw [Profiler.follow, List.foldlM_cons] at hfollow
    obtain ⟨⟨hooks₁, p₁⟩, hstep, hrest⟩ := Option.bind_eq_some_iff.mp hfollow
    rw [View.momentsWith, List.foldl_append]
    exact ih (h.observe hstep) hrest

/-- The end of a call brings back the labels of its start. -/
theorem follow_restores (hp : p.Enabled v) {inner : List Event}
    (h : Nested Event.Passes Event.Closes inner) (c c' : Closure) (hooks : List (Hook Sampler)) :
    ∃ q, Resumes p q ∧
      profiler.follow (.enter c :: (inner ++ [.leave c'])) (hooks, p) = some (hooks, q) := by
  obtain ⟨calls, hcalls⟩ := exists_called v h
  cases hskips : v.skips c with
  | true =>
    obtain ⟨q, hcall, hq⟩ := Profiler.follow_hidden (follows_profiler v) hp hskips c' calls hooks
      (Profiler.follow_called (follows_profiler v) hcalls hp)
    exact ⟨q, hq, hcall []⟩
  | false =>
    obtain ⟨q, hcall, hq⟩ := Profiler.follow_shown (follows_profiler v) hp hskips c' calls hooks
      (Profiler.follow_called (follows_profiler v) hcalls)
    exact ⟨q, hq, hcall []⟩

end Sampler

/-! ### Runs -/

/-- The annotators of a run, whatever its outcome. With any library whose contexts carry the spans
that they come with, both tracing systems ask for exactly one span for every call that is shown,
inside the span of the innermost shown call around it or else in the context of the start, and end
the last one first; behind the run, the context is that of the start. At the end of every call, the
labels of a sampled run are those in front of its start. Spans as they are shown are those of a
library that numbers them, and the labels shown are those in force at any time. -/
theorem annotators_mirror_calls (fuel : Nat) (options : Options) (t : Tree) (m : Machine) (v : View)
    {lib : Tracing Context Span} (hlib : lib.Lawful) (context : Context)
    (labels : List (String × String)) :
    let sampler : Sampler := { view := v, enabled := true, labels }
    ∃ events calls, (runWith fuel options t m).2.events.toList = m.events.toList ++ events ∧
      Called v events calls ∧
      (∀ s : System, ∃ q, (s.profiler lib).follow events
        ([], { view := v, enabled := true, context }) = some ([], q) ∧
        q.context = context ∧ Mirrors lib s v [] context calls q.requests) ∧
      (∀ front c inner c' back, events = front ++ .enter c :: (inner ++ .leave c' :: back) →
        Nested Event.Passes Event.Closes inner →
        ∃ hooks p q, Sampler.profiler.follow front ([], sampler) = some (hooks, p) ∧
          Sampler.profiler.follow (front ++ .enter c :: (inner ++ [.leave c'])) ([], sampler) =
            some (hooks, q) ∧
          q.labels = p.labels) ∧
      (∀ s : System, let shown : Spans := { view := v, system := s, enabled := true }
        ∃ q, (s.profiler numbering).follow events
          ([], { view := v, enabled := true, context := none }) = some ([], q) ∧
          shown.follow events = q.requests.foldl Spans.collect shown) ∧
      ∀ front back, events = front ++ back →
        ∃ hooks p, Sampler.profiler.follow front ([], sampler) = some (hooks, p) ∧
        p.labels = labelsUnder labels
          ((v.moments front).foldl Labels.observe { view := v, enabled := true }).current? := by
  intro sampler
  obtain ⟨events, hevents, hnested⟩ := nested_runWith fuel options t m
  obtain ⟨calls, hcalls⟩ := exists_called v hnested
  have htraced : Traced (v.moments events) calls := hcalls.traced []
  -- no part of the run makes the sampler crash
  have hfront : ∀ front back, events = front ++ back → ∃ hooks p shown,
      Sampler.profiler.follow front ([], sampler) = some (hooks, p) ∧
        Sampler.Shows labels v hooks p shown
          ((v.moments front).foldl Labels.observe { view := v, enabled := true }) := by
    rintro front back rfl
    obtain ⟨q, hfollow, -⟩ :=
      Profiler.follow_called (p := sampler) (Sampler.follows_profiler v) hcalls rfl []
    rw [Profiler.follow_append] at hfollow
    obtain ⟨⟨hooks, p⟩, hp, -⟩ := Option.bind_eq_some_iff.mp hfollow
    have hstart : Sampler.Shows labels v [] sampler [] { view := v, enabled := true } :=
      ⟨rfl, rfl, rfl, .nil⟩
    obtain ⟨shown, hshows⟩ := hstart.follow hp
    exact ⟨hooks, p, shown, hp, hshows⟩
  refine ⟨events, calls, hevents, hcalls, fun s => ?_, fun front c inner c' back heq hinner => ?_,
    fun s => ?_, fun front back heq => ?_⟩
  · have hstart :
        ({ view := v, enabled := true, context } : Annotator Context Span).Enabled v := rfl
    obtain ⟨q, hfollow, hq⟩ := Profiler.follow_called (Annotator.follows hlib s v) hcalls hstart []
    obtain ⟨requests, hrequests, hmirrors⟩ := hq.requests
    exact ⟨q, hfollow, hq.context, hrequests ▸ hmirrors⟩
  · obtain ⟨hooks, p, shown, hp, hshows⟩ := hfront front _ heq
    obtain ⟨q, hq, hcall⟩ := Sampler.follow_restores hshows.watch hinner c c' hooks
    refine ⟨hooks, p, q, hp, ?_, hq.labels⟩
    rw [Profiler.follow_append, hp]
    exact hcall
  · intro shown
    have hstart :
        ({ view := v, enabled := true, context := none } : Annotator (Option Nat) Nat).Enabled v :=
      rfl
    obtain ⟨q, hfollow, hq⟩ :=
      Profiler.follow_called (Annotator.follows numbering_lawful s v) hcalls hstart []
    obtain ⟨requests, hrequests, hmirrors⟩ := hq.requests
    refine ⟨q, hfollow, ?_⟩
    rw [hrequests, Spans.follow, if_pos rfl, Spans.observe_traced htraced]
    exact (Spans.collect_mirrors (p := shown) hmirrors (fun _ _ _ h => htraced.became h)
      rfl rfl rfl rfl).symm
  · obtain ⟨hooks, p, shown, hp, hshows⟩ := hfront front back heq
    exact ⟨hooks, p, hp, hshows.labels⟩

/-- Two calls, one inside the other. -/
theorem annotators_mirror_calls_nested : ∃ t events calls q,
    Grammar.parseProgram "func()\x7bfunc()\x7b\x7d();\x7d();" = .ok t ∧
    (runWith 20 { calls := true } t {}).2.events.toList = events ∧ numbering.Lawful ∧
    Called {} events calls ∧
    (System.openCensus.profiler numbering).follow events
      ([], { view := {}, enabled := true, context := some 7 }) = some ([], q) ∧
    q.context = some 7 ∧ q.requests = [
      .start (some 7) "<anonymous>" (some 0) 0, .start (some 0) "<anonymous>" (some 1) 1,
      .annotate 1 [("arity", "0")], .finish 1, .annotate 0 [("arity", "0")], .finish 0] := by
  have hcheck : (Grammar.parseProgram "func()\x7bfunc()\x7b\x7d();\x7d();").toOption.any (fun t =>
      ((System.openCensus.profiler numbering).follow
        (runWith 20 { calls := true } t {}).2.events.toList
        ([], { view := {}, enabled := true, context := some 7 })).any fun running =>
          decide (running.2.requests = [
          .start (some 7) "<anonymous>" (some 0) 0, .start (some 0) "<anonymous>" (some 1) 1,
          .annotate 1 [("arity", "0")], .finish 1, .annotate 0 [("arity", "0")], .finish 0])) =
            true := by
    decide +kernel
  obtain ⟨t, hparse, hcheck⟩ := Grammar.exists_ok_of_any hcheck
  obtain ⟨events, calls, hevents, hcalls, hspans, -⟩ :=
    annotators_mirror_calls 20 { calls := true } t {} {} numbering_lawful (some 7) []
  obtain rfl : (runWith 20 { calls := true } t {}).2.events.toList = events := hevents
  obtain ⟨q, hfollow, hcontext, -⟩ := hspans .openCensus
  simp only [hfollow, Option.any_some, decide_eq_true_eq] at hcheck
  exact ⟨t, _, calls, q, hparse, rfl, numbering_lawful, hcalls, hfollow, hcontext, hcheck⟩

end ClosureLang.Profile

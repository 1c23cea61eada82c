import ClosureLang.Profile.Spans

/-! Annotators of calls: what is done when a call starts and when it ends, with a tracing library or
with the labels of a sampled run. -/
namespace ClosureLang.Profile

/-- What is done at the end of a call, with the function as it is then. `none` is a crash. -/
abbrev Hook (σ : Type) := Closure → σ → Option σ

/-- What is done at the start of a call, and what is left to do at its end. -/
abbrev Profiler (σ : Type) := Closure → σ → Option (Hook σ × σ)

/-- Nothing is left to do at the end of a call that is not shown. -/
def Hook.idle {σ : Type} : Hook σ := fun _ p => some p

namespace Profiler

variable {σ : Type}

/-- An event of a run, with what is left to do for the active calls, innermost first. -/
def observe (start : Profiler σ) : List (Hook σ) × σ → Event → Option (List (Hook σ) × σ)
  | (hooks, p), .enter c => (start c p).map fun r => (r.1 :: hooks, r.2)
  | (hook :: hooks, p), .leave c => (hook c p).map (hooks, ·)
  | ([], _), .leave _ => none
  | running, _ => some running

/-- Follows the calls of a run. -/
def follow (start : Profiler σ) (events : List Event) (running : List (Hook σ) × σ) :
    Option (List (Hook σ) × σ) :=
  events.foldlM start.observe running

end Profiler

/-- What all annotators have. -/
structure Watch where
  view : View
  enabled : Bool := false

def Watch.skips (p : Watch) (c : Closure) : Bool := !p.enabled || p.view.skips c

/-! ### Spans -/

/-- What a tracing library is asked for. -/
inductive Request (Context Span : Type) where
  /-- A span inside the one that a context carries. The answer is the span and a context for what is
  inside of it. -/
  | start (context : Context) (name : String) (inner : Context) (span : Span)
  | annotate (span : Span) (details : List (String × String))
  | finish (span : Span)
deriving DecidableEq

def Request.isStart {Context Span : Type} : Request Context Span → Bool
  | start .. => true
  | _ => false

/-- A tracing library. -/
structure Tracing (Context Span : Type) where
  /-- Starts a span. The answer may depend on all that the library was asked for before. -/
  start : List (Request Context Span) → Context → String → Context × Span
  /-- The span that a context carries. -/
  span? : Context → Option Span

structure Annotator (Context Span : Type) extends Watch where
  /-- The context that the next span is started in. -/
  context : Context
  /-- The span that ends next. -/
  span : Option Span := none
  /-- The contexts to go back to, innermost last, if the hooks do not keep them. -/
  contexts : List Context := []
  /-- What the library was asked for. -/
  requests : List (Request Context Span) := []

variable {Context Span : Type}

namespace Annotator

def start (lib : Tracing Context Span) (name : String) (p : Annotator Context Span) :
    Annotator Context Span :=
  let answer := lib.start p.requests p.context name
  { p with
    context := answer.1, span := some answer.2
    requests := p.requests ++ [.start p.context name answer.1 answer.2] }

def annotate (details : List (String × String)) (p : Annotator Context Span) :
    Option (Annotator Context Span) :=
  p.span.map fun span => { p with requests := p.requests ++ [.annotate span details] }

def finish (p : Annotator Context Span) : Option (Annotator Context Span) :=
  p.span.map fun span => { p with requests := p.requests ++ [.finish span] }

/-- Goes back to a context. -/
def resume (lib : Tracing Context Span) (context : Context) (p : Annotator Context Span) :
    Annotator Context Span :=
  { p with context, span := lib.span? context }

/-- Hooks keep the context of the start. Details are recorded at once. -/
def openTelemetry (lib : Tracing Context Span) : Profiler (Annotator Context Span) := fun c p =>
  if p.skips c then some (.idle, p)
  else
    ((p.start lib (p.view.label c)).annotate (System.openTelemetry.details p.view c)).map
      (fun _ q => q.finish.map (resume lib p.context), ·)

/-- Ends the current span and goes back to the innermost context. -/
def finishCall (lib : Tracing Context Span) : Hook (Annotator Context Span) := fun c p => do
  let p ← p.annotate (System.openCensus.details p.view c)
  let p ← p.finish
  let context ← p.contexts.getLast?
  return { p with contexts := p.contexts.dropLast }.resume lib context

/-- Contexts are stacked. Details are recorded at the end. -/
def openCensus (lib : Tracing Context Span) : Profiler (Annotator Context Span) := fun c p =>
  if p.skips c then some (.idle, p)
  else
    some (finishCall lib,
      { p with contexts := p.contexts ++ [p.context] }.start lib (p.view.label c))

end Annotator

/-- How the spans of a system are made. -/
def System.profiler (lib : Tracing Context Span) : System → Profiler (Annotator Context Span)
  | openTelemetry => Annotator.openTelemetry lib
  | openCensus => Annotator.openCensus lib

/-! ### Labels -/

/-- The key of the labels of functions. -/
def functionKey : String := "function"

/-- Labels with another one, which replaces one with its key. -/
def withLabel (key value : String) (labels : List (String × String)) : List (String × String) :=
  (key, value) :: labels.filter (·.1 ≠ key)

structure Sampler extends Watch where
  /-- The labels of the current context. -/
  labels : List (String × String) := []
  /-- The labels that the program runs under. -/
  applied : List (String × String) := []

namespace Sampler

/-- Makes some labels those of the context and of the program. -/
def apply (labels : List (String × String)) (p : Sampler) : Sampler :=
  { p with labels, applied := labels }

/-- Hooks keep the labels of the start. -/
def profiler : Profiler Sampler := fun c p =>
  if p.skips c then some (.idle, p)
  else
    some (fun _ q => some (q.apply p.labels),
      p.apply (withLabel functionKey (p.view.label c) p.labels))

end Sampler

end ClosureLang.Profile

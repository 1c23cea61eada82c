import ClosureLang.Profile.View

/-! Calls as spans of a tracing system: every shown call is a span inside the span of the
innermost shown call around it. -/
namespace ClosureLang.Profile

structure CallSpan where
  /-- Spans are numbered in the order in which they start. -/
  id : Nat
  name : String
  /-- The span around it; `none` is the context that the run started in. -/
  parent : Option Nat
  /-- What is known about the call. -/
  details : List (String × String)

/-- The tracing systems differ in what they record about a call. -/
inductive System where
  | openTelemetry
  | openCensus

namespace System

def name : System → String
  | openTelemetry => "opentelemetry"
  | openCensus => "opencensus"

def details (s : System) (v : View) (c : Closure) : List (String × String) :=
  let arity := Decimal.natText c.params.length
  match s, v.location? c with
  | openTelemetry, none =>
    [("code.function", c.label), ("code.namespace", "tinylang"), ("tinylang.arity", arity)]
  | openTelemetry, some loc =>
    [("code.column", Decimal.intText loc.col), ("code.filepath", loc.file),
      ("code.function", c.label), ("code.lineno", Decimal.intText loc.line),
      ("code.namespace", "tinylang"), ("tinylang.arity", arity)]
  | openCensus, none => [("arity", arity)]
  | openCensus, some loc =>
    [("arity", arity), ("file", loc.file), ("line", Decimal.intText loc.line)]

end System

structure Spans where
  view : View
  system : System
  /-- There is a context to start spans in. -/
  hasContext : Bool := true
  enabled : Bool := false
  /-- How many spans were started. -/
  started : Nat := 0
  /-- The spans of active calls, innermost first. -/
  active : List CallSpan := []
  ended : List CallSpan := []

namespace Spans

/-- The tracer that spans are started with unless the context names one. -/
def defaultTracer : String := "tinylang"

def enable (p : Spans) : Except ProfileError Spans :=
  if !p.hasContext then .error (.noParent p.system.name)
  else if p.enabled then .error .alreadyEnabled
  else .ok { p with enabled := true }

/-- Gives the spans a context and enables them. -/
def enableIn (hasContext : Bool) (p : Spans) : Except ProfileError Spans :=
  if hasContext then { p with hasContext }.enable else .error .noContext

def observe (p : Spans) : Moment → Spans
  | .start true c =>
    let span :=
      { id := p.started, name := p.view.label c, parent := p.active.head?.map (·.id)
        details := p.system.details p.view c }
    { p with started := p.started + 1, active := span :: p.active }
  | .finish true _ =>
    match p.active with
    | [] => p
    | span :: active => { p with active, ended := p.ended ++ [span] }
  | _ => p

/-- Follows the calls of a run. -/
def follow (events : List Event) (p : Spans) : Spans :=
  if p.enabled then (p.view.moments events).foldl observe p else p

/-- The place of the parent among the ended spans. -/
def parentPlace? (p : Spans) (span : CallSpan) : Option Nat :=
  span.parent.bind fun id => p.ended.findIdx? (·.id = id)

end Spans

end ClosureLang.Profile

import ClosureLang.Profile.View

/-! Profiles in the callgrind format. A record is written when its call ends, and lists the calls
made from it. Names are numbered when they are first written. What a run costs is not measured:
`T` and `M` stand for the time and the memory of a line. -/
namespace ClosureLang.Profile

/-- An output that takes text piece by piece. -/
structure Sink where
  accepted : Array String := #[]
  /-- The number of pieces that fit; `none` sets no limit. -/
  capacity : Option Nat := none
  closed : Bool := false

namespace Sink

def isFull (s : Sink) : Bool :=
  match s.capacity with
  | none => false
  | some n => n ≤ s.accepted.size

/-- Writes pieces up to the first that does not fit, and tells whether all of them did. -/
def writeAll (s : Sink) : List String → Bool × Sink
  | [] => (true, s)
  | piece :: pieces =>
    if s.isFull then (false, s) else writeAll { s with accepted := s.accepted.push piece } pieces

def text (s : Sink) : String := String.join s.accepted.toList

end Sink

/-- A function as its callers refer to it. -/
structure Site where
  name : String
  file : String
  line : Int

/-- An active call. -/
structure Frame where
  site : Site
  /-- The calls made from it so far, in order. -/
  callees : List Site := []

structure Callgrind where
  view : View
  sink : Option Sink := none
  enabled : Bool := false
  /-- Writing a record has failed. -/
  failed : Bool := false
  /-- The names written so far; each is known by its place. -/
  names : List String := []
  /-- The active calls, innermost first. -/
  frames : List Frame := []

namespace Callgrind

abbrev Step := EStateM ProfileError Callgrind

/-- The number of a name, with the name itself the first time. -/
def reference (name : String) : StateM (List String) String := fun names =>
  match names.idxOf? name with
  | some i => ("(" ++ Decimal.natText (i + 1) ++ ")", names)
  | none => ("(" ++ Decimal.natText (names.length + 1) ++ ") " ++ name, names ++ [name])

def costLine (line : Int) : String := Decimal.intText line ++ " T M\n"

/-- The lines about one call made from a record. -/
def calleeLines (callee : Site) : StateM (List String) (List String) := do
  let file ← reference callee.file
  let name ← reference callee.name
  return ["cfl=" ++ file ++ "\n", "cfn=" ++ name ++ "\n", "calls=1 0 0\n", costLine callee.line]

/-- The lines of a record. -/
def recordLines (site : Site) (callees : List Site) : StateM (List String) (List String) := do
  let file ← reference site.file
  let name ← reference site.name
  let calls ← callees.mapM calleeLines
  return ["fl=" ++ file ++ "\n", "fn=" ++ name ++ "\n", costLine site.line] ++
    calls.flatten ++ ["\n"]

/-- The lines in front of the records. The version of the build environment, which the creator line
gives in parentheses, is left out. -/
def header : List String :=
  ["version: 1\ncreator: tinylang 0.1\n", "cmd: Execute\npart: 1\npositions: line\n\n",
    "events: Time_(ns) Memory_(bytes)\n\n"]

def summary : List String := ["summary T M\n\n"]

/-- The record of the program itself. -/
def entryPoint : Site := { name := "ENTRYPOINT", file := "-", line := 0 }

def siteOf (v : View) (c : Closure) : Site :=
  match v.location? c with
  | none => { name := v.label c, file := "-", line := 0 }
  | some loc => { name := v.label c, file := loc.file, line := loc.line }

/-- Notes a call in the innermost record and opens a record for it. -/
def push (site : Site) (p : Callgrind) : Callgrind :=
  match p.frames with
  | [] => { p with frames := [{ site }] }
  | f :: fs => { p with frames := { site } :: { f with callees := f.callees ++ [site] } :: fs }

/-- Sets the output, which is possible only before the profile is enabled. -/
def setSink (sink : Sink) : Step Unit := do
  if (← get).enabled then throw .alreadyEnabled
  modify fun p => { p with sink := some sink }

/-- Writes the header and starts the record of the program. An enabled profile starts over, too,
before it is found to be enabled. -/
def enable : Step Unit := do
  match (← get).sink with
  | none => throw .noOutput
  | some sink =>
    let (done, sink) := sink.writeAll header
    modify fun p => { p with sink := some sink }
    if !done then throw .diskFull
    modify fun p => push entryPoint { p with names := [], frames := [] }
    if (← get).enabled then throw .alreadyEnabled
    modify fun p => { p with enabled := true }

def start (c : Closure) (p : Callgrind) : Callgrind := p.push (siteOf p.view c)

/-- Writes the record of the innermost call. The function may have got its name since the call
started. -/
def finish (c : Closure) (p : Callgrind) : Callgrind :=
  match p.frames with
  | [] => p
  | f :: fs =>
    let p := { p with frames := fs }
    match p.failed, p.sink with
    | false, some sink =>
      let (lines, names) := recordLines { f.site with name := p.view.label c } f.callees p.names
      let (done, sink) := sink.writeAll lines
      { p with names, sink := some sink, failed := !done }
    | _, _ => p

def observe (p : Callgrind) : Moment → Callgrind
  | .start true c => p.start c
  | .finish true c => p.finish c
  | _ => p

/-- Follows the calls of a run. -/
def follow (events : List Event) (p : Callgrind) : Callgrind :=
  if p.enabled then (p.view.moments events).foldl observe p else p

/-- Writes the record of the program and closes the output. -/
def complete : Step Unit := do
  let p ← get
  set { p with frames := p.frames.tail }
  if p.failed then throw .diskFull
  match p.frames, p.sink with
  | f :: _, some sink =>
    let (lines, names) := recordLines f.site f.callees p.names
    let (done, sink) := sink.writeAll (lines ++ summary)
    modify fun p => { p with names, sink := some { sink with closed := done } }
    if !done then throw .diskFull
  | _, _ => throw .notEnabled

end Callgrind

end ClosureLang.Profile

import ClosureLang.Command.Source
import ClosureLang.Profile.Callgrind
import ClosureLang.Profile.Spans
import ClosureLang.Session

/-! Running programs, on request under the eyes of a profiler. -/
namespace ClosureLang.Command

open ClosureLang.Profile

/-- The profiles that a run can write. -/
inductive ProfileChoice where
  | callgrind (path : String)
  /-- Samples of a run are taken from outside; only the file is prepared here. -/
  | samples (path : String)
  | spans (system : System)

namespace ProfileChoice

/-- The choices that flags make. -/
def all (a : Arguments) : List ProfileChoice :=
  (if a.text "callgrind" = "" then [] else [callgrind (a.text "callgrind")]) ++
    (if a.text "cpuprofile" = "" then [] else [samples (a.text "cpuprofile")]) ++
    (if a.isOn "otel" then [spans .openTelemetry] else []) ++
    (if a.isOn "opencensus" then [spans .openCensus] else [])

def severalMessage : String :=
  "only one of --callgrind, --cpuprofile, --otel and --opencensus may be given"

/-- Functions are located in a program only if it is the only one. -/
def view (namedOnly : Bool) (sources : List Source) : View :=
  let skips : Closure → Bool := if namedOnly then isUnnamed else fun _ => false
  match sources with
  | [src] => { skips, file := src.name, source := src.text }
  | _ => { skips }

end ProfileChoice

/-- A profiler at work. -/
inductive Observer where
  | idle
  | callgrind (path : String) (p : Callgrind)
  | spans (p : Spans)

namespace Observer

def isActive : Observer → Bool
  | idle => false
  | _ => true

/-- The name that a tracing system's spans are reported under. -/
def spanSource : System → String
  | .openTelemetry => "otel"
  | .openCensus => "opencensus"

/-- The report of a span that has ended. Its duration is not measured: `T` stands for it. -/
def spanLine (system : System) (name : String) : String :=
  spanSource system ++ ": span " ++ name ++ " T\n"

/-- Follows spans event by event. The text holds what events write and the spans that end. -/
def narrate : Spans → List Bool → List Event → String × Spans
  | p, _, [] => ("", p)
  | p, active, e :: events =>
    let (active, moment) := p.view.moment active e
    let q := (moment.map p.observe).getD p
    let ended := (q.ended.drop p.ended.length).map fun span => spanLine q.system span.name
    let (rest, r) := narrate q active events
    (Session.eventText e ++ String.join ended ++ rest, r)

/-- What is written while events pass, and the observer behind them. -/
def watch (o : Observer) (events : List Event) : String × Observer :=
  match o with
  | idle => (String.join (events.map Session.eventText), idle)
  | callgrind path p =>
    (String.join (events.map Session.eventText), callgrind path (p.follow events))
  | spans p =>
    let (text, p) := narrate p [] events
    (text, spans p)

/-- A profile that writes to an output of its own. -/
def startCallgrind (path : String) (view : View) : Except ProfileError Observer :=
  let start : Callgrind.Step Unit := do
    Callgrind.setSink {}
    Callgrind.enable
  match start.run { view } with
  | .ok () p => .ok (callgrind path p)
  | .error e _ => .error e

variable {m : Type → Type} [Monad m] [Host m]

/-- Prepares a profiler; the message tells why that is not possible. -/
def start (choices : List ProfileChoice) (view : View) : m (Except String Observer) := do
  match choices with
  | [] => return .ok idle
  | [.callgrind path] =>
    match ← Host.write path "" with
    | .error e => return .error e.message
    | .ok () => return (startCallgrind path view).mapError ProfileError.startMessage
  | [.samples path] =>
    match ← Host.write path "" with
    | .error e => return .error e.message
    | .ok () => return .ok idle
  | [.spans system] =>
    return ((Spans.enable { view, system }).map spans).mapError ProfileError.startMessage
  | _ => return .error ProfileChoice.severalMessage

/-- Ends the profile. -/
def stop (o : Observer) : m Unit := do
  match o with
  | idle => return
  | spans p =>
    match p.system with
    | .openTelemetry => Host.err (spanLine p.system "run")
    | .openCensus => return
  | callgrind path p =>
    match Callgrind.complete.run p with
    | .error e _ => Host.errLine ("profiler: " ++ e.message)
    | .ok () p =>
      match ← Host.write path ((p.sink.map Sink.text).getD "") with
      | .ok () => return
      | .error e => Host.errLine ("profiler: " ++ e.message)

end Observer

section Running

variable {m : Type → Type} [Monad m] [Host m]

/-- Runs programs one after the other on one machine, up to the first that fails. -/
def runSources (settings : Settings) (dialect : Dialect) (options : Options) :
    List Source → Machine → Observer → m (UInt32 × Observer)
  | [], _, observer => return (0, observer)
  | src :: sources, machine, observer => do
    match dialect.read src.text with
    | .error e =>
      Host.err (settings.failureText src (.unreadable e) false)
      return (1, observer)
    | .ok tree =>
      let (o, machine) := run options tree machine
      let (events, machine) := machine.drain
      let (text, observer) := observer.watch events
      Host.err text
      if o.out ≠ "" then Host.outLine o.out
      match o.stop with
      | some stop =>
        Host.err (settings.failureText src (.stopped stop) true)
        return (1, observer)
      | none => runSources settings dialect options sources machine observer

/-- The `run` command. -/
def runPrograms (settings : Settings) (a : Arguments) : m UInt32 := do
  match ← Source.readAll a.words (a.isOn "expression") with
  | .error e =>
    Host.errLine e.message
    return 2
  | .ok sources =>
    match ← Observer.start (ProfileChoice.all a)
      (ProfileChoice.view (a.isOn "named-only") sources) with
    | .error message =>
      Host.errLine message
      return 2
    | .ok observer =>
      let dialect : Dialect := if a.isOn "sexp" then .canonical else .source
      let options : Options :=
        { fold := settings.fold, maxDepth := settings.maxDepth, trace := settings.trace
          calls := observer.isActive }
      let (code, observer) ← runSources settings dialect options sources {} observer
      observer.stop
      return code

end Running

end ClosureLang.Command

import ClosureLang.Location
import ClosureLang.Run.Machine

/-! Calls as profiles show them: which of them count, under which name, and at which place. -/
namespace ClosureLang.Profile

inductive ProfileError where
  | alreadyEnabled
  | notEnabled
  | noOutput
  | diskFull
  /-- Spans of a tracing system need a parent. -/
  | noParent (system : String)
  | noContext

def ProfileError.message : ProfileError → String
  | alreadyEnabled => "profiler already enabled"
  | notEnabled => "profiler was not enabled"
  | noOutput => "no output set in profiler"
  | diskFull => "disk full"
  | noParent system => "we can only append spans to a context that is linked to " ++ system
  | noContext => "set a context to use this function"

/-- The message of a run that cannot start because of its profiler. -/
def ProfileError.startMessage (e : ProfileError) : String :=
  "unable to enable profiler: " ++ e.message

/-- Blanks and underscores, the characters that separate the words of a label. -/
def isSeparator (c : Char) : Bool :=
  c = '\t' || c = '\n' || c = '\x0c' || c = '\r' || c = ' ' || c = '_'

/-- One underscore for every run of separators. -/
def joinWords : List Char → List Char
  | [] => []
  | c :: cs =>
    if isSeparator c then
      match cs with
      | [] => ['_']
      | d :: _ => if isSeparator d then joinWords cs else '_' :: joinWords cs
    else c :: joinWords cs

/-- The visible characters of ASCII. -/
def isVisible (c : Char) : Bool := 0x21 ≤ c.toNat && c.toNat ≤ 0x7E

/-- A label without blanks, cut at the first character that is not visible. -/
def cleanLabel (s : String) : String :=
  String.ofList ((joinWords (Text.trim s).toList).takeWhile isVisible)

def typeOrGeneric (type : String) : String := if type = "" then Tree.genericType else type

/-- The name of a function followed by the types of its parameters and of its result. -/
def signatureLabel (c : Closure) : String :=
  let types := (List.range c.params.length).map fun i => typeOrGeneric (c.paramType i)
  c.label ++ "(" ++ Text.join "," types ++ ")->" ++ typeOrGeneric c.returnType

/-- How a profile looks at calls. -/
structure View where
  /-- Calls of these functions are not shown. -/
  skips : Closure → Bool := fun _ => false
  /-- Names for functions in place of their own. -/
  labeler : Option (Closure → String) := none
  file : String := ""
  /-- The program text, empty if unknown. -/
  source : String := ""

namespace View

/-- The name a function is shown under: its own one if the labeler gives none. -/
def label (v : View) (c : Closure) : String :=
  match v.labeler with
  | none => c.label
  | some labeler =>
    let label := cleanLabel (labeler c)
    if label = "" then c.label else label

/-- Where the function stands in the program, if its text is known. -/
def location? (v : View) (c : Closure) : Option Location :=
  if v.source = "" then none else c.node.offset?.map (Location.locate v.file v.source)

end View

/-- Functions that never got a name. -/
def isUnnamed (c : Closure) : Bool := c.name = ""

/-- The start or the end of a call. A call whose start was not shown is not shown at its end
either, even if its function got a name in between. -/
inductive Moment where
  | start (shown : Bool) (fn : Closure)
  | finish (shown : Bool) (fn : Closure)

/-- The moment that an event is, if it is one. `active` tells which of the active calls are shown,
innermost first, and changes with the event. -/
def View.moment (v : View) (active : List Bool) : Event → List Bool × Option Moment
  | .enter c => ((!v.skips c) :: active, some (.start (!v.skips c) c))
  | .leave c => (active.tail, some (.finish (active.headD true) c))
  | _ => (active, none)

def View.momentsWith (v : View) : List Bool → List Event → List Moment
  | _, [] => []
  | active, e :: events =>
    (v.moment active e).2.toList ++ v.momentsWith (v.moment active e).1 events

/-- The moments of a run. -/
def View.moments (v : View) (events : List Event) : List Moment := v.momentsWith [] events

end ClosureLang.Profile

import ClosureLang.Fold
import ClosureLang.Grammar.Parser
import ClosureLang.Run.Eval
import ClosureLang.Tree.Reader

/-! Whole programs on a machine that keeps its global scope from one program to the next. -/
namespace ClosureLang

namespace Machine

/-- Fuel that no program which ends in practice uses up. -/
def ample : Nat := 1000000000000000000

/-- The machine ready for the next program: only the store and the events stay. -/
def ready (m : Machine) : Machine := { store := m.store, events := m.events }

/-- The events so far, and the machine without them. -/
def drain (m : Machine) : List Event × Machine := (m.events.toList, { m with events := #[] })

/-- The global names with their bindings, sorted. -/
def globals (m : Machine) : List (String × Binding) :=
  (m.store.names Store.root).filterMap fun x => (m.store.binding? Store.root x).map (x, ·)

def closureLabel? (m : Machine) : Value → Option String
  | .int _ => none
  | .closure id => (m.store.closure? id).map Closure.label

end Machine

/-- What a program printed, without the last line feed, and why it stopped early, if it did. -/
structure Output where
  out : String
  stop : Option Stop := none

/-- The output with the message of a failure as its last line. -/
def Output.text (o : Output) : String :=
  match o.stop with
  | none => o.out
  | some s => if o.out = "" then s.message else o.out ++ "\n" ++ s.message

/-- The tree that is run: folded if asked for, `none` if folding meets an absent node. -/
def Options.prepare (options : Options) (t : Tree) : Option Tree :=
  if options.fold then Fold.fold t else some t

/-- Runs a program with the given fuel. -/
def runWith (fuel : Nat) (options : Options) (t : Tree) (m : Machine) : Output × Machine :=
  match options.prepare t with
  | none => ({ out := "", stop := some .absentNode }, m.ready)
  | some t =>
    let outcome : Option Stop × Machine :=
      match exec options fuel t m.ready with
      | .ok () m => (none, m)
      | .error (.unknownNode kind) m =>
        let message := "tinylang: internal error: " ++ (Stop.unknownNode kind).message ++ "\n"
        (some (.unknownNode kind), { m with events := m.events.push (.internalError message) })
      | .error s m => (some s, m)
    ({ out := Text.stripEnd outcome.2.out "\n", stop := outcome.1 }, outcome.2)

def run (options : Options) (t : Tree) (m : Machine) : Output × Machine :=
  runWith Machine.ample options t m

/-- How program text is written. -/
inductive Dialect where
  | source
  | canonical

inductive ReadError where
  | syntaxError (e : Grammar.SyntaxError)
  | malformed (e : Canonical.Malformed)

def ReadError.message : ReadError → String
  | syntaxError e => e.message
  | malformed e => e.message

def Dialect.read (n : Dialect) (text : String) : Except ReadError Tree :=
  match n with
  | source => (Grammar.parseProgram text).mapError .syntaxError
  | canonical => (Canonical.parse text).mapError .malformed

/-- Reads and runs a program; a failure of the run becomes part of the text. -/
def load (n : Dialect) (options : Options) (text : String) (m : Machine) :
    Except ReadError (String × Machine) := do
  let (o, m) := run options (← n.read text) m
  return (o.text, m)

end ClosureLang

import ClosureLang.Profile.View

/-! The label of the function that is running, for profilers that sample a run. -/
namespace ClosureLang.Profile

/-- The labels in force: that of the innermost shown call, and those to go back to. -/
structure Labels where
  view : View
  enabled : Bool := false
  /-- The labels of the active shown calls, innermost first. -/
  active : List String := []

namespace Labels

def enable (p : Labels) : Except ProfileError Labels :=
  if p.enabled then .error .alreadyEnabled else .ok { p with enabled := true }

/-- The label in force. -/
def current? (p : Labels) : Option String := p.active.head?

def observe (p : Labels) : Moment → Labels
  | .start true c => { p with active := p.view.label c :: p.active }
  | .finish true _ => { p with active := p.active.tail }
  | _ => p

/-- Whether a moment starts or ends a call, with the label in force behind it. -/
structure Entry where
  isStart : Bool
  label : Option String

/-- What happens to the labels in the course of a run. Calls that are not shown leave an entry,
but change nothing. -/
def log (p : Labels) : List Moment → List Entry
  | [] => []
  | m :: ms =>
    let q := p.observe m
    let isStart := match m with
      | .start .. => true
      | .finish .. => false
    { isStart, label := q.current? } :: log q ms

end Labels

end ClosureLang.Profile

import ClosureLang.Fold
import ClosureLang.Lint.Finding

/-! The static checks. A check answers `none` only if a node that it needs is absent. -/
namespace ClosureLang.Lint

open ClosureLang.Tree

/-- What is checked: a tree and the text it was read from, which may be unknown. -/
structure Target where
  file : String
  source : String
  tree : Tree

/-- The place of a node, or of the whole file if the node is absent. -/
def Target.position (t : Target) (node : Tree) : Position :=
  match node.offset? with
  | none => { file := t.file, offset := -1 }
  | some offset =>
    if t.source = "" then { file := t.file, offset }
    else
      let loc := Location.locate t.file t.source offset
      { file := t.file, offset, line := loc.line, col := loc.col }

/-- A problem at a node, before the check that found it signs it. -/
structure Problem where
  node : Tree
  message : String
  notes : List String := []

structure Check where
  name : String
  doc : String
  severity : Severity
  run : Target → Option (List Problem)

/-- The nodes of one form, in preorder. -/
def nodesOf (f : Form) (t : Tree) : List Tree := t.nodes.filter (·.isForm f)

/-- Pairs of a node with the first earlier node of the same name. -/
def repeats (seen : List (String × Tree)) : List Tree → Option (List (String × Tree × Tree))
  | [] => some []
  | t :: ts => do
    let name ← t.name?
    match seen.lookup name with
    | some earlier => return (name, t, earlier) :: (← repeats seen ts)
    | none => repeats ((name, t) :: seen) ts

/-- The nodes below an absent or present node; `none` if it is absent. -/
def childrenOf? : Tree → Option (List Tree)
  | .absent => none
  | .node _ _ cs => some cs

def duplicateParams (t : Target) : Option (List Problem) := do
  let problems ← (nodesOf .function t.tree).mapM fun fn => do
    let pairs ← repeats [] (← childrenOf? (fn.child 0))
    return pairs.map fun (name, param, earlier) =>
      { node := param, message := "duplicate parameter " ++ name,
        notes := [name ++ " was first declared at " ++ (t.position earlier).text] : Problem }
  return problems.flatten

/-- The nodes that lie in no function. -/
def outsideFunctions (t : Tree) : List Tree :=
  (t.visitsWhere (!·.isForm .function)).map Visit.node

def toplevelReturns (t : Target) : Option (List Problem) :=
  some (((outsideFunctions t.tree).filter (·.isForm .ret)).map fun node =>
    { node, message := "ret outside of a function" })

def literalDivisions (t : Target) : Option (List Problem) := do
  let divisions := nodesOf (.binary .div) (← Fold.fold t.tree)
  return (divisions.filter fun div => (div.child 1).value? = some 0).map fun node =>
    { node, message := "division by zero" }

/-- The lookups of a name in an expression, outside functions since these run later. -/
def lookupsOf? (name : String) (expr : Tree) : Option (List Tree) :=
  ((outsideFunctions expr).filter (·.isForm .lookup)).filterMapM fun node => do
    let read ← (node.child 0).name?
    return if read = name then some node else none

def selfInitializers (t : Target) : Option (List Problem) := do
  let problems ← (nodesOf .declare t.tree).mapM fun decl => do
    let name ← (decl.child 0).name?
    let lookups ← lookupsOf? name (decl.child 1)
    return lookups.map fun node =>
      { node, message := "initializer of " ++ name ++ " refers to itself",
        notes := ["the initializer is evaluated before " ++ name ++ " is defined"] : Problem }
  return problems.flatten

/-- The parameters that are bound when a block starts, with their names: none unless the block
is the body of a function. -/
def boundParams? (v : Visit) : Option (List (String × Tree)) :=
  if v.parent.isForm .function ∧ v.index = 1 then do
    let params ← childrenOf? (v.parent.child 0)
    params.mapM fun p => do return (← p.name?, p)
  else some []

/-- Declarations in a block of names that are bound already, each with the earlier binding. -/
def redeclarations (scope : List (String × Tree)) : List Tree → Option (List (String × Tree × Tree))
  | [] => some []
  | .absent :: _ => none
  | stmt :: stmts =>
    if stmt.isForm .declare then do
      let ident := stmt.child 0
      let name ← ident.name?
      match scope.lookup name with
      | some earlier => return (name, stmt, earlier) :: (← redeclarations scope stmts)
      | none => redeclarations ((name, ident) :: scope) stmts
    else redeclarations scope stmts

def redeclared (t : Target) : Option (List Problem) := do
  let problems ← (t.tree.visits.filter (·.node.isForm .sequence)).mapM fun v => do
    let scope ← boundParams? v
    let pairs ← redeclarations scope.reverse v.node.children
    return pairs.map fun (name, stmt, earlier) =>
      { node := stmt, message := name ++ " redeclared in this block",
        notes := ["previous declaration at " ++ (t.position earlier).text] : Problem }
  return problems.flatten

/-- The statement behind the first return of a block that is not its last statement. -/
def behindReturn : List Tree → Option (Option Tree)
  | [] => some none
  | .absent :: _ => none
  | stmt :: rest =>
    if stmt.isForm .ret then
      match rest with
      | next :: _ => some (some next)
      | [] => some none
    else behindReturn rest

def unreachable (t : Target) : Option (List Problem) := do
  let found ← (nodesOf .sequence t.tree).mapM fun seq => behindReturn seq.children
  return (found.filterMap id).map fun node => { node, message := "unreachable statement" }

/-- All checks, in the order in which they run. -/
def checks : List Check := [
  { name := "duplicate-param"
    doc := "Check that function parameters have distinct names.\n\n" ++
      "A function literal with a repeated parameter name raises `duplicate parameter` when it " ++
      "is evaluated, even if it is never called."
    severity := .error
    run := duplicateParams },
  { name := "toplevel-return"
    doc := "Check that `ret` only appears inside a function body.\n\n" ++
      "Returning from the top level of a program, including from inside a top level `if` or " ++
      "`while` block, raises `illegal return`."
    severity := .error
    run := toplevelReturns },
  { name := "literal-div-zero"
    doc := "Check for division by a constant zero.\n\n" ++
      "The divisor is constant folded first so `x / (2 - 2)` is reported as well as `x / 0`."
    severity := .error
    run := literalDivisions },
  { name := "self-initializer"
    doc := "Check for declarations that read the variable being declared.\n\n" ++
      "The initializer of `var x = x + 1;` runs before x is defined, so it reads an outer x or " ++
      "fails with `undefined variable`. Recursive function literals are fine because their " ++
      "bodies run later."
    severity := .warning
    run := selfInitializers },
  { name := "redeclare"
    doc := "Check that a name is declared at most once per block.\n\n" ++
      "Declaring a name which is already bound in the same block, including a parameter in a " ++
      "function body, raises `variable already defined`. Each branch and loop body is a block " ++
      "of its own."
    severity := .error
    run := redeclared },
  { name := "unreachable"
    doc := "Report statements which follow `ret` in the same block.\n\n" ++
      "A block stops executing as soon as a return is pending, so the statements are never run."
    severity := .info
    run := unreachable }]

def Check.sign (c : Check) (t : Target) (p : Problem) : Finding :=
  { pos := t.position p.node, message := p.message, check := c.name, severity := c.severity,
    notes := p.notes }

def Check.findings (c : Check) (t : Target) : Option (List Finding) :=
  (c.run t).map (·.map (c.sign t))

end ClosureLang.Lint

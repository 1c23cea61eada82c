import ClosureLang.Layout
import ClosureLang.Location
import ClosureLang.Text.Indent
import ClosureLang.Text.Wrap

/-! Documentation of the declarations of a program: the comment lines right above them. -/
namespace ClosureLang

/-- The documentation of one declaration. -/
structure DeclDoc where
  name : String
  /-- The declaration without its value; a function shows its parameters. -/
  header : String
  doc : String
  line : Int

namespace DeclDoc

/-- The column at which documentation is wrapped. -/
def width : Nat := 76

def margin : Nat := 4

def headerOf (decl : Tree) : String :=
  let type := (decl.child 2).name?.getD "var"
  let name := (decl.child 0).name?.getD ""
  let value := decl.child 1
  let signature := if value.isForm .function then " = " ++ (Layout.signature? value).getD "" else ""
  type ++ " " ++ name ++ signature

/-- The text of a comment line; `none` for any other line. -/
def commentText? (line : String) : Option String :=
  (Text.stripStart? (Text.trim line) "#").map fun rest => Text.stripStart rest " "

/-- Values up to the first that is missing. -/
def takeSome : List (Option String) → List String
  | some s :: rest => s :: takeSome rest
  | _ => []

/-- The comment that ends right above a line, counted from one. -/
def commentAbove (lines : List String) (line : Int) : String :=
  let above := (lines.take (line - 1).toNat).reverse
  Text.join " " (takeSome (above.map commentText?)).reverse

def ofDeclaration (src : String) (lines : List String) (decl : Tree) : DeclDoc :=
  let line := (Location.locate "" src (decl.offset?.getD 0)).line
  { name := (decl.child 0).name?.getD "", header := headerOf decl,
    doc := commentAbove lines line, line }

/-- The declarations of the outermost block, in order. -/
def collect (src : String) : Except Grammar.SyntaxError (List DeclDoc) := do
  let t ← Grammar.parseProgram src
  let lines := Text.lines src
  return (t.children.filter (·.isForm .declare)).map (ofDeclaration src lines)

/-- The header and, indented below it, the wrapped documentation. -/
def text (d : DeclDoc) : String :=
  if d.doc = "" then d.header ++ "\n"
  else d.header ++ "\n" ++ Text.indent margin (Text.wrap width d.doc) ++ "\n"

end DeclDoc

end ClosureLang

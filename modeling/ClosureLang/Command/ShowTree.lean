import ClosureLang.Command.Source

/-! Showing the tree of a program. Names are written as YAML scalars. -/
namespace ClosureLang.Data.Yaml.Name

/-- Words that stand for truth values or for no value in some version of the format, lower case. -/
def reservedWords : List String := ["yes", "no", "on", "off", "true", "false", "null"]

def capitalized (s : String) : String :=
  match s.toList with
  | [] => ""
  | c :: cs => String.ofList (c.toUpper :: cs)

/-- Whether a name would not be read as text without quotes. -/
def isReserved (name : String) : Bool :=
  ["y", "Y", "n", "N"].contains name ||
    reservedWords.any fun w => [w, capitalized w, w.toUpper].contains name

/-- A name made of letters, digits and underscores as a scalar. -/
def text (name : String) : String := if isReserved name then "\"" ++ name ++ "\"" else name

end ClosureLang.Data.Yaml.Name

namespace ClosureLang.Command

/-- How a tree is written. -/
inductive TreeFormat where
  | canonical
  | yaml

def TreeFormat.ofName? : String → Option TreeFormat
  | "" | "sexp" => some canonical
  | "yaml" => some yaml
  | _ => none

def TreeFormat.unknownMessage (name : String) : String :=
  "unknown output format " ++ Text.quoted name ++ " (want sexp or yaml)"

/-- The lines about a node itself; what does not apply is left out. -/
def nodeLines (src : Source) (label : Label) (offset : Int) : List String :=
  let loc := Location.locate src.name src.text offset
  let payload := match label with
    | .integer value => ["value: " ++ Decimal.wordText value]
    | .ident name => if name = "" then [] else ["name: " ++ Data.Yaml.Name.text name]
    | .form _ => []
  ["kind: " ++ label.kind.name, "line: " ++ Decimal.intText loc.line,
    "col: " ++ Decimal.intText loc.col] ++ payload

/-- The first line of a list item stands behind a dash, the others are aligned with it. -/
def itemLines : List String → List String
  | [] => []
  | line :: lines => ("  - " ++ line) :: lines.map ("    " ++ ·)

mutual

/-- A tree as the lines of a YAML mapping. -/
def yamlLines (src : Source) : Tree → List String
  | .absent => []
  | .node label offset cs =>
    nodeLines src label offset ++ (if cs.isEmpty then [] else ["children:"]) ++ yamlItems src cs

def yamlItems (src : Source) : List Tree → List String
  | [] => []
  | c :: cs => itemLines (yamlLines src c) ++ yamlItems src cs

end

/-- The written form of a tree. -/
def TreeFormat.render (format : TreeFormat) (src : Source) (t : Tree) : String :=
  match format with
  | canonical => t.canonical ++ "\n"
  | yaml => String.join ((yamlLines src t).map (· ++ "\n"))

section Showing

variable {m : Type → Type} [Monad m] [Host m]

def showSource (settings : Settings) (a : Arguments) (src : Source) : m UInt32 := do
  let (result, parser) := Grammar.Parser.parseAll {} .program src.text
  match result with
  | .error e =>
    Host.err (settings.failureText src (.unreadable (.syntaxError e)) false)
    return 1
  | .ok tree =>
    if a.isOn "stats" then
      Host.errLine ("memo hits: " ++ Decimal.natText parser.memo.hits ++ ", misses: " ++
        Decimal.natText parser.memo.misses)
    let tree := if a.isOn "fold" then (Fold.fold tree).getD tree else tree
    match TreeFormat.ofName? (a.text "output") with
    | some format =>
      Host.out (format.render src tree)
      return 0
    | none =>
      Host.errLine (TreeFormat.unknownMessage (a.text "output"))
      return 1

/-- The `parse` command. -/
def showTree (settings : Settings) (a : Arguments) : m UInt32 := do
  match ← Source.readAll a.words (a.isOn "expression") with
  | .error e =>
    Host.errLine e.message
    return 2
  | .ok sources =>
    match sources with
    | src :: _ => showSource settings a src
    | [] => return 0

end Showing

end ClosureLang.Command

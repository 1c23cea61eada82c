import ClosureLang.Editor.Index
import ClosureLang.Layout
import ClosureLang.Lint.Linter

/-! Open documents and what can be asked about one of them. -/
namespace ClosureLang.Editor

structure Document where
  uri : String
  version : Int
  content : String
  /-- The program, or why the content is none. -/
  parsed : Except Grammar.SyntaxError Tree
  /-- The names of the program; a document that is no program has none. -/
  index : Option Index

namespace Document

def ofContent (uri : String) (version : Int) (content : String) : Document :=
  let parsed := Grammar.parseProgram content
  let index := match parsed with
    | .ok t => Index.build? t content
    | .error _ => none
  { uri, version, content, parsed, index }

/-- A problem as it is shown in the editor. -/
structure Alert where
  range : Range
  /-- One for errors, two for warnings, three for hints. -/
  severity : Nat
  /-- Which tool found it. -/
  source : String
  /-- The check that found it. -/
  code : Option String := none
  message : String

def alertOfFinding (content : String) (f : Lint.Finding) : Alert where
  range := .ofBytes content f.pos.offset (tokenLength content f.pos.offset)
  severity := f.severity.code
  source := "tinylang-lint"
  code := some f.check
  message := f.message ++ String.join (f.notes.map fun note => "\nnote: " ++ note)

/-- The syntax error of a document, or the findings of the checks. -/
def alerts (checks : List Lint.Check) (d : Document) : List Alert :=
  match d.parsed with
  | .error e =>
    [{ range := .ofBytes d.content e.offset (tokenLength d.content e.offset), severity := 1
       source := "tinylang", message := e.message }]
  | .ok t =>
    match Lint.lintTree checks ⟨pathOfUri d.uri, d.content, t⟩ with
    | some fs => fs.map (alertOfFinding d.content)
    | none => []

/-- What stands under the cursor: a symbol and the offset of the identifier there. -/
structure Hit where
  id : SymbolId
  symbol : Symbol
  /-- Where the identifier under the cursor starts. -/
  offset : Int

/-- The offset of a position; a position that does not exist lies before everything. -/
def offsetOf (d : Document) (p : Position) : Int :=
  match p.offset? d.content with
  | some offset => offset
  | none => -1

def hit? (d : Document) (p : Position) : Option Hit := do
  let index ← d.index
  let (id, reference) ← index.at? (d.offsetOf p)
  let symbol ← index.symbol? id
  return { id, symbol, offset := (reference.map Reference.offset).getD symbol.offset }

/-- The range of an identifier that spells a symbol. -/
def nameRange (d : Document) (s : Symbol) (offset : Int) : Range :=
  .ofBytes d.content offset s.name.utf8ByteSize

def Hit.range (d : Document) (h : Hit) : Range := d.nameRange h.symbol h.offset

/-- The signature of a function or the declared type of a variable. -/
def detail? (s : Symbol) : Option String :=
  if !s.function.isAbsent then Layout.signature? s.function
  else if s.type ≠ "" then some s.type
  else none

def codeBlock (text : String) : String := "\n\n```tinylang\n" ++ text ++ "\n```"

/-- The description of a symbol. -/
def hoverText (d : Document) (s : Symbol) : String :=
  let code :=
    if !s.function.isAbsent then
      codeBlock
        ((if s.type = "" then "var" else s.type) ++ " " ++ s.name ++ " = " ++ (detail? s).getD "")
    else if s.type ≠ "" then codeBlock (s.type ++ " " ++ s.name)
    else ""
  let line := (Location.locate "" d.content s.offset).line
  "**" ++ s.kind.name ++ "** `" ++ s.name ++ "`" ++ code ++
    "\n\n*Defined at line " ++ Decimal.intText line ++ "*"

/-- The uses of a symbol. -/
def usesOf (d : Document) (id : SymbolId) : List Reference :=
  (d.index.map fun ix => ix.uses id).getD []

/-- The ranges of the declaration and of the uses of a symbol, in this order. -/
def occurrences (d : Document) (h : Hit) : List Range :=
  d.nameRange h.symbol h.symbol.offset :: (d.usesOf h.id).map fun r => d.nameRange h.symbol r.offset

/-- A word offered for completion. -/
structure Completion where
  label : String
  /-- Keywords have no symbol. -/
  kind : Option SymbolKind
  detail : Option String := none

/-- The names in scope and then the keywords that start with the word under the cursor. -/
def completions (d : Document) (p : Position) : List Completion :=
  let word := wordAt d.content p
  let symbols := match d.index with
    | none => []
    | some ix => (ix.visible (d.offsetOf p)).filterMap ix.symbol?
  let named := symbols.map fun s =>
    { label := s.name, kind := some s.kind, detail := detail? s : Completion }
  let reserved := Grammar.keywords.map fun w => { label := w, kind := none : Completion }
  (named ++ reserved).filter fun c => Text.startsWith c.label word

/-- The declarations of the outermost block. -/
def outline? (d : Document) : Option (List Symbol) :=
  d.index.map fun ix => ix.symbols.toList.filter Symbol.isGlobal

inductive FoldKind where
  | region
  | comment

/-- Lines that can be folded, counted from zero, both included. -/
structure Fold where
  startLine : Nat
  endLine : Nat
  kind : FoldKind

/-- The blocks of more than one line. The line of the closing brace stays visible. -/
def blockFolds (d : Document) : List Fold :=
  match d.parsed with
  | .error _ => []
  | .ok t =>
    (t.visits.filter fun v => v.node.isForm .sequence && !v.parent.isAbsent).filterMap fun v =>
      let offset := v.node.offset?.getD 0
      let first := (Location.locate "" d.content offset).line
      let last := (Location.locate "" d.content (closingBrace d.content offset)).line
      if first < last - 1 then
        some { startLine := (first - 1).toNat, endLine := (last - 2).toNat, kind := .region }
      else none

def isCommentLine (line : String) : Bool := Text.startsWith (Text.trim line) "#"

/-- The runs of at least two lines that satisfy a test; `start` is the first line of the current
run. -/
def runs (line : Nat) (start : Option Nat) : List Bool → List (Nat × Nat)
  | [] =>
    match start with
    | some first => if first + 1 < line then [(first, line - 1)] else []
    | none => []
  | true :: rest => runs (line + 1) (some (start.getD line)) rest
  | false :: rest =>
    match start with
    | some first =>
      if first + 1 < line then (first, line - 1) :: runs (line + 1) none rest
      else runs (line + 1) none rest
    | none => runs (line + 1) none rest

/-- The runs of comment lines. -/
def commentFolds (d : Document) : List Fold :=
  (runs 0 none ((Text.lines d.content).map isCommentLine)).map fun (startLine, endLine) =>
    { startLine, endLine, kind := .comment }

def folds (d : Document) : List Fold := d.blockFolds ++ d.commentFolds

/-- A replacement of a part of a document. -/
structure Edit where
  range : Range
  text : String

/-- The edit that puts the whole document into the fixed layout, if it changes anything. -/
def formatEdit? (d : Document) (style : Layout.Style) : Option Edit :=
  if d.content = "" then none
  else match Layout.format style d.content with
  | .error _ => none
  | .ok text =>
    if text = d.content then none
    else
      let feeds := d.content.toList.count '\n'
      some { range := ⟨⟨0, 0⟩, ⟨feeds + 1, 0⟩⟩, text }

end Document

end ClosureLang.Editor

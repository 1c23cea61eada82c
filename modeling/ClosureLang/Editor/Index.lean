import ClosureLang.Editor.Position
import ClosureLang.Tree.Walk

/-! The names of a program: where they are declared, where they are used, and where they can be
seen. -/
namespace ClosureLang.Editor

inductive SymbolKind where
  | plain
  | function
  | parameter
deriving DecidableEq, Repr

def SymbolKind.name : SymbolKind → String
  | plain => "variable"
  | function => "function"
  | parameter => "parameter"

abbrev SymbolId := Nat

abbrev BlockId := Nat

/-- A name bound by a declaration or a parameter list. -/
structure Symbol where
  name : String
  kind : SymbolKind
  /-- Where the declared identifier stands. -/
  offset : Int
  /-- The declared type tag, empty if there is none. -/
  type : String := ""
  /-- The function literal that a declaration binds, else absent. -/
  function : Tree := .absent
  /-- Declared in the outermost block. -/
  isGlobal : Bool := false
  /-- How many blocks lie around the declaration. -/
  depth : Nat

/-- A use of a symbol. Declarations are no uses. -/
structure Reference where
  symbol : SymbolId
  offset : Int
  /-- The use is the target of an assignment. -/
  assign : Bool

/-- A scope and its extent in the text. -/
structure Block where
  parent : Option BlockId
  start : Int
  stop : Nat
  /-- In order of declaration. -/
  symbols : List SymbolId := []
  depth : Nat

structure Index where
  symbols : Array Symbol := #[]
  references : List Reference := []
  /-- Uses of names that no visible symbol has. -/
  unresolved : List Tree := []
  /-- In order of creation, so that a block comes after the one around it. -/
  blocks : Array Block := #[]

namespace Index

/-- At most `limit` blocks from `b` outwards. -/
def enclosingUpTo (ix : Index) : Nat → BlockId → List BlockId
  | 0, _ => []
  | limit + 1, b =>
    match ix.blocks[b]? with
    | none => []
    | some block => b :: (block.parent.map (enclosingUpTo ix limit)).getD []

/-- The blocks from `b` outwards. -/
def enclosing (ix : Index) (b : BlockId) : List BlockId := ix.enclosingUpTo (b + 1) b

/-- The symbols of one block, the latest first. -/
def declared (ix : Index) (b : BlockId) : List SymbolId :=
  ((ix.blocks[b]?).map fun block => block.symbols.reverse).getD []

/-- The symbol that a name means in a block: the latest in the innermost block that has one. -/
def lookup (ix : Index) (b : BlockId) (name : String) : Option SymbolId :=
  ((ix.enclosing b).flatMap ix.declared).find? fun id =>
    (ix.symbols[id]?).any fun s => s.name = name

def newBlock (ix : Index) (block : Block) : BlockId × Index :=
  (ix.blocks.size, { ix with blocks := ix.blocks.push block })

/-- Adds a symbol to a block. -/
def declare (ix : Index) (b : BlockId) (s : Symbol) : Index :=
  { ix with
    symbols := ix.symbols.push s
    blocks := ix.blocks.modify b fun block =>
      { block with symbols := block.symbols ++ [ix.symbols.size] } }

/-- Notes a use of a name. -/
def use (ix : Index) (b : BlockId) (name : String) (offset : Int) (node : Tree)
    (assign : Bool) : Index :=
  match ix.lookup b name with
  | some symbol => { ix with references := ix.references ++ [{ symbol, offset, assign }] }
  | none => { ix with unresolved := ix.unresolved ++ [node] }

end Index

/-- An index under construction. A function body is resolved after the program around it, so that
it sees names declared behind the literal. -/
structure Indexing where
  index : Index := {}
  /-- The bodies still to be resolved, and their blocks. -/
  waiting : List (Tree × BlockId) := []

/-- Fails only if a node that is needed is absent. -/
abbrev Indexer := StateT Indexing Option

namespace Indexer

def depthOf (b : BlockId) : Indexer Nat := do
  return (((← get).index.blocks[b]?).map Block.depth).getD 0

/-- Opens a scope inside `parent`, from `start` to the brace that closes the block at `brace`. -/
def openBlock (src : String) (parent : BlockId) (start brace : Int) : Indexer BlockId := do
  let depth ← depthOf parent
  let s ← get
  let (b, index) := s.index.newBlock
    { parent := some parent, start, stop := closingBrace src brace, depth := depth + 1 }
  set { s with index }
  return b

def declare (b : BlockId) (s : Symbol) : Indexer Unit :=
  modify fun st => { st with index := st.index.declare b s }

def use (b : BlockId) (ident node : Tree) (assign : Bool) : Indexer Unit := do
  let name ← ident.name?
  modify fun st => { st with index := st.index.use b name (ident.offset?.getD 0) node assign }

/-- The symbol of a declaration. -/
def declaration (b : BlockId) (name value type : Tree) : Indexer Unit := do
  let ident ← name.name?
  let depth ← depthOf b
  if value.isAbsent then failure
  let isFunction := value.isForm .function
  declare b
    { name := ident, kind := if isFunction then .function else .plain
      offset := name.offset?.getD 0, type := type.name?.getD ""
      function := if isFunction then value else .absent
      isGlobal := b = 0, depth }

/-- The type tag of the parameter at a position, empty if it has none. -/
def paramTag (tags : List String) (i : Nat) : String :=
  match tags[i]? with
  | some tag => if tag = Tree.genericType then "" else tag
  | none => ""

/-- The symbols of a parameter list. -/
def paramSymbols (params : List Tree) (names tags : List String) (depth : Nat) : List Symbol :=
  (params.zip names).zipIdx.map fun ((param, name), i) =>
    { name, kind := .parameter, offset := param.offset?.getD 0, type := paramTag tags i, depth }

/-- Declares the parameters of a function and puts its body off. -/
def function (src : String) (b : BlockId) (fn : Tree) : Indexer Unit := do
  let body := fn.child 1
  let brace ← body.offset?
  let inner ← openBlock src b (fn.offset?.getD 0) brace
  let depth ← depthOf inner
  let names ← fn.paramNames?
  let tags ← (fn.child 2).typeTags?
  let symbols := paramSymbols (fn.child 0).children names tags depth
  modify fun st =>
    { index := symbols.foldl (fun ix s => ix.declare inner s) st.index
      waiting := st.waiting ++ [(body, inner)] }

mutual

/-- Resolves the uses in an expression. -/
def expr (src : String) (b : BlockId) : Tree → Indexer Unit
  | .absent => pure ()
  | .node label offset cs =>
    match label with
    | .form .lookup => use b ((cs[0]?).getD .absent) (.node label offset cs) false
    | .form .function => function src b (.node label offset cs)
    | _ => exprs src b cs

def exprs (src : String) (b : BlockId) : List Tree → Indexer Unit
  | [] => pure ()
  | t :: ts => do
    expr src b t
    exprs src b ts

/-- Resolves a statement. The value of a declaration does not see the declared name. -/
def statement (src : String) (b : BlockId) : Tree → Indexer Unit
  | .absent => failure
  | .node label offset cs =>
    match label with
    | .form .declare =>
      match cs with
      | name :: value :: rest => do
        expr src b value
        declaration b name value ((rest[0]?).getD .absent)
      | _ => failure
    | .form .assign => do
      match cs with
      | _ :: value :: _ => expr src b value
      | _ => pure ()
      let place := (cs[0]?).getD .absent
      use b (place.child 0) place true
    | .form .print | .form .ret =>
      match cs with
      | value :: _ => expr src b value
      | [] => pure ()
    | .form .ifThen | .form .whileDo => do
      match cs with
      | cond :: body :: _ =>
        expr src b cond
        block src b body
      | _ => failure
    | .form .ifElse => do
      match cs with
      | cond :: body :: alternative :: _ =>
        expr src b cond
        block src b body
        block src b alternative
      | _ => failure
    | .form .sequence => do
      let inner ← openBlock src b offset offset
      statements src inner cs
    | _ => expr src b (.node label offset cs)

/-- Resolves the statements of a block in a scope of its own. -/
def block (src : String) (b : BlockId) : Tree → Indexer Unit
  | .absent => failure
  | .node _ offset cs => do
    let inner ← openBlock src b offset offset
    statements src inner cs

def statements (src : String) (b : BlockId) : List Tree → Indexer Unit
  | [] => pure ()
  | t :: ts => do
    statement src b t
    statements src b ts

end

/-- Resolves up to `limit` of the bodies put off, in order; each may put off further ones. -/
def bodies (src : String) : Nat → Indexer Unit
  | 0 => pure ()
  | limit + 1 => do
    let st ← get
    match st.waiting with
    | [] => pure ()
    | (body, b) :: waiting =>
      set { st with waiting }
      statements src b body.children
      bodies src limit

end Indexer

namespace Index

/-- The index of a program. The text gives the extent of blocks and may be empty. Every body put
off belongs to a node of its own, so their number bounds the work. -/
def build? (t : Tree) (src : String) : Option Index :=
  match t with
  | .absent => some {}
  | .node _ _ cs => do
    let root : Block := { parent := none, start := 0, stop := src.utf8ByteSize, depth := 0 }
    let start : Indexing := { index := { blocks := #[root] } }
    let work : Indexer Unit := do
      Indexer.statements src 0 cs
      Indexer.bodies src t.nodes.length
    let (_, done) ← work.run start
    let references := done.index.references.mergeSort fun a b => a.offset ≤ b.offset
    return { done.index with references }

def symbol? (ix : Index) (id : SymbolId) : Option Symbol := ix.symbols[id]?

/-- Whether a name that starts at `start` covers an offset. -/
def covers (start : Int) (name : String) (offset : Int) : Bool :=
  start ≤ offset && offset < start + name.utf8ByteSize

/-- The symbol whose use or declaration covers an offset, with the use if it is one. -/
def at? (ix : Index) (offset : Int) : Option (SymbolId × Option Reference) :=
  let onUse := ix.references.find? fun r =>
    (ix.symbol? r.symbol).any fun s => covers r.offset s.name offset
  match onUse with
  | some r => some (r.symbol, some r)
  | none =>
    (ix.symbols.toList.findIdx? fun s => covers s.offset s.name offset).map fun id => (id, none)

/-- The uses of a symbol in the order of the text. -/
def uses (ix : Index) (id : SymbolId) : List Reference :=
  ix.references.filter fun r => r.symbol = id

/-- The innermost block around an offset. -/
def innermost (ix : Index) (offset : Int) : BlockId :=
  (List.range ix.blocks.size).foldl (fun inner b =>
    match ix.blocks[b]?, ix.blocks[inner]? with
    | some block, some found =>
      if block.start ≤ offset ∧ offset ≤ block.stop ∧ found.depth < block.depth ∧
          (ix.enclosing b).tail.contains inner
      then b else inner
    | _, _ => inner) 0

/-- Keeps the first symbol of every name. -/
def firstOfName (ix : Index) : List String → List SymbolId → List SymbolId
  | _, [] => []
  | seen, id :: ids =>
    match ix.symbol? id with
    | none => firstOfName ix seen ids
    | some s =>
      if seen.contains s.name then firstOfName ix seen ids
      else id :: firstOfName ix (s.name :: seen) ids

/-- The symbols in scope at an offset, innermost first. In the innermost block, variables count
only from their declaration on. -/
def visible (ix : Index) (offset : Int) : List SymbolId :=
  let inner := ix.innermost offset
  let inScope (b : BlockId) (id : SymbolId) : Bool :=
    (ix.symbol? id).any fun s => s.kind = .parameter || s.offset ≤ offset || b ≠ inner
  ix.firstOfName [] ((ix.enclosing inner).flatMap fun b => (ix.declared b).filter (inScope b))

end Index

end ClosureLang.Editor

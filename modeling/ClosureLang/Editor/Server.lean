import ClosureLang.Editor.Document
import ClosureLang.Text.Printable

/-! A language server: the requests of an editor, and the state between them. -/
namespace ClosureLang.Editor

/-- What an editor can ask for. -/
inductive Method where
  | start
  | shutdown
  | exit
  | setTrace
  | didOpen
  | didChange
  | didSave
  | didClose
  | hover
  | definition
  | completion
  | references
  | documentSymbol
  | rename
  | prepareRename
  | formatting
  | foldingRange
deriving DecidableEq, Repr

def Method.name : Method → String
  | start => "initialize"
  | shutdown => "shutdown"
  | exit => "exit"
  | setTrace => "$/setTrace"
  | didOpen => "textDocument/didOpen"
  | didChange => "textDocument/didChange"
  | didSave => "textDocument/didSave"
  | didClose => "textDocument/didClose"
  | hover => "textDocument/hover"
  | definition => "textDocument/definition"
  | completion => "textDocument/completion"
  | references => "textDocument/references"
  | documentSymbol => "textDocument/documentSymbol"
  | rename => "textDocument/rename"
  | prepareRename => "textDocument/prepareRename"
  | formatting => "textDocument/formatting"
  | foldingRange => "textDocument/foldingRange"

def Method.all : List Method :=
  [start, shutdown, exit, setTrace, didOpen, didChange, didSave, didClose, hover, definition,
    completion, references, documentSymbol, rename, prepareRename, formatting, foldingRange]

def Method.ofName? (name : String) : Option Method := all.find? fun m => m.name = name

/-- A request with its parameters. -/
inductive Request where
  /-- The root of the workspace, as an address or as a path. -/
  | start (rootUri rootPath : Option String)
  | shutdown
  | exit
  | setTrace
  | didOpen (uri : String) (version : Int) (text : String)
  /-- Every change holds the full text; the last one counts. -/
  | didChange (uri : String) (version : Int) (texts : List String)
  | didSave (uri : String)
  | didClose (uri : String)
  | hover (uri : String) (pos : Position)
  | definition (uri : String) (pos : Position)
  | completion (uri : String) (pos : Position)
  | references (uri : String) (pos : Position) (declaration : Bool)
  | documentSymbol (uri : String)
  | rename (uri : String) (pos : Position) (newName : String)
  | prepareRename (uri : String) (pos : Position)
  /-- The tab size, if the editor has one. -/
  | formatting (uri : String) (tabSize : Option Nat)
  | foldingRange (uri : String)

inductive ServerError where
  | notStarted
  | unknownMethod
  | documentNotFound
  | noSymbol
  | invalidName (name : String)

def ServerError.message : ServerError → String
  | notStarted => "server not initialized"
  | unknownMethod => "method not supported"
  | documentNotFound => "document not found"
  | noSymbol => "no symbol at position"
  | invalidName name => "invalid identifier: " ++ Text.quoted name

/-- A symbol with the range of its declaration. -/
structure OutlineEntry where
  symbol : Symbol
  range : Range

inductive Reply where
  | nothing
  /-- The server tells what it can do. -/
  | welcome
  | hover (text : String) (range : Range)
  | definition (uri : String) (range : Range)
  | completions (items : List Document.Completion)
  | locations (uri : String) (ranges : List Range)
  | outline (entries : List OutlineEntry)
  | edits (es : List Document.Edit)
  | renameable (range : Range) (name : String)
  | renamed (uri : String) (es : List Document.Edit)
  | folds (fs : List Document.Fold)

/-- The problems of a document, sent without being asked for. -/
structure Publication where
  uri : String
  alerts : List Document.Alert

structure Server where
  checks : List Lint.Check := Lint.checks
  style : Layout.Style := {}
  started : Bool := false
  rootUri : String := ""
  rootPath : String := ""
  docs : List Document := []
  /-- The documents that were changed and not checked since. -/
  unchecked : List String := []

namespace Server

def name : String := "tinylang-lsp"

def version : String := "0.1"

def doc? (s : Server) (uri : String) : Option Document := s.docs.find? fun d => d.uri = uri

def closeDoc (s : Server) (uri : String) : Server :=
  { s with docs := s.docs.filter fun d => d.uri ≠ uri }

def putDoc (s : Server) (d : Document) : Server :=
  { s.closeDoc d.uri with docs := (s.closeDoc d.uri).docs ++ [d] }

/-- The open documents in the order of their addresses. -/
def openDocs (s : Server) : List Document :=
  s.docs.mergeSort fun a b => !Text.before b.uri a.uri

def settled (s : Server) (uri : String) : Server :=
  { s with unchecked := s.unchecked.filter fun u => u ≠ uri }

def publication (s : Server) (d : Document) : Publication := ⟨d.uri, d.alerts s.checks⟩

/-- The publication of an open document. -/
def publish (s : Server) (uri : String) : List Publication :=
  ((s.doc? uri).map s.publication).toList

/-- What an editor gets back: a reply, publications, and the request to end the program. -/
structure Response where
  reply : Reply := .nothing
  publications : List Publication := []
  exits : Bool := false

/-- The request that a name stands for. Before the start every other request is refused. -/
def accept (s : Server) (method : String) : Except ServerError Method :=
  if !s.started ∧ method ≠ Method.start.name then .error .notStarted
  else match Method.ofName? method with
  | some m => .ok m
  | none => .error .unknownMethod

/-- Where the workspace is; the address wins over the path. -/
def withRoot (s : Server) (rootUri rootPath : Option String) : Server :=
  match rootUri, rootPath with
  | some uri, _ => { s with rootUri := uri, rootPath := pathOfUri uri }
  | none, some path => { s with rootUri := uriOfPath path, rootPath := path }
  | none, none => s

/-- Answers a question about the symbol under the cursor of an open document. -/
def about (s : Server) (uri : String) (pos : Position)
    (f : Document → Document.Hit → Reply) : Reply :=
  match s.doc? uri with
  | none => .nothing
  | some d => ((d.hit? pos).map (f d)).getD .nothing

def renameEdits (d : Document) (h : Document.Hit) (newName : String) : List Document.Edit :=
  (d.occurrences h).map fun range => ⟨range, newName⟩

def rename (s : Server) (uri : String) (pos : Position) (newName : String) :
    Except ServerError Reply :=
  match s.doc? uri with
  | none => .error .documentNotFound
  | some d =>
    match d.hit? pos with
    | none => .error .noSymbol
    | some h =>
      if isName newName then .ok (.renamed uri (renameEdits d h newName))
      else .error (.invalidName newName)

/-- An empty list of results is no result. -/
def someOrNothing {α : Type} (f : List α → Reply) (l : List α) : Reply :=
  if l.isEmpty then .nothing else f l

def style? (s : Server) (tabSize : Option Nat) : Layout.Style :=
  match tabSize with
  | some indentSize => { s.style with indentSize }
  | none => s.style

/-- The answers that need no more than the open documents. -/
def query (s : Server) : Request → Reply
  | .hover uri pos => s.about uri pos fun d h => .hover (d.hoverText h.symbol) (h.range d)
  | .definition uri pos => s.about uri pos fun d h =>
    .definition uri (d.nameRange h.symbol h.symbol.offset)
  | .references uri pos declaration => s.about uri pos fun d h =>
    someOrNothing (.locations uri) (if declaration then d.occurrences h else (d.occurrences h).tail)
  | .prepareRename uri pos => s.about uri pos fun d h => .renameable (h.range d) h.symbol.name
  | .completion uri pos =>
    ((s.doc? uri).map fun d => .completions (d.completions pos)).getD .nothing
  | .documentSymbol uri =>
    let outline := (s.doc? uri).bind fun d => d.outline?.map fun symbols =>
      .outline (symbols.map fun symbol => ⟨symbol, d.nameRange symbol symbol.offset⟩)
    outline.getD .nothing
  | .formatting uri tabSize =>
    let edit := (s.doc? uri).bind fun d => d.formatEdit? (s.style? tabSize)
    (edit.map fun e => .edits [e]).getD .nothing
  | .foldingRange uri => ((s.doc? uri).map fun d => someOrNothing .folds d.folds).getD .nothing
  | _ => .nothing

/-- Handles a request that was accepted. A change is not checked at once, but at the next save or
when the editor has been quiet for a while. -/
def handle (s : Server) (r : Request) : Except ServerError Response × Server :=
  match r with
  | .start rootUri rootPath =>
    (.ok { reply := .welcome }, { s.withRoot rootUri rootPath with started := true })
  | .shutdown => (.ok {}, { s with started := false, unchecked := [] })
  | .exit => (.ok { exits := true }, s)
  | .setTrace => (.ok {}, s)
  | .didOpen uri version text =>
    let s := s.putDoc (.ofContent uri version text)
    (.ok { publications := s.publish uri }, s)
  | .didChange uri version texts =>
    let s := s.putDoc (.ofContent uri version (texts.getLast?.getD ""))
    (.ok {}, { s with unchecked := (s.settled uri).unchecked ++ [uri] })
  | .didSave uri => (.ok { publications := s.publish uri }, s.settled uri)
  | .didClose uri => (.ok { publications := [⟨uri, []⟩] }, (s.settled uri).closeDoc uri)
  | .rename uri pos newName =>
    ((s.rename uri pos newName).map fun reply => { reply }, s)
  | r => (.ok { reply := s.query r }, s)

/-- The editor has been quiet: checks what was put off. -/
def settle (s : Server) : List Publication × Server :=
  (s.unchecked.flatMap s.publish, { s with unchecked := [] })

end Server

end ClosureLang.Editor

import ClosureLang.Data.Yaml.Tag
import ClosureLang.Data.Yaml.Token

/-! The nodes of a YAML document. The tokens of a document form one node; anchors name nodes, and
an alias stands for the node that was named last. -/
namespace ClosureLang.Data.Yaml

inductive Node where
  | scalar (tag : Tag) (text : String)
  | sequence (tag : Tag) (items : List Node)
  | mapping (tag : Tag) (entries : List (Node × Node))
  | reference (name : String) (target : Node)
  /-- An alias inside the node that it stands for. -/
  | loop (name : String)

namespace Node

/-- What stands where nothing is written. -/
def empty : Node := scalar .null ""

/-- What a name is an anchor of: a node, or one that is not complete, by the token it starts
with. -/
inductive Target where
  | node (n : Node)
  | pending (start : Nat)

structure Context where
  lexer : Lexer
  anchors : List (String × Target) := []
  /-- The beginnings of tags, by their handles. -/
  handles : List (String × String) := []

abbrev Build := StateT Context Option

namespace Build

def lexing {α : Type} (x : Lex α) : Build α := fun c =>
  (x.run c.lexer).map fun (a, lexer) => (a, { c with lexer })

def peek : Build Token := lexing Lex.peek

def take : Build Unit := lexing Lex.take

/-- The token behind the first one, which is taken. -/
def takePeek : Build Token := do
  take
  peek

def setAnchor (name : Option String) (t : Target) : Build Unit :=
  match name with
  | none => pure ()
  | some name => modify fun c => { c with anchors := (name, t) :: c.anchors }

/-- Completes the anchors of a node that started with a token. -/
def complete (start : Nat) (n : Node) : Build Unit := modify fun c =>
  { c with anchors := c.anchors.map fun (name, t) =>
      match t with
      | .pending s => (name, if s = start then .node n else t)
      | .node _ => (name, t) }

def aliasOf (name : String) : Build Node := do
  match ← ((← get).anchors.lookup name : Option Target) with
  | .node n => return .reference name n
  | .pending _ => return .loop name

/-- The name of a tag that is written with a handle. -/
def tagName (handle suffix : String) : Build String := do
  if handle = "" then return suffix
  else
    let stem ← ((← get).handles.lookup handle : Option String)
    if stem ++ suffix = "" then failure else return stem ++ suffix

/-- Anchor and tag of the node that starts here, in any order. -/
def properties : Build (Option String × Option String) := do
  match ← peek with
  | .anchor name =>
    match ← takePeek with
    | .tag handle suffix =>
      take
      discard peek
      return (some name, some (← tagName handle suffix))
    | _ => return (some name, none)
  | .tag handle suffix =>
    match ← takePeek with
    | .anchor name =>
      take
      discard peek
      return (some name, some (← tagName handle suffix))
    | _ => return (none, some (← tagName handle suffix))
  | _ => return (none, none)

end Build

open Build

/-- The tag of a node with a tag of the given name; a lone exclamation mark is no name. -/
def tagOr (given : Option String) (default : Tag) : Tag :=
  match given with
  | none => default
  | some name => if name = "" || name = "!" then default else .ofName name

/-- The tag of a scalar without one. -/
def scalarTag (text : String) (isPlain : Bool) : Tag :=
  if !isPlain then .text
  else if text = "<<" then .merge
  else (Tag.ofText true text).1

/-- A node with items that are built after its anchor is known. -/
def anchored (name : Option String) (build : Build Node) : Build Node := do
  let start := (← get).lexer.taken
  setAnchor name (.pending start)
  let n ← build
  if name.isSome then complete start n
  return n

/-- A node of which only the anchor or the tag is written. -/
def bare (anchor tag : Option String) : Build Node := do
  if anchor.isNone && tag.isNone then failure
  let n := scalar (tagOr tag .null) ""
  setAnchor anchor (.node n)
  return n

mutual

/-- Builds the node that starts here. Blocks start only where `block` holds, and a sequence that is
not indented only where `indentless` does. -/
def build (block indentless : Bool) : Nat → Build Node
  | 0 => failure
  | fuel + 1 => do
    match ← peek with
    | .reference name =>
      let n ← aliasOf name
      take
      return n
    | _ =>
      let (anchor, tag) ← properties
      match ← peek with
      | .scalar text isPlain =>
        let n := scalar (tagOr tag (scalarTag text isPlain)) text
        setAnchor anchor (.node n)
        take
        return n
      | .flowSequenceStart =>
        anchored anchor do
          take
          return sequence (tagOr tag .sequence) (← flowItems true fuel)
      | .flowMappingStart =>
        anchored anchor do
          take
          return mapping (tagOr tag .mapping) (← flowEntries true fuel)
      | .blockEntry =>
        if indentless then
          anchored anchor do return sequence (tagOr tag .sequence) (← indentlessItems fuel)
        else bare anchor tag
      | .blockSequenceStart =>
        if block then
          anchored anchor do
            take
            return sequence (tagOr tag .sequence) (← blockItems fuel)
        else bare anchor tag
      | .blockMappingStart =>
        if block then
          anchored anchor do
            take
            return mapping (tagOr tag .mapping) (← blockEntries fuel)
        else bare anchor tag
      | _ => bare anchor tag

/-- Builds a node, or the empty one before tokens that start none. -/
def buildUnless (ends : List Token) (block indentless : Bool) : Nat → Build Node
  | 0 => failure
  | fuel + 1 => do
    if ends.contains (← peek) then return empty else build block indentless fuel

def blockItems : Nat → Build (List Node)
  | 0 => failure
  | fuel + 1 => do
    match ← peek with
    | .blockEntry =>
      take
      let item ← buildUnless [.blockEntry, .blockEnd] true false fuel
      return item :: (← blockItems fuel)
    | .blockEnd =>
      take
      return []
    | _ => failure

/-- The items of a sequence that is indented like the mapping around it. -/
def indentlessItems : Nat → Build (List Node)
  | 0 => failure
  | fuel + 1 => do
    match ← peek with
    | .blockEntry =>
      take
      let item ← buildUnless [.blockEntry, .key, .value, .blockEnd] true false fuel
      return item :: (← indentlessItems fuel)
    | _ => return []

def blockEntries : Nat → Build (List (Node × Node))
  | 0 => failure
  | fuel + 1 => do
    match ← peek with
    | .key =>
      take
      let key ← buildUnless [.key, .value, .blockEnd] true true fuel
      match ← peek with
      | .value =>
        take
        let value ← buildUnless [.key, .value, .blockEnd] true true fuel
        return (key, value) :: (← blockEntries fuel)
      | _ => return (key, empty) :: (← blockEntries fuel)
    | .blockEnd =>
      take
      return []
    | _ => failure

/-- The items in square brackets. Commas separate them, and an entry of a mapping is an item,
too. -/
def flowItems (first : Bool) : Nat → Build (List Node)
  | 0 => failure
  | fuel + 1 => do
    match ← peek with
    | .flowSequenceEnd =>
      take
      return []
    | .flowEntry =>
      if first then failure
      else
        take
        flowItem fuel
    | _ => if first then flowItem fuel else failure

def flowItem : Nat → Build (List Node)
  | 0 => failure
  | fuel + 1 => do
    match ← peek with
    | .flowSequenceEnd =>
      take
      return []
    | .key =>
      take
      let entry ← flowPair fuel
      return mapping .mapping [entry] :: (← flowItems false fuel)
    | _ =>
      let item ← build false false fuel
      return item :: (← flowItems false fuel)

/-- An entry of a mapping that is an item in square brackets. Where its key is missing, the token
that shows it is taken. -/
def flowPair : Nat → Build (Node × Node)
  | 0 => failure
  | fuel + 1 => do
    let key ←
      if [Token.value, .flowEntry, .flowSequenceEnd].contains (← peek) then do
        take
        pure empty
      else build false false fuel
    match ← peek with
    | .value =>
      take
      return (key, ← buildUnless [.flowEntry, .flowSequenceEnd] false false fuel)
    | _ => return (key, empty)

/-- The entries in curly brackets, separated by commas. -/
def flowEntries (first : Bool) : Nat → Build (List (Node × Node))
  | 0 => failure
  | fuel + 1 => do
    match ← peek with
    | .flowMappingEnd =>
      take
      return []
    | .flowEntry =>
      if first then failure
      else
        take
        flowField fuel
    | _ => if first then flowField fuel else failure

def flowField : Nat → Build (List (Node × Node))
  | 0 => failure
  | fuel + 1 => do
    match ← peek with
    | .flowMappingEnd =>
      take
      return []
    | .key =>
      take
      let key ← buildUnless [.value, .flowEntry, .flowMappingEnd] false false fuel
      match ← peek with
      | .value =>
        take
        let value ← buildUnless [.flowEntry, .flowMappingEnd] false false fuel
        return (key, value) :: (← flowEntries false fuel)
      | _ => return (key, empty) :: (← flowEntries false fuel)
    | _ =>
      let key ← build false false fuel
      discard peek
      return (key, empty) :: (← flowEntries false fuel)

end

/-- Notes the directives before a document. At most one gives a version, which must be 1.1, and no
handle is declared twice. -/
def directives (versioned : Bool) : Nat → Build Unit
  | 0 => failure
  | fuel + 1 => do
    match ← peek with
    | .versionDirective major minor =>
      if versioned || major ≠ 1 || minor ≠ 1 then failure
      take
      directives true fuel
    | .tagDirective handle stem =>
      if ((← get).handles.lookup handle).isSome then failure
      modify fun c => { c with handles := c.handles ++ [(handle, stem)] }
      take
      directives versioned fuel
    | _ => return

/-- The handles that need no declaration. -/
def commonHandles : List (String × String) := [("!", "!"), ("!!", "tag:yaml.org,2002:")]

/-- Builds the first document; none if there is none. -/
def document (fuel : Nat) : Build (Option Node) := do
  match ← peek with
  | .streamEnd => return none
  | first =>
    let isExplicit := match first with
      | .versionDirective .. => true
      | .tagDirective .. => true
      | .documentStart => true
      | _ => false
    if isExplicit then directives false fuel
    modify fun c => { c with handles := c.handles ++ commonHandles }
    let n ←
      if isExplicit then do
        if (← peek) ≠ .documentStart then failure
        match ← takePeek with
        | .versionDirective .. => pure empty
        | .tagDirective .. => pure empty
        | .documentStart => pure empty
        | .documentEnd => pure empty
        | .streamEnd => pure empty
        | _ => build true false fuel
      else build true false fuel
    discard peek
    return some n

/-- The node of the first document of a text; none if there is no document. Texts that are not
well formed fail, at least up to the token behind the document. -/
def ofText? (text : String) : Option (Option Node) :=
  let chars := match text.toList with
    | c :: cs => if c = byteOrderMark then cs else c :: cs
    | [] => []
  if chars.all isAllowed then
    ((document (8 * chars.length + 64)).run { lexer := { cursor := { rest := chars } } }).map
      Prod.fst
  else none

end Node

end ClosureLang.Data.Yaml

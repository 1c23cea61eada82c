import ClosureLang.Data.Toml.Scalar

/-! TOML documents: keys with values, and tables and arrays of tables that are named by their paths.
Nothing is defined twice. -/
namespace ClosureLang.Data.Toml

abbrev Path := List String

/-- What is written for a key. -/
inductive Item where
  | scalar (v : Value)
  | array (items : List Item)
  | inlineTable (fields : List (Path × Item))

/-- A line of a document, or several for a value that goes on. -/
inductive Statement where
  | keyValue (path : Path) (item : Item)
  | table (path : Path)
  | arrayTable (path : Path)

def isKeyChar (c : Char) : Bool := c.isAlphanum || c = '_' || c = '-'

/-- Reads one part of a key, which may be quoted. -/
def simpleKey : Parse String
  | [] => none
  | c :: cs =>
    if c = '"' || c = '\'' then Quoted.read false (c :: cs)
    else
      let name := (c :: cs).takeWhile isKeyChar
      if name.isEmpty then none else some (String.ofList name, (c :: cs).drop name.length)

/-- Reads a key, whose parts are separated by points. -/
def keyFrom : Nat → Parse Path
  | 0, _ => none
  | fuel + 1, cs => do
    let (part, rest) ← simpleKey cs
    match skipSpace rest with
    | '.' :: more =>
      let (parts, rest) ← keyFrom fuel (skipSpace more)
      return (part :: parts, rest)
    | rest => return ([part], rest)

def key : Parse Path := fun cs => keyFrom (cs.length + 1) cs

/-- What follows a comment that starts here; the line break that ends it stays. -/
def skipComment (cs : List Char) : Option (List Char) :=
  let text := cs.takeWhile fun c => c ≠ '\n'
  let rest := cs.drop text.length
  let text := if rest.isEmpty then text else if text.getLast? = some '\r' then text.dropLast
  else text
  if text.all fun c => isAllowed c && c ≠ '\r' then some rest else none

/-- Skips blanks, line breaks and comments. -/
def skipLines : Nat → List Char → Option (List Char)
  | 0, _ => none
  | fuel + 1, cs =>
    match skipSpace cs with
    | '\n' :: more => skipLines fuel more
    | '\r' :: '\n' :: more => skipLines fuel more
    | '\r' :: _ => none
    | '#' :: more => (skipComment more).bind (skipLines fuel)
    | cs => some cs

def skipAllLines (cs : List Char) : Option (List Char) := skipLines (cs.length + 1) cs

mutual

/-- Reads a value. -/
def item : Nat → Parse Item
  | 0, _ => none
  | fuel + 1, cs =>
    match cs with
    | [] => none
    | c :: more =>
      if c = '"' || c = '\'' then (Quoted.read true cs).map fun (s, rest) =>
        (.scalar (.text s), rest)
      else if c = 't' then
        if "true".toList.isPrefixOf cs then some (.scalar (.bool true), cs.drop 4) else none
      else if c = 'f' then
        if "false".toList.isPrefixOf cs then some (.scalar (.bool false), cs.drop 5) else none
      else if c = '[' then (arrayFrom true fuel more).map fun (items, rest) => (.array items, rest)
      else if c = '\x7b' then
        (inlineFrom true fuel more).map fun (fields, rest) => (.inlineTable fields, rest)
      else (numberOrMoment cs).map fun (v, rest) => (.scalar v, rest)

/-- Reads the items of an array up to its end. A comma may follow the last one. -/
def arrayFrom (first : Bool) : Nat → Parse (List Item)
  | 0, _ => none
  | fuel + 1, cs => do
    match ← skipAllLines cs with
    | ']' :: rest => return ([], rest)
    | ',' :: more =>
      if first then failure
      match ← skipAllLines more with
      | ']' :: rest => return ([], rest)
      | rest => arrayItems fuel rest
    | rest => if first then arrayItems fuel rest else failure

def arrayItems : Nat → Parse (List Item)
  | 0, _ => none
  | fuel + 1, cs => do
    let (i, rest) ← item fuel cs
    let (items, rest) ← arrayFrom false fuel rest
    return (i :: items, rest)

/-- Reads the fields of an inline table up to its end. -/
def inlineFrom (first : Bool) : Nat → Parse (List (Path × Item))
  | 0, _ => none
  | fuel + 1, cs =>
    match skipSpace cs with
    | '\x7d' :: rest => some ([], rest)
    | ',' :: more => if first then none else inlineFields fuel (skipSpace more)
    | rest => if first then inlineFields fuel rest else none

def inlineFields : Nat → Parse (List (Path × Item))
  | 0, _ => none
  | fuel + 1, cs => do
    let (path, i, rest) ← field fuel cs
    let (fields, rest) ← inlineFrom false fuel rest
    return ((path, i) :: fields, rest)

/-- Reads a key and its value. -/
def field : Nat → List Char → Option (Path × Item × List Char)
  | 0, _ => none
  | fuel + 1, cs => do
    let (path, rest) ← key cs
    match rest with
    | '=' :: more =>
      let (i, rest) ← item fuel (skipSpace more)
      return (path, i, rest)
    | _ => none

end

/-- Reads the path of a table between brackets. -/
def header (closing : List Char) (cs : List Char) : Option (Path × List Char) := do
  let (path, rest) ← key (skipSpace cs)
  if closing.isPrefixOf rest then return (path, rest.drop closing.length) else failure

def statement (cs : List Char) : Option (Statement × List Char) :=
  match cs with
  | '[' :: '[' :: more => (header [']', ']'] more).map fun (path, rest) => (.arrayTable path, rest)
  | '[' :: more => (header [']'] more).map fun (path, rest) => (.table path, rest)
  | _ => (field (4 * cs.length + 8) cs).map fun (path, i, rest) => (.keyValue path i, rest)

/-- What follows the rest of a line, which may be a comment. -/
def endLine (cs : List Char) : Option (List Char) := do
  let rest ← match skipSpace cs with
    | '#' :: more => skipComment more
    | rest => some rest
  match rest with
  | [] => return []
  | '\n' :: more => return more
  | '\r' :: '\n' :: more => return more
  | _ => failure

/-- Reads the statements of a document. -/
def statementsFrom : Nat → List Char → Option (List Statement)
  | 0, _ => none
  | fuel + 1, cs => do
    match skipSpace cs with
    | [] => return []
    | c :: more =>
      if c = '\n' || c = '\r' || c = '#' then statementsFrom fuel (← endLine (c :: more))
      else
        let (s, rest) ← statement (c :: more)
        return s :: (← statementsFrom fuel (← endLine rest))

/-- What a path has been defined as. -/
inductive Role where
  | value
  | table
  | arrayTable
deriving DecidableEq

structure Definition where
  role : Role
  /-- Whether the table may not be opened again. -/
  isClosed : Bool
  /-- Whether the table was made by a key with points that may still be followed by others. -/
  isDotted : Bool

/-- The definitions of a document by their paths, and the table that is open. -/
structure Definitions where
  found : List (Path × Definition) := []
  current : Path := []

namespace Definitions

def get? (d : Definitions) (p : Path) : Option Definition := d.found.lookup p

def put (d : Definitions) (p : Path) (x : Definition) : Definitions :=
  { d with found := (p, x) :: d.found.filter (·.1 ≠ p) }

/-- Whether a path lies below another. -/
def isBelow (p q : Path) : Bool := p.length < q.length && p.isPrefixOf q

/-- Closes the tables that keys with points have made in the table that is open. -/
def close (d : Definitions) : Definitions :=
  { d with found := d.found.map fun (p, x) =>
      if isBelow d.current p && x.isDotted then (p, { x with isClosed := true, isDotted := false })
      else (p, x) }

/-- Forgets what is below a path. -/
def clear (d : Definitions) (p : Path) : Definitions :=
  { d with found := d.found.filter fun (q, _) => !isBelow p q }

/-- Defines the tables on the way to a table. -/
def openOuter (d : Definitions) (before : Path) : Path → Option Definitions
  | [] => some d
  | [_] => some d
  | name :: rest =>
    let p := before ++ [name]
    match d.get? p with
    | none => openOuter (d.put p ⟨.table, false, false⟩) p rest
    | some x => if x.role = .value then none else openOuter d p rest

/-- Opens a table that has not been opened before. -/
def openTable (d : Definitions) (p : Path) : Option Definitions := do
  let d ← d.close.openOuter [] p
  match d.get? p with
  | none => return { d.put p ⟨.table, true, false⟩ with current := p }
  | some x =>
    if x.role ≠ .table || x.isClosed then failure
    return { d.put p { x with isClosed := true } with current := p }

/-- Opens the next table of an array. -/
def openArrayTable (d : Definitions) (p : Path) : Option Definitions := do
  let d ← d.close.openOuter [] p
  match d.get? p with
  | none => return { d.put p ⟨.arrayTable, true, false⟩ with current := p }
  | some x =>
    if x.role ≠ .arrayTable then failure
    return { d.clear p with current := p }

/-- Defines a key in the table at `before`. -/
def define (d : Definitions) (before : Path) : Path → Option Definitions
  | [] => some d
  | [name] =>
    let p := before ++ [name]
    if (d.get? p).isSome then none else some (d.put p ⟨.value, false, true⟩)
  | name :: rest =>
    let p := before ++ [name]
    match d.get? p with
    | none => define (d.put p ⟨.table, false, true⟩) p rest
    | some x => if x.role ≠ .table || x.isClosed then none else define d p rest

/-- Whether the keys of an inline table can be defined together. -/
def areDistinct (paths : List Path) : Bool :=
  (paths.foldlM (fun d p => define d [] p) ({} : Definitions)).isSome

end Definitions

/-- Gives the key at the end of a path a value. In an array of tables, the last one is meant. -/
def setIn (t : Table) : Path → Value → Table
  | [], _ => t
  | [name], v => t.set name v
  | name :: path, v =>
    match t.get? name with
    | some (.list items) =>
      let last := match items.getLast? with
        | some (.table fields) => fields
        | _ => []
      t.set name (.list (items.dropLast ++ [.table (setIn last path v)]))
    | _ => t.set name (.table (setIn (t.below name) path v))

/-- The value at the end of a path. -/
def getIn? (t : Table) : Path → Option Value
  | [] => some (.table t)
  | [name] => t.get? name
  | name :: path =>
    match t.get? name with
    | some (.list items) =>
      match items.getLast? with
      | some (.table fields) => getIn? fields path
      | _ => none
    | some (.table fields) => getIn? fields path
    | _ => none

mutual

/-- The value of what is written for a key; none if a key is defined twice in it. -/
def Item.value? : Item → Option Value
  | .scalar v => some v
  | .array items => do return .list (← valuesOf? items)
  | .inlineTable fields => do
    if !Definitions.areDistinct (pathsOf fields) then failure
    return .table (← fieldsOf? [] fields)

def valuesOf? : List Item → Option (List Value)
  | [] => some []
  | i :: items => do return (← i.value?) :: (← valuesOf? items)

def pathsOf : List (Path × Item) → List Path
  | [] => []
  | (p, _) :: rest => p :: pathsOf rest

def fieldsOf? (t : Table) : List (Path × Item) → Option Table
  | [] => some t
  | (p, i) :: rest => do fieldsOf? (setIn t p (← i.value?)) rest

end

/-- The fields and definitions of a document after a statement. -/
def perform (t : Table) (d : Definitions) : Statement → Option (Table × Definitions)
  | .table p => do
    let d ← d.openTable p
    match getIn? t p with
    | some _ => return (t, d)
    | none => return (setIn t p (.table []), d)
  | .arrayTable p => do
    let d ← d.openArrayTable p
    match getIn? t p with
    | some (.list items) => return (setIn t p (.list (items ++ [.table []])), d)
    | _ => return (setIn t p (.list [.table []]), d)
  | .keyValue p i => do
    let d' ← d.define d.current p
    let v ← i.value?
    match d.current, getIn? t d.current with
    | [], _ => return (setIn t p v, d')
    | path, some (.list items) =>
      let last := match items.getLast? with
        | some (.table fields) => fields
        | _ => []
      return (setIn t path (.list (items.dropLast ++ [.table (setIn last p v)])), d')
    | path, some (.table fields) => return (setIn t path (.table (setIn fields p v)), d')
    | path, _ => return (setIn t path (.table (setIn [] p v)), d')

/-- The fields that a text describes. -/
def table? (text : String) : Option Table := do
  let cs := text.toList
  let statements ← statementsFrom (cs.length + 1) cs
  let (t, _) ← statements.foldlM (fun (t, d) s => perform t d s) (([] : Table), ({} : Definitions))
  return t

end ClosureLang.Data.Toml

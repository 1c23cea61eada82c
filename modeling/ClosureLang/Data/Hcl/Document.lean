import ClosureLang.Data.Hcl.Token
import ClosureLang.Data.Json

/-! HCL documents: items with keys, whose values are literals, lists, or objects with items. A text
that starts with a brace is read as JSON. -/
namespace ClosureLang.Data.Hcl

inductive Node where
  | literal (t : Token)
  | list (items : List Node)
  | object (items : List (List String × Node))

abbrev Item := List String × Node

/-- Readings at the start of tokens, which leave the rest. -/
abbrev Read (α : Type) := List Token → Option (α × List Token)

/-- Reads the keys of an item, and tells whether a sign of assignment follows them rather than a
brace. Only one key is assigned to. -/
def keys : Read (List String × Bool)
  | .ident name :: ts =>
    (keys ts).map fun ((names, assigned), rest) => ((name :: names, assigned), rest)
  | .string name :: ts =>
    (keys ts).map fun ((names, assigned), rest) => ((name :: names, assigned), rest)
  | .assign :: ts => some (([], true), ts)
  | .leftBrace :: ts => some (([], false), ts)
  | _ => none

def isLiteral : Token → Bool
  | .bool _ => true
  | .number _ => true
  | .real _ => true
  | .string _ => true
  | .heredoc _ => true
  | _ => false

mutual

/-- Reads a value. -/
def node : Nat → Read Node
  | 0, _ => none
  | _, [] => none
  | fuel + 1, t :: ts =>
    if isLiteral t then some (.literal t, ts)
    else if t = .leftBrace then (items true fuel ts).map fun (found, rest) => (.object found, rest)
    else if t = .leftBracket then (elements false fuel ts).map fun (found, rest) =>
      (.list found, rest)
    else none

/-- Reads the values of a list up to its end. Between two values there are commas. -/
def elements (needsComma : Bool) : Nat → Read (List Node)
  | 0, _ => none
  | _, [] => none
  | fuel + 1, t :: ts =>
    if t = .rightBracket then some ([], ts)
    else if t = .comma then elements false fuel ts
    else if needsComma then none
    else do
      let (n, rest) ← node fuel (t :: ts)
      let (more, rest) ← elements true fuel rest
      return (n :: more, rest)

/-- Reads items up to the brace that ends their object, or up to the end of the text. A comma may
follow each of them. -/
def items (inside : Bool) : Nat → Read (List Item)
  | 0, _ => none
  | _, [] => if inside then none else some ([], [])
  | fuel + 1, t :: ts =>
    if inside && t = .rightBrace then some ([], ts)
    else do
      let ((names, assigned), rest) ← keys (t :: ts)
      if names.isEmpty || (assigned && names.length ≠ 1) then failure
      let (n, rest) ←
        if assigned then node fuel rest
        else (items true fuel rest).map fun (found, rest) => (.object found, rest)
      let rest := if rest.head? = some .comma then rest.drop 1 else rest
      let (more, rest) ← items inside fuel rest
      return ((names, n) :: more, rest)

end

/-- The value of a literal. -/
def literal? : Token → Option Value
  | .bool b => some (.bool b)
  | .number text =>
    match Numeral.parse text with
    | .ok n => some (.int n)
    | .error _ => none
  | .real text => (Double.ofDecimal? text.toList).map .real
  | .string s => some (.text s)
  | .heredoc s => some (.text s)
  | _ => none

/-- The value of a literal that takes the place of a value of the same kind. -/
def replacement? (old : Value) (t : Token) : Option Value :=
  match old, t with
  | .bool _, .bool b => some (.bool b)
  | .bool _, .number text => (["0", "1"].idxOf? text).map fun n => .bool (n = 1)
  | .bool _, .string s =>
    (["0", "1", "false", "true"].idxOf? s.toLower).map fun n => .bool (n % 2 = 1)
  | .int _, .number text => literal? (.number text)
  | .int _, .string s => literal? (.number s)
  | .real _, .number text => (Double.ofDecimal? text.toList).map .real
  | .real _, .real text => literal? (.real text)
  | .text _, .number text => some (.text text)
  | .text _, .string s => some (.text s)
  | .text _, .heredoc s => some (.text s)
  | _, _ => none

/-- The value of a node that is given to a field which may have one. Objects are collected in
lists. -/
def assigned? (old : Option Value) (v : Value) (n : Node) : Option Value :=
  match old, n with
  | none, _ => some v
  | some old, .literal t => replacement? old t
  | some (.list items), _ =>
    match v with
    | .list more => some (.list (items ++ more))
    | _ => none
  | some _, _ => none

mutual

/-- The value of a node. -/
def Node.value? : Node → Option Value
  | .literal t => literal? t
  | .list found => do return .list (← values? found)
  | .object found => do return .list [.table (← fields? [] [] found)]

def values? : List Node → Option (List Value)
  | [] => some []
  | n :: rest => do return (← n.value?) :: (← values? rest)

/-- Adds the fields of items. Items with several keys are collected in their first field, and later
items with the same first key are passed over. -/
def fields? (t : Table) (done : List String) : List (List String × Node) → Option Table
  | [] => some t
  | (names, n) :: rest => do
    let v ← n.value?
    match names with
    | [] => failure
    | [name] =>
      if done.contains name then fields? t done rest
      else fields? (t.set name (← assigned? (t.get? name) v n)) done rest
    | name :: inner =>
      if done.contains name then fields? t done rest
      else
        let nested := inner.foldr (fun key v => Value.list [.table [(key, v)]]) v
        fields? (t.set name nested) (name :: done) rest

end

/-- A JSON value as a value of a field: objects stand in lists, and nothing is the empty text. -/
def ofJson : Value → Value
  | .null => .text ""
  | .table fields => .list [.table fields]
  | v => v

/-- The fields that a text describes. -/
def table? (text : String) : Option Table := do
  let cs := text.toList.dropWhile Text.isBlank
  if cs.head? = some '\x7b' then
    match ← Json.value 0 (cs.length + 1) cs with
    | (.table fields, _) => return fields.map fun (name, v) => (name, ofJson v)
    | _ => failure
  else
    let ts ← tokens? text
    let (found, _) ← items false (2 * ts.length + 8) ts
    fields? [] [] found

end ClosureLang.Data.Hcl

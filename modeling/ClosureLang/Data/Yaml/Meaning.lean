import ClosureLang.Data.Yaml.Node

/-! The values of YAML nodes. Keys of a mapping differ, and the key `<<` takes over the entries of
other mappings that the mapping does not have itself. -/
namespace ClosureLang.Data.Yaml

namespace Node

/-- Whether two keys of a mapping count as the same: equal texts or names, and any two keys that
are sequences or mappings. -/
def isSameKey : Node → Node → Bool
  | scalar _ a, scalar _ b => a = b
  | reference a _, reference b _ => a = b
  | loop a, loop b => a = b
  | reference a _, loop b => a = b
  | loop a, reference b _ => a = b
  | sequence .., sequence .. => true
  | mapping .., mapping .. => true
  | _, _ => false

def hasDistinctKeys : List (Node × Node) → Bool
  | [] => true
  | (key, _) :: entries =>
    entries.all (fun (other, _) => !key.isSameKey other) && hasDistinctKeys entries

def isMerge : Node → Bool
  | scalar tag text => text = "<<" && tag = .merge
  | _ => false

/-- Whether a node is a mapping, or an alias of one. -/
def isMapping : Node → Bool
  | mapping .. => true
  | reference _ (mapping ..) => true
  | _ => false

/-- Whether the node is a scalar that is text, or an alias of one. -/
def isText : Node → Bool
  | scalar tag _ => tag = .text || tag = .merge
  | reference _ target => target.isText
  | _ => false

end Node

/-- How much work the values of a document have been, in nodes. -/
structure Effort where
  nodes : Nat := 0
  /-- The nodes that were looked at for an alias. -/
  aliased : Nat := 0

namespace Effort

/-- Whether too many nodes were looked at for aliases: 99 of a hundred while the document is not
large, and down to one of ten while it grows. -/
def isExcessive (e : Effort) : Bool :=
  100 < e.aliased && 1000 < e.nodes &&
    (if e.nodes ≤ 400000 then 99 * e.nodes < 100 * e.aliased
      else if 4000000 ≤ e.nodes then e.nodes < 10 * e.aliased
      else e.nodes * (356400000 - 89 * (e.nodes - 400000)) < 360000000 * e.aliased)

end Effort

abbrev Meaning := StateT Effort Option

namespace Meaning

/-- Counts a node. -/
def count (aliased : Bool) : Meaning Unit := do
  let e ← get
  let more : Effort :=
    { nodes := e.nodes + 1, aliased := if aliased then e.aliased + 1 else e.aliased }
  if more.isExcessive then failure else set more

/-- The keys that are taken while entries of other mappings are taken over. -/
abbrev Taken := Option (List String)

/-- Whether a key is free, and the keys that are taken afterwards. -/
def claim (taken : Taken) (key : String) : Bool × Taken :=
  match taken with
  | none => (true, none)
  | some keys => if keys.contains key then (false, taken) else (true, some (key :: keys))

/-- The name that a key gives to a field; none for a key that gives no name. Sequences and mappings
are no keys, and null is one only where `onlyTexts` does not hold. -/
def keyName (aliased onlyTexts : Bool) : Node → Meaning (Option String)
  | .scalar tag text => do
    count aliased
    match ← (tag.value? text : Option Value) with
    | .null => return if onlyTexts then none else some text
    | .text s => return some s
    | _ => return some text
  | .reference _ target => do
    count aliased
    keyName true onlyTexts target
  | _ => failure

/-- The names of all keys of a mapping, that of the entries to take over included. -/
def keyNames (aliased : Bool) : List (Node × Node) → Meaning (List String)
  | [] => return []
  | (key, _) :: entries => do
    let name ← keyName aliased false key
    return name.toList ++ (← keyNames aliased entries)

mutual

/-- The value of a node. `aliased` tells whether it is looked at for an alias. -/
def value (aliased : Bool) : Node → Meaning Value
  | .scalar tag text => do
    count aliased
    (tag.value? text : Option Value)
  | .sequence _ items => do
    count aliased
    return .list (← values aliased items)
  | .mapping _ entries => do
    count aliased
    if !Node.hasDistinctKeys entries then failure
    let onlyTexts := entries.all fun (key, _) => key.isText
    let (fields, taken) ← ownEntries aliased onlyTexts entries [] none
    let names := keyNames aliased entries
    return .table (← mergedEntries aliased onlyTexts names entries fields taken).1
  | .reference _ target => do
    count aliased
    value true target
  | .loop _ => failure

def values (aliased : Bool) : List Node → Meaning (List Value)
  | [] => return []
  | item :: items => return (← value aliased item) :: (← values aliased items)

/-- Adds the entries of a mapping to fields, without those that are taken over. -/
def ownEntries (aliased onlyTexts : Bool) :
    List (Node × Node) → Table → Taken → Meaning (Table × Taken)
  | [], fields, taken => return (fields, taken)
  | (key, node) :: entries, fields, taken => do
    if key.isMerge then ownEntries aliased onlyTexts entries fields taken
    else
      match ← keyName aliased onlyTexts key with
      | none => ownEntries aliased onlyTexts entries fields taken
      | some name =>
        let (free, taken) := claim taken name
        if free then
          let v ← value aliased node
          ownEntries aliased onlyTexts entries (fields.set name v) taken
        else ownEntries aliased onlyTexts entries fields taken

/-- Adds the entries that a mapping takes over. -/
def mergedEntries (aliased onlyTexts : Bool) (names : Meaning (List String)) :
    List (Node × Node) → Table → Taken → Meaning (Table × Taken)
  | [], fields, taken => return (fields, taken)
  | (key, node) :: entries, fields, taken => do
    if key.isMerge then
      let inside ← match taken with
        | some keys => pure keys
        | none => names
      let (fields, inside) ← takeOver aliased onlyTexts true node fields (some inside)
      return (fields, if taken.isSome then inside else none)
    else mergedEntries aliased onlyTexts names entries fields taken

/-- Adds the entries of a node that is taken over: a mapping, or at the first level a sequence of
mappings. -/
def takeOver (aliased onlyTexts first : Bool) : Node → Table → Taken → Meaning (Table × Taken)
  | .mapping _ entries, fields, taken => do
    count aliased
    if !Node.hasDistinctKeys entries then failure
    let (fields, taken) ← ownEntries aliased onlyTexts entries fields taken
    mergedEntries aliased onlyTexts (keyNames aliased entries) entries fields taken
  | .reference _ target, fields, taken => do
    if first && !target.isMapping then failure
    count aliased
    takeOver true onlyTexts false target fields taken
  | .sequence _ items, fields, taken =>
    if first then takeOverAll aliased onlyTexts items fields taken else failure
  | .scalar .., _, _ => failure
  | .loop _, _, _ => failure

def takeOverAll (aliased onlyTexts : Bool) : List Node → Table → Taken → Meaning (Table × Taken)
  | [], fields, taken => return (fields, taken)
  | item :: items, fields, taken => do
    if !item.isMapping then failure
    let (fields, taken) ← takeOver aliased onlyTexts false item fields taken
    takeOverAll aliased onlyTexts items fields taken

end

/-- The fields of a document, which is a mapping or null. Its keys are read as texts. -/
def fields (root : Node) : Meaning Table := do
  count false
  match root with
  | .scalar tag text =>
    match ← (tag.value? text : Option Value) with
    | .null => return []
    | _ => failure
  | .mapping _ entries =>
    count false
    if !Node.hasDistinctKeys entries then failure
    let (found, taken) ← ownEntries false true entries [] none
    return (← mergedEntries false true (keyNames false entries) entries found taken).1
  | _ => failure

end Meaning

/-- The fields that a text describes. Texts without a document describe none; texts that are not
well formed, or that describe something else, have no answer. -/
def table? (text : String) : Option Table := do
  match ← Node.ofText? text with
  | none => return []
  | some root => return (← (Meaning.fields root).run {}).1

end ClosureLang.Data.Yaml

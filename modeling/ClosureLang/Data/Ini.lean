import ClosureLang.Data.Value
import ClosureLang.Text.Blank

/-! Sections of keys with values. Points in the name of a section lead to deeper tables, and keys
before the first section belong to a section of their own. -/
namespace ClosureLang.Data.Ini

def trimmed (cs : List Char) : List Char := (Text.trim (String.ofList cs)).toList

def isSign (c : Char) : Bool := c = '=' || c = ':'

/-- The text before the first place where another occurs. -/
def before? (mark : List Char) : List Char → Option (List Char)
  | [] => if mark.isEmpty then some [] else none
  | c :: cs =>
    if mark.isPrefixOf (c :: cs) then some [] else (before? mark cs).map (c :: ·)

/-- The text before the last place where another occurs. -/
def beforeLast? (mark : List Char) : List Char → Option (List Char)
  | [] => if mark.isEmpty then some [] else none
  | c :: cs =>
    match beforeLast? mark cs with
    | some found => some (c :: found)
    | none => if mark.isPrefixOf (c :: cs) then some [] else none

/-- The quote that a key starts with. -/
def keyQuote (line : List Char) : List Char :=
  if line.head? = some '"' then
    if 6 < line.length && line.take 3 = ['"', '"', '"'] then ['"', '"', '"'] else ['"']
  else if line.head? = some '\x60' then ['\x60']
  else []

/-- The key of a line, and what follows the sign behind it. -/
def key? (line : List Char) : Option (String × List Char) := do
  let quote := keyQuote line
  let inner := line.drop quote.length
  let (name, rest) ←
    if quote.isEmpty then
      let name := line.takeWhile fun c => !isSign c
      some (name, line.drop name.length)
    else do
      let name ← before? quote inner
      let rest := inner.drop (name.length + quote.length)
      some (name, rest.dropWhile fun c => !isSign c)
  let name := trimmed name
  if name.isEmpty || rest.isEmpty then failure
  return (String.ofList name, rest.drop 1)

/-- The lines of a quoted value up to its end, and the lines behind. -/
def quotedLines? (quote : List Char) : List (List Char) → Option (List Char × List (List Char))
  | [] => none
  | line :: rest =>
    match beforeLast? quote line with
    | some text => some (text, rest)
    | none => (quotedLines? quote rest).map fun (text, rest) => (line ++ '\n' :: text, rest)

/-- The lines that continue a value, and the lines behind. A backslash at its end continues a
line. -/
def continued : List (List Char) → List Char × List (List Char)
  | [] => ([], [])
  | line :: rest =>
    let line := trimmed line
    if line.isEmpty then ([], rest)
    else if line.getLast? = some '\\' then
      let (text, rest) := continued rest
      (line.dropLast ++ text, rest)
    else (line, rest)

/-- The value behind a sign, and the lines behind it. -/
def value? (cs : List Char) (rest : List (List Char)) : Option (List Char × List (List Char)) :=
  let cs := cs.dropWhile Text.isBlank
  let quote := if 3 < cs.length && cs.take 3 = ['"', '"', '"'] then ['"', '"', '"']
    else if cs.head? = some '\x60' then ['\x60']
    else []
  if quote.isEmpty then
    let line := trimmed cs
    if line.getLast? = some '\\' then
      let (text, rest) := continued rest
      some (line.dropLast ++ text, rest)
    else
      let line := trimmed (line.takeWhile fun c => c ≠ '#' && c ≠ ';')
      let isQuoted (q : Char) := 2 ≤ line.length && line.head? = some q && line.getLast? = some q
      some (if isQuoted '\'' || isQuoted '"' then (line.drop 1).dropLast else line, rest)
  else
    let inner := cs.drop quote.length
    match beforeLast? quote inner with
    | some text => some (text, rest)
    | none => (quotedLines? quote rest).map fun (text, rest) => (inner ++ '\n' :: text, rest)

/-- The name of a key that is written as a dash is counted. -/
def counted (key : String) (count : Nat) : String × Nat :=
  if key = "-" then ("#" ++ Decimal.natText count, count + 1) else (key, count)

/-- Adds what lines say to fields, in the section that is open. -/
def fieldsFrom (fields : Table) : Nat → List String → Nat → List (List Char) → Option Table
  | 0, _, _, _ => none
  | _, _, _, [] => some fields
  | fuel + 1, path, count, line :: rest =>
    let line := line.dropWhile Text.isBlank
    match line with
    | [] => fieldsFrom fields fuel path count rest
    | c :: cs =>
      if c = '#' || c = ';' then fieldsFrom fields fuel path count rest
      else if c = '[' then do
        let name ← beforeLast? [']'] cs
        if name.isEmpty then failure
        fieldsFrom fields fuel ((Text.splitOnChar '.' name).map String.ofList) 1 rest
      else do
        let (key, behind) ← key? line
        let (key, count) := counted key count
        let (value, rest) ← value? behind rest
        fieldsFrom (fields.setPath (path ++ [key]) (.text (String.ofList value)))
          fuel path count rest

/-- The section of keys before the first section. -/
def defaultSection : String := "DEFAULT"

/-- The fields that a text describes. -/
def table? (text : String) : Option Table :=
  let cs := match text.toList with
    | c :: cs => if c.toNat = 0xFEFF then cs else c :: cs
    | [] => []
  let lines := Text.splitOnChar '\n' cs
  fieldsFrom [] (lines.length + 1) [defaultSection] 1 lines

end ClosureLang.Data.Ini

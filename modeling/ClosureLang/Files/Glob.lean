import ClosureLang.Files.FileTree
import ClosureLang.Text.Utf8

/-! Patterns for paths. A star matches any bytes but the slash, a question mark one character but
the slash, and brackets one of a set of characters. -/
namespace ClosureLang

/-- What a pattern wants next. -/
inductive Glob.Item where
  | byte (b : UInt8)
  | anyChar
  | oneOf (negated : Bool) (ranges : List (Char × Char))

/-- A part of a pattern between stars. -/
structure Glob.Chunk where
  /-- A star stands in front. -/
  star : Bool
  items : List Item

/-- A well-formed pattern. -/
structure Glob where
  chunks : List Glob.Chunk

namespace Glob

/-- A character of a set, possibly behind a backslash. It is never the last one of the pattern. -/
def setChar? : List Char → Option (Char × List Char)
  | '\\' :: c :: d :: rest => some (c, d :: rest)
  | '\\' :: _ => none
  | '-' :: _ => none
  | ']' :: _ => none
  | c :: d :: rest => some (c, d :: rest)
  | _ => none

/-- The ranges of a set up to its closing bracket, at most `limit` of them. -/
def ranges? : Nat → List Char → Option (List (Char × Char) × List Char)
  | 0, _ => none
  | limit + 1, cs => do
    let (low, rest) ← setChar? cs
    let (high, rest) ← match rest with
      | '-' :: more => setChar? more
      | _ => some (low, rest)
    match rest with
    | ']' :: rest => return ([(low, high)], rest)
    | _ =>
      let (more, rest) ← ranges? limit rest
      return ((low, high) :: more, rest)

/-- The set behind an opening bracket. -/
def set? (cs : List Char) : Option (Item × List Char) := do
  let (negated, cs) := match cs with
    | '^' :: rest => (true, rest)
    | _ => (false, cs)
  let (ranges, rest) ← ranges? cs.length cs
  return (.oneOf negated ranges, rest)

def literal (c : Char) : List Item := (String.singleton c).toUTF8.toList.map .byte

/-- Reads at most `limit` items and stars; `none` stands for a star. -/
def items? : Nat → List Char → Option (List (Option Item))
  | _, [] => some []
  | 0, _ => none
  | limit + 1, c :: cs =>
    match c with
    | '*' => (items? limit cs).map (none :: ·)
    | '?' => (items? limit cs).map (some .anyChar :: ·)
    | '[' => do
      let (item, rest) ← set? cs
      return some item :: (← items? limit rest)
    | '\\' =>
      match cs with
      | [] => none
      | d :: rest => (items? limit rest).map ((literal d).map some ++ ·)
    | c => (items? limit cs).map ((literal c).map some ++ ·)

/-- Collects items into chunks; adjacent stars are one. -/
def chunksOf : List (Option Item) → List Chunk
  | [] => []
  | none :: rest =>
    match chunksOf rest with
    | [] => [⟨true, []⟩]
    | chunk :: chunks => if chunk.star then chunk :: chunks else ⟨true, chunk.items⟩ :: chunks
  | some item :: rest =>
    match chunksOf rest with
    | [] => [⟨false, [item]⟩]
    | chunk :: chunks =>
      if chunk.star then ⟨false, [item]⟩ :: chunk :: chunks
      else ⟨false, item :: chunk.items⟩ :: chunks

/-- The pattern that a text denotes, unless it is malformed. -/
def ofText? (text : String) : Option Glob := do
  let items ← items? text.length text.toList
  return ⟨chunksOf items⟩

def slash : UInt8 := 0x2f

/-- What is left of the bytes behind a match of the items. -/
def matchItems : List Item → List UInt8 → Option (List UInt8)
  | [], bytes => some bytes
  | _, [] => none
  | .byte b :: items, c :: bytes => if b = c then matchItems items bytes else none
  | .anyChar :: items, c :: bytes =>
    if c = slash then none else matchItems items (bytes.drop ((Utf8.first c bytes).2 - 1))
  | .oneOf negated ranges :: items, c :: bytes =>
    let (char, width) := Utf8.first c bytes
    if ranges.any (fun (low, high) => low ≤ char && char ≤ high) = negated then none
    else matchItems items (bytes.drop (width - 1))

/-- Matches a chunk at the start of some bytes; the last chunk has to use all of them. -/
def matchHere (items : List Item) (last : Bool) (bytes : List UInt8) : Option (List UInt8) :=
  match matchItems items bytes with
  | some rest => if last ∧ rest ≠ [] then none else some rest
  | none => none

/-- Matches a chunk behind as few bytes as possible, none of them a slash. -/
def matchLater (items : List Item) (last : Bool) : List UInt8 → Option (List UInt8)
  | [] => matchHere items last []
  | b :: bytes =>
    match matchHere items last (b :: bytes) with
    | some rest => some rest
    | none => if b = slash then none else matchLater items last bytes

def matchChunks : List Chunk → List UInt8 → Bool
  | [], bytes => bytes.isEmpty
  | chunk :: chunks, bytes =>
    if chunk.star ∧ chunk.items.isEmpty then !bytes.contains slash
    else
      let found := if chunk.star then matchLater chunk.items chunks.isEmpty bytes
        else matchHere chunk.items chunks.isEmpty bytes
      match found with
      | some rest => matchChunks chunks rest
      | none => false

/-- Whether a pattern matches a whole text. -/
def accepts (g : Glob) (text : String) : Bool := matchChunks g.chunks text.toUTF8.toList

/-- Whether a path, or one of its steps, matches one of the patterns. Malformed patterns match
nothing. -/
def excludes (patterns : List String) (path : String) : Bool :=
  patterns.any fun pattern =>
    match ofText? pattern with
    | none => false
    | some g => g.accepts path || (Path.steps path).any g.accepts

/-- The paths that no pattern excludes. -/
def keep (patterns : List String) (paths : List String) : List String :=
  paths.filter fun path => !excludes patterns path

end Glob

end ClosureLang

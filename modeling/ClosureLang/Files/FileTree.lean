import ClosureLang.Text.Blank

/-! Slash-separated paths, and why a file cannot be used. -/
namespace ClosureLang.Path

def separator : Char := '/'

/-- The pieces between slashes. -/
def pieces (path : String) : List String :=
  (Text.splitOnChar separator path.toList).map String.ofList

def isRooted (path : String) : Bool := Text.startsWith path "/"

/-- One step of simplifying a path; `stack` holds the steps so far, the last one first. Going up
cancels the step before it, and above the root there is nothing. -/
def pushStep (rooted : Bool) (stack : List String) (step : String) : List String :=
  if step = "" ∨ step = "." then stack
  else if step = ".." then
    match stack with
    | [] => if rooted then [] else [".."]
    | last :: rest => if last = ".." then ".." :: last :: rest else rest
  else step :: stack

/-- The steps of a path in its shortest form. -/
def steps (path : String) : List String :=
  ((pieces path).foldl (pushStep (isRooted path)) []).reverse

/-- The shortest form of a path. -/
def clean (path : String) : String :=
  let text := Text.join "/" (steps path)
  if isRooted path then "/" ++ text else if text = "" then "." else text

/-- The path of an entry of a directory. -/
def child (dir name : String) : String := clean (dir ++ "/" ++ name)

/-- The last piece of a path. -/
def baseChars (path : String) : List Char :=
  (path.toList.reverse.takeWhile (· ≠ separator)).reverse

/-- The last dot of the last piece and what follows it; empty if there is no dot. -/
def extension (path : String) : String :=
  match (baseChars path).reverse.span (· ≠ '.') with
  | (_, []) => ""
  | (tail, _) => String.ofList ('.' :: tail.reverse)

/-- The path with another extension. -/
def withExtension (path ext : String) : String := Text.stripEnd path (extension path) ++ ext

end ClosureLang.Path

namespace ClosureLang

/-- What was tried on a path. -/
inductive FileError.Attempt where
  /-- Opening the file. -/
  | toOpen
  | read
  /-- Finding out what the path leads to. -/
  | stat
  /-- The same for a path that a search starts at. -/
  | lstat
deriving DecidableEq, Repr

def FileError.Attempt.name : FileError.Attempt → String
  | toOpen => "open"
  | read => "read"
  | stat => "stat"
  | lstat => "lstat"

inductive FileError.Cause where
  | notFound
  | isDirectory
  | notDirectory
  | nameTooLong
  /-- The path has a character that no path can have. -/
  | badPath
deriving DecidableEq, Repr

def FileError.Cause.message : FileError.Cause → String
  | notFound => "no such file or directory"
  | isDirectory => "is a directory"
  | notDirectory => "not a directory"
  | nameTooLong => "file name too long"
  | badPath => "invalid argument"

structure FileError where
  attempt : FileError.Attempt
  path : String
  cause : FileError.Cause
deriving DecidableEq, Repr

def FileError.message (e : FileError) : String :=
  e.attempt.name ++ " " ++ e.path ++ ": " ++ e.cause.message

end ClosureLang

/-! Directory trees as values, and what paths lead to in them. -/
namespace ClosureLang

/-- The files below the working directory. A directory exists if a file is below it. -/
structure FileTree where
  /-- Every file by the names on the way to it. -/
  files : List (List String × String) := []

namespace FileTree

/-- Where a path leads. -/
inductive Node where
  | file (steps : List String) (text : String)
  | directory (steps : List String)
  /-- A directory around the tree, about which nothing else is known. -/
  | outside

def text? (t : FileTree) (steps : List String) : Option String := t.files.lookup steps

def hasDirectory (t : FileTree) (steps : List String) : Bool :=
  t.files.any fun (path, _) => steps.isPrefixOf path && steps.length < path.length

/-- The entry of a directory. -/
def child (t : FileTree) (dir : List String) (name : String) : Option Node :=
  let steps := dir ++ [name]
  match t.text? steps with
  | some text => some (.file steps text)
  | none => if t.hasDirectory steps then some (.directory steps) else none

/-- The most bytes in a name, and the number of bytes that a path cannot have. -/
def longestName : Nat := 255

def pathLimit : Nat := 4096

/-- Goes down a path, one piece at a time. Only directories have entries, be it `.` or `..`. -/
def follow (t : FileTree) : Node → List String → Except FileError.Cause Node
  | node, [] => .ok node
  | .file .., _ :: _ => .error .notDirectory
  | .outside, piece :: pieces =>
    if piece = "" ∨ piece = "." ∨ piece = ".." then follow t .outside pieces else .error .notFound
  | .directory steps, piece :: pieces =>
    if piece = "" ∨ piece = "." then follow t (.directory steps) pieces
    else if piece = ".." then
      follow t (if steps.isEmpty then .outside else .directory steps.dropLast) pieces
    else if longestName < piece.utf8ByteSize then .error .nameTooLong
    else match t.child steps piece with
      | none => .error .notFound
      | some node => follow t node pieces

/-- The directory in which a path starts. -/
def start (path : String) : Node := if Path.isRooted path then .outside else .directory []

/-- Paths that lead nowhere whatever the tree. -/
def pathFault? (path : String) : Option FileError.Cause :=
  if path.toList.contains '\x00' then some .badPath
  else if path = "" then some .notFound
  else if pathLimit ≤ path.utf8ByteSize then some .nameTooLong
  else none

def resolve (t : FileTree) (path : String) : Except FileError.Cause Node :=
  match pathFault? path with
  | some cause => .error cause
  | none => follow t (start path) (Path.pieces path)

/-- The contents of a file. A directory can be opened, but not read. -/
def read (t : FileTree) (path : String) : Except FileError String :=
  match t.resolve path with
  | .error cause => .error ⟨.toOpen, path, cause⟩
  | .ok (.file _ text) => .ok text
  | .ok _ => .error ⟨.read, path, .isDirectory⟩

def isDirectory (t : FileTree) (path : String) : Except FileError Bool :=
  match t.resolve path with
  | .error cause => .error ⟨.stat, path, cause⟩
  | .ok (.file ..) => .ok false
  | .ok _ => .ok true

/-- Sets the contents at the end of a way. -/
def insert (t : FileTree) (steps : List String) (text : String) : FileTree :=
  { files := t.files.filter (·.1 ≠ steps) ++ [(steps, text)] }

/-- Where writing to a path puts the text. The last name need not exist. -/
def target (t : FileTree) (path : String) : Except FileError.Cause (List String) :=
  match pathFault? path with
  | some cause => .error cause
  | none =>
    let pieces := (Path.pieces path).reverse
    match pieces.dropWhile (· = "") with
    | [] => .error .isDirectory
    | name :: above => do
      let slashed := pieces.head? = some ""
      match ← follow t (start path) above.reverse with
      | .file .. => .error .notDirectory
      | .outside => .error (if slashed ∨ name = "." ∨ name = ".." then .isDirectory else .notFound)
      | .directory steps =>
        if slashed ∨ name = "." ∨ name = ".." then .error .isDirectory
        else if longestName < name.utf8ByteSize then .error .nameTooLong
        else if t.hasDirectory (steps ++ [name]) then .error .isDirectory
        else .ok (steps ++ [name])

/-- Writes a file, new or not. -/
def write (t : FileTree) (path text : String) : Except FileError FileTree :=
  match t.target path with
  | .error cause => .error ⟨.toOpen, path, cause⟩
  | .ok steps => .ok (t.insert steps text)

/-- Adds to the end of a file, new or not. -/
def append (t : FileTree) (path text : String) : Except FileError FileTree :=
  match t.target path with
  | .error cause => .error ⟨.toOpen, path, cause⟩
  | .ok steps => .ok (t.insert steps ((t.text? steps).getD "" ++ text))

/-- The order in which a search meets files: names are compared from the top down. -/
def stepsBefore : List String → List String → Bool
  | [], _ => true
  | _ :: _, [] => false
  | a :: as, b :: bs => if a = b then stepsBefore as bs else Text.before a b

/-- The paths of the files at or below a path, in the order of a search. -/
def below (t : FileTree) (path : String) : Except FileError (List String) :=
  match t.resolve path with
  | .error cause => .error ⟨.lstat, path, cause⟩
  | .ok (.file ..) => .ok [path]
  | .ok .outside => .ok []
  | .ok (.directory dir) =>
    let found := (t.files.map Prod.fst).filter fun steps => dir.isPrefixOf steps
    let rests := (found.mergeSort stepsBefore).map fun steps => steps.drop dir.length
    .ok (rests.map fun rest => Path.child path (Text.join "/" rest))

end FileTree

end ClosureLang

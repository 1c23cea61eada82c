import ClosureLang.Files.FileTree

/-! What commands need of their surroundings, and surroundings that are a value. -/
namespace ClosureLang

/-- Actions that reach files, the environment, and the streams of a command. -/
class Host (m : Type → Type) where
  read : String → m (Except FileError String)
  /-- Writes a whole file, new or not. -/
  write : String → String → m (Except FileError Unit)
  /-- Adds to the end of a file, new or not. -/
  append : String → String → m (Except FileError Unit)
  isDirectory : String → m (Except FileError Bool)
  /-- The paths of the files at or below a path: entries by name, directories in their place. -/
  below : String → m (Except FileError (List String))
  /-- The value of an environment variable. -/
  environment? : String → m (Option String)
  /-- The whole input. -/
  input : m String
  /-- Goes through the lines of the input. -/
  foldLines : {σ : Type} → (σ → String → m σ) → σ → m σ
  out : String → m Unit
  err : String → m Unit

namespace Host

variable {m : Type → Type} [Host m]

def outLine (s : String) : m Unit := out (s ++ "\n")

def errLine (s : String) : m Unit := err (s ++ "\n")

end Host

/-- Surroundings in which nothing else happens. -/
structure World where
  files : FileTree := {}
  environment : List (String × String) := []
  input : String := ""
  out : String := ""
  err : String := ""

namespace World

/-- Performs a change of the files. -/
def change (f : FileTree → Except FileError FileTree) :
    StateM World (Except FileError Unit) := fun w =>
  match f w.files with
  | .error e => (.error e, w)
  | .ok files => (.ok (), { w with files })

/-- The lines of an input. Carriage returns end lines, too, and the last line need not be ended. -/
def inputLines (input : String) : List String :=
  let unified := input.toList.map fun c => if c = '\r' then '\n' else c
  let lines := (Text.splitOnChar '\n' unified).map String.ofList
  if lines.getLast? = some "" then lines.dropLast else lines

instance : Host (StateM World) where
  read path := fun w => (w.files.read path, w)
  write path text := change (·.write path text)
  append path text := change (·.append path text)
  isDirectory path := fun w => (w.files.isDirectory path, w)
  below path := fun w => (w.files.below path, w)
  environment? name := fun w => (w.environment.lookup name, w)
  input := fun w => (w.input, { w with input := "" })
  foldLines f s := do
    let w ← get
    set { w with input := "" }
    (inputLines w.input).foldlM f s
  out s := modify fun w => { w with out := w.out ++ s }
  err s := modify fun w => { w with err := w.err ++ s }

end World

end ClosureLang

/-! Program files. -/
namespace ClosureLang.Programs

/-- The extension of program files. -/
def extension : String := ".lang"

/-- The program files at or below a path, in the order of a search. -/
def below {m : Type → Type} [Monad m] [Host m] (path : String) :
    m (Except FileError (List String)) := do
  return (← Host.below path).map (·.filter fun p => Path.extension p = extension)

end ClosureLang.Programs

import ClosureLang.Command.Dispatch

/-! The command line program. -/
namespace ClosureLang

/-- The cause behind an error of the operating system. -/
def FileError.Cause.ofError : IO.Error → FileError.Cause
  | .noFileOrDirectory .. => .notFound
  | .inappropriateType .. => .notDirectory
  | .noSuchThing .. => .notFound
  | _ => .badPath

/-- Runs an action on a path. -/
def attempting {α : Type} (attempt : FileError.Attempt) (path : String) (x : IO α) :
    IO (Except FileError α) := do
  try
    return .ok (← x)
  catch e => return .error ⟨attempt, path, .ofError e⟩

/-- Whether a path leads to a directory. -/
def isDirectoryNow (path : String) : IO Bool := do
  try
    return ← (← IO.FS.realPath path).isDir
  catch _ => return false

/-- The files at or below a path, names in order. -/
partial def filesBelow (path : String) : IO (List String) := do
  if ← isDirectoryNow path then
    let entries ← (← IO.FS.realPath path).readDir
    let names := Text.sorted (entries.toList.map (·.fileName))
    return (← names.mapM fun name => filesBelow (Path.child path name)).flatten
  else
    discard (IO.FS.withFile path .read fun _ => pure ())
    return [path]

/-- Goes through the lines that are typed until the input ends. -/
partial def foldInput {σ : Type} (f : σ → String → IO σ) (s : σ) : IO σ := do
  let line ← (← IO.getStdin).getLine
  if line = "" then return s
  else foldInput f (← f s (Text.stripEnd (Text.stripEnd line "\n") "\r"))

instance : Host IO where
  read path := do
    if ← isDirectoryNow path then return .error ⟨.read, path, .isDirectory⟩
    else attempting .toOpen path (IO.FS.readFile path)
  write path text := do
    if ← isDirectoryNow path then return .error ⟨.toOpen, path, .isDirectory⟩
    else attempting .toOpen path (IO.FS.writeFile path text)
  append path text := attempting .toOpen path do
    let h ← IO.FS.Handle.mk path .append
    h.putStr text
  isDirectory path := do
    if ← isDirectoryNow path then return .ok true
    else attempting .stat path do
      discard (IO.FS.withFile path .read fun _ => pure ())
      return false
  below path := attempting .lstat path (filesBelow path)
  environment? name := IO.getEnv name
  input := do (← IO.getStdin).readToEnd
  foldLines f s := foldInput f s
  out s := do
    let stdout ← IO.getStdout
    stdout.putStr s
    stdout.flush
  err s := do (← IO.getStderr).putStr s

end ClosureLang

def main (args : List String) : IO UInt32 := ClosureLang.Command.execute args

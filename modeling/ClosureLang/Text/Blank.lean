/-! White space as a property of characters, and trimming by it. -/
namespace ClosureLang.Text

/-- The characters with the Unicode white space property. -/
def isBlank (c : Char) : Bool :=
  let n := c.toNat
  (0x09 ≤ n && n ≤ 0x0D) || n = 0x20 || n = 0x85 || n = 0xA0 || n = 0x1680 ||
    (0x2000 ≤ n && n ≤ 0x200A) || n = 0x2028 || n = 0x2029 || n = 0x202F || n = 0x205F || n = 0x3000

def trimLeftBy (p : Char → Bool) (s : String) : String := String.ofList (s.toList.dropWhile p)

def trimRightBy (p : Char → Bool) (s : String) : String :=
  String.ofList (s.toList.reverse.dropWhile p).reverse

def trim (s : String) : String := trimRightBy isBlank (trimLeftBy isBlank s)

/-- The pieces between occurrences of a separator character; always at least one. -/
def splitOnChar (sep : Char) : List Char → List (List Char)
  | [] => [[]]
  | c :: cs =>
    if c = sep then [] :: splitOnChar sep cs
    else match splitOnChar sep cs with
      | [] => [[c]]
      | piece :: pieces => (c :: piece) :: pieces

/-- The lines of a text, cut at every line feed. -/
def lines (s : String) : List String := (splitOnChar '\n' s.toList).map String.ofList

def startsWith (s start : String) : Bool := start.toList.isPrefixOf s.toList

def endsWith (s tail : String) : Bool := tail.toList.isSuffixOf s.toList

/-- What follows `start` in `s`, if `s` begins with it. -/
def stripStart? (s start : String) : Option String :=
  if startsWith s start then some (String.ofList (s.toList.drop start.length)) else none

def stripStart (s start : String) : String := (stripStart? s start).getD s

/-- What comes before `tail` in `s`, if `s` ends with it. -/
def stripEnd? (s tail : String) : Option String :=
  if endsWith s tail then some (String.ofList (s.toList.take (s.length - tail.length))) else none

def stripEnd (s tail : String) : String := (stripEnd? s tail).getD s

def join (sep : String) : List String → String
  | [] => ""
  | s :: rest => rest.foldl (fun acc t => acc ++ sep ++ t) s

def repeated (n : Nat) (c : Char) : String := String.ofList (List.replicate n c)

/-- Byte order of the UTF-8 encodings, which is the order of code points. -/
def before (a b : String) : Bool := decide (a < b)

def sorted (names : List String) : List String := names.mergeSort fun a b => !before b a

end ClosureLang.Text

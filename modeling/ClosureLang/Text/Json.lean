import ClosureLang.Text.Blank
import ClosureLang.Text.Decimal
import ClosureLang.Text.Printable

/-! JSON text with two blanks per level. Characters that have a meaning in HTML are escaped. -/
namespace ClosureLang

inductive Json where
  | null
  | number (n : Int)
  | string (s : String)
  | list (items : List Json)
  | object (fields : List (String × Json))

namespace Json

def escapeChar (c : Char) : List Char :=
  let n := c.toNat
  if c = '"' then ['\\', '"']
  else if c = '\\' then ['\\', '\\']
  else if n = 8 then ['\\', 'b']
  else if n = 12 then ['\\', 'f']
  else if n = 10 then ['\\', 'n']
  else if n = 13 then ['\\', 'r']
  else if n = 9 then ['\\', 't']
  else if n < 0x20 || c = '<' || c = '>' || c = '&' || n = 0x2028 || n = 0x2029 then
    '\\' :: 'u' :: Text.hexChars 4 n
  else [c]

def quoted (s : String) : String :=
  String.ofList ('"' :: s.toList.flatMap escapeChar ++ ['"'])

def newline (level : Nat) : String := "\n" ++ Text.repeated (2 * level) ' '

mutual

def render (level : Nat) : Json → String
  | null => "null"
  | number n => Decimal.intText n
  | string s => quoted s
  | list [] => "[]"
  | list (item :: items) =>
    "[" ++ newline (level + 1) ++ render (level + 1) item ++ renderItems (level + 1) items ++
      newline level ++ "]"
  | object [] => "\x7b\x7d"
  | object ((key, value) :: fields) =>
    "\x7b" ++ newline (level + 1) ++ quoted key ++ ": " ++ render (level + 1) value ++
      renderFields (level + 1) fields ++ newline level ++ "\x7d"

def renderItems (level : Nat) : List Json → String
  | [] => ""
  | item :: items => "," ++ newline level ++ render level item ++ renderItems level items

def renderFields (level : Nat) : List (String × Json) → String
  | [] => ""
  | (key, value) :: fields =>
    "," ++ newline level ++ quoted key ++ ": " ++ render level value ++ renderFields level fields

end

/-- The text of a document, with a line feed at its end. -/
def document (j : Json) : String := j.render 0 ++ "\n"

end Json

end ClosureLang

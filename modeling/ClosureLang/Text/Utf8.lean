/-! Characters of a byte sequence. A byte that belongs to no character counts as one U+FFFD. -/
namespace ClosureLang.Utf8

def replacement : Char := Char.ofNat 0xFFFD

def isContinuation (b : UInt8) : Bool := 0x80 ≤ b && b < 0xC0

/-- The six payload bits of a continuation byte. -/
def payload (b : UInt8) : Nat := b.toNat % 64

/-- The character that starts with `b`, and how many bytes it takes. Overlong forms, surrogates
and truncated sequences start no character. -/
def first (b : UInt8) (rest : List UInt8) : Char × Nat :=
  if b < 0x80 then (Char.ofNat b.toNat, 1)
  else if 0xC2 ≤ b && b < 0xE0 then
    match rest with
    | c :: _ =>
      if isContinuation c then (Char.ofNat (b.toNat % 32 * 64 + payload c), 2)
      else (replacement, 1)
    | _ => (replacement, 1)
  else if 0xE0 ≤ b && b < 0xF0 then
    match rest with
    | c :: d :: _ =>
      let n := b.toNat % 16 * 4096 + payload c * 64 + payload d
      if isContinuation c && isContinuation d && 0x800 ≤ n && !(0xD800 ≤ n && n < 0xE000) then
        (Char.ofNat n, 3)
      else (replacement, 1)
    | _ => (replacement, 1)
  else if 0xF0 ≤ b && b < 0xF5 then
    match rest with
    | c :: d :: e :: _ =>
      let n := b.toNat % 8 * 262144 + payload c * 4096 + payload d * 64 + payload e
      if isContinuation c && isContinuation d && isContinuation e && 0x10000 ≤ n && n < 0x110000
      then (Char.ofNat n, 4)
      else (replacement, 1)
    | _ => (replacement, 1)
  else (replacement, 1)

/-- Every character with its width in bytes. -/
def chars : List UInt8 → List (Char × Nat)
  | [] => []
  | b :: rest => first b rest :: chars (rest.drop ((first b rest).2 - 1))
termination_by bytes => bytes.length
decreasing_by simp only [List.length_drop, List.length_cons]; omega

def decode (bytes : List UInt8) : List Char := (chars bytes).map Prod.fst

/-- How many characters the bytes spell. -/
def count (bytes : List UInt8) : Nat := (chars bytes).length

/-- How many bytes characters take. -/
def size : List Char → Nat
  | [] => 0
  | c :: cs => c.utf8Size + size cs

/-- The bytes of `s` from `start` up to, but not including, `stop`. -/
def bytesOf (s : String) (start stop : Nat) : List UInt8 :=
  (s.toUTF8.extract start stop).toList

/-- The text between two byte offsets. -/
def slice (s : String) (start stop : Nat) : String :=
  String.ofList (decode (bytesOf s start stop))

end ClosureLang.Utf8

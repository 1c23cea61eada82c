import ClosureLang.Text.Decimal

/-! Numbers with 53 significant bits. A decimal denotes the nearest of them, and the one with the
even last bit if two are equally near. -/
namespace ClosureLang.Data

inductive Double where
  /-- `mantissa * 2 ^ exponent`, or its negative. -/
  | finite (negative : Bool) (mantissa : Nat) (exponent : Int)
  | infinite (negative : Bool)
  | undefined
deriving DecidableEq, Repr

namespace Double

/-- Mantissas are below this number. -/
def mantissaLimit : Nat := 9007199254740992

/-- The least exponent; numbers that are too small for it count as zero. -/
def leastExponent : Int := -1074

/-- The greatest exponent of a finite number. -/
def greatestExponent : Int := 971

/-- `num / den` in units of `2 ^ exponent`, as a fraction. -/
def inUnits (num den : Nat) (exponent : Int) : Nat × Nat :=
  if 0 ≤ exponent then (num, den * Nat.pow 2 exponent.toNat)
  else (num * Nat.pow 2 (-exponent).toNat, den)

/-- The whole number nearest to a fraction, and the even one of two that are equally near. -/
def nearest (num den : Nat) : Nat :=
  let whole := num / den
  let twice := 2 * (num % den)
  if twice < den ∨ (twice = den ∧ whole % 2 = 0) then whole else whole + 1

/-- The exponent with which `num / den` has 53 bits before the point. -/
def exponentOf (num den : Nat) : Int :=
  let guess : Int := Int.ofNat num.log2 - Int.ofNat den.log2 - 53
  let (n, d) := inUnits num den guess
  let exponent := if n < d * mantissaLimit then guess else guess + 1
  if exponent < leastExponent then leastExponent else exponent

/-- The number nearest to `num / den`; none if it is beyond all finite numbers. -/
def ofFraction? (negative : Bool) (num den : Nat) : Option Double :=
  if num = 0 then some (finite negative 0 0)
  else
    let exponent := exponentOf num den
    let (n, d) := inUnits num den exponent
    let mantissa := nearest n d
    let (mantissa, exponent) :=
      if mantissa = mantissaLimit then (mantissa / 2, exponent + 1) else (mantissa, exponent)
    if greatestExponent < exponent then none else some (finite negative mantissa exponent)

/-- The number nearest to `digits * 10 ^ exponent`. Far outside the range the digits do not
matter. -/
def ofScientific? (negative : Bool) (digits : Nat) (exponent : Int) : Option Double :=
  let size : Int := Int.ofNat (Nat.toDigits 10 digits).length + exponent
  if digits = 0 ∨ size < -400 then some (finite negative 0 0)
  else if 400 < size then none
  else if 0 ≤ exponent then ofFraction? negative (digits * Nat.pow 10 exponent.toNat) 1
  else ofFraction? negative digits (Nat.pow 10 (-exponent).toNat)

/-- Whether every underscore stands between two digits. -/
def separatesDigits (cs : List Char) : Bool :=
  let rec check (after : Bool) : List Char → Bool
    | [] => true
    | '_' :: cs => after && cs.head?.any Char.isDigit && check false cs
    | c :: cs => check c.isDigit cs
  check false cs

/-- A sign, and what follows it. -/
def signed : List Char → Bool × List Char
  | '-' :: cs => (true, cs)
  | '+' :: cs => (false, cs)
  | cs => (false, cs)

/-- The exponent behind the digits of a number; none if something else stands there. -/
def exponent? : List Char → Option Int
  | [] => some 0
  | c :: cs =>
    if c = 'e' ∨ c = 'E' then
      let (negative, digits) := signed cs
      if digits ≠ [] ∧ digits.all Char.isDigit then
        let n := Int.ofNat (Decimal.natOfDigits digits)
        some (if negative then -n else n)
      else none
    else none

/-- The number that a decimal denotes: digits with an optional sign, point and exponent, in which
underscores may separate digits. -/
def ofDecimal? (text : List Char) : Option Double := do
  if !separatesDigits text then failure
  let (negative, cs) := signed (text.filter (· ≠ '_'))
  let (whole, cs) := cs.span Char.isDigit
  let (fraction, cs) := match cs with
    | '.' :: cs => cs.span Char.isDigit
    | cs => ([], cs)
  if whole = [] ∧ fraction = [] then failure
  let exponent ← exponent? cs
  ofScientific? negative (Decimal.natOfDigits (whole ++ fraction))
    (exponent - Int.ofNat fraction.length)

def isZero : Double → Bool
  | finite _ mantissa _ => mantissa = 0
  | _ => false

/-- The whole part as a signed 64-bit word. What does not fit becomes the least word. -/
def truncate : Double → Int
  | finite negative mantissa exponent =>
    let whole : Int :=
      if 0 ≤ exponent then Int.ofNat (mantissa * Nat.pow 2 exponent.toNat)
      else Int.ofNat (mantissa / Nat.pow 2 (-exponent).toNat)
    let n := if negative then -whole else whole
    if -Int.ofNat Decimal.wordLimit ≤ n ∧ n < Int.ofNat Decimal.wordLimit then n
    else -Int.ofNat Decimal.wordLimit
  | _ => -Int.ofNat Decimal.wordLimit

end Double

end ClosureLang.Data

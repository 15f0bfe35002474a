/-
The numbers of JSON texts. Whole numbers of 64 bits are kept exactly; every other number is rounded to 53 binary
digits and kept as the shortest decimal of the result. Rounding happens in two steps, first of the digits, then of
their product or quotient with a power of ten.
-/
import Isolation.Number.Shortest
import Isolation.Text.Ascii

namespace Isolation.Json

inductive Number where
  /-- a whole number from `-2 ^ 63` to `2 ^ 64 - 1` -/
  | whole (n : Int)
  | decimal (d : Decimal)
deriving DecidableEq, Repr

namespace Number

/-- digits are gathered up to this value -/
def digitLimit : Nat := Nat.pow 2 64

def digitValue (c : Char) : Nat := c.toNat - '0'.toNat

/-- the digits gathered so far, and the power of ten they are to be taken with -/
structure Digits where
  value : Nat
  exponent : Int
deriving DecidableEq, Repr

/-- gathers the digits before the point; from the first that does not fit on, digits only count -/
def wholeDigits (acc : Digits) : List Char → Digits
  | [] => acc
  | c :: rest =>
    if acc.exponent = 0 && acc.value * 10 + digitValue c < digitLimit then
      wholeDigits ⟨acc.value * 10 + digitValue c, 0⟩ rest
    else wholeDigits ⟨acc.value, acc.exponent + 1⟩ rest

/-- gathers the digits behind the point, up to the first that does not fit -/
def fractionDigits (acc : Digits) : List Char → Digits
  | [] => acc
  | c :: rest =>
    if acc.value * 10 + digitValue c < digitLimit then
      fractionDigits ⟨acc.value * 10 + digitValue c, acc.exponent - 1⟩ rest
    else acc

/-- the power of ten that a quotient can be taken with at once -/
def exactPowers : Nat := 308

/-- divides by `10 ^ k`, in steps of at most `10 ^ 308` -/
def scaleDown (x : Binary) (k : Nat) : Binary :=
  if k ≤ exactPowers then x.div (Binary.ofNat (Nat.pow 10 k))
  else if x.isZero then x
  else scaleDown (x.div (Binary.ofNat (Nat.pow 10 exactPowers))) (k - exactPowers)
termination_by k
decreasing_by simp only [exactPowers] at *; omega

/-- the digits with their power of ten; nothing if that is out of range -/
def rounded? (negative : Bool) (digits : Digits) : Option Number :=
  let x := Binary.ofNat digits.value
  if digits.exponent < 0 then some (.decimal (.shortest negative (scaleDown x digits.exponent.natAbs)))
  else if digits.exponent.natAbs ≤ exactPowers then
    let y := x.mul (Binary.ofNat (Nat.pow 10 digits.exponent.natAbs))
    if y.inRange then some (.decimal (.shortest negative y)) else none
  else if x.isZero then some (.decimal ⟨negative, 0, 0⟩)
  else none

/-- a written exponent from here on is beyond every range -/
def exponentLimit : Nat := Nat.pow 2 31

/-- the value of decimal digits -/
def natOf (cs : List Char) : Nat := cs.foldl (fun n c => n * 10 + digitValue c) 0

/-- a number with a written exponent -/
def withExponent? (negative : Bool) (digits : Digits) (down : Bool) (written : List Char) : Option Number :=
  let e := natOf written
  if e < exponentLimit then
    rounded? negative ⟨digits.value, if down then digits.exponent - e else digits.exponent + e⟩
  else if digits.value ≠ 0 && !down then none
  else some (.decimal ⟨negative, 0, 0⟩)

/-- a number without point and exponent -/
def ofWhole? (negative : Bool) (digits : Digits) : Option Number :=
  if digits.exponent ≠ 0 then rounded? negative digits
  else if !negative then some (.whole digits.value)
  else if digits.value ≠ 0 && digits.value ≤ Nat.pow 2 63 then some (.whole (-(digits.value : Int)))
  else rounded? true digits

/-- decimal digits at the front, and the rest -/
def spanDigits (cs : List Char) : List Char × List Char := (cs.takeWhile Ascii.isDigit, cs.dropWhile Ascii.isDigit)

/-- the part of a number from its exponent on -/
def exponentPart? (negative : Bool) (digits : Digits) (cs : List Char) : Option Number :=
  let (down, cs) := match cs with
    | '-' :: rest => (true, rest)
    | '+' :: rest => (false, rest)
    | _ => (false, cs)
  let (written, rest) := spanDigits cs
  if written.isEmpty || !rest.isEmpty then none else withExponent? negative digits down written

/-- a number without its sign -/
def unsigned? (negative : Bool) (cs : List Char) : Option Number :=
  let (front, rest) := spanDigits cs
  if front.isEmpty || (front.head? = some '0' && front.length ≠ 1) then none
  else
    let digits := wholeDigits ⟨0, 0⟩ front
    match rest with
    | [] => ofWhole? negative digits
    | '.' :: rest =>
      let (behind, rest) := spanDigits rest
      let digits := fractionDigits digits behind
      if behind.isEmpty then none
      else
        match rest with
        | [] => rounded? negative digits
        | c :: rest => if c = 'e' || c = 'E' then exponentPart? negative digits rest else none
    | c :: rest => if c = 'e' || c = 'E' then exponentPart? negative digits rest else none

/-- reads a whole text as a number -/
def ofChars? : List Char → Option Number
  | '-' :: cs => unsigned? true cs
  | cs => unsigned? false cs

/-- the characters numbers are made of -/
def isNumberChar (c : Char) : Bool :=
  Ascii.isDigit c || c = '-' || c = '+' || c = '.' || c = 'e' || c = 'E'

/-- the written form -/
def chars : Number → List Char
  | whole (.ofNat n) => Nat.toDigits 10 n
  | whole (.negSucc n) => '-' :: Nat.toDigits 10 (n + 1)
  | decimal d => d.chars

end Number

end Isolation.Json

/-
The shortest decimal that reads back as a given number of 53 binary digits. The reals that round to the number form
an interval; the first grid of 1, 2, ... 17 decimal digits with a point in it gives the decimal, and of two points
the nearer one is taken.
-/
import Isolation.Number.Rounding

namespace Isolation

/-- a decimal `digits * 10 ^ exponent`, with its sign; the last digit is not zero unless all of it is -/
structure Decimal where
  negative : Bool
  digits : Nat
  exponent : Int
deriving DecidableEq, Repr

namespace Decimal

/-- drops zeros at the end of the digits; `fuel` bounds their number -/
def stripZeros : (fuel digits : Nat) → (exponent : Int) → Nat × Int
  | 0, digits, exponent => (digits, exponent)
  | fuel + 1, digits, exponent =>
    if digits ≠ 0 && digits % 10 == 0 then stripZeros fuel (digits / 10) (exponent + 1) else (digits, exponent)

/-- how many decimal digits a natural number has -/
def digitCount (n : Nat) : Nat := (Nat.toDigits 10 n).length

/-- how often `num` must be taken ten times until it reaches `den` -/
def placesBelowOne (den : Nat) : (fuel num : Nat) → Nat
  | 0, _ => 0
  | fuel + 1, num => if den ≤ num then 0 else placesBelowOne den fuel (num * 10) + 1

/-- the number of digits before the point, negative for zeros behind it: `10 ^ (k - 1) ≤ num / den < 10 ^ k` -/
def magnitude (num den : Nat) : Int :=
  if den ≤ num then digitCount (num / den) else 1 - (placesBelowOne den 400 num : Int)

/-- `num / den / 10 ^ p` as a fraction -/
def onGrid (num den : Nat) (p : Int) : Nat × Nat :=
  if 0 ≤ p then (num, den * Nat.pow 10 p.toNat) else (num * Nat.pow 10 (-p).toNat, den)

/-- the reals that round to a number, as four times its fraction: lower end, number, upper end over `den` -/
structure Interval where
  low : Nat
  mid : Nat
  high : Nat
  den : Nat
  closed : Bool

/-- the reals that round to `x`; the gap below a power of two is half as wide -/
def interval (x : Binary) : Interval :=
  let (unit, den) := Binary.ratio ⟨1, x.exponent⟩
  let narrow := x.mantissa == Binary.mantissaLimit / 2 && Binary.leastExponent < x.exponent
  let mid := 4 * x.mantissa * unit
  ⟨mid - (if narrow then unit else 2 * unit), mid, mid + 2 * unit, 4 * den, x.mantissa % 2 == 0⟩

/-- the decimal `digits * 10 ^ p` rounds to the number -/
def Interval.holds (i : Interval) (digits : Nat) (p : Int) : Bool :=
  let (d, one) := if 0 ≤ p then (digits * Nat.pow 10 p.toNat * i.den, 1) else (digits * i.den, Nat.pow 10 (-p).toNat)
  if i.closed then i.low * one ≤ d && d ≤ i.high * one else i.low * one < d && d < i.high * one

/-- the best point of the grid `10 ^ p`, if one rounds to the number; a tie goes to the even digits -/
def Interval.pointOn? (i : Interval) (p : Int) : Option Nat :=
  let (a, b) := onGrid i.mid i.den p
  let below := a / b
  match i.holds below p, i.holds (below + 1) p with
  | true, true => some (divToEven a b)
  | true, false => some below
  | false, true => some (below + 1)
  | false, false => none

/-- the first grid with a point, from `count` digits on -/
def Interval.search (i : Interval) (k : Int) : (fuel count : Nat) → Nat × Int
  | 0, _ => (0, 0)
  | fuel + 1, count =>
    match i.pointOn? (k - count) with
    | some digits => (digits, k - count)
    | none => i.search k fuel (count + 1)

/-- the shortest decimal that rounds to `x` -/
def shortest (negative : Bool) (x : Binary) : Decimal :=
  if x.isZero then ⟨negative, 0, 0⟩
  else
    let i := interval x
    let (digits, exponent) := i.search (magnitude x.ratio.1 x.ratio.2) 17 1
    let (digits, exponent) := stripZeros 20 digits exponent
    ⟨negative, digits, exponent⟩

/-! ## Written form -/

/-- the exponent of the first digit -/
def leadExponent (d : Decimal) : Int := d.exponent + digitCount d.digits - 1

/-- first digit, point, the other digits -/
def pointed (digits : List Char) : List Char :=
  match digits with
  | [] => []
  | [d] => [d]
  | d :: rest => d :: '.' :: rest

/-- Written with a point when the first digit stands for at least `10 ^ -5` and less than `10 ^ 16`, always with a
digit behind the point; otherwise with an exponent that has its sign. -/
def chars (d : Decimal) : List Char :=
  let digits := Nat.toDigits 10 d.digits
  let lead := d.leadExponent
  let body :=
    if d.digits = 0 then ['0', '.', '0']
    else if -5 ≤ lead && lead < 16 then
      if 0 ≤ d.exponent then digits ++ List.replicate d.exponent.toNat '0' ++ ['.', '0']
      else if 0 ≤ lead then digits.take (lead + 1).toNat ++ '.' :: digits.drop (lead + 1).toNat
      else '0' :: '.' :: List.replicate (-lead - 1).toNat '0' ++ digits
    else pointed digits ++ 'e' :: (if lead < 0 then '-' else '+') :: Nat.toDigits 10 lead.natAbs
  if d.negative then '-' :: body else body

end Decimal

end Isolation

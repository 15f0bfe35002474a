/-
Rounding of fractions to numbers of 53 binary digits, in exact arithmetic. A number is an integer times a power of
two; the exponent is never below -1074, and a number with an exponent above 971 is beyond the range of the format.
-/

namespace Isolation

/-- `a / b` to the nearest integer, a half to the even neighbour -/
def divToEven (a b : Nat) : Nat :=
  let q := a / b
  let r := a % b
  if b < 2 * r || (2 * r == b && q % 2 == 1) then q + 1 else q

/-- a number `mantissa * 2 ^ exponent`, not negative -/
structure Binary where
  mantissa : Nat
  exponent : Int
deriving DecidableEq, Repr

namespace Binary

/-- the least exponent -/
def leastExponent : Int := -1074

/-- the greatest exponent of a number in range -/
def greatestExponent : Int := 971

/-- a mantissa is below this -/
def mantissaLimit : Nat := Nat.pow 2 53

def zero : Binary := ⟨0, leastExponent⟩

def isZero (x : Binary) : Bool := x.mantissa == 0

def inRange (x : Binary) : Bool := x.exponent ≤ greatestExponent

/-- `num / den / 2 ^ e` as a fraction of natural numbers -/
def scaled (num den : Nat) (e : Int) : Nat × Nat :=
  if 0 ≤ e then (num, den * Nat.pow 2 e.toNat) else (num * Nat.pow 2 (-e).toNat, den)

/-- the number nearest to `num / den`, a half to the even mantissa -/
def ofRatio (num den : Nat) : Binary :=
  if num = 0 then zero
  else
    let guess : Int := (num.log2 : Int) - (den.log2 : Int) - 53
    let (a, b) := scaled num den guess
    let e := max (if mantissaLimit * b ≤ a then guess + 1 else guess) leastExponent
    let (a, b) := scaled num den e
    let m := divToEven a b
    if m = mantissaLimit then ⟨m / 2, e + 1⟩ else ⟨m, e⟩

def ofNat (n : Nat) : Binary := ofRatio n 1

/-- the number as a fraction -/
def ratio (x : Binary) : Nat × Nat :=
  if 0 ≤ x.exponent then (x.mantissa * Nat.pow 2 x.exponent.toNat, 1) else (x.mantissa, Nat.pow 2 (-x.exponent).toNat)

/-- the product, rounded once -/
def mul (x y : Binary) : Binary :=
  ofRatio (x.ratio.1 * y.ratio.1) (x.ratio.2 * y.ratio.2)

/-- the quotient, rounded once -/
def div (x y : Binary) : Binary :=
  ofRatio (x.ratio.1 * y.ratio.2) (x.ratio.2 * y.ratio.1)

end Binary

end Isolation

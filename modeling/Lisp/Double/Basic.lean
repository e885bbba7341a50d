/-!
Binary floating-point numbers of 64 bits. A number is its bits: one sign bit, eleven exponent bits
and fifty-two fraction bits. Finite magnitudes are whole multiples of 2 ^ -1074, so all that is said
here about them is exact arithmetic on `Nat`.
-/

namespace Lisp

structure Double where
  bits : UInt64
deriving DecidableEq, Repr

namespace Double

/-- The finest unit is 2 ^ -unitExponent. -/
def unitExponent : Nat := 1074

/-- The bits below the sign of an infinity: magnitudes beyond it are no numbers. -/
def infinityMagnitude : Nat := 2047 * Nat.pow 2 52

def isNegative (x : Double) : Bool :=
  Nat.pow 2 63 ≤ x.bits.toNat

/-- The bits below the sign. -/
def magnitude (x : Double) : Nat :=
  x.bits.toNat % Nat.pow 2 63

def ofMagnitude (negative : Bool) (magnitude : Nat) : Double :=
  ⟨UInt64.ofNat (if negative then Nat.pow 2 63 + magnitude else magnitude)⟩

def infinity : Double := ofMagnitude false infinityMagnitude

def negInfinity : Double := ofMagnitude true infinityMagnitude

def nan : Double := ofMagnitude false (infinityMagnitude + Nat.pow 2 51)

def isNaN (x : Double) : Bool :=
  infinityMagnitude < x.magnitude

def isInfinite (x : Double) : Bool :=
  x.magnitude = infinityMagnitude

/-- The absolute value of a finite number, counted in units of 2 ^ -1074. -/
def units (x : Double) : Nat :=
  let exponent := x.magnitude / Nat.pow 2 52
  let fraction := x.magnitude % Nat.pow 2 52
  if exponent = 0 then fraction else (Nat.pow 2 52 + fraction) * Nat.pow 2 (exponent - 1)

/-- A quotient rounded to the nearest whole number, a half to the even one. -/
def roundHalfEven (num den : Nat) : Nat :=
  let quotient := num / den
  let remainder := num % den
  if 2 * remainder < den then quotient
  else if den < 2 * remainder then quotient + 1
  else quotient + quotient % 2

/-- The magnitude nearest to `num / den`, of two equally near ones the even one. -/
def nearest (num den : Nat) : Nat :=
  let scaled := num * Nat.pow 2 unitExponent
  let shift := (scaled / den).log2 - 52
  min infinityMagnitude (shift * Nat.pow 2 52 + roundHalfEven scaled (den * Nat.pow 2 shift))

/-- The number nearest to an integer. -/
def ofInt (n : Int) : Double :=
  ofMagnitude (n < 0) (nearest n.natAbs 1)

/-- The place of a number in the numeric order; the two zeros share theirs. -/
def rank (x : Double) : Int :=
  if x.isNegative then -(x.magnitude : Int) else x.magnitude

def lt (x y : Double) : Bool :=
  !x.isNaN && !y.isNaN && decide (x.rank < y.rank)

def le (x y : Double) : Bool :=
  !x.isNaN && !y.isNaN && decide (x.rank ≤ y.rank)

end Double

end Lisp

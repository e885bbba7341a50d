import Lisp.Double.Basic

/-!
Decimal texts of numbers: reading one rounds to the nearest double, and writing one takes the fewest
fraction digits, at least one, that read back as the same double.
-/

namespace Lisp

/-- The number `digits * 10 ^ exponent`, or its opposite. -/
structure Decimal where
  negative : Bool
  digits : Nat
  exponent : Int
deriving DecidableEq, Repr

namespace Decimal

/-- A text without its leading sign, and whether that was a minus. -/
def splitSign : List Char → Bool × List Char
  | '-' :: rest => (true, rest)
  | '+' :: rest => (false, rest)
  | cs => (false, cs)

/-- The value of digits. The list is halved `depth` times on the way. -/
def digitsValue : Nat → List Char → Nat
  | 0, cs => Nat.ofDigitChars 10 cs 0
  | depth + 1, cs =>
    let low := cs.drop (cs.length / 2)
    digitsValue depth (cs.take (cs.length / 2)) * Nat.pow 10 low.length + digitsValue depth low

theorem ofDigitChars_init (cs : List Char) (init : Nat) :
    Nat.ofDigitChars 10 cs init = init * Nat.pow 10 cs.length + Nat.ofDigitChars 10 cs 0 := by
  induction cs generalizing init with
  | nil => simp [Nat.ofDigitChars]
  | cons c cs ih =>
    have hpow : Nat.pow 10 (cs.length + 1) = Nat.pow 10 cs.length * 10 := rfl
    rw [Nat.ofDigitChars_cons, Nat.ofDigitChars_cons, ih, ih (10 * 0 + _), List.length_cons, hpow]
    grind

theorem digitsValue_eq (depth : Nat) (cs : List Char) :
    digitsValue depth cs = Nat.ofDigitChars 10 cs 0 := by
  induction depth generalizing cs with
  | zero => rfl
  | succ depth ih =>
    have split := Nat.ofDigitChars_append (b := 10) (l := cs.take (cs.length / 2))
      (m := cs.drop (cs.length / 2)) 0
    rw [List.take_append_drop] at split
    rw [digitsValue, ih, ih, split,
      ofDigitChars_init _ (Nat.ofDigitChars 10 (cs.take (cs.length / 2)) 0)]

/-- The value of digits, of however many. -/
def value (cs : List Char) : Nat :=
  digitsValue (cs.length.log2 - 5) cs

/-- Halving changes only how fast the value is found. -/
theorem value_eq (cs : List Char) : value cs = Nat.ofDigitChars 10 cs 0 :=
  digitsValue_eq _ cs

/-- The value of one or more digits. -/
def natural? (cs : List Char) : Option Nat :=
  if cs.isEmpty || !cs.all Char.isDigit then none else some (value cs)

/-- The value of digits after at most one sign. -/
def integer? (cs : List Char) : Option Int :=
  let (negative, rest) := splitSign cs
  (natural? rest).map fun n => if negative then -(n : Int) else n

/-- The digits of an exponent count until they make it this large. -/
def exponentCap : Nat := Nat.pow 2 16

/-- The value of the digits of an exponent, those after it has become too large left out. -/
def cappedValue (cs : List Char) : Nat :=
  cs.foldl (fun n c => if n < exponentCap then 10 * n + (c.toNat - '0'.toNat) else n) 0

/-- The exponent that ends a number: nothing, or a mark, a sign perhaps, and digits. -/
def exponentPart? : List Char → Option Int
  | [] => some 0
  | c :: rest =>
    let (negative, digits) := splitSign rest
    if (c = 'e' || c = 'E') && !digits.isEmpty && digits.all Char.isDigit then
      some (if negative then -(cappedValue digits : Int) else cappedValue digits)
    else none

/-- The fraction digits after a point, if there is one, and what follows. -/
def splitFraction : List Char → List Char × List Char
  | '.' :: rest => (rest.takeWhile Char.isDigit, rest.dropWhile Char.isDigit)
  | cs => ([], cs)

/-- Reads a sign, digits with at most one point among them, and an exponent;
the sign and the exponent may be left out. -/
def ofChars? (cs : List Char) : Option Decimal :=
  let (negative, body) := splitSign cs
  let whole := body.takeWhile Char.isDigit
  let (fraction, rest) := splitFraction (body.dropWhile Char.isDigit)
  if (whole ++ fraction).isEmpty then none
  else (exponentPart? rest).map fun exponent =>
    ⟨negative, value (whole ++ fraction), exponent - fraction.length⟩

/-- An exponent of the same effect that is not huge: beyond these bounds every number
is too large or too small for a double. -/
def clampExponent (digits : Nat) (exponent : Int) : Int :=
  max (min exponent 400) (-(digits.log2 / 3 + 1101))

/-- The double nearest to a decimal. -/
def toDouble (d : Decimal) : Double :=
  let magnitude :=
    match clampExponent d.digits d.exponent with
    | .ofNat e => Double.nearest (d.digits * Nat.pow 10 e) 1
    | .negSucc e => Double.nearest d.digits (Nat.pow 10 (e + 1))
  Double.ofMagnitude d.negative magnitude

end Decimal

namespace Double

/-- The whole number of units of 10 ^ -places that reads back as `x`,
of two the nearer one, of two equally near ones the larger. -/
def decimalAt? (x : Double) (places : Nat) : Option Nat :=
  let scaled := x.units * Nat.pow 10 places
  let unit := Nat.pow 2 unitExponent
  let below := scaled / unit
  let readsBack := fun digits => nearest digits (Nat.pow 10 places) = x.magnitude
  if readsBack below then
    if readsBack (below + 1) ∧ unit ≤ 2 * (scaled % unit) then some (below + 1)
    else some below
  else if readsBack (below + 1) then some (below + 1)
  else none

/-- The digits and the number of places of the shortest decimal that reads back as `x`.
With 1074 places every finite number is written exactly. -/
def shortest (x : Double) : Nat × Nat :=
  let found := (List.range unitExponent).findSome? fun i =>
    (x.decimalAt? (i + 1)).map fun digits => (digits, i + 1)
  found.getD (x.units * Nat.pow 5 unitExponent, unitExponent)

/-- Writes `digits / 10 ^ places`, with a digit or more before the point. -/
def positional (digits places : Nat) : List Char :=
  let ds := Nat.toDigits 10 digits
  let padded := List.replicate (places + 1 - ds.length) '0' ++ ds
  padded.take (padded.length - places) ++ '.' :: padded.drop (padded.length - places)

def text (x : Double) : String :=
  if x.isNaN then "NaN"
  else
    let unsigned := if x.isInfinite then "inf".toList else positional x.shortest.1 x.shortest.2
    String.ofList (if x.isNegative then '-' :: unsigned else unsigned)

end Double

end Lisp

import Lisp.Proofs.Arithmetic
import Lisp.Proofs.RoundTrip
import Mathlib.Data.List.TakeWhile
import Mathlib.Data.Nat.Digits.Defs

/-!
# Integers as words

A word of digits after at most one sign stands for an integer. If the exact value fits into 64 bits
the word is read as that integer, otherwise as the double nearest to it, and no other word is read
as an integer. What the words are is said by `Numeral`, with the value by the places of the digits;
the reader finds the same value (`integer?_eq_some_iff`), whatever the number of digits.
-/

namespace Lisp

namespace Decimal

/-! ## Numerals -/

/-- One or more decimal digits. -/
structure Digits (ds : List Char) : Prop where
  nonempty : ds ≠ []
  digits : ∀ c ∈ ds, c.isDigit = true

/-- The number that digits stand for, each by its place. -/
def placeValue (ds : List Char) : Nat :=
  Nat.ofDigits 10 (ds.map fun c => c.toNat - '0'.toNat).reverse

/-- `Numeral word z`: the word is digits after at most one sign and stands for `z`. -/
inductive Numeral : List Char → Int → Prop
  | unsigned {ds : List Char} : Digits ds → Numeral ds (placeValue ds)
  | plus {ds : List Char} : Digits ds → Numeral ('+' :: ds) (placeValue ds)
  | minus {ds : List Char} : Digits ds → Numeral ('-' :: ds) (-(placeValue ds))

/-- The value that is found digit by digit is that of the places. -/
theorem value_eq_placeValue (ds : List Char) : value ds = placeValue ds := by
  rw [value_eq]
  induction ds with
  | nil => rfl
  | cons c ds ih =>
    have hpow : Nat.pow 10 ds.length = 10 ^ ds.length := rfl
    rw [Nat.ofDigitChars_cons, ofDigitChars_init, ih, hpow]
    simp only [placeValue, List.map_cons, Nat.ofDigits_reverse_cons, List.length_map]
    ring

theorem natural?_eq_some_iff {ds : List Char} {n : Nat} :
    natural? ds = some n ↔ Digits ds ∧ n = placeValue ds := by
  have hshape : (ds.isEmpty || !ds.all Char.isDigit) = false ↔ Digits ds := by
    rw [Bool.or_eq_false_iff, List.isEmpty_eq_false_iff, Bool.not_eq_false', List.all_eq_true]
    exact ⟨fun h => ⟨h.1, h.2⟩, fun h => ⟨h.nonempty, h.digits⟩⟩
  rw [natural?, value_eq_placeValue, ← hshape]
  cases ds.isEmpty || !ds.all Char.isDigit <;> simp [eq_comm]

/-- A sign is taken off if there is one. -/
theorem splitSign_cases (word : List Char) :
    (∃ rest, word = '-' :: rest ∧ splitSign word = (true, rest)) ∨
    (∃ rest, word = '+' :: rest ∧ splitSign word = (false, rest)) ∨
    splitSign word = (false, word) := by
  fun_cases splitSign word with
  | case1 rest => exact Or.inl ⟨rest, rfl, rfl⟩
  | case2 rest => exact Or.inr (Or.inl ⟨rest, rfl, rfl⟩)
  | case3 => exact Or.inr (Or.inr rfl)

theorem Digits.splitSign_eq {ds : List Char} (h : Digits ds) : splitSign ds = (false, ds) := by
  cases ds with
  | nil => exact absurd rfl h.nonempty
  | cons c cs => exact splitSign_of_isDigit (h.digits c List.mem_cons_self) cs

theorem integer?_of_splitSign {word ds : List Char} {negative : Bool}
    (h : splitSign word = (negative, ds)) :
    integer? word = (natural? ds).map fun n : Nat => if negative then -(n : Int) else n := by
  unfold integer?
  simp only [h]
  cases natural? ds <;> rfl

/-- The words that have an integer value are the numerals. -/
theorem integer?_eq_some_iff {word : List Char} {z : Int} :
    integer? word = some z ↔ Numeral word z := by
  constructor
  · intro h
    rcases splitSign_cases word with ⟨ds, rfl, hsign⟩ | ⟨ds, rfl, hsign⟩ | hsign
    all_goals
      rw [integer?_of_splitSign hsign] at h
      obtain ⟨n, hn, rfl⟩ := Option.map_eq_some_iff.mp h
      obtain ⟨hds, rfl⟩ := natural?_eq_some_iff.mp hn
    · exact .minus hds
    · exact .plus hds
    · exact .unsigned hds
  · intro h
    cases h with
    | unsigned hds =>
      rw [integer?_of_splitSign hds.splitSign_eq, natural?_eq_some_iff.mpr ⟨hds, rfl⟩]
      rfl
    | @plus ds hds =>
      have hsign : splitSign ('+' :: ds) = (false, ds) := rfl
      rw [integer?_of_splitSign hsign, natural?_eq_some_iff.mpr ⟨hds, rfl⟩]
      rfl
    | @minus ds hds =>
      have hsign : splitSign ('-' :: ds) = (true, ds) := rfl
      rw [integer?_of_splitSign hsign, natural?_eq_some_iff.mpr ⟨hds, rfl⟩]
      rfl

/-! ## Numerals as decimals -/

theorem ofChars?_of_digits {word ds : List Char} {negative : Bool}
    (hsign : splitSign word = (negative, ds)) (h : Digits ds) :
    ofChars? word = some ⟨negative, placeValue ds, 0⟩ := by
  have htake : ds.takeWhile Char.isDigit = ds := List.takeWhile_eq_self_iff.mpr h.digits
  have hdrop : ds.dropWhile Char.isDigit = [] := List.dropWhile_eq_nil_iff.mpr h.digits
  have hsplit : splitFraction [] = ([], []) := rfl
  unfold ofChars?
  simp only [hsign, htake, hdrop, hsplit, List.append_nil]
  simp [h.nonempty, exponentPart?, value_eq_placeValue]

/-- A decimal without places is rounded as the integer is. -/
theorem toDouble_whole (negative : Bool) (n : Nat) :
    toDouble ⟨negative, n, 0⟩ = Double.ofMagnitude negative (Double.nearest n 1) := by
  have hclamp : clampExponent n 0 = 0 := by
    unfold clampExponent
    omega
  have hone : n * Nat.pow 10 0 = n := Nat.mul_one n
  unfold toDouble
  rw [hclamp]
  exact congrArg (fun k => Double.ofMagnitude negative (Double.nearest k 1)) hone

theorem toDouble_natural (n : Nat) : toDouble ⟨false, n, 0⟩ = Double.ofInt n := by
  have hsign : ¬ (n : Int) < 0 := by omega
  rw [toDouble_whole, Double.ofInt, decide_eq_false hsign, Int.natAbs_natCast]

theorem Digits.looksNumeric {ds : List Char} (h : Digits ds) : Text.looksNumeric ds = true := by
  cases ds with
  | nil => exact absurd rfl h.nonempty
  | cons c cs => simp [Text.looksNumeric, h.digits c List.mem_cons_self]

theorem Digits.looksNumeric_signed {ds : List Char} (h : Digits ds) {sign : Char}
    (hsign : sign = '+' ∨ sign = '-') : Text.looksNumeric (sign :: ds) = true := by
  cases ds with
  | nil => exact absurd rfl h.nonempty
  | cons c cs =>
    rcases hsign with rfl | rfl <;> simp [Text.looksNumeric, h.digits c List.mem_cons_self]

theorem Numeral.looksNumeric {word : List Char} {z : Int} (h : Numeral word z) :
    Text.looksNumeric word = true := by
  cases h with
  | unsigned hds => exact hds.looksNumeric
  | plus hds => exact hds.looksNumeric_signed (Or.inl rfl)
  | minus hds => exact hds.looksNumeric_signed (Or.inr rfl)

/-- A numeral is also a decimal, and as one it is the double nearest to its value. Zero is left out,
since a minus before it makes another zero. -/
theorem Numeral.exists_decimal {word : List Char} {z : Int} (h : Numeral word z) (hz : z ≠ 0) :
    ∃ d, ofChars? word = some d ∧ d.toDouble = Double.ofInt z := by
  cases h with
  | unsigned hds => exact ⟨_, ofChars?_of_digits hds.splitSign_eq hds, toDouble_natural _⟩
  | plus hds => exact ⟨_, ofChars?_of_digits rfl hds, toDouble_natural _⟩
  | @minus ds hds =>
    refine ⟨_, ofChars?_of_digits rfl hds, ?_⟩
    have hneg : -(placeValue ds : Int) < 0 := by omega
    rw [toDouble_whole, Double.ofInt, decide_eq_true hneg, Int.natAbs_neg, Int.natAbs_natCast]

end Decimal

/-! ## Words -/

theorem int64?_eq_some_iff {z : Int} {n : Int64} : int64? z = some n ↔ n.toInt = z := by
  constructor
  · intro h
    by_cases hfits : Fits z
    · obtain ⟨r, hr, hexact⟩ := int64?_of_fits hfits
      rw [h] at hr
      cases hr
      exact hexact
    · rw [int64?_of_not_fits hfits] at h
      cases h
  · rintro rfl
    exact int64?_toInt n

namespace Value

open Decimal

theorem ofWord_eq_int_iff {word : List Char} {n : Int64} :
    ofWord word = .int n ↔ Numeral word n.toInt := by
  rw [← integer?_eq_some_iff]
  constructor
  · intro h
    unfold ofWord at h
    split at h
    · next r hr =>
      cases h
      obtain ⟨z, hz, hzn⟩ := Option.bind_eq_some_iff.mp hr
      rw [hz, int64?_eq_some_iff.mp hzn]
    · split at h
      · cases h
      · split at h <;> cases h
  · intro h
    unfold ofWord
    rw [h, Option.bind_some, int64?_toInt]

/-- A numeral that does not fit is a float. -/
theorem ofWord_of_not_fits {word : List Char} {z : Int} (h : Numeral word z) (hfits : ¬ Fits z) :
    ofWord word = .float (Double.ofInt z) := by
  have hz : z ≠ 0 := by
    rintro rfl
    exact hfits ⟨by decide, by decide⟩
  obtain ⟨d, hd, hdouble⟩ := h.exists_decimal hz
  unfold ofWord
  rw [integer?_eq_some_iff.mpr h, Option.bind_some, int64?_of_not_fits hfits, h.looksNumeric,
    if_pos rfl, hd, ← hdouble]

/-- A word is an integer just if it is a numeral whose value fits into 64 bits. A numeral whose
value does not is the double nearest to it. The text of an integer is a word for that integer. -/
theorem ofWord_exact_on_integers (word : List Char) (z : Int) :
    ((∃ n : Int64, n.toInt = z ∧ ofWord word = .int n) ↔ Numeral word z ∧ Fits z) ∧
    (Numeral word z → ¬ Fits z → ofWord word = .float (Double.ofInt z)) ∧
    ∀ (n : Int64) (cells : Array Value) (style : Style),
      ofWord (text cells style (.int n)).toList = .int n := by
  refine ⟨⟨?_, ?_⟩, ofWord_of_not_fits, fun n _ _ => ofWord_toString n⟩
  · rintro ⟨n, rfl, h⟩
    exact ⟨ofWord_eq_int_iff.mp h, fits_toInt n⟩
  · rintro ⟨h, hfits⟩
    obtain ⟨n, -, rfl⟩ := int64?_of_fits hfits
    exact ⟨n, rfl, ofWord_eq_int_iff.mpr h⟩

/-- The least integer, the greatest one after a plus and zeros, and the next one, which is a
float. -/
theorem ofWord_exact_on_integers_ends :
    (Numeral "-9223372036854775808".toList (-9223372036854775808) ∧ Fits (-9223372036854775808) ∧
      ∃ n : Int64, n.toInt = -9223372036854775808 ∧
        ofWord "-9223372036854775808".toList = .int n) ∧
    (Numeral "+009223372036854775807".toList 9223372036854775807 ∧ Fits 9223372036854775807 ∧
      ∃ n : Int64, n.toInt = 9223372036854775807 ∧
        ofWord "+009223372036854775807".toList = .int n) ∧
    Numeral "9223372036854775808".toList 9223372036854775808 ∧ ¬ Fits 9223372036854775808 ∧
      ofWord "9223372036854775808".toList = .float (Double.ofInt 9223372036854775808) := by
  have hleast : Numeral "-9223372036854775808".toList (-9223372036854775808) :=
    integer?_eq_some_iff.mp (by decide +kernel)
  have hgreatest : Numeral "+009223372036854775807".toList 9223372036854775807 :=
    integer?_eq_some_iff.mp (by decide +kernel)
  have hnext : Numeral "9223372036854775808".toList 9223372036854775808 :=
    integer?_eq_some_iff.mp (by decide +kernel)
  have hleastFits : Fits (-9223372036854775808) := ⟨by decide, by decide⟩
  have hgreatestFits : Fits 9223372036854775807 := ⟨by decide, by decide⟩
  have hnextFits : ¬ Fits 9223372036854775808 := fun h => absurd h.2 (by decide)
  exact ⟨⟨hleast, hleastFits, (ofWord_exact_on_integers _ _).1.mpr ⟨hleast, hleastFits⟩⟩,
    ⟨hgreatest, hgreatestFits,
      (ofWord_exact_on_integers _ _).1.mpr ⟨hgreatest, hgreatestFits⟩⟩,
    hnext, hnextFits, (ofWord_exact_on_integers _ _).2.1 hnext hnextFits⟩

end Value

end Lisp

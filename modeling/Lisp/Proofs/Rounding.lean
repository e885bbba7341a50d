import Lisp.Builtin.Comparison
import Mathlib.Algebra.Group.Nat.Defs
import Mathlib.Order.Monotone.Basic

/-!
# Numbers as doubles

A double is a whole number of units of 2 ^ -1074 (`value`), and the order of doubles is the order of
these numbers. A number that is a double is nearest to itself (`nearest_of_exact`). An integer
becomes the double of the integer that it is rounded to: the one of at most 53 significant bits
nearest to it, of two equally near ones the even one (`value_ofInt`). Rounding keeps the order of
integers, and it keeps the integers up to 2 ^ 53 as they are.
-/

namespace Lisp

namespace Double

/-! ## Quotients rounded half to even -/

section

variable {num num' den c : Nat}

theorem le_roundHalfEven (num den : Nat) : num / den ≤ roundHalfEven num den := by
  unfold roundHalfEven
  dsimp only
  split
  · exact Nat.le_refl _
  · split
    · exact Nat.le_succ _
    · exact Nat.le_add_right _ _

theorem roundHalfEven_le (num den : Nat) : roundHalfEven num den ≤ num / den + 1 := by
  unfold roundHalfEven
  dsimp only
  split
  · exact Nat.le_succ _
  · split
    · exact Nat.le_refl _
    · exact Nat.add_le_add_left (Nat.le_of_lt_succ (Nat.mod_lt _ (by decide))) _

theorem roundHalfEven_mul (q : Nat) (hden : 0 < den) : roundHalfEven (q * den) den = q := by
  unfold roundHalfEven
  simp [Nat.mul_div_cancel q hden, hden]

theorem roundHalfEven_mul_right (hc : 0 < c) :
    roundHalfEven (num * c) (den * c) = roundHalfEven num den := by
  unfold roundHalfEven
  simp only [Nat.mul_div_mul_right _ _ hc, Nat.mul_mod_mul_right, ← Nat.mul_assoc,
    Nat.mul_lt_mul_right hc]

theorem roundHalfEven_mono (den : Nat) (h : num ≤ num') :
    roundHalfEven num den ≤ roundHalfEven num' den := by
  rcases Nat.lt_or_eq_of_le (Nat.div_le_div_right (c := den) h) with hlt | heq
  · exact Nat.le_trans (roundHalfEven_le num den)
      (Nat.le_trans hlt (le_roundHalfEven num' den))
  · -- With one quotient the remainders are in the order of the numbers.
    have hrem : num % den ≤ num' % den := by
      have hnum := Nat.div_add_mod num den
      have hnum' := Nat.div_add_mod num' den
      rw [heq] at hnum
      omega
    unfold roundHalfEven
    simp only [heq]
    generalize num' / den = q, num % den = r, num' % den = r' at hrem
    grind

/-- The rounded quotient is at most half of the denominator away. -/
theorem roundHalfEven_error (num : Nat) (hden : 0 < den) :
    2 * num ≤ 2 * (roundHalfEven num den * den) + den ∧
      2 * (roundHalfEven num den * den) ≤ 2 * num + den := by
  have hnum := Nat.div_add_mod num den
  have hrem := Nat.mod_lt num hden
  unfold roundHalfEven
  dsimp only
  rw [Nat.mul_comm] at hnum
  split
  · omega
  · split
    · rw [Nat.add_mul, Nat.one_mul]
      omega
    · rcases Nat.mod_two_eq_zero_or_one (num / den) with heven | hodd
      · rw [heven, Nat.add_zero]
        omega
      · rw [hodd, Nat.add_mul, Nat.one_mul]
        omega

/-- No other multiple of the denominator is nearer. -/
theorem roundHalfEven_nearest (num : Nat) (hden : 0 < den) (q : Nat) :
    ((num : Int) - (roundHalfEven num den * den : Nat)).natAbs ≤
      ((num : Int) - (q * den : Nat)).natAbs := by
  obtain ⟨hlow, hhigh⟩ := roundHalfEven_error num hden
  rcases Nat.lt_trichotomy q (roundHalfEven num den) with hlt | rfl | hgt
  · have hstep := Nat.mul_le_mul_right den (Nat.succ_le_of_lt hlt)
    rw [Nat.succ_mul] at hstep
    omega
  · exact Nat.le_refl _
  · have hstep := Nat.mul_le_mul_right den (Nat.succ_le_of_lt hgt)
    rw [Nat.succ_mul] at hstep
    omega

end

/-! ## Magnitudes and the numbers they stand for -/

/-- The number of units that the bits below the sign stand for. -/
def unitsOf (magnitude : Nat) : Nat :=
  if magnitude / 2 ^ 52 = 0 then magnitude % 2 ^ 52
  else (2 ^ 52 + magnitude % 2 ^ 52) * 2 ^ (magnitude / 2 ^ 52 - 1)

theorem units_eq (x : Double) : x.units = unitsOf x.magnitude := rfl

theorem unitsOf_of_lt {m : Nat} (h : m < 2 ^ 52) : unitsOf m = m := by
  rw [unitsOf, if_pos (Nat.div_eq_of_lt h), Nat.mod_eq_of_lt h]

/-- A significand of 53 bits, or the first number above them, times a power of two. -/
theorem unitsOf_normal {s q : Nat} (hle : 2 ^ 52 ≤ q) (hge : q ≤ 2 ^ 53) :
    unitsOf (s * 2 ^ 52 + q) = q * 2 ^ s := by
  unfold unitsOf
  rcases Nat.lt_or_eq_of_le hge with hlt | rfl
  · have hdiv : (s * 2 ^ 52 + q) / 2 ^ 52 = s + 1 := by omega
    have hmod : (s * 2 ^ 52 + q) % 2 ^ 52 = q - 2 ^ 52 := by omega
    rw [hdiv, hmod, if_neg (Nat.succ_ne_zero s), Nat.add_sub_cancel' hle, Nat.add_sub_cancel]
  · have hdiv : (s * 2 ^ 52 + 2 ^ 53) / 2 ^ 52 = s + 2 := by omega
    have hmod : (s * 2 ^ 52 + 2 ^ 53) % 2 ^ 52 = 0 := by omega
    have hexponent : 52 + (s + 2 - 1) = 53 + s := by omega
    rw [hdiv, hmod, if_neg (Nat.succ_ne_zero _), Nat.add_zero, ← Nat.pow_add, ← Nat.pow_add,
      hexponent]

theorem exists_normal {m : Nat} (h : 2 ^ 52 ≤ m) :
    ∃ s q, m = s * 2 ^ 52 + q ∧ 2 ^ 52 ≤ q ∧ q < 2 ^ 53 :=
  ⟨m / 2 ^ 52 - 1, m % 2 ^ 52 + 2 ^ 52, by omega, by omega, by omega⟩

theorem unitsOf_lt_succ (m : Nat) : unitsOf m < unitsOf (m + 1) := by
  rcases Nat.lt_or_ge m (2 ^ 52) with hlt | hge
  · rw [unitsOf_of_lt hlt]
    rcases Nat.lt_or_eq_of_le (Nat.succ_le_of_lt hlt) with hlt' | heq
    · rw [unitsOf_of_lt hlt']
      exact Nat.lt_succ_self m
    · have hfirst : unitsOf (2 ^ 52) = 2 ^ 52 := by decide
      rw [show m + 1 = 2 ^ 52 from heq, hfirst]
      exact hlt
  · obtain ⟨s, q, rfl, hle, hlt⟩ := exists_normal hge
    rw [unitsOf_normal hle (Nat.le_of_lt hlt), Nat.add_assoc,
      unitsOf_normal (Nat.le_succ_of_le hle) hlt]
    exact Nat.mul_lt_mul_of_pos_right (Nat.lt_succ_self q) (Nat.two_pow_pos s)

theorem unitsOf_strictMono : StrictMono unitsOf :=
  strictMono_nat_of_lt_succ unitsOf_lt_succ

/-! ## Bits -/

section

variable {m : Nat} (negative : Bool)

theorem bits_ofMagnitude (h : m < 2 ^ 63) :
    (ofMagnitude negative m).bits.toNat = if negative then 2 ^ 63 + m else m := by
  have hlt : (if negative then 2 ^ 63 + m else m) < 2 ^ 64 := by
    split <;> omega
  simp only [ofMagnitude, UInt64.toNat_ofNat', Nat.pow_eq, Nat.mod_eq_of_lt hlt]

theorem magnitude_ofMagnitude (h : m < 2 ^ 63) : (ofMagnitude negative m).magnitude = m := by
  rw [magnitude, bits_ofMagnitude negative h, Nat.pow_eq]
  split <;> omega

theorem isNegative_ofMagnitude (h : m < 2 ^ 63) :
    (ofMagnitude negative m).isNegative = negative := by
  rw [isNegative, bits_ofMagnitude negative h, Nat.pow_eq]
  cases negative with
  | false => exact decide_eq_false (Nat.not_le_of_lt h)
  | true => exact decide_eq_true (Nat.le_add_right _ _)

end

/-- The sign and the magnitude are all the bits. -/
theorem ofMagnitude_magnitude (x : Double) : ofMagnitude x.isNegative x.magnitude = x := by
  have hmagnitude : x.magnitude = x.bits.toNat % 2 ^ 63 := rfl
  have hlt : x.magnitude < 2 ^ 63 := Nat.mod_lt _ (Nat.two_pow_pos 63)
  have hbits := bits_ofMagnitude x.isNegative hlt
  have hword := x.bits.toNat_lt
  have heq : (ofMagnitude x.isNegative x.magnitude).bits.toNat = x.bits.toNat := by
    rw [hbits, isNegative, Nat.pow_eq]
    by_cases hsign : 2 ^ 63 ≤ x.bits.toNat
    · rw [decide_eq_true hsign, if_pos rfl]
      omega
    · rw [decide_eq_false hsign, if_neg Bool.false_ne_true]
      omega
  exact congrArg Double.mk (UInt64.toNat_inj.mp heq)

theorem infinityMagnitude_lt : infinityMagnitude < 2 ^ 63 := by decide

/-! ## The order of doubles -/

/-- The number of units that a finite double is. -/
def value (x : Double) : Int :=
  if x.isNegative then -(unitsOf x.magnitude : Int) else unitsOf x.magnitude

theorem unitsOf_lt_iff {m m' : Nat} : unitsOf m < unitsOf m' ↔ m < m' :=
  unitsOf_strictMono.lt_iff_lt

/-- Doubles are ordered as the numbers that they are. -/
theorem rank_lt_iff (x y : Double) : x.rank < y.rank ↔ x.value < y.value := by
  have hxy := @unitsOf_lt_iff x.magnitude y.magnitude
  have hyx := @unitsOf_lt_iff y.magnitude x.magnitude
  have hx := @unitsOf_lt_iff 0 x.magnitude
  have hy := @unitsOf_lt_iff 0 y.magnitude
  have hzero : unitsOf 0 = 0 := rfl
  rw [hzero] at hx hy
  unfold rank value
  cases x.isNegative <;> cases y.isNegative <;> simp only [↓reduceIte, Bool.false_eq_true] <;> omega

section

variable {x y : Double}

theorem lt_eq (hx : x.isNaN = false) (hy : y.isNaN = false) :
    lt x y = decide (x.value < y.value) := by
  simp only [lt, hx, hy, Bool.not_false, Bool.true_and, rank_lt_iff]

theorem le_eq (hx : x.isNaN = false) (hy : y.isNaN = false) :
    le x y = decide (x.value ≤ y.value) := by
  simp only [le, hx, hy, Bool.not_false, Bool.true_and, ← Int.not_lt, rank_lt_iff]

end

/-! ## Numbers that are doubles -/

theorem nearest_le (num den : Nat) : nearest num den ≤ infinityMagnitude :=
  Nat.min_le_left _ _

theorem log2_mul_two_pow {n : Nat} (hn : n ≠ 0) (k : Nat) : (n * 2 ^ k).log2 = n.log2 + k := by
  have hpos := Nat.two_pow_pos k
  refine (Nat.log2_eq_iff (Nat.mul_ne_zero hn (Nat.ne_of_gt hpos))).mpr ⟨?_, ?_⟩
  · rw [Nat.pow_add]
    exact Nat.mul_le_mul_right _ (Nat.log2_self_le hn)
  · rw [Nat.add_right_comm, Nat.pow_add]
    exact Nat.mul_lt_mul_of_pos_right Nat.lt_log2_self hpos

theorem log2_le_of_lt {n k : Nat} (h : n < 2 ^ (k + 1)) : n.log2 ≤ k := by
  rcases Nat.eq_zero_or_pos n with rfl | hpos
  · exact Nat.zero_le k
  · exact Nat.le_of_lt_succ ((Nat.log2_lt (Nat.ne_of_gt hpos)).mpr h)

/-- A number that is a double is nearest to itself. -/
theorem nearest_of_exact {num den m : Nat} (hden : 0 < den) (hm : m ≤ infinityMagnitude)
    (h : num * 2 ^ unitExponent = unitsOf m * den) : nearest num den = m := by
  unfold nearest
  simp only [Nat.pow_eq, h, Nat.mul_div_cancel _ hden]
  rcases Nat.lt_or_ge m (2 ^ 52) with hlt | hge
  · have hshift : m.log2 - 52 = 0 :=
      Nat.sub_eq_zero_of_le (log2_le_of_lt (Nat.lt_of_lt_of_le hlt (by decide)))
    rw [unitsOf_of_lt hlt, hshift, Nat.pow_zero, Nat.mul_one, roundHalfEven_mul m hden,
      Nat.zero_mul, Nat.zero_add, Nat.min_eq_right hm]
  · obtain ⟨s, q, rfl, hle, hlt⟩ := exists_normal hge
    have hshift : (q * 2 ^ s).log2 - 52 = s := by
      have hq : q.log2 = 52 := (Nat.log2_eq_iff (by omega)).mpr ⟨hle, hlt⟩
      rw [log2_mul_two_pow (by omega), hq, Nat.add_sub_cancel_left]
    rw [unitsOf_normal hle (Nat.le_of_lt hlt), hshift, Nat.mul_assoc, Nat.mul_comm (2 ^ s),
      roundHalfEven_mul q (Nat.mul_pos hden (Nat.two_pow_pos s)), Nat.min_eq_right hm]

/-! ## Integers -/

/-- The last place of an integer that is kept in 53 significant bits. -/
def lastPlace (n : Nat) : Nat := 2 ^ (n.log2 - 52)

/-- The number of at most 53 significant bits nearest to `n`, of two equally near ones the even
one. -/
def roundedNat (n : Nat) : Nat := roundHalfEven n (lastPlace n) * lastPlace n

theorem lastPlace_pos (n : Nat) : 0 < lastPlace n := Nat.two_pow_pos _

theorem lastPlace_of_lt {n : Nat} (h : n < 2 ^ 53) : lastPlace n = 1 := by
  rw [lastPlace, Nat.sub_eq_zero_of_le (log2_le_of_lt h), Nat.pow_zero]

/-- Rounding does not pass a number that is kept. -/
theorem le_roundedNat {m n : Nat} (h : m * lastPlace n ≤ n) : m * lastPlace n ≤ roundedNat n := by
  have hle := roundHalfEven_mono (lastPlace n) h
  rw [roundHalfEven_mul m (lastPlace_pos n)] at hle
  exact Nat.mul_le_mul_right _ hle

theorem roundedNat_le {m n : Nat} (h : n ≤ m * lastPlace n) : roundedNat n ≤ m * lastPlace n := by
  have hle := roundHalfEven_mono (lastPlace n) h
  rw [roundHalfEven_mul m (lastPlace_pos n)] at hle
  exact Nat.mul_le_mul_right _ hle

theorem lastPlace_mul (n : Nat) : ∃ k, 2 ^ n.log2 = 2 ^ k * lastPlace n := by
  refine ⟨n.log2 - (n.log2 - 52), ?_⟩
  rw [lastPlace, ← Nat.pow_add, Nat.sub_add_cancel (Nat.sub_le _ _)]

/-- Rounding does not pass the powers of two around a number. -/
theorem roundedNat_bounds {n : Nat} (hn : n ≠ 0) :
    2 ^ n.log2 ≤ roundedNat n ∧ roundedNat n ≤ 2 ^ (n.log2 + 1) := by
  obtain ⟨k, hk⟩ := lastPlace_mul n
  have hk' : 2 ^ (n.log2 + 1) = 2 ^ (k + 1) * lastPlace n := by
    rw [Nat.pow_succ, hk, Nat.pow_succ, Nat.mul_right_comm]
  rw [hk, hk']
  refine ⟨le_roundedNat ?_, roundedNat_le ?_⟩
  · rw [← hk]
    exact Nat.log2_self_le hn
  · rw [← hk']
    exact Nat.le_of_lt Nat.lt_log2_self

theorem roundedNat_mono {a b : Nat} (h : a ≤ b) : roundedNat a ≤ roundedNat b := by
  rcases Nat.eq_zero_or_pos a with rfl | hpos
  · exact Nat.zero_le _
  · have ha : a ≠ 0 := Nat.ne_of_gt hpos
    have hb : b ≠ 0 := Nat.ne_of_gt (Nat.lt_of_lt_of_le hpos h)
    have hlog : a.log2 ≤ b.log2 := (Nat.le_log2 hb).mpr (Nat.le_trans (Nat.log2_self_le ha) h)
    rcases Nat.lt_or_eq_of_le hlog with hlt | heq
    · calc roundedNat a
          ≤ 2 ^ (a.log2 + 1) := (roundedNat_bounds ha).2
        _ ≤ 2 ^ b.log2 := Nat.pow_le_pow_right (by decide) hlt
        _ ≤ roundedNat b := (roundedNat_bounds hb).1
    · have hplace : lastPlace a = lastPlace b := by rw [lastPlace, lastPlace, heq]
      rw [roundedNat, roundedNat, hplace]
      exact Nat.mul_le_mul_right _ (roundHalfEven_mono _ h)

theorem roundedNat_of_eq_mul {m n : Nat} (h : n = m * lastPlace n) : roundedNat n = n :=
  Nat.le_antisymm (Nat.le_trans (roundedNat_le (Nat.le_of_eq h)) (Nat.le_of_eq h.symm))
    (Nat.le_trans (Nat.le_of_eq h) (le_roundedNat (Nat.le_of_eq h.symm)))

theorem roundedNat_eq_self {n : Nat} (h : n ≤ 2 ^ 53) : roundedNat n = n := by
  rcases Nat.lt_or_eq_of_le h with hlt | rfl
  · refine roundedNat_of_eq_mul (m := n) ?_
    rw [lastPlace_of_lt hlt, Nat.mul_one]
  · exact roundedNat_of_eq_mul (m := 2 ^ 52) (by decide +kernel)

theorem roundedNat_mul_two_pow {n : Nat} (hn : n ≠ 0) (k : Nat) :
    roundedNat (n * 2 ^ k) = roundedNat n * 2 ^ k := by
  have hlog := log2_mul_two_pow hn k
  rcases Nat.lt_or_ge n.log2 52 with hlt | hge
  · -- Nothing is lost of `n`, nor of its product.
    have hsplit : 2 ^ k = 2 ^ (k - (n.log2 + k - 52)) * 2 ^ (n.log2 + k - 52) := by
      rw [← Nat.pow_add, Nat.sub_add_cancel (by omega)]
    have hself : n < 2 ^ 53 := Nat.lt_trans ((Nat.log2_lt hn).mp hlt) (by decide)
    rw [roundedNat_eq_self (Nat.le_of_lt hself)]
    refine roundedNat_of_eq_mul (m := n * 2 ^ (k - (n.log2 + k - 52))) ?_
    rw [lastPlace, hlog, Nat.mul_assoc, ← hsplit]
  · have hplace : lastPlace (n * 2 ^ k) = lastPlace n * 2 ^ k := by
      rw [lastPlace, lastPlace, hlog, ← Nat.pow_add, Nat.sub_add_comm hge]
    rw [roundedNat, hplace, roundHalfEven_mul_right (Nat.two_pow_pos k), ← Nat.mul_assoc]
    rfl

/-- A rounded number has a significand of 53 bits or is the first one above them. -/
theorem significand_bounds {n : Nat} (h : 52 ≤ n.log2) :
    2 ^ 52 ≤ roundHalfEven n (lastPlace n) ∧ roundHalfEven n (lastPlace n) ≤ 2 ^ 53 := by
  have hn : n ≠ 0 := by
    rintro rfl
    simp at h
  obtain ⟨hlow, hhigh⟩ := roundedNat_bounds hn
  have hplace : 2 ^ n.log2 = 2 ^ 52 * lastPlace n := by
    rw [lastPlace, ← Nat.pow_add, Nat.add_sub_cancel' h]
  have hplace' : 2 ^ (n.log2 + 1) = 2 ^ 53 * lastPlace n := by
    rw [Nat.pow_succ, hplace, Nat.mul_right_comm, ← Nat.pow_succ]
  rw [hplace, roundedNat] at hlow
  rw [hplace', roundedNat] at hhigh
  exact ⟨Nat.le_of_mul_le_mul_right hlow (lastPlace_pos n),
    Nat.le_of_mul_le_mul_right hhigh (lastPlace_pos n)⟩

/-- The magnitude that is put together from a rounded number stands for it. -/
theorem unitsOf_rounded {n : Nat} (h : 52 ≤ n.log2) :
    unitsOf ((n.log2 - 52) * 2 ^ 52 + roundHalfEven n (lastPlace n)) = roundedNat n :=
  unitsOf_normal (significand_bounds h).1 (significand_bounds h).2

/-- The magnitude nearest to a number stands for what the number is rounded to. -/
theorem unitsOf_nearest {n : Nat} (hlog : n.log2 ≤ 1022) :
    unitsOf (nearest n 1) = roundedNat n * 2 ^ unitExponent := by
  rcases Nat.eq_zero_or_pos n with rfl | hpos
  · decide +kernel
  · have hn := Nat.ne_of_gt hpos
    have hscaled : (n * 2 ^ unitExponent).log2 = n.log2 + 1074 := log2_mul_two_pow hn unitExponent
    have hlarge : 52 ≤ (n * 2 ^ unitExponent).log2 := by omega
    have hfinite : ((n * 2 ^ unitExponent).log2 - 52) * 2 ^ 52 +
        roundHalfEven (n * 2 ^ unitExponent) (lastPlace (n * 2 ^ unitExponent)) ≤
          infinityMagnitude := by
      have hinfinity : infinityMagnitude = 2047 * 2 ^ 52 := rfl
      have hsignificand := (significand_bounds hlarge).2
      omega
    rw [← roundedNat_mul_two_pow hn, ← unitsOf_rounded hlarge]
    unfold nearest
    simp only [Nat.pow_eq, Nat.div_one, Nat.one_mul]
    rw [← lastPlace, Nat.min_eq_right hfinite]

/-! ## Integers of either sign -/

/-- An integer of at most 53 significant bits. -/
def Representable (m : Int) : Prop := ∃ q e : Nat, q < 2 ^ 53 ∧ m.natAbs = q * 2 ^ e

/-- The representable integer nearest to `n`, of two equally near ones the even one. -/
def rounded (n : Int) : Int :=
  if n < 0 then -(roundedNat n.natAbs : Int) else roundedNat n.natAbs

theorem natAbs_rounded (n : Int) : (rounded n).natAbs = roundedNat n.natAbs := by
  unfold rounded
  split <;> omega

theorem representable_rounded (n : Int) : Representable (rounded n) := by
  rw [Representable, natAbs_rounded]
  generalize n.natAbs = k
  rcases Nat.lt_or_ge k (2 ^ 53) with hlt | hge
  · exact ⟨k, 0, hlt, by rw [roundedNat_eq_self (Nat.le_of_lt hlt), Nat.pow_zero, Nat.mul_one]⟩
  · have hk : 52 ≤ k.log2 :=
      (Nat.le_log2 (by omega)).mpr (Nat.le_trans (by decide) hge)
    rcases Nat.lt_or_eq_of_le (significand_bounds hk).2 with hlt | heq
    · exact ⟨_, k.log2 - 52, hlt, rfl⟩
    · refine ⟨1, 53 + (k.log2 - 52), by decide, ?_⟩
      rw [roundedNat, heq, lastPlace, Nat.one_mul, ← Nat.pow_add]

/-- Among numbers as large as `n` the representable ones end where `n` is cut. -/
theorem lastPlace_dvd {n q e : Nat} (hq : q < 2 ^ 53) (hle : 2 ^ n.log2 ≤ q * 2 ^ e) :
    lastPlace n ∣ q * 2 ^ e := by
  have hlt : 2 ^ n.log2 < 2 ^ (53 + e) := by
    rw [Nat.pow_add]
    exact Nat.lt_of_le_of_lt hle (Nat.mul_lt_mul_of_pos_right hq (Nat.two_pow_pos e))
  have hlog : n.log2 < 53 + e := (Nat.pow_lt_pow_iff_right (by decide)).mp hlt
  exact Nat.dvd_mul_left_of_dvd (Nat.pow_dvd_pow 2 (by omega)) q

theorem roundedNat_nearest {n q e : Nat} (hq : q < 2 ^ 53) :
    ((n : Int) - roundedNat n).natAbs ≤ ((n : Int) - (q * 2 ^ e : Nat)).natAbs := by
  rcases Nat.eq_zero_or_pos n with rfl | hpos
  · simp [roundedNat_eq_self (Nat.zero_le _)]
  rcases Nat.lt_or_ge (q * 2 ^ e) (2 ^ n.log2) with hlt | hge
  · -- The power of two below `n` is nearer.
    obtain ⟨k, hk⟩ := lastPlace_mul n
    have hnear := roundHalfEven_nearest n (lastPlace_pos n) (2 ^ k)
    have hpower := Nat.log2_self_le (Nat.ne_of_gt hpos)
    rw [← hk] at hnear
    rw [roundedNat]
    omega
  · obtain ⟨k, hk⟩ := lastPlace_dvd hq hge
    rw [hk, Nat.mul_comm]
    exact roundHalfEven_nearest n (lastPlace_pos n) k

/-- No representable integer is nearer to `n`. -/
theorem rounded_nearest {n m : Int} (hm : Representable m) :
    (n - rounded n).natAbs ≤ (n - m).natAbs := by
  obtain ⟨q, e, hq, heq⟩ := hm
  have hnear := roundedNat_nearest (n := n.natAbs) (e := e) hq
  rw [← heq] at hnear
  unfold rounded
  split <;> omega

theorem rounded_mono {a b : Int} (h : a ≤ b) : rounded a ≤ rounded b := by
  unfold rounded
  split <;> split
  · have hmono := roundedNat_mono (a := b.natAbs) (b := a.natAbs) (by omega)
    omega
  · omega
  · omega
  · have hmono := roundedNat_mono (a := a.natAbs) (b := b.natAbs) (by omega)
    omega

theorem rounded_eq_self {n : Int} (h : n.natAbs ≤ 2 ^ 53) : rounded n = n := by
  rw [rounded, roundedNat_eq_self h]
  split <;> omega

/-- Rounding moves an integer of 64 bits by at most 512. -/
theorem rounded_error {n : Int} (h : n.natAbs ≤ 2 ^ 63) : (n - rounded n).natAbs ≤ 512 := by
  have hnat : ((n.natAbs : Int) - roundedNat n.natAbs).natAbs ≤ 512 := by
    generalize n.natAbs = k at h
    rcases Nat.lt_or_eq_of_le h with hlt | rfl
    · have hplace : lastPlace k ≤ 2 ^ 10 :=
        Nat.pow_le_pow_right (by decide) (Nat.sub_le_of_le_add (log2_le_of_lt hlt))
      have herror := roundHalfEven_error k (lastPlace_pos k)
      rw [roundedNat]
      omega
    · decide +kernel
  unfold rounded
  split <;> omega

/-- Only large integers are rounded to what another one is rounded to. -/
theorem large_of_rounded_eq {a b : Int} (hne : a ≠ b) (h : rounded a = rounded b) :
    2 ^ 53 ≤ a.natAbs := by
  by_contra hsmall
  have ha : rounded a = a := rounded_eq_self (by omega)
  by_cases hb : b.natAbs ≤ 2 ^ 53
  · rw [ha, rounded_eq_self hb] at h
    exact hne h
  · rcases Int.lt_or_gt_of_ne (a := b) (b := 0) (by omega) with hneg | hpos
    · have hle := rounded_mono (a := b) (b := -2 ^ 53) (by omega)
      rw [rounded_eq_self (n := -2 ^ 53) (by decide)] at hle
      omega
    · have hle := rounded_mono (a := 2 ^ 53) (b := b) (by omega)
      rw [rounded_eq_self (n := 2 ^ 53) (by decide)] at hle
      omega

theorem lt_of_rounded_lt {a b : Int} (h : rounded a < rounded b) : a < b :=
  Int.not_le.mp fun hle => Int.not_le.mpr h (rounded_mono hle)

theorem rounded_lt_of_small {a b : Int} (ha : a.natAbs < 2 ^ 53) (h : a < b) :
    rounded a < rounded b := by
  refine Int.lt_iff_le_and_ne.mpr ⟨rounded_mono (Int.le_of_lt h), fun heq => ?_⟩
  exact Nat.not_le_of_lt ha (large_of_rounded_eq (Int.ne_of_lt h) heq)

/-! ## Integers as doubles -/

theorem nearest_lt (num den : Nat) : nearest num den < 2 ^ 63 :=
  Nat.lt_of_le_of_lt (nearest_le num den) infinityMagnitude_lt

theorem isNaN_ofMagnitude_nearest (negative : Bool) (num den : Nat) :
    (ofMagnitude negative (nearest num den)).isNaN = false := by
  rw [isNaN, magnitude_ofMagnitude negative (nearest_lt num den)]
  exact decide_eq_false (Nat.not_lt_of_le (nearest_le num den))

theorem isNaN_ofInt (n : Int) : (ofInt n).isNaN = false :=
  isNaN_ofMagnitude_nearest _ _ _

/-- An integer becomes the double of what it is rounded to. -/
theorem value_ofInt {n : Int} (h : n.natAbs ≤ 2 ^ 63) :
    (ofInt n).value = rounded n * (2 ^ unitExponent : Nat) := by
  have hlog : n.natAbs.log2 ≤ 1022 :=
    Nat.le_trans (log2_le_of_lt (k := 63) (Nat.lt_of_le_of_lt h (by decide))) (by decide)
  have hlt := nearest_lt n.natAbs 1
  rw [value, ofInt, magnitude_ofMagnitude _ hlt, isNegative_ofMagnitude _ hlt,
    unitsOf_nearest hlog, rounded, Int.natCast_mul]
  by_cases hneg : n < 0
  · rw [if_pos (decide_eq_true hneg), if_pos hneg, Int.neg_mul]
  · rw [if_neg (by simp [hneg]), if_neg hneg]

section

variable {a b : Int} (ha : a.natAbs ≤ 2 ^ 63) (hb : b.natAbs ≤ 2 ^ 63)

include ha hb

theorem lt_ofInt : lt (ofInt a) (ofInt b) = decide (rounded a < rounded b) := by
  rw [lt_eq (isNaN_ofInt a) (isNaN_ofInt b), value_ofInt ha, value_ofInt hb]
  exact decide_eq_decide.mpr (Int.mul_lt_mul_right (Int.natCast_pos.mpr (Nat.two_pow_pos _)))

theorem le_ofInt : le (ofInt a) (ofInt b) = decide (rounded a ≤ rounded b) := by
  rw [le_eq (isNaN_ofInt a) (isNaN_ofInt b), value_ofInt ha, value_ofInt hb]
  exact decide_eq_decide.mpr (Int.mul_le_mul_right (Int.natCast_pos.mpr (Nat.two_pow_pos _)))

end

end Double

namespace Comparison

open Double

theorem natAbs_toInt_le (n : Int64) : n.toInt.natAbs ≤ 2 ^ 63 := by
  have hle := n.le_toInt
  have hlt := n.toInt_lt
  omega

section

variable (a b : Int64)

theorem run_lt_int :
    run .lt [.int a, .int b] = .ok (.bool (decide (rounded a.toInt < rounded b.toInt))) :=
  congrArg (Except.ok ∘ Value.bool) (lt_ofInt (natAbs_toInt_le a) (natAbs_toInt_le b))

theorem run_gt_int :
    run .gt [.int a, .int b] = .ok (.bool (decide (rounded b.toInt < rounded a.toInt))) :=
  congrArg (Except.ok ∘ Value.bool) (lt_ofInt (natAbs_toInt_le b) (natAbs_toInt_le a))

theorem run_le_int :
    run .le [.int a, .int b] = .ok (.bool (decide (rounded a.toInt ≤ rounded b.toInt))) :=
  congrArg (Except.ok ∘ Value.bool) (le_ofInt (natAbs_toInt_le a) (natAbs_toInt_le b))

theorem run_ge_int :
    run .ge [.int a, .int b] = .ok (.bool (decide (rounded b.toInt ≤ rounded a.toInt))) :=
  congrArg (Except.ok ∘ Value.bool) (le_ofInt (natAbs_toInt_le b) (natAbs_toInt_le a))

end

/-- A count is compared with none, or with one, as it stands. -/
theorem run_gt_count {n : Nat} (hn : n < 2 ^ 63) {k : Nat} (hk : k ≤ 1) :
    run .gt [.int (Int64.ofNat n), .int (Int64.ofNat k)] = .ok (.bool (decide (k < n))) := by
  have hk' : k < 2 ^ 63 := Nat.lt_of_le_of_lt hk (by decide)
  have hiff : rounded (k : Int) < rounded (n : Int) ↔ k < n :=
    ⟨fun h => Int.ofNat_lt.mp (lt_of_rounded_lt h),
      fun h => rounded_lt_of_small (by omega) (Int.ofNat_lt.mpr h)⟩
  rw [run_gt_int, Int64.toInt_ofNat_of_lt hn, Int64.toInt_ofNat_of_lt hk',
    decide_eq_decide.mpr hiff]

end Comparison

end Lisp

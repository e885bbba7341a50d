import Lisp.Proofs.Rounding

/-!
# The order of integers

Integers are compared as doubles, so by what they are rounded to, while only the same integer is
equal to one. Two integers are compared as integers are unless both are rounded to the same; then
neither is below the other, although they are not equal.
-/

namespace Lisp.Comparison

open Double

/-- The comparison of two integers answers true. -/
def Holds (op : Comparison) (a b : Int64) : Prop :=
  op.run [.int a, .int b] = .ok (.bool true)

/-- Two integers are compared as integers are. -/
structure OrdersExactly (a b : Int64) : Prop where
  trichotomy : (Holds .lt a b ∧ ¬ Holds .equal a b ∧ ¬ Holds .gt a b) ∨
    (¬ Holds .lt a b ∧ Holds .equal a b ∧ ¬ Holds .gt a b) ∨
    (¬ Holds .lt a b ∧ ¬ Holds .equal a b ∧ Holds .gt a b)
  le_iff : Holds .le a b ↔ Holds .lt a b ∨ Holds .equal a b
  lt_iff : Holds .lt a b ↔ a.toInt < b.toInt

section

variable {a b : Int64}

theorem run_equal_int (a b : Int64) :
    run .equal [.int a, .int b] = .ok (.bool (decide (a = b))) := by
  rw [run, Value.beq]
  rfl

theorem holds_lt : Holds .lt a b ↔ rounded a.toInt < rounded b.toInt := by
  simp [Holds, run_lt_int]

theorem holds_gt : Holds .gt a b ↔ rounded b.toInt < rounded a.toInt := by
  simp [Holds, run_gt_int]

theorem holds_le : Holds .le a b ↔ rounded a.toInt ≤ rounded b.toInt := by
  simp [Holds, run_le_int]

theorem holds_equal : Holds .equal a b ↔ a = b := by
  simp [Holds, run_equal_int]

theorem ordersExactly_of_lt (h : rounded a.toInt < rounded b.toInt) : OrdersExactly a b where
  trichotomy := by
    have hne : a ≠ b := fun heq => Int.lt_irrefl _ (heq ▸ h)
    exact .inl ⟨holds_lt.mpr h, fun heq => hne (holds_equal.mp heq),
      fun hgt => Int.lt_asymm h (holds_gt.mp hgt)⟩
  le_iff := iff_of_true (holds_le.mpr (Int.le_of_lt h)) (.inl (holds_lt.mpr h))
  lt_iff := iff_of_true (holds_lt.mpr h) (lt_of_rounded_lt h)

theorem ordersExactly_of_gt (h : rounded b.toInt < rounded a.toInt) : OrdersExactly a b := by
  have hlt : ¬ Holds .lt a b := fun hlt => Int.lt_asymm h (holds_lt.mp hlt)
  have hequal : ¬ Holds .equal a b := fun heq => Int.lt_irrefl _ (holds_equal.mp heq ▸ h)
  exact {
    trichotomy := .inr (.inr ⟨hlt, hequal, holds_gt.mpr h⟩)
    le_iff := iff_of_false (fun hle => Int.not_le.mpr h (holds_le.mp hle))
      (not_or.mpr ⟨hlt, hequal⟩)
    lt_iff := iff_of_false hlt (Int.lt_asymm (lt_of_rounded_lt h)) }

theorem ordersExactly_self (a : Int64) : OrdersExactly a a := by
  have hlt : ¬ Holds .lt a a := fun hlt => Int.lt_irrefl _ (holds_lt.mp hlt)
  have hgt : ¬ Holds .gt a a := fun hgt => Int.lt_irrefl _ (holds_gt.mp hgt)
  have hequal : Holds .equal a a := holds_equal.mpr rfl
  exact {
    trichotomy := .inr (.inl ⟨hlt, hequal, hgt⟩)
    le_iff := iff_of_true (holds_le.mpr (Int.le_refl _)) (.inr hequal)
    lt_iff := iff_of_false hlt (Int.lt_irrefl _) }

/-- The order is that of integers just where rounding keeps the two apart. -/
theorem ordersExactly_iff :
    OrdersExactly a b ↔ (rounded a.toInt = rounded b.toInt → a = b) := by
  constructor
  · intro h heq
    rcases h.trichotomy with ⟨hlt, -, -⟩ | ⟨-, hequal, -⟩ | ⟨-, -, hgt⟩
    · exact absurd heq (Int.ne_of_lt (holds_lt.mp hlt))
    · exact holds_equal.mp hequal
    · exact absurd heq.symm (Int.ne_of_lt (holds_gt.mp hgt))
  · intro h
    rcases Int.lt_trichotomy (rounded a.toInt) (rounded b.toInt) with hlt | heq | hgt
    · exact ordersExactly_of_lt hlt
    · exact h heq ▸ ordersExactly_self a
    · exact ordersExactly_of_gt hgt

end

/-- The first integer that no double is, and the one it is rounded to. -/
theorem not_ordersExactly_past_significand :
    ¬ OrdersExactly 9007199254740992 9007199254740993 := by
  intro h
  have hlt := holds_lt.mp (h.lt_iff.mpr (by decide))
  exact absurd hlt (by decide +kernel)

/-- Every comparison of two integers is answered, and by the integers of at most 53 significant bits
nearest to them, except that equality is that of the integers themselves. No order is reversed that
way, and the order is that of integers unless it is lost between two large ones close together. -/
theorem integers_ordered_as_rounded (a b : Int64) :
    (run .lt [.int a, .int b] = .ok (.bool (decide (rounded a.toInt < rounded b.toInt))) ∧
      run .gt [.int a, .int b] = .ok (.bool (decide (rounded b.toInt < rounded a.toInt))) ∧
      run .le [.int a, .int b] = .ok (.bool (decide (rounded a.toInt ≤ rounded b.toInt))) ∧
      run .ge [.int a, .int b] = .ok (.bool (decide (rounded b.toInt ≤ rounded a.toInt))) ∧
      run .equal [.int a, .int b] = .ok (.bool (decide (a = b)))) ∧
    (Representable (rounded a.toInt) ∧ ∀ m, Representable m →
      (a.toInt - rounded a.toInt).natAbs ≤ (a.toInt - m).natAbs) ∧
    (a.toInt ≤ b.toInt → rounded a.toInt ≤ rounded b.toInt) ∧
    (OrdersExactly a b ↔ (rounded a.toInt = rounded b.toInt → a = b)) ∧
    (a ≠ b → rounded a.toInt = rounded b.toInt →
      2 ^ 53 ≤ a.toInt.natAbs ∧ 2 ^ 53 ≤ b.toInt.natAbs ∧ (a.toInt - b.toInt).natAbs ≤ 1024) := by
  refine ⟨⟨run_lt_int a b, run_gt_int a b, run_le_int a b, run_ge_int a b, run_equal_int a b⟩,
    ⟨representable_rounded _, fun m hm => rounded_nearest hm⟩, rounded_mono, ordersExactly_iff, ?_⟩
  intro hne heq
  have hne' : a.toInt ≠ b.toInt := fun h => hne (Int64.toInt_inj.mp h)
  have ha := rounded_error (natAbs_toInt_le a)
  have hb := rounded_error (natAbs_toInt_le b)
  exact ⟨large_of_rounded_eq hne' heq, large_of_rounded_eq hne'.symm heq.symm, by omega⟩

/-- Both integers lie halfway to the next double and are rounded to the even one between them, so
the order is lost between integers that are as far apart as that can be. -/
theorem integers_ordered_as_rounded_halfway :
    rounded (4611686018427389440 : Int64).toInt = rounded (4611686018427390464 : Int64).toInt ∧
      ¬ OrdersExactly 4611686018427389440 4611686018427390464 ∧
      ((4611686018427389440 : Int64).toInt - (4611686018427390464 : Int64).toInt).natAbs ≤
        1024 := by
  obtain ⟨-, -, -, hexact, hclose⟩ :=
    integers_ordered_as_rounded 4611686018427389440 4611686018427390464
  have hne : (4611686018427389440 : Int64) ≠ 4611686018427390464 := by decide
  have heq : rounded (4611686018427389440 : Int64).toInt =
    rounded (4611686018427390464 : Int64).toInt := by decide +kernel
  exact ⟨heq, fun h => hne (hexact.mp h heq), (hclose hne heq).2.2⟩

end Lisp.Comparison

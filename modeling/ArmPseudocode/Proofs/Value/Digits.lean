import ArmPseudocode.Value.Bits

/-!
# Vectors and their digits

A well-formed vector is its digits. Positions above the width read as nothing, so two well-formed
vectors with the same digits agree in both payloads.
-/

namespace ArmPseudocode

namespace Bits

theorem getLsbD_eq_false_of_lt {payload : BitVec 32} {width i : Nat}
    (hlt : payload.toNat < 1 <<< width) (hi : width ≤ i) : payload.getLsbD i = false := by
  rw [Nat.one_shiftLeft] at hlt
  rw [BitVec.getLsbD]
  exact Nat.testBit_lt_two_pow (Nat.lt_of_lt_of_le hlt (Nat.pow_le_pow_right (by decide) hi))

theorem toNat_lt_of_getLsbD {payload : BitVec 32} {width : Nat}
    (hbits : ∀ i, width ≤ i → payload.getLsbD i = false) : payload.toNat < 1 <<< width := by
  rw [Nat.one_shiftLeft]
  exact Nat.lt_pow_two_of_testBit payload.toNat hbits

theorem getLsbD_lowMask {width : Nat} (hwidth : width ≤ maxWidth) (i : Nat) :
    (lowMask width).getLsbD i = decide (i < width) := by
  rw [lowMask, BitVec.getLsbD_ushiftRight, BitVec.getLsbD_allOnes, decide_eq_decide]
  unfold maxWidth at hwidth
  omega

@[simp] theorem length_digits (b : Bits) : b.digits.length = b.width := by
  simp [digits]

theorem digits_getElem (b : Bits) (i : Nat) (hi : i < b.digits.length) :
    b.digits[i] = b.digitAt (b.width - 1 - i) := by
  simp [digits]

theorem digitAt_eq_of_digits_eq {a b : Bits} (h : a.digits = b.digits) {i : Nat}
    (hi : i < a.width) : a.digitAt i = b.digitAt i := by
  have hwidth : a.width = b.width := by rw [← length_digits a, h, length_digits]
  have hlt : a.width - 1 - i < a.digits.length := by rw [length_digits]; omega
  have hget := digits_getElem a (a.width - 1 - i) hlt
  have hget' := digits_getElem b (a.width - 1 - i) (by rw [← h]; exact hlt)
  rw [show a.width - 1 - (a.width - 1 - i) = i by omega] at hget
  rw [← hwidth, show a.width - 1 - (a.width - 1 - i) = i by omega] at hget'
  rw [← hget, ← hget']
  simp only [h]

theorem getLsbD_dontCare (b : Bits) (i : Nat) :
    b.dontCare.getLsbD i = decide (b.digitAt i = .any) := by
  unfold digitAt
  cases b.dontCare.getLsbD i <;> cases b.value.getLsbD i <;> simp

namespace WellFormed

variable {b : Bits}

theorem dontCare_eq_false (hb : b.WellFormed) {i : Nat} (hvalue : b.value.getLsbD i = true) :
    b.dontCare.getLsbD i = false := by
  have hand := congrArg (fun payload : BitVec 32 => payload.getLsbD i) hb.disjoint
  simpa [hvalue] using hand

theorem getLsbD_value (hb : b.WellFormed) (i : Nat) :
    b.value.getLsbD i = decide (b.digitAt i = .one) := by
  unfold digitAt
  cases hvalue : b.value.getLsbD i with
  | true => simp [hb.dontCare_eq_false hvalue]
  | false => cases b.dontCare.getLsbD i <;> simp

end WellFormed

/-- The digits of a well-formed vector determine it. -/
theorem eq_of_digits_eq {a b : Bits} (ha : a.WellFormed) (hb : b.WellFormed)
    (h : a.digits = b.digits) : a = b := by
  have hwidth : a.width = b.width := by rw [← length_digits a, h, length_digits]
  have hvalue : a.value = b.value := by
    refine BitVec.eq_of_getLsbD_eq fun i _ => ?_
    rcases Nat.lt_or_ge i a.width with hi | hi
    · rw [ha.getLsbD_value, hb.getLsbD_value, digitAt_eq_of_digits_eq h hi]
    · rw [getLsbD_eq_false_of_lt ha.value_lt hi, getLsbD_eq_false_of_lt hb.value_lt (hwidth ▸ hi)]
  have hdontCare : a.dontCare = b.dontCare := by
    refine BitVec.eq_of_getLsbD_eq fun i _ => ?_
    rcases Nat.lt_or_ge i a.width with hi | hi
    · rw [getLsbD_dontCare, getLsbD_dontCare, digitAt_eq_of_digits_eq h hi]
    · rw [getLsbD_eq_false_of_lt ha.dontCare_lt hi,
        getLsbD_eq_false_of_lt hb.dontCare_lt (hwidth ▸ hi)]
  cases a
  cases b
  simp only [Bits.mk.injEq]
  exact ⟨hwidth, hvalue, hdontCare⟩

end Bits

end ArmPseudocode

import ArmPseudocode.Eval.Operators
import Mathlib.Algebra.Order.Ring.Int

/-!
# Arithmetic on integers

An operator on two integers gives the integer that is the exact result, or reports that 64 bits do
not hold it. Division rounds toward zero and leaves 64 bits in one case alone; the remainder never
does, but is reported where the quotient is. A shift to the left finds out by shifting back whether
it has lost something, and that it has exactly where the product with the power of two does not fit.
-/

namespace ArmPseudocode.Value

/-- Some integer of 64 bits is this number. -/
def Fits (n : Int) : Prop :=
  -2 ^ 63 ≤ n ∧ n < 2 ^ 63

/-- What comes out is the number, as an integer, if 64 bits hold it, and the defect if they do
not. -/
def Exactly (n : Int) (defect : EvalError) (x : Except EvalError Value) : Prop :=
  (Fits n → ∃ r : Int64, x = .ok (.int r) ∧ r.toInt = n) ∧ (¬Fits n → x = .error defect)

/-- The quotient of two numbers, rounded toward zero, and the remainder that goes with it. -/
structure Divides (a b q r : Int) : Prop where
  quotient : q = a.tdiv b
  remainder : r = a - q * b
  small : |r| < |b|
  sign : r = 0 ∨ r.sign = a.sign

theorem fits_toInt (a : Int64) : Fits a.toInt :=
  ⟨a.le_toInt, a.toInt_lt⟩

theorem toInt_ofInt_of_fits {n : Int} (hn : Fits n) : (Int64.ofInt n).toInt = n :=
  Int64.toInt_ofInt_of_le hn.1 hn.2

theorem toInt64?_of_fits {n : Int} (hn : Fits n) : toInt64? n = some (Int64.ofInt n) := by
  have hrange : Int64.minValue.toInt ≤ n ∧ n ≤ Int64.maxValue.toInt :=
    ⟨hn.1, Int.le_of_lt_add_one hn.2⟩
  rw [toInt64?, if_pos hrange]

theorem toInt64?_of_not_fits {n : Int} (hn : ¬Fits n) : toInt64? n = none := by
  have hrange : ¬(Int64.minValue.toInt ≤ n ∧ n ≤ Int64.maxValue.toInt) := by
    intro h
    exact hn ⟨h.1, Int.lt_add_one_of_le h.2⟩
  rw [toInt64?, if_neg hrange]

theorem checked_of_fits (operation : IntOperation) {n : Int} (hn : Fits n) :
    checked operation n = .ok (.int (Int64.ofInt n)) := by
  rw [checked, toInt64?_of_fits hn]

theorem checked_of_not_fits (operation : IntOperation) {n : Int} (hn : ¬Fits n) :
    checked operation n = .error (.overflow operation) := by
  rw [checked, toInt64?_of_not_fits hn]

theorem exactly_checked (operation : IntOperation) (n : Int) :
    Exactly n (.overflow operation) (checked operation n) := by
  constructor
  · intro hn
    exact ⟨Int64.ofInt n, checked_of_fits operation hn, toInt_ofInt_of_fits hn⟩
  · exact checked_of_not_fits operation

/-! ### Division -/

theorem toInt_ne_zero {b : Int64} (hb : b ≠ 0) : b.toInt ≠ 0 := by
  intro h
  apply hb
  rw [← Int64.toInt_inj, h]
  rfl

/-- The quotient leaves 64 bits where the least integer is negated, and nowhere else. -/
theorem fits_tdiv_iff (a : Int64) {b : Int64} (hb : b ≠ 0) :
    Fits (a.toInt.tdiv b.toInt) ↔ ¬(a = Int64.minValue ∧ b = -1) := by
  constructor
  · rintro hfits ⟨rfl, rfl⟩
    revert hfits
    unfold Fits
    decide
  · intro hne
    have hb' : b.toInt ≠ 0 := toInt_ne_zero hb
    have ha := fits_toInt a
    unfold Fits at ha ⊢
    by_cases hpos : b.toInt = 1
    · rw [hpos, Int.tdiv_one]
      exact ha
    by_cases hneg : b.toInt = -1
    · -- Only here is the quotient the dividend with its sign turned.
      have hmin : a.toInt ≠ -2 ^ 63 := by
        intro h
        apply hne
        constructor
        · rw [← Int64.toInt_inj, h]
          rfl
        · rw [← Int64.toInt_inj, hneg]
          rfl
      rw [hneg, Int.tdiv_neg, Int.tdiv_one]
      omega
    · have htwo : 2 ≤ b.toInt.natAbs := by omega
      have hhalf : (a.toInt.tdiv b.toInt).natAbs ≤ a.toInt.natAbs / 2 := by
        rw [Int.natAbs_tdiv]
        exact Nat.div_le_div_left htwo (by decide)
      omega

theorem natAbs_tmod_lt (a : Int64) {b : Int64} (hb : b ≠ 0) :
    (a.toInt.tmod b.toInt).natAbs < b.toInt.natAbs := by
  rw [Int.natAbs_tmod]
  apply Nat.mod_lt
  exact Int.natAbs_pos.mpr (toInt_ne_zero hb)

theorem fits_tmod (a : Int64) {b : Int64} (hb : b ≠ 0) : Fits (a.toInt.tmod b.toInt) := by
  have hlt := natAbs_tmod_lt a hb
  have hfits := fits_toInt b
  unfold Fits at hfits ⊢
  omega

theorem divides_tdiv_tmod (a : Int64) {b : Int64} (hb : b ≠ 0) :
    Divides a.toInt b.toInt (a.toInt.tdiv b.toInt) (a.toInt.tmod b.toInt) where
  quotient := rfl
  remainder := by rw [Int.tmod_def, Int.mul_comm]
  small := by
    rw [Int.abs_eq_natAbs, Int.abs_eq_natAbs]
    exact Int.ofNat_lt.mpr (natAbs_tmod_lt a hb)
  sign := by
    by_cases hdvd : b.toInt ∣ a.toInt
    · left
      exact Int.tmod_eq_zero_of_dvd hdvd
    · right
      rw [Int.sign_tmod, if_neg hdvd]

theorem intDiv_of_fits (a : Int64) {b : Int64} (hb : b ≠ 0) (hq : Fits (a.toInt.tdiv b.toInt)) :
    intDiv a b = .ok (.int (Int64.ofInt (a.toInt.tdiv b.toInt))) := by
  rw [intDiv, if_neg hb, checked_of_fits .quotient hq]

theorem intMod_of_fits (a : Int64) {b : Int64} (hb : b ≠ 0) (hq : Fits (a.toInt.tdiv b.toInt)) :
    intMod a b = .ok (.int (Int64.ofInt (a.toInt.tmod b.toInt))) := by
  simp only [intMod, if_neg hb, toInt64?_of_fits hq]
  exact checked_of_fits .remainder (fits_tmod a hb)

theorem intDiv_of_not_fits (a : Int64) {b : Int64} (hb : b ≠ 0)
    (hq : ¬Fits (a.toInt.tdiv b.toInt)) : intDiv a b = .error (.overflow .quotient) := by
  rw [intDiv, if_neg hb, checked_of_not_fits .quotient hq]

theorem intMod_of_not_fits (a : Int64) {b : Int64} (hb : b ≠ 0)
    (hq : ¬Fits (a.toInt.tdiv b.toInt)) : intMod a b = .error (.overflow .remainder) := by
  simp only [intMod, if_neg hb, toInt64?_of_not_fits hq]

/-! ### Shifts -/

theorem toNat_shiftAmount {n : Nat} (hn : n < 64) :
    ((Int64.ofNat n).toBitVec.smod 64).toNat = n := by
  have hall : ∀ i : Fin 64, ((Int64.ofNat i).toBitVec.smod 64).toNat = i := by decide
  exact hall ⟨n, hn⟩

/-- A shift to the left multiplies, as far as 64 bits tell. -/
theorem toInt_shiftLeft (a : Int64) {n : Nat} (hn : n < 64) :
    (a <<< Int64.ofNat n).toInt = (a.toInt * 2 ^ n).bmod (2 ^ 64) := by
  rw [← Int64.toInt_toBitVec, Int64.toBitVec_shiftLeft, BitVec.shiftLeft_eq', toNat_shiftAmount hn,
    BitVec.toInt_shiftLeft, ← Int64.toInt_toBitVec, BitVec.toInt_eq_toNat_bmod, Int.bmod_mul_bmod,
    Nat.shiftLeft_eq]
  push_cast
  rfl

theorem toInt_shiftRight (a : Int64) {n : Nat} (hn : n < 64) :
    (a >>> Int64.ofNat n).toInt = a.toInt / 2 ^ n := by
  rw [← Int64.toInt_toBitVec, Int64.toBitVec_shiftRight, BitVec.sshiftRight_eq',
    toNat_shiftAmount hn, BitVec.toInt_sshiftRight, Int.shiftRight_eq_div_pow]
  push_cast
  rfl

theorem bmod_of_fits {n : Int} (hn : Fits n) : n.bmod (2 ^ 64) = n := by
  unfold Fits at hn
  apply Int.bmod_eq_of_le_mul_two <;> omega

/-- A shift to the left can be undone exactly if nothing was lost: what 64 bits keep of the product
is still a multiple of the power of two, so what comes back multiplies up to it. -/
theorem shifted_back_iff (a : Int64) {n : Nat} (hn : n < 64) :
    a <<< Int64.ofNat n >>> Int64.ofNat n = a ↔ Fits (a.toInt * 2 ^ n) := by
  rw [← Int64.toInt_inj, toInt_shiftRight _ hn]
  constructor
  · intro hback
    have hdvd : (2 : Int) ^ n ∣ (a <<< Int64.ofNat n).toInt := by
      rw [toInt_shiftLeft a hn, Int.bmod_eq_self_sub_mul_bdiv]
      apply Int.dvd_sub
      · exact dvd_mul_left _ _
      · apply Dvd.dvd.mul_right
        exact_mod_cast pow_dvd_pow 2 hn.le
    have hproduct : a.toInt * 2 ^ n = (a <<< Int64.ofNat n).toInt := by
      rw [← hback]
      exact Int.ediv_mul_cancel hdvd
    rw [hproduct]
    exact fits_toInt _
  · intro hfits
    rw [toInt_shiftLeft a hn, bmod_of_fits hfits]
    exact Int.mul_ediv_cancel _ (pow_ne_zero n (by decide))

theorem exactly_intShiftLeft (a : Int64) {n : Nat} (hn : n < 64) :
    Exactly (a.toInt * 2 ^ n) (.overflow .leftShift) (intShiftLeft a n) := by
  constructor
  · intro hfits
    use a <<< Int64.ofNat n
    constructor
    · exact if_pos ((shifted_back_iff a hn).mpr hfits)
    · rw [toInt_shiftLeft a hn, bmod_of_fits hfits]
  · intro hfits
    exact if_neg (mt (shifted_back_iff a hn).mp hfits)

theorem shiftAmount_of_range {b : Int64} (hb : 0 ≤ b.toInt ∧ b.toInt ≤ 63) :
    shiftAmount b = .ok b.toInt.toNat := by
  rw [shiftAmount, if_pos ⟨hb.1, Int.lt_add_one_of_le hb.2⟩]

theorem shiftAmount_of_not_range {b : Int64} (hb : ¬(0 ≤ b.toInt ∧ b.toInt ≤ 63)) :
    shiftAmount b = .error (.shiftOutOfRange b) := by
  apply if_neg
  intro h
  exact hb ⟨h.1, Int.le_of_lt_add_one h.2⟩

/-! ### What the operators come to -/

structure Divided (a b : Int64) (quotient remainder : Except EvalError Value) : Prop where
  byZero : b = 0 → quotient = .error .divisionByZero ∧ remainder = .error .divisionByZero
  tooLarge : a = Int64.minValue → b = -1 →
    quotient = .error (.overflow .quotient) ∧ remainder = .error (.overflow .remainder)
  otherwise : b ≠ 0 → ¬(a = Int64.minValue ∧ b = -1) → ∃ q r : Int64,
    quotient = .ok (.int q) ∧ remainder = .ok (.int r) ∧ Divides a.toInt b.toInt q.toInt r.toInt

structure Shifted (a b : Int64) (left right : Except EvalError Value) : Prop where
  badAmount : ¬(0 ≤ b.toInt ∧ b.toInt ≤ 63) →
    left = .error (.shiftOutOfRange b) ∧ right = .error (.shiftOutOfRange b)
  leftward : 0 ≤ b.toInt ∧ b.toInt ≤ 63 →
    Exactly (a.toInt * 2 ^ b.toInt.toNat) (.overflow .leftShift) left
  rightward : 0 ≤ b.toInt ∧ b.toInt ≤ 63 →
    ∃ r : Int64, right = .ok (.int r) ∧ r.toInt = a.toInt.fdiv (2 ^ b.toInt.toNat)

theorem divided_intDiv_intMod (a b : Int64) : Divided a b (intDiv a b) (intMod a b) where
  byZero hb := ⟨if_pos hb, if_pos hb⟩
  tooLarge ha hb := by
    have hzero : b ≠ 0 := by
      rw [hb]
      decide
    have hq : ¬Fits (a.toInt.tdiv b.toInt) := fun h => (fits_tdiv_iff a hzero).mp h ⟨ha, hb⟩
    exact ⟨intDiv_of_not_fits a hzero hq, intMod_of_not_fits a hzero hq⟩
  otherwise hb hne := by
    have hq : Fits (a.toInt.tdiv b.toInt) := (fits_tdiv_iff a hb).mpr hne
    refine ⟨_, _, intDiv_of_fits a hb hq, intMod_of_fits a hb hq, ?_⟩
    rw [toInt_ofInt_of_fits hq, toInt_ofInt_of_fits (fits_tmod a hb)]
    exact divides_tdiv_tmod a hb

theorem shifted_binary (a b : Int64) :
    Shifted a b (binary .shiftLeft (.int a) (.int b)) (binary .shiftRight (.int a) (.int b)) where
  badAmount hb := by
    simp only [binary, intBinary, shiftAmount_of_not_range hb]
    exact ⟨rfl, rfl⟩
  leftward hb := by
    simp only [binary, intBinary, shiftAmount_of_range hb]
    exact exactly_intShiftLeft a (by omega)
  rightward hb := by
    simp only [binary, intBinary, shiftAmount_of_range hb]
    refine ⟨_, rfl, ?_⟩
    rw [toInt_shiftRight a (by omega), Int.fdiv_eq_ediv_of_nonneg]
    exact pow_nonneg (by decide) _

theorem checked_eq_ok_iff {operation : IntOperation} {n : Int} {v : Value} :
    checked operation n = .ok v ↔ Fits n ∧ v = .int (Int64.ofInt n) := by
  by_cases hn : Fits n
  · rw [checked_of_fits operation hn]
    simp [hn, eq_comm]
  · rw [checked_of_not_fits operation hn]
    simp [hn]

theorem neg_eq_ok_iff_sub (a : Int64) (v : Value) :
    unary .neg (.int a) = .ok v ↔ binary .sub (.int 0) (.int a) = .ok v := by
  show checked .negation (-a.toInt) = .ok v ↔ checked .subtraction (0 - a.toInt) = .ok v
  rw [Int.zero_sub, checked_eq_ok_iff, checked_eq_ok_iff]

theorem fits_two_pow_iff (n : Nat) : Fits (2 ^ n) ↔ n ≤ 62 := by
  have hpos : (0 : Int) < 2 ^ n := pow_pos (by decide) n
  have hlt : (2 : Int) ^ n < 2 ^ 63 ↔ n < 63 := pow_lt_pow_iff_right₀ (by decide)
  unfold Fits
  omega

theorem toInt_one_shiftLeft {n : Nat} (hn : n ≤ 62) : (1 <<< Int64.ofNat n).toInt = 2 ^ n := by
  rw [toInt_shiftLeft 1 (by omega), Int64.toInt_one, one_mul]
  exact bmod_of_fits ((fits_two_pow_iff n).mpr hn)

theorem ofNat_one_shiftLeft {n : Nat} (hn : n ≤ 62) :
    Int64.ofNat (1 <<< n) = 1 <<< Int64.ofNat n := by
  have hpow : ((1 <<< n : Nat) : Int) = 2 ^ n := by
    rw [Nat.one_shiftLeft]
    push_cast
    rfl
  rw [← Int64.toInt_inj, toInt_one_shiftLeft hn, ← Int64.ofInt_eq_ofNat, hpow]
  exact toInt_ofInt_of_fits ((fits_two_pow_iff n).mpr hn)

theorem intShiftLeft_eq_ok_iff (a : Int64) {n : Nat} (hn : n < 64) (v : Value) :
    intShiftLeft a n = .ok v ↔ Fits (a.toInt * 2 ^ n) ∧ v = .int (a <<< Int64.ofNat n) := by
  rw [intShiftLeft]
  by_cases hfits : Fits (a.toInt * 2 ^ n)
  · rw [if_pos ((shifted_back_iff a hn).mpr hfits)]
    simp [hfits, eq_comm]
  · rw [if_neg (mt (shifted_back_iff a hn).mp hfits)]
    simp [hfits]

theorem binary_shiftLeft_eq_ok_iff (a b : Int64) (v : Value) :
    binary .shiftLeft (.int a) (.int b) = .ok v ↔ (0 ≤ b.toInt ∧ b.toInt ≤ 63) ∧
      Fits (a.toInt * 2 ^ b.toInt.toNat) ∧ v = .int (a <<< Int64.ofNat b.toInt.toNat) := by
  simp only [binary, intBinary]
  by_cases hb : 0 ≤ b.toInt ∧ b.toInt ≤ 63
  · rw [shiftAmount_of_range hb, and_iff_right hb]
    exact intShiftLeft_eq_ok_iff a (by omega) v
  · rw [shiftAmount_of_not_range hb]
    show Except.error _ = .ok v ↔ _
    simp [hb]

theorem unary_twoPow_eq_ok_iff (a : Int64) (v : Value) :
    unary .twoPow (.int a) = .ok v ↔ (0 ≤ a.toInt ∧ a.toInt ≤ 62) ∧
      v = .int (Int64.ofNat (1 <<< a.toInt.toNat)) := by
  simp only [unary, maxExponent]
  by_cases ha : 0 ≤ a.toInt ∧ a.toInt ≤ 62
  · simp [ha, eq_comm]
  · simp [ha]

/-- The power of two is the shifted one: the exponent at which the shift overflows is refused with
those that are not the amount of a shift. -/
theorem twoPow_eq_ok_iff_shiftLeft (a : Int64) (v : Value) :
    unary .twoPow (.int a) = .ok v ↔ binary .shiftLeft (.int 1) (.int a) = .ok v := by
  rw [unary_twoPow_eq_ok_iff, binary_shiftLeft_eq_ok_iff, Int64.toInt_one, one_mul,
    fits_two_pow_iff]
  constructor
  · rintro ⟨ha, rfl⟩
    have hn : a.toInt.toNat ≤ 62 := by omega
    exact ⟨by omega, hn, by rw [ofNat_one_shiftLeft hn]⟩
  · rintro ⟨ha, hn, rfl⟩
    exact ⟨by omega, by rw [ofNat_one_shiftLeft hn]⟩

/-- **Arithmetic on integers is exact.** A sum, a difference and a product are the number they
denote, or an overflow if 64 bits do not hold it. So is a shift to the left, which multiplies by the
power of two; one to the right divides by it and rounds down. Division rounds toward zero. Negation
and the power of two have the value of a difference and a shift where these have one, and elsewhere
none. -/
theorem integer_arithmetic (a b : Int64) :
    Exactly (a.toInt + b.toInt) (.overflow .addition) (binary .add (.int a) (.int b)) ∧
    Exactly (a.toInt - b.toInt) (.overflow .subtraction) (binary .sub (.int a) (.int b)) ∧
    Exactly (a.toInt * b.toInt) (.overflow .multiplication) (binary .mul (.int a) (.int b)) ∧
    Divided a b (binary .div (.int a) (.int b)) (binary .mod (.int a) (.int b)) ∧
    Shifted a b (binary .shiftLeft (.int a) (.int b)) (binary .shiftRight (.int a) (.int b)) ∧
    (∀ v, unary .neg (.int a) = .ok v ↔ binary .sub (.int 0) (.int a) = .ok v) ∧
    ∀ v, unary .twoPow (.int a) = .ok v ↔ binary .shiftLeft (.int 1) (.int a) = .ok v :=
  ⟨exactly_checked .addition _, exactly_checked .subtraction _, exactly_checked .multiplication _,
    divided_intDiv_intMod a b, shifted_binary a b, neg_eq_ok_iff_sub a,
    twoPow_eq_ok_iff_shiftLeft a⟩

/-- The remainder here would be zero, but it is reported with the quotient. -/
example : binary .mod (.int Int64.minValue) (.int (-1)) = .error (.overflow .remainder) := rfl

end ArmPseudocode.Value

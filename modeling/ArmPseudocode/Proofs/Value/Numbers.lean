import Mathlib.Data.Int.ModEq
import Mathlib.Data.Nat.Digits.Lemmas
import ArmPseudocode.Eval.Builtins
import ArmPseudocode.Proofs.Value.Arithmetic
import ArmPseudocode.Proofs.Value.Operations

/-!
# Vectors as numbers

The digits of a vector write a number in base two, and in two's complement the first of them counts
negative; an `x` counts as nothing. Since the operations on vectors are operations on lists of
digits, the laws that tie them to the numbers are laws of numerals: what is appended moves the rest
up, and zeros in front change nothing.
-/

namespace ArmPseudocode

namespace Digit

def bit : Digit → Nat
  | one => 1
  | zero | any => 0

/-- The number that digits write in base two, the most significant first. -/
def number (digits : List Digit) : Nat :=
  Nat.ofDigits 2 (digits.reverse.map bit)

/-- The number that digits write in two's complement. -/
def signedNumber (digits : List Digit) : Int :=
  number digits - if digits.head? = some .one then 2 ^ digits.length else 0

variable {d : Digit} {ds es : List Digit}

theorem bit_lt (d : Digit) : d.bit < 2 := by
  cases d <;> decide

theorem number_append (ds es : List Digit) :
    number (ds ++ es) = number ds * 2 ^ es.length + number es := by
  rw [number, List.reverse_append, List.map_append, Nat.ofDigits_append, List.length_map,
    List.length_reverse, ← number, ← number, Nat.mul_comm, Nat.add_comm]

theorem number_cons (d : Digit) (ds : List Digit) :
    number (d :: ds) = d.bit * 2 ^ ds.length + number ds := by
  rw [← List.singleton_append, number_append]
  rfl

theorem number_lt (ds : List Digit) : number ds < 2 ^ ds.length := by
  have hlt := Nat.ofDigits_lt_base_pow_length (b := 2) (l := ds.reverse.map bit) (by decide) <| by
    intro n hn
    obtain ⟨d, -, rfl⟩ := List.mem_map.mp hn
    exact d.bit_lt
  rwa [List.length_map, List.length_reverse] at hlt

theorem number_zeros_append (n : Nat) (ds : List Digit) :
    number (List.replicate n .zero ++ ds) = number ds := by
  induction n with
  | zero => rfl
  | succ n ih =>
      rw [List.replicate_succ, List.cons_append, number_cons, ih, bit, Nat.zero_mul, Nat.zero_add]

/-- The first digit counts negative in two's complement. -/
theorem signedNumber_cons (d : Digit) (ds : List Digit) :
    signedNumber (d :: ds) = number ds - d.bit * 2 ^ ds.length := by
  rw [signedNumber, number_cons, List.head?_cons, List.length_cons]
  cases d with
  | one =>
      rw [if_pos rfl, bit, pow_succ]
      push_cast
      ring
  | zero | any =>
      rw [if_neg (by simp), bit]
      push_cast
      ring

theorem signedNumber_zeros_append {n : Nat} (hn : 0 < n) (ds : List Digit) :
    signedNumber (List.replicate n .zero ++ ds) = number ds := by
  have hhead : (List.replicate n Digit.zero ++ ds).head? = some .zero := by
    rw [List.head?_append, List.head?_replicate, if_neg hn.ne']
    rfl
  rw [signedNumber, number_zeros_append, hhead, if_neg (by decide), Int.sub_zero]

theorem signedNumber_append (hds : ds ≠ []) (es : List Digit) :
    signedNumber (ds ++ es) = signedNumber ds * 2 ^ es.length + number es := by
  obtain ⟨d, ds, rfl⟩ := List.exists_cons_of_ne_nil hds
  rw [List.cons_append, signedNumber_cons, signedNumber_cons, number_append, List.length_append,
    pow_add]
  push_cast
  ring

theorem signedNumber_modEq (ds : List Digit) :
    Int.ModEq (2 ^ ds.length) (signedNumber ds) (number ds) := by
  rw [signedNumber]
  split
  · exact Int.modEq_iff_dvd.mpr ⟨1, by ring⟩
  · rw [Int.sub_zero]

theorem signedNumber_le (ds : List Digit) : signedNumber ds ≤ number ds := by
  rw [signedNumber]
  split
  · exact Int.sub_le_self _ (by positivity)
  · exact (Int.sub_zero _).le

theorem neg_two_pow_le_signedNumber (ds : List Digit) : -2 ^ ds.length ≤ signedNumber ds := by
  have hpos : (0 : Int) < 2 ^ ds.length := by positivity
  rw [signedNumber]
  split <;> omega

theorem signedNumber_bounds (hds : ds ≠ []) :
    -2 ^ (ds.length - 1) ≤ signedNumber ds ∧ signedNumber ds < 2 ^ (ds.length - 1) := by
  obtain ⟨d, ds, rfl⟩ := List.exists_cons_of_ne_nil hds
  have hlt : (number ds : Int) < 2 ^ ds.length := by exact_mod_cast number_lt ds
  have hpos := Int.natCast_nonneg (number ds)
  rw [signedNumber_cons, List.length_cons, Nat.add_sub_cancel]
  cases d <;> simp only [bit] <;> push_cast <;> constructor <;> omega

end Digit

namespace Bits

variable {a b c : Bits}

/-! ### Readings of the payloads -/

theorem ofDigits_testBit {width n : Nat} (hn : n < 2 ^ width) :
    Nat.ofDigits 2 ((List.range width).map fun i => (n.testBit i).toNat) = n := by
  induction width generalizing n with
  | zero =>
      obtain rfl : n = 0 := by simpa using hn
      rfl
  | succ width ih =>
      have hhalf : n / 2 < 2 ^ width := by omega
      have hrest := ih hhalf
      simp only [← Nat.testBit_succ] at hrest
      rw [List.range_succ_eq_map, List.map_cons, List.map_map, Nat.ofDigits_cons]
      simp only [Function.comp_def, hrest, Nat.testBit_zero]
      have hlow : (decide (n % 2 = 1)).toNat = n % 2 := by
        rcases Nat.mod_two_eq_zero_or_one n with h | h <;> rw [h] <;> rfl
      rw [hlow]
      exact Nat.mod_add_div n 2

theorem WellFormed.toUnsigned_eq (hb : b.WellFormed) : b.toUnsigned = Digit.number b.digits := by
  have hlt : b.value.toNat < 2 ^ b.width := by
    rw [← Nat.one_shiftLeft]
    exact hb.value_lt
  have hbit : ∀ i, (b.value.toNat.testBit i).toNat = (b.digitAt i).bit := by
    intro i
    rw [← BitVec.getLsbD, hb.getLsbD_value]
    cases b.digitAt i <;> rfl
  rw [toUnsigned, ← ofDigits_testBit hlt, Digit.number, digits, ← List.map_reverse,
    List.reverse_reverse, List.map_map]
  simp only [hbit, Function.comp_def]

/-- Shifted up to the sign and down again, a one at the top counts negative. -/
theorem toInt_shifted {digits : List Digit} (hsome : digits ≠ []) (hlength : digits.length ≤ 32) :
    (Int64.ofNat (Digit.number digits) <<< Int64.ofNat (64 - digits.length) >>>
      Int64.ofNat (64 - digits.length)).toInt = Digit.signedNumber digits := by
  have hshift : 64 - digits.length < 64 := by
    have := List.length_pos_iff.mpr hsome
    omega
  have hwhole : (2 : Int) ^ digits.length * 2 ^ (64 - digits.length) = 2 ^ 64 := by
    rw [← pow_add]
    congr 1
    omega
  have hsmall : Digit.number digits < 2 ^ 63 :=
    (Digit.number_lt digits).trans_le (Nat.pow_le_pow_right (by decide) (by omega))
  have hfits : Value.Fits (Digit.signedNumber digits * 2 ^ (64 - digits.length)) := by
    have hhalf : (2 : Int) ^ (digits.length - 1) * 2 ^ (64 - digits.length) = 2 ^ 63 := by
      rw [← pow_add]
      congr 1
      omega
    obtain ⟨hlow, hhigh⟩ := Digit.signedNumber_bounds hsome
    have hpos : (0 : Int) < 2 ^ (64 - digits.length) := by positivity
    constructor
    · have := mul_le_mul_of_nonneg_right hlow hpos.le
      rwa [neg_mul, hhalf] at this
    · have := mul_lt_mul_of_pos_right hhigh hpos
      rwa [hhalf] at this
  rw [Value.toInt_shiftRight _ hshift, Value.toInt_shiftLeft _ hshift,
    Int64.toInt_ofNat_of_lt hsmall]
  have hwrap : ((Digit.number digits : Int) * 2 ^ (64 - digits.length)).bmod (2 ^ 64) =
      Digit.signedNumber digits * 2 ^ (64 - digits.length) := by
    -- What the first digit counts too much is moved beyond the 64 bits.
    obtain ⟨m, hm⟩ := Int.modEq_iff_dvd.mp (Digit.signedNumber_modEq digits)
    have hmoved : (Digit.number digits : Int) * 2 ^ (64 - digits.length) =
        Digit.signedNumber digits * 2 ^ (64 - digits.length) + m * 2 ^ 64 := by
      rw [← hwhole, ← sub_eq_iff_eq_add', ← sub_mul, hm]
      ring
    rw [hmoved]
    refine (Int.add_mul_bmod_self_right _ _ (2 ^ 64)).trans ?_
    exact Value.bmod_of_fits hfits
  rw [hwrap]
  exact Int.mul_ediv_cancel _ (by positivity)

theorem WellFormed.toSigned_eq (hb : b.WellFormed) :
    b.toSigned = Digit.signedNumber b.digits := by
  rw [toSigned]
  split
  · next hwidth =>
      have hnil : b.digits = [] := List.eq_nil_of_length_eq_zero (by rw [length_digits, hwidth])
      rw [hnil]
      rfl
  · next hwidth =>
      have hsome : b.digits ≠ [] := by
        rw [← List.length_pos_iff, length_digits]
        omega
      have hle : b.digits.length ≤ 32 := by
        rw [length_digits]
        exact hb.width_le
      have hshifted := toInt_shifted hsome hle
      rw [length_digits, ← hb.toUnsigned_eq] at hshifted
      exact hshifted

theorem WellFormed.countOnes_eq (hb : b.WellFormed) : b.countOnes = b.digits.count .one := by
  have hwidth : 32 = b.width + (32 - b.width) := by
    have := hb.width_le
    unfold maxWidth at this
    omega
  have hbit : ∀ i, b.value.getLsbD i = (b.digitAt i == .one) := by
    intro i
    rw [hb.getLsbD_value]
    exact (Bool.beq_eq_decide_eq _ _).symm
  have hhigh : ((List.range (32 - b.width)).map (b.width + ·)).countP b.value.getLsbD = 0 := by
    rw [List.countP_eq_zero]
    intro i hi
    obtain ⟨j, -, rfl⟩ := List.mem_map.mp hi
    rw [hb.getLsbD_value_eq_false (Nat.le_add_right _ _)]
    exact Bool.false_ne_true
  have hrange : List.range 32 =
      List.range b.width ++ (List.range (32 - b.width)).map (b.width + ·) := by
    rw [← List.range_add, ← hwidth]
  rw [countOnes, hrange, List.countP_append, hhigh, Nat.add_zero, digits, List.map_reverse,
    List.count_reverse, List.count_eq_countP, List.countP_map]
  exact List.countP_congr fun i _ => by rw [hbit]; rfl

end Bits

/-! ### The functions on vectors -/

/-- The function of a vector is the integer. -/
def Builtin.Gives (f : Builtin) (b : Bits) (n : Int) : Prop :=
  ∃ r : Int64, f.apply [.bits b] = .ok (.int r) ∧ r.toInt = n

namespace Bits

variable {a b c : Bits}

theorem WellFormed.length_digits_le (hb : b.WellFormed) : b.digits.length ≤ 32 := by
  rw [length_digits]
  exact hb.width_le

theorem WellFormed.gives_uint (hb : b.WellFormed) :
    Builtin.uint.Gives b (Digit.number b.digits) := by
  have hlt : b.toUnsigned < 2 ^ 63 := by
    rw [hb.toUnsigned_eq]
    have hle := hb.length_digits_le
    exact (Digit.number_lt b.digits).trans_le (Nat.pow_le_pow_right (by decide) (by omega))
  exact ⟨_, rfl, (Int64.toInt_ofNat_of_lt hlt).trans (congrArg _ hb.toUnsigned_eq)⟩

theorem WellFormed.gives_sint (hb : b.WellFormed) :
    Builtin.sint.Gives b (Digit.signedNumber b.digits) := by
  have hfits : Value.Fits (Digit.signedNumber b.digits) := by
    have hlower := Digit.neg_two_pow_le_signedNumber b.digits
    have hupper : (Digit.signedNumber b.digits) < 2 ^ b.digits.length :=
      (Digit.signedNumber_le b.digits).trans_lt (by exact_mod_cast Digit.number_lt b.digits)
    have hpow : (2 : Int) ^ b.digits.length ≤ 2 ^ 63 :=
      pow_le_pow_right₀ (by decide) (hb.length_digits_le.trans (by decide))
    constructor <;> omega
  refine ⟨Int64.ofInt b.toSigned, rfl, ?_⟩
  rw [hb.toSigned_eq, Value.toInt_ofInt_of_fits hfits]

theorem WellFormed.gives_bitCount (hb : b.WellFormed) :
    Builtin.bitCount.Gives b (b.digits.count .one) := by
  have hlt : b.countOnes < 2 ^ 63 := by
    rw [hb.countOnes_eq]
    have hcount := List.count_le_length (a := Digit.one) (l := b.digits)
    have hle := hb.length_digits_le
    omega
  exact ⟨_, rfl, (Int64.toInt_ofNat_of_lt hlt).trans (congrArg _ hb.countOnes_eq)⟩

/-- Of each call that extends a vector within the greatest width. -/
theorem exists_zeroExtend (hb : b.WellFormed) (n : Int64) (hold : b.width ≤ n.toInt)
    (hnew : n.toInt ≤ 32) :
    ∃ c, Builtin.zeroExtend.apply [.bits b, .int n] = .ok (.bits c) ∧ c.WellFormed ∧
      c.digits = List.replicate (n.toInt.toNat - b.width) .zero ++ b.digits :=
  ⟨b.extend n.toInt.toNat, if_pos ⟨hold, hnew⟩, wellFormed_extend hb (by omega) (by
    unfold maxWidth
    omega), digits_extend hb (by omega)⟩

/-- **Vectors are numerals.** `UInt` reads the digits of a vector in base two, and `SInt` in two's
complement. Each is below, or within, what the width can hold, and modulo that they agree. Extending
a vector by zeros keeps the number, and makes it one that is not negative. Joining moves the number
in front up by the width of the other and adds that one's, and adds the counts of ones. -/
theorem numbers_of_vectors (ha : a.WellFormed) (hb : b.WellFormed) :
    (Builtin.uint.Gives a (Digit.number a.digits) ∧ Digit.number a.digits < 2 ^ a.width) ∧
    (Builtin.sint.Gives a (Digit.signedNumber a.digits) ∧
      Int.ModEq (2 ^ a.width) (Digit.signedNumber a.digits) (Digit.number a.digits) ∧
      (0 < a.width → -2 ^ (a.width - 1) ≤ Digit.signedNumber a.digits ∧
        Digit.signedNumber a.digits ≤ 2 ^ (a.width - 1) - 1) ∧
      (a.width = 0 → Digit.signedNumber a.digits = 0)) ∧
    (∀ n : Int64, a.width ≤ n.toInt → n.toInt ≤ 32 →
      ∃ c, Builtin.zeroExtend.apply [.bits a, .int n] = .ok (.bits c) ∧
        Builtin.uint.Gives c (Digit.number a.digits) ∧
        (a.width < n.toInt → Builtin.sint.Gives c (Digit.number a.digits))) ∧
    (a.width + b.width ≤ 32 →
      ∃ c, Value.binary .concat (.bits a) (.bits b) = .ok (.bits c) ∧
        Builtin.uint.Gives c (Digit.number a.digits * 2 ^ b.width + Digit.number b.digits) ∧
        (0 < a.width → Builtin.sint.Gives c
          (Digit.signedNumber a.digits * 2 ^ b.width + Digit.number b.digits)) ∧
        ∃ m n : Nat, Builtin.bitCount.Gives a m ∧ Builtin.bitCount.Gives b n ∧
          Builtin.bitCount.Gives c ↑(m + n)) := by
  have hsome : 0 < a.width → a.digits ≠ [] := by
    rw [← List.length_pos_iff, length_digits]
    exact id
  have hlt := Digit.number_lt a.digits
  rw [length_digits] at hlt
  refine ⟨⟨ha.gives_uint, hlt⟩, ⟨ha.gives_sint, ?_, ?_, ?_⟩, ?_, ?_⟩
  · have hmod := Digit.signedNumber_modEq a.digits
    rwa [length_digits] at hmod
  · intro hpos
    have hbounds := Digit.signedNumber_bounds (hsome hpos)
    rw [length_digits] at hbounds
    exact ⟨hbounds.1, Int.le_sub_one_of_lt hbounds.2⟩
  · intro hzero
    have hnil : a.digits = [] := List.eq_nil_of_length_eq_zero (by rw [length_digits, hzero])
    rw [hnil]
    rfl
  · intro n hold hnew
    obtain ⟨c, happly, hc, hdigits⟩ := exists_zeroExtend ha n hold hnew
    have huint := hc.gives_uint
    have hsint := hc.gives_sint
    rw [hdigits, Digit.number_zeros_append] at huint
    refine ⟨c, happly, huint, fun hwider => ?_⟩
    rwa [hdigits, Digit.signedNumber_zeros_append (by omega)] at hsint
  · intro hle
    obtain ⟨c, hconcat, hc, hdigits⟩ := exists_concat ha hb hle
    have huint := hc.gives_uint
    have hsint := hc.gives_sint
    have hcount := hc.gives_bitCount
    rw [hdigits, Digit.number_append, length_digits] at huint
    rw [hdigits, List.count_append] at hcount
    refine ⟨c, ?_, by exact_mod_cast huint, fun hpos => ?_,
      _, _, ha.gives_bitCount, hb.gives_bitCount, hcount⟩
    · show Value.bits <$> EvalError.ofWidth (a.concat b) = _
      rw [hconcat]
      rfl
    · rwa [hdigits, Digit.signedNumber_append (hsome hpos), length_digits] at hsint

/-- The greatest width is reached: the sign is at the top, and the `x` at the low end is nothing. -/
theorem almostWidest_numbers :
    almostWidest.WellFormed ∧ (⟨1, 1, 0⟩ : Bits).WellFormed ∧
    Builtin.uint.Gives almostWidest (2 ^ 30) ∧ Builtin.sint.Gives almostWidest (-2 ^ 30) ∧
    ∃ c, Value.binary .concat (.bits almostWidest) (.bits ⟨1, 1, 0⟩) = .ok (.bits c) ∧
      Builtin.sint.Gives c (-2 ^ 31 + 1) := by
  have hhigh : almostWidest.WellFormed := by constructor <;> decide
  have hlow : (⟨1, 1, 0⟩ : Bits).WellFormed := by constructor <;> decide
  obtain ⟨⟨huint, -⟩, ⟨hsint, -⟩, -, hjoin⟩ := numbers_of_vectors hhigh hlow
  obtain ⟨c, hconcat, -, hjoined, -⟩ := hjoin (by decide)
  exact ⟨hhigh, hlow, huint, hsint, c, hconcat, hjoined (by decide)⟩

end Bits

end ArmPseudocode

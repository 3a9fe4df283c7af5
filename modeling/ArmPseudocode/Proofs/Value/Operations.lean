import ArmPseudocode.Proofs.Value.WellFormed

/-!
# Operations on vectors, digit by digit

The operations work on payloads, by shifts and masks. Here they are read position by position, and
from that as operations on lists of digits: joining appends, a slice is a part, and an extension
puts zeros in front. A vector can be cut anywhere and joined again, and what was joined can be cut
apart.
-/

namespace ArmPseudocode

def Digit.asBit : Digit → Digit
  | .any => .zero
  | d => d

namespace Bits

variable {a b c : Bits}

/-! ### Position by position -/

/-- Of two payloads that are joined, the lower keeps its positions and the higher is moved up. -/
theorem getLsbD_joined {high low : BitVec 32} {width i : Nat} (hi : i < maxWidth)
    (hlow : width ≤ i → low.getLsbD i = false) :
    (high <<< width ||| low).getLsbD i =
      if i < width then low.getLsbD i else high.getLsbD (i - width) := by
  unfold maxWidth at hi
  rw [BitVec.getLsbD_or, BitVec.getLsbD_shiftLeft]
  by_cases hlt : i < width
  · simp [hlt]
  · rw [hlow (Nat.le_of_not_lt hlt)]
    simp [hlt, hi]

theorem concat_of_le (hle : a.width + b.width ≤ maxWidth) :
    a.concat b = .ok ⟨a.width + b.width, a.value <<< b.width ||| b.value,
      a.dontCare <<< b.width ||| b.dontCare⟩ :=
  if_neg (Nat.not_lt.mpr hle)

theorem concat_of_lt (hlt : maxWidth < a.width + b.width) :
    a.concat b = .error (.outOfRange ↑(a.width + b.width)) :=
  if_pos hlt

theorem width_of_concat (h : a.concat b = .ok c) :
    a.width + b.width ≤ maxWidth ∧ c.width = a.width + b.width := by
  rcases Nat.lt_or_ge maxWidth (a.width + b.width) with hlt | hle
  · rw [concat_of_lt hlt] at h
    cases h
  · rw [concat_of_le hle] at h
    cases h
    exact ⟨hle, rfl⟩

theorem digitAt_concat (hb : b.WellFormed) (h : a.concat b = .ok c) {i : Nat} (hi : i < c.width) :
    c.digitAt i = if i < b.width then b.digitAt i else a.digitAt (i - b.width) := by
  obtain ⟨hle, hwidth⟩ := width_of_concat h
  have hmax : i < maxWidth := by omega
  rw [concat_of_le hle] at h
  cases h
  unfold digitAt
  rw [getLsbD_joined hmax hb.getLsbD_value_eq_false,
    getLsbD_joined hmax hb.getLsbD_dontCare_eq_false]
  split
  · rfl
  · rfl

theorem digitAt_slice (b : Bits) {high low i : Nat} (hwidth : high - low + 1 ≤ maxWidth)
    (hi : i < high - low + 1) : (b.slice high low).digitAt i = b.digitAt (low + i) := by
  simp [digitAt, slice, getLsbD_lowMask hwidth, hi]

theorem WellFormed.digitAt_eq_zero (hb : b.WellFormed) {i : Nat} (hi : b.width ≤ i) :
    b.digitAt i = .zero := by
  simp [digitAt, hb.getLsbD_value_eq_false hi, hb.getLsbD_dontCare_eq_false hi]

/-! ### As lists of digits -/

def digitsDownTo (b : Bits) (high low : Nat) : List Digit :=
  (List.range (high - low + 1)).reverse.map fun i => b.digitAt (low + i)

@[simp] theorem length_digitsDownTo (b : Bits) (high low : Nat) :
    (b.digitsDownTo high low).length = high - low + 1 := by
  simp [digitsDownTo]

/-- Positions counted down fall apart at any of them. -/
theorem map_reverse_range_add (f : Nat → Digit) (low high : Nat) :
    (List.range (low + high)).reverse.map f =
      (List.range high).reverse.map (fun i => f (low + i)) ++ (List.range low).reverse.map f := by
  rw [List.range_add, List.reverse_append, List.map_append, ← List.map_reverse, List.map_map]
  rfl

theorem digits_of_width_eq {low high : Nat} (h : b.width = low + high) :
    b.digits = (List.range high).reverse.map (fun i => b.digitAt (low + i)) ++
      (List.range low).reverse.map b.digitAt := by
  rw [digits, h]
  exact map_reverse_range_add b.digitAt low high

theorem digits_eq_append_digitsDownTo {k : Nat} (hpos : 0 < k) (hk : k < b.width) :
    b.digits = b.digitsDownTo (b.width - 1) k ++ b.digitsDownTo (k - 1) 0 := by
  rw [digits_of_width_eq (show b.width = k + (b.width - k) by omega), digitsDownTo, digitsDownTo,
    show b.width - 1 - k + 1 = b.width - k by omega, show k - 1 - 0 + 1 = k by omega]
  simp only [Nat.zero_add]

theorem map_reverse_range_congr {f g : Nat → Digit} {n : Nat} (h : ∀ i < n, f i = g i) :
    (List.range n).reverse.map f = (List.range n).reverse.map g := by
  apply List.map_congr_left
  intro i hi
  rw [List.mem_reverse, List.mem_range] at hi
  exact h i hi

theorem digits_concat (hb : b.WellFormed) (h : a.concat b = .ok c) :
    c.digits = a.digits ++ b.digits := by
  obtain ⟨-, hwidth⟩ := width_of_concat h
  have hat : ∀ i < c.width, c.digitAt i =
      if i < b.width then b.digitAt i else a.digitAt (i - b.width) :=
    fun i hi => digitAt_concat hb h hi
  rw [digits_of_width_eq (hwidth.trans (Nat.add_comm _ _))]
  congr 1
  · apply map_reverse_range_congr
    intro i hi
    rw [hat _ (by omega), if_neg (by omega), Nat.add_sub_cancel_left]
  · apply map_reverse_range_congr
    intro i hi
    rw [hat _ (by omega), if_pos hi]

theorem exists_concat (ha : a.WellFormed) (hb : b.WellFormed)
    (hle : a.width + b.width ≤ maxWidth) :
    ∃ c, a.concat b = .ok c ∧ c.WellFormed ∧ c.digits = a.digits ++ b.digits :=
  ⟨_, concat_of_le hle, wellFormed_concat ha hb _ (concat_of_le hle),
    digits_concat hb (concat_of_le hle)⟩

theorem digits_slice (b : Bits) {high low : Nat} (hwidth : high - low + 1 ≤ maxWidth) :
    (b.slice high low).digits = b.digitsDownTo high low :=
  map_reverse_range_congr fun _ hi => b.digitAt_slice hwidth hi

theorem digits_extend (hb : b.WellFormed) {width : Nat} (hold : b.width ≤ width) :
    (b.extend width).digits = List.replicate (width - b.width) .zero ++ b.digits := by
  have hwidth : (b.extend width).width = b.width + (width - b.width) := by
    show width = _
    omega
  rw [digits_of_width_eq hwidth]
  congr 1
  have hzero : ∀ i, (b.extend width).digitAt (b.width + i) = .zero :=
    fun i => hb.digitAt_eq_zero (Nat.le_add_right _ _)
  simp only [hzero]
  rw [List.map_const', List.length_reverse, List.length_range]

/-! ### Comparison -/

theorem digit_matches_iff (d pattern : Digit) :
    (decide (d = .one) && !decide (pattern = .any)) = decide (pattern = .one) ↔
      (pattern ≠ .any → pattern = d.asBit) := by
  cases d <;> cases pattern <;> simp [Digit.asBit]

theorem masked_eq_iff (ha : a.WellFormed) (hb : b.WellFormed) (hwidth : a.width = b.width) :
    a.value &&& ~~~b.dontCare = b.value ↔
      ∀ i < a.width, b.digitAt i ≠ .any → b.digitAt i = (a.digitAt i).asBit := by
  have hbit : ∀ i < maxWidth, (a.value &&& ~~~b.dontCare).getLsbD i =
      (decide (a.digitAt i = .one) && !decide (b.digitAt i = .any)) := by
    intro i hi
    unfold maxWidth at hi
    rw [BitVec.getLsbD_and, BitVec.getLsbD_not, ha.getLsbD_value, getLsbD_dontCare]
    simp [hi]
  constructor
  · intro h i hi
    rw [← digit_matches_iff, ← hbit i (Nat.lt_of_lt_of_le hi ha.width_le), h, hb.getLsbD_value]
  · intro h
    apply BitVec.eq_of_getLsbD_eq
    intro i hi
    rw [hbit i hi, hb.getLsbD_value, digit_matches_iff]
    rcases Nat.lt_or_ge i a.width with hlt | hge
    · exact h i hlt
    · rw [ha.digitAt_eq_zero hge, hb.digitAt_eq_zero (hwidth ▸ hge)]
      exact fun _ => rfl

theorem equals_of_width_eq (hwidth : a.width = b.width) :
    a.equals b = .ok (decide (a.value &&& ~~~b.dontCare = b.value)) :=
  if_pos hwidth

theorem equals_of_width_ne (hwidth : a.width ≠ b.width) :
    a.equals b = .error (.mismatch .equal a.width b.width) :=
  if_neg hwidth

/-! ### Vectors from digits -/

theorem getLsbD_shiftIn_zero (payload : BitVec 32) (p : Prop) [Decidable p] :
    (payload <<< 1 ||| (if p then 1 else 0)).getLsbD 0 = decide p := by
  by_cases hp : p <;> simp [hp]

theorem getLsbD_shiftIn_succ (payload : BitVec 32) (p : Prop) [Decidable p] {i : Nat}
    (hi : i + 1 < maxWidth) :
    (payload <<< 1 ||| (if p then 1 else 0)).getLsbD (i + 1) = payload.getLsbD i := by
  unfold maxWidth at hi
  rw [BitVec.getLsbD_or, BitVec.getLsbD_shiftLeft]
  by_cases hp : p <;> simp [hp, hi]

/-- Digits shifted in one by one end up at their positions. The list is from the low end. -/
theorem getLsbD_foldr_pushDigit (digits : List Digit) {i : Nat} (hi : i < maxWidth) :
    let payload := digits.foldr (fun d payload => pushDigit payload d) (0, 0)
    payload.1.getLsbD i = decide (digits[i]? = some .one) ∧
      payload.2.getLsbD i = decide (digits[i]? = some .any) := by
  induction digits generalizing i with
  | nil => simp
  | cons d digits ih =>
      simp only [List.foldr_cons, pushDigit]
      cases i with
      | zero =>
          rw [getLsbD_shiftIn_zero, getLsbD_shiftIn_zero]
          simp
      | succ i =>
          rw [getLsbD_shiftIn_succ _ _ hi, getLsbD_shiftIn_succ _ _ hi]
          exact ih (Nat.lt_of_succ_lt hi)

theorem ofPayload_of_le (value dontCare : BitVec 32) {width : Nat} (hle : width ≤ maxWidth) :
    ofPayload width value dontCare = .ok ⟨width,
      value &&& lowMask width &&& ~~~(dontCare &&& lowMask width), dontCare &&& lowMask width⟩ :=
  if_neg (Nat.not_lt.mpr hle)

theorem width_of_ofPayload {width : Nat} {value dontCare : BitVec 32}
    (h : ofPayload width value dontCare = .ok b) : width ≤ maxWidth ∧ b.width = width := by
  rcases Nat.lt_or_ge maxWidth width with hlt | hle
  · rw [ofPayload, if_pos hlt] at h
    cases h
  · rw [ofPayload_of_le value dontCare hle] at h
    cases h
    exact ⟨hle, rfl⟩

theorem digitAt_ofPayload {width : Nat} {value dontCare : BitVec 32}
    (h : ofPayload width value dontCare = .ok b) {i : Nat} (hi : i < width) :
    b.digitAt i =
      if dontCare.getLsbD i then .any else if value.getLsbD i then .one else .zero := by
  obtain ⟨hle, -⟩ := width_of_ofPayload h
  have hmax : i < 32 := Nat.lt_of_lt_of_le hi hle
  rw [ofPayload_of_le value dontCare hle] at h
  cases h
  unfold digitAt
  simp only [BitVec.getLsbD_and, BitVec.getLsbD_not, getLsbD_lowMask hle, hi, hmax]
  cases dontCare.getLsbD i <;> simp

/-- Every list of digits that is not too long is that of a vector. -/
theorem digits_ofDigits {digits : List Digit} (hlength : digits.length ≤ maxWidth) :
    ∃ b, ofDigits digits = .ok b ∧ b.WellFormed ∧ b.digits = digits := by
  obtain ⟨b, hb⟩ : ∃ b, ofDigits digits = .ok b := by
    rw [ofDigits, if_neg (Nat.not_lt.mpr hlength)]
    exact ⟨_, ofPayload_of_le _ _ hlength⟩
  refine ⟨b, hb, wellFormed_ofDigits digits b hb, ?_⟩
  rw [ofDigits, if_neg (Nat.not_lt.mpr hlength), ← List.foldr_reverse] at hb
  have hwidth : b.width = digits.length := (width_of_ofPayload hb).2
  apply List.ext_getElem
  · rw [length_digits, hwidth]
  · intro i hi hi'
    have hat : digits.length - 1 - i < digits.length := by omega
    obtain ⟨hone, hany⟩ := getLsbD_foldr_pushDigit digits.reverse
      (Nat.lt_of_lt_of_le hat hlength)
    have hget : digits.reverse[digits.length - 1 - i]? = some digits[i] := by
      rw [List.getElem?_reverse hat, show digits.length - 1 - (digits.length - 1 - i) = i by omega]
      exact List.getElem?_eq_getElem hi'
    rw [digits_getElem, hwidth, digitAt_ofPayload hb hat, hone, hany, hget]
    cases digits[i] <;> rfl

/-! ### Cutting and joining -/

/-- A vector that is cut in two is the two parts joined. -/
theorem concat_slices (hb : b.WellFormed) {k : Nat} (hpos : 0 < k) (hk : k < b.width) :
    (b.slice (b.width - 1) k).concat (b.slice (k - 1) 0) = .ok b := by
  have hmax := hb.width_le
  have hhigh : (b.slice (b.width - 1) k).WellFormed := wellFormed_slice hb (by omega) (by omega)
  have hlow : (b.slice (k - 1) 0).WellFormed := wellFormed_slice hb (by omega) (by omega)
  have hle : (b.slice (b.width - 1) k).width + (b.slice (k - 1) 0).width ≤ maxWidth := by
    show b.width - 1 - k + 1 + (k - 1 - 0 + 1) ≤ maxWidth
    omega
  obtain ⟨c, hconcat, hc, hdigits⟩ := exists_concat hhigh hlow hle
  rw [digits_slice b (by omega), digits_slice b (by omega),
    ← digits_eq_append_digitsDownTo hpos hk] at hdigits
  rw [hconcat, eq_of_digits_eq hc hb hdigits]

/-- Vectors that were joined are cut apart where the lower one begins. -/
theorem slices_concat (ha : a.WellFormed) (hb : b.WellFormed) (hpos : 0 < a.width)
    (hpos' : 0 < b.width) (h : a.concat b = .ok c) :
    c.slice (c.width - 1) b.width = a ∧ c.slice (b.width - 1) 0 = b := by
  obtain ⟨hle, hwidth⟩ := width_of_concat h
  have hc : c.WellFormed := wellFormed_concat ha hb c h
  have hparts : c.digitsDownTo (c.width - 1) b.width ++ c.digitsDownTo (b.width - 1) 0 =
      a.digits ++ b.digits := by
    rw [← digits_eq_append_digitsDownTo hpos' (by omega), digits_concat hb h]
  have hlength : (c.digitsDownTo (c.width - 1) b.width).length = a.digits.length := by
    rw [length_digitsDownTo, length_digits]
    omega
  obtain ⟨hhigh, hlow⟩ := List.append_inj hparts hlength
  constructor
  · apply eq_of_digits_eq (wellFormed_slice hc (by omega) (by omega)) ha
    rw [digits_slice c (by omega), hhigh]
  · apply eq_of_digits_eq (wellFormed_slice hc (by omega) (by omega)) hb
    rw [digits_slice c (by omega), hlow]

/-- **Vectors are lists of digits.** Every list of up to 32 digits is that of one well-formed
vector. Joining appends the lists, if the result is not too long. A slice has the digits of its
positions, and an extension has zeros in front. Two vectors of different widths cannot be compared.
Of two of one width the second matches the first if, at every position where the second has no `x`,
it has the digit of the first, with `x` read as zero. A vector cut in two is the two parts joined,
and what was joined is cut apart again. -/
theorem operations_on_digits (ha : a.WellFormed) (hb : b.WellFormed) :
    (a.digits.length = a.width ∧ (a.digits = b.digits → a = b) ∧
      ∀ digits : List Digit, digits.length ≤ maxWidth →
        ∃ c : Bits, c.WellFormed ∧ c.digits = digits) ∧
    (a.width + b.width ≤ maxWidth →
      ∃ c, a.concat b = .ok c ∧ c.WellFormed ∧ c.digits = a.digits ++ b.digits) ∧
    (maxWidth < a.width + b.width →
      a.concat b = .error (.outOfRange ↑(a.width + b.width))) ∧
    (∀ high low, low ≤ high → high < a.width →
      (a.slice high low).WellFormed ∧ (a.slice high low).digits = a.digitsDownTo high low) ∧
    (∀ width, a.width ≤ width → width ≤ maxWidth →
      (a.extend width).WellFormed ∧
        (a.extend width).digits = List.replicate (width - a.width) .zero ++ a.digits) ∧
    (a.width ≠ b.width → a.equals b = .error (.mismatch .equal a.width b.width)) ∧
    (a.width = b.width → ∃ same, a.equals b = .ok same ∧
      (same = true ↔
        ∀ i < a.width, b.digitAt i ≠ .any → b.digitAt i = (a.digitAt i).asBit)) ∧
    (∀ k, 0 < k → k < a.width →
      (a.slice (a.width - 1) k).concat (a.slice (k - 1) 0) = .ok a) ∧
    (0 < a.width → 0 < b.width → ∀ c, a.concat b = .ok c →
      c.slice (c.width - 1) b.width = a ∧ c.slice (b.width - 1) 0 = b) := by
  refine ⟨⟨length_digits a, eq_of_digits_eq ha hb, ?_⟩, exists_concat ha hb, concat_of_lt, ?_, ?_,
    equals_of_width_ne, ?_, fun k => concat_slices ha,
    fun hpos hpos' c => slices_concat ha hb hpos hpos'⟩
  · intro digits hlength
    obtain ⟨c, -, hc⟩ := digits_ofDigits hlength
    exact ⟨c, hc⟩
  · intro high low hle hhigh
    have hmax := ha.width_le
    exact ⟨wellFormed_slice ha hle hhigh, digits_slice a (by omega)⟩
  · intro width hold hnew
    exact ⟨wellFormed_extend ha hold hnew, digits_extend ha hold⟩
  · intro hwidth
    refine ⟨_, equals_of_width_eq hwidth, ?_⟩
    rw [decide_eq_true_eq]
    exact masked_eq_iff ha hb hwidth

def almostWidest : Bits := ⟨31, 0x40000000, 0x1⟩

theorem almostWidest_operations :
    almostWidest.WellFormed ∧ (⟨1, 0, 1⟩ : Bits).WellFormed ∧
    almostWidest.concat ⟨1, 0, 1⟩ = .ok ⟨32, 0x80000000, 0x3⟩ ∧
    (⟨32, 0x80000000, 0x3⟩ : Bits).slice 31 1 = almostWidest ∧
    (⟨32, 0x80000000, 0x3⟩ : Bits).slice 0 0 = ⟨1, 0, 1⟩ := by
  have hhigh : almostWidest.WellFormed := by constructor <;> decide
  have hlow : (⟨1, 0, 1⟩ : Bits).WellFormed := by constructor <;> decide
  obtain ⟨-, -, -, -, -, -, -, -, hcut⟩ := operations_on_digits hhigh hlow
  exact ⟨hhigh, hlow, rfl, hcut (by decide) (by decide) _ rfl⟩

/-- An `x` of the vector itself counts as zero, and the zero of the pattern matches it. -/
example : (⟨2, 0b10, 0b01⟩ : Bits).equals ⟨2, 0b10, 0b00⟩ = .ok true := rfl

end Bits

end ArmPseudocode

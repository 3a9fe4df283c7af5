import ArmPseudocode.Proofs.Encoding.Placement
import ArmPseudocode.Proofs.Value.Digits

/-!
# Fields as slices of a word

A field is cut out of a word by a shift and a mask. Read digit by digit this is the word from the
field's offset on, most significant bit first, and none of the digits is an `x`. Two cuts agree
exactly where the words have the same digits.
-/

namespace ArmPseudocode

namespace Template

/-- The digits of a word from an offset on, counted from the most significant bit. -/
def wordDigits (word : BitVec 32) (offset width : Nat) : List Digit :=
  (List.range width).map fun i => if word.getMsbD (offset + i) then .one else .zero

/-- The vector holds the bits of a word from an offset on. -/
structure IsSlice (word : BitVec 32) (offset width : Nat) (b : Bits) : Prop where
  wellFormed : b.WellFormed
  concrete : b.isConcrete
  digits : b.digits = wordDigits word offset width

variable {word word' : BitVec 32} {offset offset' width width' : Nat}

@[simp] theorem length_wordDigits : (wordDigits word offset width).length = width := by
  simp [wordDigits]

theorem wordDigits_eq_iff :
    wordDigits word offset width = wordDigits word' offset width ↔
      ∀ i < width, word.getMsbD (offset + i) = word'.getMsbD (offset + i) := by
  have hdigit : ∀ p q : Bool,
      (if p then Digit.one else Digit.zero) = (if q then Digit.one else Digit.zero) ↔ p = q := by
    decide
  simp only [wordDigits, List.map_inj_left, List.mem_range, hdigit]

theorem IsSlice.width_eq {b : Bits} (h : IsSlice word offset width b) : b.width = width := by
  rw [← Bits.length_digits, h.digits, length_wordDigits]

theorem isSlice_of_getLsbD {b : Bits} (hb : b.WellFormed) (hconcrete : b.isConcrete)
    (hwidth : b.width = width)
    (hbits : ∀ i < width, b.value.getLsbD (width - 1 - i) = word.getMsbD (offset + i)) :
    IsSlice word offset width b := by
  refine ⟨hb, hconcrete, List.ext_getElem (by simp [hwidth]) fun i hi _ => ?_⟩
  rw [Bits.length_digits, hwidth] at hi
  have hdontCare : b.dontCare = 0 := by simpa [Bits.isConcrete] using hconcrete
  rw [Bits.digits_getElem, hwidth, Bits.digitAt, hbits i hi]
  simp [hdontCare, wordDigits]

theorem getLsbD_fieldBits (hend : offset + width ≤ wordBits) (i : Nat) :
    (fieldBits word offset width).value.getLsbD i =
      (decide (i < width) && word.getMsbD (offset + (width - 1 - i))) := by
  unfold wordBits at hend
  have hwidth : width ≤ Bits.maxWidth := by unfold Bits.maxWidth; omega
  rw [fieldBits, BitVec.getLsbD_and, Bits.getLsbD_lowMask hwidth, BitVec.getLsbD_ushiftRight,
    Bool.and_comm]
  by_cases hi : i < width
  · have hlt : offset + (width - 1 - i) < 32 := by omega
    rw [BitVec.getMsbD_eq_getLsbD, wordBits,
      show 32 - 1 - (offset + (width - 1 - i)) = 32 - offset - width + i by omega]
    simp [hlt]
  · simp [hi]

theorem isSlice_fieldBits (word : BitVec 32) (hend : offset + width ≤ wordBits) :
    IsSlice word offset width (fieldBits word offset width) := by
  have hwidth : width ≤ Bits.maxWidth := Nat.le_trans (Nat.le_add_left _ _) hend
  have hvalue : (fieldBits word offset width).value.toNat < 1 <<< width := by
    refine Bits.toNat_lt_of_getLsbD fun i hi => ?_
    rw [getLsbD_fieldBits hend]
    simp [Nat.not_lt.mpr hi]
  have hdontCare : (fieldBits word offset width).dontCare.toNat < 1 <<< width :=
    Bits.toNat_lt_of_getLsbD fun _ _ => BitVec.getLsbD_zero
  refine isSlice_of_getLsbD ⟨hwidth, hvalue, hdontCare, BitVec.and_zero⟩ rfl rfl ?_
  intro i hi
  rw [getLsbD_fieldBits hend, show width - 1 - (width - 1 - i) = i by omega]
  simp [show width - 1 - i < width by omega]

/-- Two cuts are the same vector exactly where the digits are the same. -/
theorem fieldBits_eq_iff (hend : offset + width ≤ wordBits) (hend' : offset' + width' ≤ wordBits) :
    fieldBits word offset width = fieldBits word' offset' width' ↔
      wordDigits word offset width = wordDigits word' offset' width' := by
  have hslice := isSlice_fieldBits word hend
  have hslice' := isSlice_fieldBits word' hend'
  constructor
  · intro h
    rw [← hslice.digits, ← hslice'.digits, h]
  · intro h
    refine Bits.eq_of_digits_eq hslice.wellFormed hslice'.wellFormed ?_
    rw [hslice.digits, hslice'.digits, h]

end Template

end ArmPseudocode

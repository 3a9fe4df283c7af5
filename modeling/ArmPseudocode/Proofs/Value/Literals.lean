import ArmPseudocode.Proofs.Value.Digits
import ArmPseudocode.Proofs.Value.Operations

/-!
# Vectors written and read

A text writes a vector by its characters `0`, `1` and `x`; the others are passed over. Up to the
greatest width every sequence of them is the digits of one vector. So a vector is read back from its
own text, and two vectors are the same if their texts are.
-/

namespace ArmPseudocode

namespace Digit

variable {d : Digit} {c : Char}

theorem ofChar?_toChar (d : Digit) : ofChar? d.toChar = some d := by
  cases d <;> rfl

theorem toChar_of_ofChar? (h : ofChar? c = some d) : d.toChar = c := by
  unfold ofChar? at h
  cases d <;> grind [toChar]

/-- A character that writes a digit. -/
def isDigitChar (c : Char) : Bool :=
  c = '0' || c = '1' || c = 'x'

theorem isSome_ofChar? (c : Char) : (ofChar? c).isSome = isDigitChar c := by
  unfold ofChar? isDigitChar
  by_cases hzero : c = '0' <;> by_cases hone : c = '1' <;> by_cases hany : c = 'x' <;>
    simp [hzero, hone, hany]

/-- The characters that write the digits of a text are all that it is read by. -/
theorem map_toChar_filterMap (s : List Char) :
    (s.filterMap ofChar?).map toChar = s.filter isDigitChar := by
  induction s with
  | nil => rfl
  | cons c s ih =>
      cases hc : ofChar? c with
      | none =>
          have hother : isDigitChar c = false := by rw [← isSome_ofChar?, hc, Option.isSome_none]
          rw [List.filterMap_cons_none hc, List.filter_cons_of_neg (by simp [hother]), ih]
      | some d =>
          have hdigit : isDigitChar c = true := by rw [← isSome_ofChar?, hc, Option.isSome_some]
          rw [List.filterMap_cons_some hc, List.map_cons, ih, toChar_of_ofChar? hc,
            List.filter_cons_of_pos hdigit]

theorem filterMap_map_toChar (ds : List Digit) : (ds.map toChar).filterMap ofChar? = ds := by
  simp only [List.filterMap_map, Function.comp_def, ofChar?_toChar, List.filterMap_some]

theorem length_filterMap_ofChar? (s : List Char) :
    (s.filterMap ofChar?).length = (s.filter isDigitChar).length := by
  rw [← map_toChar_filterMap, List.length_map]

end Digit

namespace Bits

open Digit (ofChar? toChar isDigitChar)

variable {a b : Bits} {s : List Char}

theorem ofText_filter (s : List Char) : ofText (s.filter isDigitChar) = ofText s := by
  rw [ofText, ← Digit.map_toChar_filterMap, Digit.filterMap_map_toChar, ofText]

theorem exists_ofText (h : (s.filter isDigitChar).length ≤ maxWidth) :
    ∃ b, ofText s = .ok b ∧ b.WellFormed ∧ b.width = (s.filter isDigitChar).length ∧
      b.text = String.ofList ('\'' :: s.filter isDigitChar ++ ['\'']) := by
  rw [← Digit.length_filterMap_ofChar?] at h ⊢
  obtain ⟨b, hread, hb, hdigits⟩ := digits_ofDigits h
  refine ⟨b, hread, hb, ?_, ?_⟩
  · rw [← length_digits, hdigits]
  · rw [text, hdigits, Digit.map_toChar_filterMap]

/-- More digits than fit are refused at the first that does not. -/
theorem ofText_of_lt (h : maxWidth < (s.filter isDigitChar).length) :
    ofText s = .error (.outOfRange (maxWidth + 1)) := by
  rw [← Digit.length_filterMap_ofChar?] at h
  exact if_pos h

/-- What is read is the vector of the digits, all of which fit. -/
theorem of_ofText (h : ofText s = .ok b) :
    (s.filter isDigitChar).length ≤ maxWidth ∧ b.WellFormed ∧
      b.width = (s.filter isDigitChar).length ∧
      b.text = String.ofList ('\'' :: s.filter isDigitChar ++ ['\'']) := by
  rcases Nat.lt_or_ge maxWidth (s.filter isDigitChar).length with hlong | hshort
  · rw [ofText_of_lt hlong] at h
    cases h
  · obtain ⟨b', hread, hb'⟩ := exists_ofText hshort
    rw [hread] at h
    cases h
    exact ⟨hshort, hb'⟩

theorem ofText_digits (hb : b.WellFormed) : ofText (b.digits.map toChar) = .ok b := by
  have hlength : b.digits.length ≤ maxWidth := by
    rw [length_digits]
    exact hb.width_le
  obtain ⟨b', hread, hb', hdigits⟩ := digits_ofDigits hlength
  rw [ofText, Digit.filterMap_map_toChar, hread, eq_of_digits_eq hb' hb hdigits]

/-- The quotes around the digits are passed over. -/
theorem ofText_text (hb : b.WellFormed) : ofText b.text.toList = .ok b := by
  have hquote : ofChar? '\'' = none := by decide
  have hquotes : b.text.toList.filterMap ofChar? = (b.digits.map toChar).filterMap ofChar? := by
    rw [text, String.toList_ofList, List.cons_append, List.filterMap_cons_none hquote,
      List.filterMap_append, List.filterMap_cons_none hquote]
    exact List.append_nil _
  rw [ofText, hquotes, ← ofText, ofText_digits hb]

theorem text_inj (ha : a.WellFormed) (hb : b.WellFormed) : a.text = b.text ↔ a = b := by
  constructor
  · intro h
    have hread := ofText_text ha
    rw [h, ofText_text hb] at hread
    cases hread
    rfl
  · intro h
    rw [h]

end Bits

end ArmPseudocode

import ArmPseudocode.Text.Blank
import Mathlib.Data.List.DropRight

/-!
# Trimming

A trimmed text stays as it is when it is trimmed again, and so does a text that begins and ends with
trimmed ones.
-/

namespace ArmPseudocode.Text

variable {s a b : List Char}

theorem trim_eq_rdropWhile (s : List Char) :
    trim s = (s.dropWhile isBlank).rdropWhile isBlank := rfl

theorem trim_infix (s : List Char) : trim s <:+: s :=
  (List.rdropWhile_prefix _ _).isInfix.trans (List.dropWhile_suffix _).isInfix

theorem trim_eq_self_iff : trim s = s ↔ s.dropWhile isBlank = s ∧ s.rdropWhile isBlank = s := by
  constructor
  · intro h
    have hfront : s.dropWhile isBlank = s := by
      refine (List.dropWhile_suffix _).eq_of_length_le ?_
      calc s.length = (trim s).length := by rw [h]
        _ ≤ (s.dropWhile isBlank).length := (List.rdropWhile_prefix _ _).length_le
    refine ⟨hfront, ?_⟩
    rwa [trim_eq_rdropWhile, hfront] at h
  · rintro ⟨hfront, hback⟩
    rw [trim_eq_rdropWhile, hfront, hback]

theorem trim_trim (s : List Char) : trim (trim s) = trim s := by
  refine trim_eq_self_iff.mpr ⟨?_, List.rdropWhile_idempotent _ _⟩
  rw [List.dropWhile_eq_self_iff]
  intro hpos
  have hfront := List.dropWhile_idempotent isBlank s
  have hinitial : trim s <+: s.dropWhile isBlank := List.rdropWhile_prefix _ _
  rw [List.dropWhile_eq_self_iff] at hfront
  rw [hinitial.getElem hpos]
  exact hfront (hpos.trans_le hinitial.length_le)

theorem trim_eq_self (h : ∀ c ∈ s, isBlank c = false) : trim s = s := by
  rw [trim_eq_self_iff, List.dropWhile_eq_self_iff, List.rdropWhile_eq_self_iff]
  exact ⟨fun _ => by simp [h _ (List.getElem_mem _)], fun _ => by simp [h _ (List.getLast_mem _)]⟩

theorem trim_append (ha : a ≠ []) (hb : b ≠ []) (hfront : trim a = a) (hback : trim b = b) :
    trim (a ++ b) = a ++ b := by
  replace hfront := (trim_eq_self_iff.mp hfront).1
  replace hback := (trim_eq_self_iff.mp hback).2
  rw [trim_eq_self_iff]
  constructor
  · rw [List.dropWhile_append, hfront, List.isEmpty_eq_false_iff.mpr ha, if_neg Bool.false_ne_true]
  · rw [List.rdropWhile_eq_self_iff] at hback ⊢
    intro hne
    rw [List.getLast_append_of_ne_nil hne hb]
    exact hback hb

end ArmPseudocode.Text

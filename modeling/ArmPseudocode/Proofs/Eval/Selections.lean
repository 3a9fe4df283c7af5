import ArmPseudocode.Eval.Expr
import ArmPseudocode.Proofs.Value.Operations
import Mathlib.Data.List.Induction

/-!
# Selections of bits

A slice lists selections of a vector, each a single position or a range from its high end. Once the
indexes are known, the digits it selects are those of the selections one behind the other. It has no
result if a range does not go down, if an index is not a position of the vector, or if there are
more than 32 digits in the end; then the first selection at which this shows gives the defect.
Selections that lie one below the other and leave nothing out put the vector together again.
-/

namespace ArmPseudocode

namespace SliceTerm

variable {α : Type} {env : Environment}

/-- The indexes of a term have these values. -/
inductive Gives (env : Environment) : SliceTerm (Expr α) → SliceTerm Int64 → Prop
  | single {e : Expr α} {i : Int64} (hi : e.eval env = .ok (.int i)) :
      Gives env (.single e) (.single i)
  | range {e e' : Expr α} {high low : Int64} (hhigh : e.eval env = .ok (.int high))
      (hlow : e'.eval env = .ok (.int low)) : Gives env (.range e e') (.range high low)

/-- An integer is a position of a vector of a width. -/
def IsPosition (width : Nat) (i : Int64) : Prop :=
  0 ≤ i.toInt ∧ i.toInt < width

/-- The selection lies in a vector of a width, and if it is a range it goes down. -/
inductive Within (width : Nat) : SliceTerm Int64 → Prop
  | single {i : Int64} (hi : IsPosition width i) : Within width (.single i)
  | range {high low : Int64} (horder : low.toInt < high.toInt) (hhigh : IsPosition width high)
      (hlow : IsPosition width low) : Within width (.range high low)

def size : SliceTerm Int64 → Nat
  | single _ => 1
  | range high low => high.toInt.toNat - low.toInt.toNat + 1

def totalSize : List (SliceTerm Int64) → Nat
  | [] => 0
  | pick :: picks => pick.size + totalSize picks

def digits (b : Bits) : SliceTerm Int64 → List Digit
  | single i => [b.digitAt i.toInt.toNat]
  | range high low => b.digitsDownTo high.toInt.toNat low.toInt.toNat

/-- What is wrong with a selection, if so many positions are selected already. Its order is looked
at first, then its high end, its low end, and the width of what is selected in the end. -/
inductive Faulty (width selected : Nat) : SliceTerm Int64 → EvalError → Prop
  | singleOut {i : Int64} (hi : ¬IsPosition width i) :
      Faulty width selected (.single i) (.indexOutOfRange i width)
  | inverted {high low : Int64} (horder : high.toInt ≤ low.toInt) :
      Faulty width selected (.range high low) (.invertedRange high low)
  | highOut {high low : Int64} (horder : low.toInt < high.toInt) (hhigh : ¬IsPosition width high) :
      Faulty width selected (.range high low) (.indexOutOfRange high width)
  | lowOut {high low : Int64} (horder : low.toInt < high.toInt) (hhigh : IsPosition width high)
      (hlow : ¬IsPosition width low) :
      Faulty width selected (.range high low) (.indexOutOfRange low width)
  | tooWide {pick : SliceTerm Int64} (hwithin : pick.Within width)
      (hwide : Bits.maxWidth < selected + pick.size) :
      Faulty width selected pick (.width (.outOfRange ↑(selected + pick.size)))

/-- All selections lie in a vector of a width, and a vector can hold what they select. -/
structure Fit (width : Nat) (picks : List (SliceTerm Int64)) : Prop where
  within : ∀ pick ∈ picks, pick.Within width
  narrow : totalSize picks ≤ Bits.maxWidth

/-- The selections are one below the other, from the position under the given one down to zero. -/
inductive Tiles : Nat → List (SliceTerm Int64) → Prop
  | none : Tiles 0 []
  | single {i : Int64} {picks : List (SliceTerm Int64)} (hi : 0 ≤ i.toInt)
      (hrest : Tiles i.toInt.toNat picks) : Tiles (i.toInt.toNat + 1) (.single i :: picks)
  | range {high low : Int64} {picks : List (SliceTerm Int64)} (hlow : 0 ≤ low.toInt)
      (horder : low.toInt < high.toInt) (hrest : Tiles low.toInt.toNat picks) :
      Tiles (high.toInt.toNat + 1) (.range high low :: picks)

end SliceTerm

namespace Bits

variable {b selected c : Bits}

def selectTerm (b selected : Bits) : SliceTerm Int64 → Except EvalError Bits
  | .single i => b.select selected i i
  | .range high low => b.selectRange selected high low

theorem position_of_isPosition {i : Int64} (hi : SliceTerm.IsPosition b.width i) :
    b.position i = .ok i.toInt.toNat :=
  if_pos hi

theorem position_of_not_isPosition {i : Int64} (hi : ¬SliceTerm.IsPosition b.width i) :
    b.position i = .error (.indexOutOfRange i b.width) :=
  if_neg hi

theorem select_of_isPosition (selected : Bits) {high low : Int64}
    (hhigh : SliceTerm.IsPosition b.width high) (hlow : SliceTerm.IsPosition b.width low) :
    b.select selected high low =
      EvalError.ofWidth (selected.concat (b.slice high.toInt.toNat low.toInt.toNat)) := by
  rw [select, position_of_isPosition hhigh, position_of_isPosition hlow]
  rfl

theorem selectRange_of_lt (selected : Bits) {high low : Int64} (horder : low.toInt < high.toInt) :
    b.selectRange selected high low = b.select selected high low :=
  if_neg (Int.not_le.mpr horder)

end Bits

namespace SliceTerm

variable {width : Nat} {b selected c : Bits} {pick : SliceTerm Int64}
  {picks : List (SliceTerm Int64)} {e : EvalError}

/-! ### One selection -/

theorem within_or_faulty (width taken : Nat) (pick : SliceTerm Int64) :
    (pick.Within width ∧ taken + pick.size ≤ Bits.maxWidth) ∨
      ∃ e, pick.Faulty width taken e := by
  have hdone : pick.Within width → (pick.Within width ∧ taken + pick.size ≤ Bits.maxWidth) ∨
      ∃ e, pick.Faulty width taken e := by
    intro hwithin
    rcases Nat.lt_or_ge Bits.maxWidth (taken + pick.size) with hwide | hle
    · exact .inr ⟨_, .tooWide hwithin hwide⟩
    · exact .inl ⟨hwithin, hle⟩
  cases pick with
  | single i =>
      by_cases hi : IsPosition width i
      · exact hdone (.single hi)
      · exact .inr ⟨_, .singleOut hi⟩
  | range high low =>
      by_cases horder : low.toInt < high.toInt
      · by_cases hhigh : IsPosition width high
        · by_cases hlow : IsPosition width low
          · exact hdone (.range horder hhigh hlow)
          · exact .inr ⟨_, .lowOut horder hhigh hlow⟩
        · exact .inr ⟨_, .highOut horder hhigh⟩
      · exact .inr ⟨_, .inverted (Int.not_lt.mp horder)⟩

theorem Within.exists_slice (h : pick.Within b.width) (hb : b.WellFormed) :
    ∃ part : Bits, part.WellFormed ∧ part.width = pick.size ∧ part.digits = pick.digits b ∧
      ∀ selected : Bits, b.selectTerm selected pick =
        EvalError.ofWidth (selected.concat part) := by
  have hmax := hb.width_le
  cases h with
  | @single i hi =>
      obtain ⟨hlow, hhigh⟩ := hi
      refine ⟨b.slice i.toInt.toNat i.toInt.toNat,
        Bits.wellFormed_slice hb (Nat.le_refl _) (by omega), ?_, ?_,
        fun selected => Bits.select_of_isPosition selected ⟨hlow, hhigh⟩ ⟨hlow, hhigh⟩⟩
      · show i.toInt.toNat - i.toInt.toNat + 1 = 1
        omega
      · rw [Bits.digits_slice b (by omega), Bits.digitsDownTo, Nat.sub_self]
        rfl
  | @range high low horder hhigh hlow =>
      obtain ⟨hlow0, hlow⟩ := hlow
      obtain ⟨hhigh0, hhigh⟩ := hhigh
      refine ⟨b.slice high.toInt.toNat low.toInt.toNat,
        Bits.wellFormed_slice hb (by omega) (by omega), rfl,
        Bits.digits_slice b (by omega), fun selected => ?_⟩
      exact (Bits.selectRange_of_lt selected horder).trans
        (Bits.select_of_isPosition selected ⟨hhigh0, hhigh⟩ ⟨hlow0, hlow⟩)

theorem Within.exists_selectTerm (h : pick.Within b.width) (hb : b.WellFormed)
    (hselected : selected.WellFormed) (hle : selected.width + pick.size ≤ Bits.maxWidth) :
    ∃ c, b.selectTerm selected pick = .ok c ∧ c.WellFormed ∧
      c.width = selected.width + pick.size ∧ c.digits = selected.digits ++ pick.digits b := by
  obtain ⟨part, hpart, hwidth, hdigits, hselect⟩ := h.exists_slice hb
  obtain ⟨c, hconcat, hc, hjoined⟩ := Bits.exists_concat hselected hpart (hwidth ▸ hle)
  refine ⟨c, ?_, hc, ?_, ?_⟩
  · rw [hselect, hconcat]
    rfl
  · rw [(Bits.width_of_concat hconcat).2, hwidth]
  · rw [hjoined, hdigits]

theorem Faulty.selectTerm (h : pick.Faulty b.width selected.width e) (hb : b.WellFormed) :
    b.selectTerm selected pick = .error e := by
  cases h with
  | singleOut hi =>
      rw [Bits.selectTerm, Bits.select, Bits.position_of_not_isPosition hi]
      rfl
  | inverted horder => exact if_pos horder
  | highOut horder hhigh =>
      rw [Bits.selectTerm, Bits.selectRange_of_lt selected horder, Bits.select,
        Bits.position_of_not_isPosition hhigh]
      rfl
  | lowOut horder hhigh hlow =>
      rw [Bits.selectTerm, Bits.selectRange_of_lt selected horder, Bits.select,
        Bits.position_of_isPosition hhigh, Bits.position_of_not_isPosition hlow]
      rfl
  | tooWide hwithin hwide =>
      obtain ⟨part, -, hwidth, -, hselect⟩ := hwithin.exists_slice hb
      rw [hselect, Bits.concat_of_lt (hwidth ▸ hwide), hwidth]
      rfl

/-! ### One selection behind the other -/

theorem totalSize_append (front back : List (SliceTerm Int64)) :
    totalSize (front ++ back) = totalSize front + totalSize back := by
  induction front with
  | nil => simp [totalSize]
  | cons pick front ih =>
      rw [List.cons_append, totalSize, totalSize, ih]
      omega

theorem fit_append_singleton_iff :
    Fit width (picks ++ [pick]) ↔ Fit width picks ∧ pick.Within width ∧
      totalSize picks + pick.size ≤ Bits.maxWidth := by
  have htotal : totalSize (picks ++ [pick]) = totalSize picks + pick.size := by
    rw [totalSize_append]
    rfl
  constructor
  · rintro ⟨hwithin, hnarrow⟩
    rw [htotal] at hnarrow
    rw [List.forall_mem_append, List.forall_mem_singleton] at hwithin
    exact ⟨⟨hwithin.1, by omega⟩, hwithin.2, hnarrow⟩
  · rintro ⟨⟨hwithin, -⟩, hpick, hnarrow⟩
    refine ⟨?_, htotal ▸ hnarrow⟩
    rw [List.forall_mem_append, List.forall_mem_singleton]
    exact ⟨hwithin, hpick⟩

theorem foldlM_append_of_ok (h : picks.foldlM b.selectTerm selected = .ok c)
    (pick : SliceTerm Int64) (back : List (SliceTerm Int64)) :
    (picks ++ pick :: back).foldlM b.selectTerm selected =
      b.selectTerm c pick >>= fun c => back.foldlM b.selectTerm c := by
  rw [List.foldlM_append, h]
  rfl

/-- Selections that fit are all made. The induction is on the list from its end, as what is selected
grows at its low end. -/
theorem Fit.exists_foldlM (h : Fit b.width picks) (hb : b.WellFormed) :
    ∃ c, picks.foldlM b.selectTerm .nil = .ok c ∧ c.WellFormed ∧ c.width = totalSize picks ∧
      c.digits = picks.flatMap (digits b) := by
  induction picks using List.reverseRecOn with
  | nil => exact ⟨.nil, rfl, Bits.wellFormed_nil, rfl, rfl⟩
  | append_singleton picks pick ih =>
      obtain ⟨hfit, hwithin, hnarrow⟩ := fit_append_singleton_iff.mp h
      obtain ⟨c, hrun, hc, hwidth, hdigits⟩ := ih hfit
      rw [← hwidth] at hnarrow
      obtain ⟨c', hselect, hc', hwidth', hdigits'⟩ := hwithin.exists_selectTerm hb hc hnarrow
      refine ⟨c', ?_, hc', ?_, ?_⟩
      · rw [foldlM_append_of_ok hrun, hselect]
        rfl
      · rw [hwidth', hwidth, totalSize_append]
        rfl
      · rw [hdigits', hdigits, List.flatMap_append, List.flatMap_singleton]

/-- A selection that is faulty behind selections that fit ends the slice. -/
theorem Fit.foldlM_of_faulty (h : Fit b.width picks) (hb : b.WellFormed)
    (hfaulty : pick.Faulty b.width (totalSize picks) e) (back : List (SliceTerm Int64)) :
    (picks ++ pick :: back).foldlM b.selectTerm .nil = .error e := by
  obtain ⟨c, hrun, -, hwidth, -⟩ := h.exists_foldlM hb
  rw [← hwidth] at hfaulty
  rw [foldlM_append_of_ok hrun, hfaulty.selectTerm hb]
  rfl

/-- If some selections do not fit, there is a first that is faulty. -/
theorem fit_or_faulty (width : Nat) (picks : List (SliceTerm Int64)) :
    Fit width picks ∨
      ∃ front pick back e, picks = front ++ pick :: back ∧ Fit width front ∧
        pick.Faulty width (totalSize front) e := by
  induction picks using List.reverseRecOn with
  | nil => exact .inl ⟨by simp, Nat.zero_le _⟩
  | append_singleton picks pick ih =>
      rcases ih with hfit | ⟨front, first, back, e, rfl, hfront, hfaulty⟩
      · rcases within_or_faulty width (totalSize picks) pick with hpick | ⟨e, hfaulty⟩
        · exact .inl (fit_append_singleton_iff.mpr ⟨hfit, hpick⟩)
        · exact .inr ⟨picks, pick, [], e, rfl, hfit, hfaulty⟩
      · refine .inr ⟨front, first, back ++ [pick], e, ?_, hfront, hfaulty⟩
        rw [List.append_assoc, List.cons_append]

theorem exists_foldlM_iff (hb : b.WellFormed) :
    (∃ c, picks.foldlM b.selectTerm .nil = .ok c) ↔ Fit b.width picks := by
  constructor
  · rintro ⟨c, hrun⟩
    rcases fit_or_faulty b.width picks with hfit | ⟨front, pick, back, e, rfl, hfront, hfaulty⟩
    · exact hfit
    · rw [hfront.foldlM_of_faulty hb hfaulty back] at hrun
      cases hrun
  · intro hfit
    obtain ⟨c, hrun, -⟩ := hfit.exists_foldlM hb
    exact ⟨c, hrun⟩

theorem digits_of_foldlM (hb : b.WellFormed) (h : picks.foldlM b.selectTerm .nil = .ok c) :
    c.WellFormed ∧ c.digits = picks.flatMap (digits b) := by
  obtain ⟨c', hrun, hc, -, hdigits⟩ := ((exists_foldlM_iff hb).mp ⟨c, h⟩).exists_foldlM hb
  rw [hrun] at h
  cases h
  exact ⟨hc, hdigits⟩

theorem foldlM_eq_error_iff (hb : b.WellFormed) :
    picks.foldlM b.selectTerm .nil = .error e ↔
      ∃ front pick back, picks = front ++ pick :: back ∧ Fit b.width front ∧
        pick.Faulty b.width (totalSize front) e := by
  constructor
  · intro hrun
    rcases fit_or_faulty b.width picks with hfit | ⟨front, pick, back, e', rfl, hfront, hfaulty⟩
    · obtain ⟨c, hok, -⟩ := hfit.exists_foldlM hb
      rw [hok] at hrun
      cases hrun
    · rw [hfront.foldlM_of_faulty hb hfaulty back] at hrun
      cases hrun
      exact ⟨front, pick, back, rfl, hfront, hfaulty⟩
  · rintro ⟨front, pick, back, rfl, hfront, hfaulty⟩
    exact hfront.foldlM_of_faulty hb hfaulty back

/-! ### Selections that leave nothing out -/

/-- Selections from some position down are made of positions of the vector, and select the digits
from there on. -/
theorem Tiles.digits_eq {n : Nat} (h : Tiles n picks) (hn : n ≤ b.width) :
    (∀ pick ∈ picks, pick.Within b.width) ∧ totalSize picks = n ∧
      picks.flatMap (digits b) = (List.range n).reverse.map b.digitAt := by
  induction h with
  | none => exact ⟨by simp, rfl, rfl⟩
  | @single i picks hi hrest ih =>
      obtain ⟨hwithin, htotal, hdigits⟩ := ih (by omega)
      refine ⟨?_, ?_, ?_⟩
      · rw [List.forall_mem_cons]
        exact ⟨.single ⟨hi, by omega⟩, hwithin⟩
      · rw [totalSize, htotal, size, Nat.add_comm]
      · rw [Bits.map_reverse_range_add, List.flatMap_cons, hdigits]
        rfl
  | @range high low picks hlow horder hrest ih =>
      obtain ⟨hwithin, htotal, hdigits⟩ := ih (by omega)
      refine ⟨?_, ?_, ?_⟩
      · rw [List.forall_mem_cons]
        exact ⟨.range horder ⟨by omega, by omega⟩ ⟨hlow, by omega⟩, hwithin⟩
      · rw [totalSize, htotal, size]
        omega
      · have hcut : high.toInt.toNat + 1 =
            low.toInt.toNat + (high.toInt.toNat - low.toInt.toNat + 1) := by omega
        rw [hcut, Bits.map_reverse_range_add, List.flatMap_cons, hdigits]
        rfl

theorem Tiles.foldlM_eq (h : Tiles b.width picks) (hb : b.WellFormed) :
    picks.foldlM b.selectTerm .nil = .ok b := by
  obtain ⟨hwithin, htotal, hselected⟩ := h.digits_eq (Nat.le_refl _)
  have hfit : Fit b.width picks := ⟨hwithin, htotal ▸ hb.width_le⟩
  obtain ⟨c, hrun, hc, -, hdigits⟩ := hfit.exists_foldlM hb
  rw [hrun, Bits.eq_of_digits_eq hc hb (hdigits.trans hselected)]

end SliceTerm

namespace Expr

variable {α : Type} {env : Environment} {b selected : Bits} {terms : List (SliceTerm (Expr α))}
  {picks : List (SliceTerm Int64)}

theorem evalTerms_eq_foldlM (hterms : List.Forall₂ (SliceTerm.Gives env) terms picks) :
    evalTerms env b selected terms = picks.foldlM b.selectTerm selected := by
  induction hterms generalizing selected with
  | nil => rfl
  | cons hterm _ ih =>
      rw [List.foldlM_cons]
      cases hterm with
      | single hi =>
          simp only [evalTerms, ih]
          rw [hi]
          rfl
      | range hhigh hlow =>
          simp only [evalTerms, ih]
          rw [hhigh, hlow]
          rfl

/-- **What a slice selects.** With all indexes known, a slice has a result exactly if every range
goes down, every index is a position of the vector and no more than 32 positions are selected. The
digits of the result are those of the selections, in the order of the terms. Otherwise the slice
ends in the defect of the first term at which this does not hold, where the width reported is that
of what is selected up to this term. Adjacent selections that leave nothing out give the vector
again. -/
theorem evalTerms_selects (hb : b.WellFormed)
    (hterms : List.Forall₂ (SliceTerm.Gives env) terms picks) :
    ((∃ c, evalTerms env b .nil terms = .ok c) ↔ SliceTerm.Fit b.width picks) ∧
    (∀ c, evalTerms env b .nil terms = .ok c →
      c.WellFormed ∧ c.digits = picks.flatMap (SliceTerm.digits b)) ∧
    (∀ e, evalTerms env b .nil terms = .error e ↔
      ∃ front pick back, picks = front ++ pick :: back ∧ SliceTerm.Fit b.width front ∧
        pick.Faulty b.width (SliceTerm.totalSize front) e) ∧
    (SliceTerm.Tiles b.width picks → evalTerms env b .nil terms = .ok b) := by
  rw [evalTerms_eq_foldlM hterms]
  exact ⟨SliceTerm.exists_foldlM_iff hb, fun c => SliceTerm.digits_of_foldlM hb,
    fun e => SliceTerm.foldlM_eq_error_iff hb, fun htiles => htiles.foldlM_eq hb⟩

/-- The vector `1x0x1` taken apart, with the position between two ranges on its own. -/
theorem splitPattern_selects :
    (⟨5, 0b10001, 0b01010⟩ : Bits).WellFormed ∧
    List.Forall₂ (SliceTerm.Gives (.empty .strict))
      [.range (int () 4) (int () 3), .single (int () 2), .range (int () 1) (int () 0)]
      [.range 4 3, .single 2, .range 1 0] ∧
    SliceTerm.Tiles 5 [.range 4 3, .single 2, .range 1 0] ∧
    evalTerms (.empty .strict) ⟨5, 0b10001, 0b01010⟩ .nil
      [.range (int () 4) (int () 3), .single (int () 2), .range (int () 1) (int () 0)] =
        .ok ⟨5, 0b10001, 0b01010⟩ := by
  have hb : (⟨5, 0b10001, 0b01010⟩ : Bits).WellFormed := by constructor <;> decide
  have hterms : List.Forall₂ (SliceTerm.Gives (.empty .strict))
      [.range (int () 4) (int () 3), .single (int () 2), .range (int () 1) (int () 0)]
      [.range 4 3, .single 2, .range 1 0] :=
    .cons (.range rfl rfl) (.cons (.single rfl) (.cons (.range rfl rfl) .nil))
  have hlowest : SliceTerm.Tiles 2 [.range 1 0] :=
    @SliceTerm.Tiles.range 1 0 [] (by decide) (by decide) .none
  have hlower : SliceTerm.Tiles 3 [.single 2, .range 1 0] :=
    @SliceTerm.Tiles.single 2 _ (by decide) hlowest
  have htiles : SliceTerm.Tiles 5 [.range 4 3, .single 2, .range 1 0] :=
    @SliceTerm.Tiles.range 4 3 _ (by decide) (by decide) hlower
  obtain ⟨-, -, -, hwhole⟩ := evalTerms_selects hb hterms
  exact ⟨hb, hterms, htiles, hwhole htiles⟩

/-- Each range is fine by itself, and the third is one too many. -/
example :
    evalTerms (.empty .strict) ⟨16, 0, 0⟩ .nil
      [.range (int () 15) (int () 0), .range (int () 15) (int () 1), .range (int () 3) (int () 2)] =
        .error (.width (.outOfRange 33)) :=
  rfl

end Expr

end ArmPseudocode

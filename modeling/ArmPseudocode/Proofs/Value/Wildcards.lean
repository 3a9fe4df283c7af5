import ArmPseudocode.Eval.Builtins
import ArmPseudocode.Proofs.Value.Operations

/-!
# Wildcards

A vector with `x` in it is a pattern for the concrete vectors it matches. An operation on patterns
keeps this: what it gives is a pattern for what it gives on concrete vectors. Position by position
each digit of the concrete vector is known, and is the one of the pattern unless that is `x`.
-/

namespace ArmPseudocode

namespace Digit

/-- A digit that is known, where a pattern has the same digit or an `x`. -/
def Refines (d pattern : Digit) : Prop :=
  d ≠ .any ∧ (pattern = .any ∨ pattern = d)

/-- A digit of a bitwise operation. It is `x` where either operand is. -/
def combine (g : Bool → Bool → Bool) (d e : Digit) : Digit :=
  if d = .any ∨ e = .any then .any else if g (d = .one) (e = .one) then .one else .zero

variable {d e p q : Digit}

theorem refines_zero : zero.Refines zero :=
  ⟨Digit.noConfusion, .inr rfl⟩

theorem refines_iff (hd : d ≠ .any) : d.Refines p ↔ (p ≠ .any → p = d.asBit) := by
  have hbit : d.asBit = d := by
    cases d with
    | any => exact absurd rfl hd
    | _ => rfl
  rw [Refines, and_iff_right hd, hbit]
  exact Decidable.or_iff_not_imp_left

theorem combine_eq_any_iff (g : Bool → Bool → Bool) :
    combine g d e = .any ↔ d = .any ∨ e = .any := by
  unfold combine
  by_cases hany : d = .any ∨ e = .any
  · simp [hany]
  · cases g (d = .one) (e = .one) <;> simp [hany]

theorem Refines.combine (g : Bool → Bool → Bool) (hd : d.Refines p) (he : e.Refines q) :
    (combine g d e).Refines (combine g p q) := by
  constructor
  · rw [ne_eq, combine_eq_any_iff]
    exact not_or.mpr ⟨hd.1, he.1⟩
  · rcases hd.2 with hp | rfl
    · left
      exact (combine_eq_any_iff g).mpr (.inl hp)
    · rcases he.2 with hq | rfl
      · left
        exact (combine_eq_any_iff g).mpr (.inr hq)
      · right
        rfl

end Digit

namespace Bits

variable {a b c a' b' p : Bits}

/-- A vector without `x` that the pattern matches. -/
structure Instantiates (b pattern : Bits) : Prop where
  concrete : b.isConcrete = true
  matched : b.equals pattern = .ok true

/-! ### Concrete vectors -/

theorem dontCare_eq_zero (hconcrete : b.isConcrete = true) : b.dontCare = 0 := by
  simpa [isConcrete] using hconcrete

theorem digitAt_ne_any (hconcrete : b.isConcrete = true) (i : Nat) : b.digitAt i ≠ .any := by
  have hdontCare := getLsbD_dontCare b i
  rw [dontCare_eq_zero hconcrete] at hdontCare
  simpa using hdontCare.symm

theorem isConcrete_of_digitAt (hb : b.WellFormed) (h : ∀ i < b.width, b.digitAt i ≠ .any) :
    b.isConcrete = true := by
  have hzero : b.dontCare = 0 := by
    apply BitVec.eq_of_getLsbD_eq
    intro i _
    rw [getLsbD_dontCare]
    rcases Nat.lt_or_ge i b.width with hlt | hge
    · simp [h i hlt]
    · simp [hb.digitAt_eq_zero hge]
  simp [isConcrete, hzero]

namespace Instantiates

theorem width_eq (h : b.Instantiates p) : b.width = p.width := by
  by_cases hwidth : b.width = p.width
  · exact hwidth
  · have hmatched := h.matched
    rw [equals_of_width_ne hwidth] at hmatched
    cases hmatched

theorem masked_eq (h : b.Instantiates p) : b.value &&& ~~~p.dontCare = p.value := by
  have hmatched := h.matched
  rw [equals_of_width_eq h.width_eq] at hmatched
  injection hmatched with hmatched
  exact of_decide_eq_true hmatched

/-- Only the `x` of the pattern is masked out, so that nothing above the width can be left. -/
theorem wellFormed (h : b.Instantiates p) (hp : p.WellFormed) : b.WellFormed := by
  have hdontCare := dontCare_eq_zero h.concrete
  apply WellFormed.of_getLsbD
  · rw [h.width_eq]
    exact hp.width_le
  · intro i hi
    rw [h.width_eq] at hi
    have hmasked := congrArg (fun payload : BitVec 32 => payload.getLsbD i) h.masked_eq
    rw [BitVec.getLsbD_and, BitVec.getLsbD_not, hp.getLsbD_dontCare_eq_false hi,
      hp.getLsbD_value_eq_false hi] at hmasked
    by_cases hmax : i < 32
    · simpa [hmax] using hmasked
    · exact BitVec.getLsbD_of_ge _ _ (Nat.le_of_not_lt hmax)
  · intro i _
    rw [hdontCare]
    exact BitVec.getLsbD_zero
  · intro i _
    rw [hdontCare]
    exact BitVec.getLsbD_zero

end Instantiates

/-- A pattern matches a concrete vector where each of its digits allows the vector's. -/
theorem instantiates_iff (hp : p.WellFormed) :
    b.Instantiates p ↔
      b.WellFormed ∧ b.width = p.width ∧ ∀ i < b.width, (b.digitAt i).Refines (p.digitAt i) := by
  constructor
  · intro h
    have hb := h.wellFormed hp
    refine ⟨hb, h.width_eq, fun i hi => ?_⟩
    rw [Digit.refines_iff (digitAt_ne_any h.concrete i)]
    exact (masked_eq_iff hb hp h.width_eq).mp h.masked_eq i hi
  · rintro ⟨hb, hwidth, hdigits⟩
    refine ⟨isConcrete_of_digitAt hb fun i hi => (hdigits i hi).1, ?_⟩
    rw [equals_of_width_eq hwidth, decide_eq_true]
    rw [masked_eq_iff hb hp hwidth]
    intro i hi
    exact (Digit.refines_iff (hdigits i hi).1).mp (hdigits i hi)

namespace Instantiates

theorem refines (h : b.Instantiates p) (hp : p.WellFormed) (i : Nat) :
    (b.digitAt i).Refines (p.digitAt i) := by
  obtain ⟨hb, hwidth, hdigits⟩ := (instantiates_iff hp).mp h
  rcases Nat.lt_or_ge i b.width with hlt | hge
  · exact hdigits i hlt
  · rw [hb.digitAt_eq_zero hge, hp.digitAt_eq_zero (hwidth ▸ hge)]
    exact Digit.refines_zero

/-! ### Operations -/

theorem concat (ha : a.WellFormed) (hb : b.WellFormed) (ha' : a'.Instantiates a)
    (hb' : b'.Instantiates b) (h : a.concat b = .ok c) :
    ∃ c', a'.concat b' = .ok c' ∧ c'.Instantiates c := by
  obtain ⟨hle, hwidth⟩ := width_of_concat h
  have hle' : a'.width + b'.width ≤ maxWidth := by
    rw [ha'.width_eq, hb'.width_eq]
    exact hle
  obtain ⟨c', hconcat, hc', -⟩ := exists_concat (ha'.wellFormed ha) (hb'.wellFormed hb) hle'
  have hwidth' : c'.width = c.width := by
    rw [(width_of_concat hconcat).2, ha'.width_eq, hb'.width_eq, hwidth]
  refine ⟨c', hconcat, (instantiates_iff (wellFormed_concat ha hb c h)).mpr ⟨hc', hwidth', ?_⟩⟩
  intro i hi
  rw [digitAt_concat (hb'.wellFormed hb) hconcat hi, digitAt_concat hb h (hwidth' ▸ hi),
    hb'.width_eq]
  split
  · exact hb'.refines hb i
  · exact ha'.refines ha _

theorem slice (ha : a.WellFormed) (ha' : a'.Instantiates a) {high low : Nat} (hle : low ≤ high)
    (hhigh : high < a.width) : (a'.slice high low).Instantiates (a.slice high low) := by
  have hmax := ha.width_le
  have hhigh' : high < a'.width := ha'.width_eq ▸ hhigh
  rw [instantiates_iff (wellFormed_slice ha hle hhigh)]
  refine ⟨wellFormed_slice (ha'.wellFormed ha) hle hhigh', rfl, fun i hi => ?_⟩
  rw [digitAt_slice a' (by omega) hi, digitAt_slice a (by omega) hi]
  exact ha'.refines ha _

theorem extend (ha : a.WellFormed) (ha' : a'.Instantiates a) {width : Nat} (hold : a.width ≤ width)
    (hnew : width ≤ maxWidth) : (a'.extend width).Instantiates (a.extend width) := by
  have hold' : a'.width ≤ width := ha'.width_eq ▸ hold
  rw [instantiates_iff (wellFormed_extend ha hold hnew)]
  exact ⟨wellFormed_extend (ha'.wellFormed ha) hold' hnew, rfl, fun i _ => ha'.refines ha i⟩

end Instantiates

/-! ### Bitwise operations -/

/-- An operation on payloads that works bit by bit. -/
def ActsOnBits (f : BitVec 32 → BitVec 32 → BitVec 32) (g : Bool → Bool → Bool) : Prop :=
  ∀ x y i, i < 32 → (f x y).getLsbD i = g (x.getLsbD i) (y.getLsbD i)

variable {op : BinaryOp} {f : BitVec 32 → BitVec 32 → BitVec 32} {g : Bool → Bool → Bool}

theorem width_of_combine (h : combine op f a b = .ok c) :
    a.width = b.width ∧ c.width = a.width := by
  unfold combine at h
  split at h
  · exact ⟨‹_›, (width_of_ofPayload h).2⟩
  · cases h

theorem exists_combine (op : BinaryOp) (f : BitVec 32 → BitVec 32 → BitVec 32)
    (ha : a.width ≤ maxWidth) (hwidth : a.width = b.width) : ∃ c, combine op f a b = .ok c := by
  rw [combine, if_pos hwidth]
  exact ⟨_, ofPayload_of_le _ _ ha⟩

theorem digitAt_combine (hfg : ActsOnBits f g) (ha : a.WellFormed) (hb : b.WellFormed)
    (h : combine op f a b = .ok c) {i : Nat} (hi : i < a.width) :
    c.digitAt i = Digit.combine g (a.digitAt i) (b.digitAt i) := by
  have hmax : i < 32 := Nat.lt_of_lt_of_le hi ha.width_le
  rw [combine, if_pos (width_of_combine h).1] at h
  rw [digitAt_ofPayload h hi, BitVec.getLsbD_or, getLsbD_dontCare, getLsbD_dontCare,
    hfg _ _ i hmax, ha.getLsbD_value, hb.getLsbD_value, Digit.combine]
  simp only [Bool.or_eq_true, decide_eq_true_eq]

theorem Instantiates.combine (hfg : ActsOnBits f g) (ha : a.WellFormed) (hb : b.WellFormed)
    (ha' : a'.Instantiates a) (hb' : b'.Instantiates b) (h : Bits.combine op f a b = .ok c) :
    ∃ c', Bits.combine op f a' b' = .ok c' ∧ c'.Instantiates c := by
  obtain ⟨hsame, hwidth⟩ := width_of_combine h
  have hwfa := ha'.wellFormed ha
  have hwfb := hb'.wellFormed hb
  have hsame' : a'.width = b'.width := by rw [ha'.width_eq, hb'.width_eq, hsame]
  obtain ⟨c', hc'⟩ := exists_combine op f hwfa.width_le hsame'
  have hwidth' : c'.width = a'.width := (width_of_combine hc').2
  refine ⟨c', hc', (instantiates_iff (wellFormed_combine op f a b c h)).mpr
    ⟨wellFormed_combine op f a' b' c' hc', ?_, fun i hi => ?_⟩⟩
  · rw [hwidth', ha'.width_eq, hwidth]
  · rw [hwidth'] at hi
    rw [digitAt_combine hfg hwfa hwfb hc' hi, digitAt_combine hfg ha hb h (ha'.width_eq ▸ hi)]
    exact (ha'.refines ha i).combine g (hb'.refines hb i)

end Bits

namespace Value

variable {a b a' b' : Bits}

/-- The three bitwise operators are the same operation on the digits with different tables. -/
theorem exists_bitwise {op : BinaryOp} (hop : op ∈ [BinaryOp.bitAnd, .bitOr, .bitEor]) :
    ∃ f g, Bits.ActsOnBits f g ∧ ∀ a b,
      binary op (.bits a) (.bits b) = bits <$> EvalError.ofWidth (Bits.combine op f a b) := by
  simp only [List.mem_cons, List.not_mem_nil, or_false] at hop
  rcases hop with rfl | rfl | rfl
  · exact ⟨(· &&& ·), (· && ·), fun _ _ _ _ => BitVec.getLsbD_and, fun _ _ => rfl⟩
  · exact ⟨(· ||| ·), (· || ·), fun _ _ _ _ => BitVec.getLsbD_or, fun _ _ => rfl⟩
  · exact ⟨(· ^^^ ·), (· ^^ ·), fun _ _ _ _ => BitVec.getLsbD_xor, fun _ _ => rfl⟩

theorem bits_ofWidth_eq_ok_iff {x : Except WidthError Bits} {v : Value} :
    bits <$> EvalError.ofWidth x = .ok v ↔ ∃ c, x = .ok c ∧ v = .bits c := by
  cases x with
  | error e => exact iff_of_false (by rintro ⟨⟩) (by rintro ⟨c, ⟨⟩, -⟩)
  | ok c =>
      constructor
      · rintro ⟨⟩
        exact ⟨c, rfl, rfl⟩
      · rintro ⟨_, ⟨⟩, rfl⟩
        rfl

theorem binary_on_instances {op : BinaryOp}
    (hop : op ∈ [BinaryOp.bitAnd, .bitOr, .bitEor, .concat]) (ha : a.WellFormed)
    (hb : b.WellFormed) (ha' : a'.Instantiates a) (hb' : b'.Instantiates b) {v : Value}
    (h : binary op (.bits a) (.bits b) = .ok v) :
    ∃ c c', v = .bits c ∧ binary op (.bits a') (.bits b') = .ok (.bits c') ∧
      c'.Instantiates c := by
  rcases List.mem_append.mp (show op ∈ [.bitAnd, .bitOr, .bitEor] ++ [.concat] from hop) with
    hbitwise | hconcat
  · obtain ⟨f, g, hfg, hbinary⟩ := exists_bitwise hbitwise
    rw [hbinary] at h ⊢
    obtain ⟨c, hc, rfl⟩ := bits_ofWidth_eq_ok_iff.mp h
    obtain ⟨c', hc', hinst⟩ := Bits.Instantiates.combine hfg ha hb ha' hb' hc
    exact ⟨c, c', rfl, bits_ofWidth_eq_ok_iff.mpr ⟨c', hc', rfl⟩, hinst⟩
  · obtain rfl := List.mem_singleton.mp hconcat
    obtain ⟨c, hc, rfl⟩ := bits_ofWidth_eq_ok_iff.mp h
    obtain ⟨c', hc', hinst⟩ := Bits.Instantiates.concat ha hb ha' hb' hc
    exact ⟨c, c', rfl, bits_ofWidth_eq_ok_iff.mpr ⟨c', hc', rfl⟩, hinst⟩

theorem zeroExtend_on_instances (ha : a.WellFormed) (ha' : a'.Instantiates a) {n : Int64}
    {v : Value} (h : Builtin.zeroExtend.apply [.bits a, .int n] = .ok v) :
    ∃ c c', v = .bits c ∧ Builtin.zeroExtend.apply [.bits a', .int n] = .ok (.bits c') ∧
      c'.Instantiates c := by
  show ∃ c c', _ ∧ Builtin.zeroExtended a' n = _ ∧ _
  replace h : Builtin.zeroExtended a n = .ok v := h
  unfold Builtin.zeroExtended at h ⊢
  rw [ha'.width_eq]
  split at h
  · rename_i hrange
    cases h
    rw [if_pos hrange]
    exact ⟨_, _, rfl, rfl, ha'.extend ha (by omega) (by omega)⟩
  · cases h

/-- Where the two vectors have one width, a bitwise operator has a result, which is `x` where one of
them is. -/
theorem bitwise_eq_any_iff {op : BinaryOp} (hop : op ∈ [BinaryOp.bitAnd, .bitOr, .bitEor])
    (ha : a.WellFormed) (hb : b.WellFormed) (hwidth : a.width = b.width) :
    ∃ c, binary op (.bits a) (.bits b) = .ok (.bits c) ∧ c.width = a.width ∧
      ∀ i < a.width, c.digitAt i = .any ↔ a.digitAt i = .any ∨ b.digitAt i = .any := by
  obtain ⟨f, g, hfg, hbinary⟩ := exists_bitwise hop
  obtain ⟨c, hc⟩ := Bits.exists_combine op f ha.width_le hwidth
  refine ⟨c, ?_, (Bits.width_of_combine hc).2, fun i hi => ?_⟩
  · rw [hbinary, hc]
    rfl
  · rw [Bits.digitAt_combine hfg ha hb hc hi]
    exact Digit.combine_eq_any_iff g

/-- **Wildcards are sound.** Let two patterns match two concrete vectors. If an operator that builds
vectors has a result on the patterns, it has one on the vectors, which is concrete, and the result
on the patterns matches it. So it is with a part that is cut out and with an extension by zeros. The
result of a bitwise operator is `x` at the positions where either operand is, and nowhere else. -/
theorem operators_on_wildcards (ha : a.WellFormed) (hb : b.WellFormed) (ha' : a'.Instantiates a)
    (hb' : b'.Instantiates b) :
    (∀ op ∈ [BinaryOp.bitAnd, .bitOr, .bitEor, .concat], ∀ v,
      binary op (.bits a) (.bits b) = .ok v → ∃ c c', v = .bits c ∧
        binary op (.bits a') (.bits b') = .ok (.bits c') ∧ c'.Instantiates c) ∧
    (∀ high low, low ≤ high → high < a.width →
      high < a'.width ∧ (a'.slice high low).Instantiates (a.slice high low)) ∧
    (∀ n v, Builtin.zeroExtend.apply [.bits a, .int n] = .ok v → ∃ c c', v = .bits c ∧
      Builtin.zeroExtend.apply [.bits a', .int n] = .ok (.bits c') ∧ c'.Instantiates c) ∧
    ∀ op ∈ [BinaryOp.bitAnd, .bitOr, .bitEor], a.width = b.width →
      ∃ c, binary op (.bits a) (.bits b) = .ok (.bits c) ∧ c.width = a.width ∧
        ∀ i < a.width, c.digitAt i = .any ↔ a.digitAt i = .any ∨ b.digitAt i = .any := by
  refine ⟨fun op hop v => binary_on_instances hop ha hb ha' hb', ?_,
    fun n v => zeroExtend_on_instances ha ha', fun op hop => bitwise_eq_any_iff hop ha hb⟩
  intro high low hle hhigh
  exact ⟨ha'.width_eq ▸ hhigh, ha'.slice ha hle hhigh⟩

/-- The patterns `1x0` and `x10`, and the vectors `110` and `010`. -/
theorem halfKnown_operators :
    (⟨3, 0b110, 0⟩ : Bits).Instantiates ⟨3, 0b100, 0b010⟩ ∧
    (⟨3, 0b010, 0⟩ : Bits).Instantiates ⟨3, 0b010, 0b100⟩ ∧
    ∃ c', binary .bitEor (.bits ⟨3, 0b110, 0⟩) (.bits ⟨3, 0b010, 0⟩) = .ok (.bits c') ∧
      c'.Instantiates ⟨3, 0, 0b110⟩ := by
  have ha : (⟨3, 0b100, 0b010⟩ : Bits).WellFormed := by constructor <;> decide
  have hb : (⟨3, 0b010, 0b100⟩ : Bits).WellFormed := by constructor <;> decide
  have ha' : (⟨3, 0b110, 0⟩ : Bits).Instantiates ⟨3, 0b100, 0b010⟩ := ⟨rfl, rfl⟩
  have hb' : (⟨3, 0b010, 0⟩ : Bits).Instantiates ⟨3, 0b010, 0b100⟩ := ⟨rfl, rfl⟩
  obtain ⟨hbinary, -, -, -⟩ := operators_on_wildcards ha hb ha' hb'
  obtain ⟨c, c', hc, hc', hinst⟩ :=
    hbinary .bitEor (by decide) (.bits ⟨3, 0, 0b110⟩) rfl
  cases hc
  exact ⟨ha', hb', c', hc', hinst⟩

end Value

end ArmPseudocode

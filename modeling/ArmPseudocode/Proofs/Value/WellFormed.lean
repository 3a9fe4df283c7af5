import ArmPseudocode.Eval.Operators
import ArmPseudocode.Proofs.Value.Digits

/-!
# Well-formed values

A value is well-formed if every vector in it is and no tuple in it has fewer than two components.
Joining, cutting out and extending put a vector together without masking its payloads; what they
give is well-formed because of where they are used. All other operations on vectors end in
`Bits.ofPayload`, which masks.
-/

namespace ArmPseudocode

variable {β γ ε : Type}

/-- Whatever a computation results in is good. -/
def Yields (good : β → Prop) (x : Except ε β) : Prop :=
  ∀ b, x = .ok b → good b

namespace Yields

variable {good : β → Prop} {better : γ → Prop} {x : Except ε β}

theorem ok {b : β} (hb : good b) : Yields good (.ok b : Except ε β) := by
  intro b' h
  cases h
  exact hb

theorem error (e : ε) : Yields good (.error e : Except ε β) := by
  intro b h
  nomatch h

theorem bind {f : β → Except ε γ} (hx : Yields good x) (hf : ∀ b, good b → Yields better (f b)) :
    Yields better (x >>= f) := by
  cases x with
  | ok b => exact hf b (hx b rfl)
  | error e => exact error e

theorem map {f : β → γ} (hx : Yields good x) (hf : ∀ b, good b → better (f b)) :
    Yields better (f <$> x) := by
  cases x with
  | ok b => exact ok (hf b (hx b rfl))
  | error e => exact error e

theorem ite {p : Prop} [Decidable p] {y : Except ε β} (hx : p → Yields good x)
    (hy : ¬p → Yields good y) : Yields good (if p then x else y) := by
  by_cases h : p
  · rw [if_pos h]
    exact hx h
  · rw [if_neg h]
    exact hy h

/-- Of some computations nothing has to be known. -/
theorem trivial (x : Except ε β) : Yields (fun _ => True) x :=
  fun _ _ => True.intro

theorem ofWidth {x : Except WidthError β} (hx : Yields good x) :
    Yields good (EvalError.ofWidth x) := by
  cases x with
  | ok b => exact ok (hx b rfl)
  | error e => exact error _

end Yields

/-! ### Vectors -/

namespace Bits

namespace WellFormed

variable {b : Bits}

theorem getLsbD_value_eq_false (hb : b.WellFormed) {i : Nat} (hi : b.width ≤ i) :
    b.value.getLsbD i = false :=
  getLsbD_eq_false_of_lt hb.value_lt hi

theorem getLsbD_dontCare_eq_false (hb : b.WellFormed) {i : Nat} (hi : b.width ≤ i) :
    b.dontCare.getLsbD i = false :=
  getLsbD_eq_false_of_lt hb.dontCare_lt hi

theorem of_getLsbD (hwidth : b.width ≤ maxWidth)
    (hvalue : ∀ i, b.width ≤ i → b.value.getLsbD i = false)
    (hdontCare : ∀ i, b.width ≤ i → b.dontCare.getLsbD i = false)
    (hdisjoint : ∀ i, b.value.getLsbD i = true → b.dontCare.getLsbD i = false) :
    b.WellFormed where
  width_le := hwidth
  value_lt := toNat_lt_of_getLsbD hvalue
  dontCare_lt := toNat_lt_of_getLsbD hdontCare
  disjoint := by
    apply BitVec.eq_of_getLsbD_eq
    intro i _
    rw [BitVec.getLsbD_and]
    cases hone : b.value.getLsbD i with
    | false => simp
    | true => simp [hdisjoint i hone]

end WellFormed

theorem wellFormed_nil : nil.WellFormed := by
  constructor <;> decide

theorem wellFormed_ofPayload (width : Nat) (value dontCare : BitVec 32) :
    Yields WellFormed (ofPayload width value dontCare) := by
  unfold ofPayload
  apply Yields.ite
  · intro _
    exact .error _
  · intro hwidth
    apply Yields.ok
    have hle : width ≤ maxWidth := Nat.le_of_not_lt hwidth
    apply WellFormed.of_getLsbD hle
    · intro i hi
      simp [getLsbD_lowMask hle, Nat.not_lt.mpr hi]
    · intro i hi
      simp [getLsbD_lowMask hle, Nat.not_lt.mpr hi]
    · intro i hone
      show (dontCare &&& lowMask width).getLsbD i = false
      rw [BitVec.getLsbD_and, BitVec.getLsbD_not] at hone
      simp only [Bool.and_eq_true, Bool.not_eq_true'] at hone
      exact hone.2.2

theorem wellFormed_ofDigits (digits : List Digit) : Yields WellFormed (ofDigits digits) :=
  .ite (fun _ => .error _) fun _ => wellFormed_ofPayload _ _ _

theorem wellFormed_combine (op : BinaryOp) (f : BitVec 32 → BitVec 32 → BitVec 32) (a b : Bits) :
    Yields WellFormed (combine op f a b) :=
  .ite (fun _ => wellFormed_ofPayload _ _ _) fun _ => .error _

variable {a b : Bits}

/-- Of two vectors that are joined, the payloads of the lower stay below those of the higher. -/
theorem wellFormed_concat (ha : a.WellFormed) (hb : b.WellFormed) :
    Yields WellFormed (a.concat b) := by
  unfold concat
  apply Yields.ite
  · intro _
    exact .error _
  · intro hwidth
    apply Yields.ok
    have hle : a.width + b.width ≤ maxWidth := Nat.le_of_not_lt hwidth
    apply WellFormed.of_getLsbD hle
    · intro i hi
      have hhigh := ha.getLsbD_value_eq_false (i := i - b.width) (by dsimp only at hi; omega)
      have hlow := hb.getLsbD_value_eq_false (i := i) (by dsimp only at hi; omega)
      simp [hhigh, hlow]
    · intro i hi
      have hhigh := ha.getLsbD_dontCare_eq_false (i := i - b.width) (by dsimp only at hi; omega)
      have hlow := hb.getLsbD_dontCare_eq_false (i := i) (by dsimp only at hi; omega)
      simp [hhigh, hlow]
    · intro i hone
      by_cases hi : i < b.width
      · have hlow : b.value.getLsbD i = true := by simpa [hi] using hone
        simp [hi, hb.dontCare_eq_false hlow]
      · have hge : b.width ≤ i := Nat.le_of_not_lt hi
        have hhigh : i < 32 ∧ a.value.getLsbD (i - b.width) = true := by
          simpa [hi, hb.getLsbD_value_eq_false hge] using hone
        simp [hi, hb.getLsbD_dontCare_eq_false hge, ha.dontCare_eq_false hhigh.2]

theorem wellFormed_slice (hb : b.WellFormed) {high low : Nat} (hle : low ≤ high)
    (hhigh : high < b.width) : (b.slice high low).WellFormed := by
  have hwidth : high - low + 1 ≤ maxWidth := by
    have := hb.width_le
    omega
  apply WellFormed.of_getLsbD hwidth
  · intro i hi
    have hout : ¬i < high - low + 1 := Nat.not_lt.mpr hi
    simp [slice, getLsbD_lowMask hwidth, hout]
  · intro i hi
    have hout : ¬i < high - low + 1 := Nat.not_lt.mpr hi
    simp [slice, getLsbD_lowMask hwidth, hout]
  · intro i hone
    have hbit : b.value.getLsbD (low + i) = true ∧
        (lowMask (high - low + 1)).getLsbD i = true := by
      simpa [slice] using hone
    simp [slice, hb.dontCare_eq_false hbit.1]

/-- The positions that are put on top are zeros already. -/
theorem wellFormed_extend (hb : b.WellFormed) {width : Nat} (hold : b.width ≤ width)
    (hnew : width ≤ maxWidth) : (b.extend width).WellFormed := by
  apply WellFormed.of_getLsbD hnew
  · intro i hi
    exact hb.getLsbD_value_eq_false (Nat.le_trans hold hi)
  · intro i hi
    exact hb.getLsbD_dontCare_eq_false (Nat.le_trans hold hi)
  · intro i hone
    exact hb.dontCare_eq_false hone

end Bits

namespace Value

/-- The vectors in the value are well-formed, and the tuples have at least two components. -/
inductive WellFormed : Value → Prop
  | bool (b : Bool) : WellFormed (.bool b)
  | int (n : Int64) : WellFormed (.int n)
  | bits {b : Bits} (hb : b.WellFormed) : WellFormed (.bits b)
  | tuple {items : List Value} (hlength : 2 ≤ items.length) (hitems : ∀ v ∈ items, WellFormed v) :
      WellFormed (.tuple items)
  | symbol (id : String) : WellFormed (.symbol id)
  | func (f : Builtin) : WellFormed (.func f)
  | inconsistent : WellFormed .inconsistent

theorem wellFormed_bits {x : Except WidthError Bits} (hx : Yields Bits.WellFormed x) :
    Yields WellFormed (bits <$> EvalError.ofWidth x) :=
  hx.ofWidth.map fun _ hb => .bits hb

/-! ### Operators -/

theorem wellFormed_checked (operation : IntOperation) (n : Int) :
    Yields WellFormed (checked operation n) := by
  unfold checked
  cases toInt64? n with
  | none => exact .error _
  | some n => exact .ok (.int n)

theorem wellFormed_intBinary (op : BinaryOp) (a b : Int64) :
    Yields WellFormed (intBinary op a b) := by
  cases op with
  | equal | notEqual | less | lessEqual | greater | greaterEqual => exact .ok (.bool _)
  | add | sub | mul => exact wellFormed_checked _ _
  | div => exact .ite (fun _ => .error _) fun _ => wellFormed_checked _ _
  | mod =>
      apply Yields.ite
      · intro _
        exact .error _
      · intro _
        cases toInt64? (a.toInt.tdiv b.toInt) with
        | none => exact .error _
        | some _ => exact wellFormed_checked _ _
  | shiftLeft =>
      exact (Yields.trivial _).bind fun n _ => .ite (fun _ => .ok (.int _)) fun _ => .error _
  | shiftRight => exact (Yields.trivial _).bind fun n _ => .ok (.int _)
  | _ => exact .error _

theorem wellFormed_boolBinary (op : BinaryOp) (a b : Bool) :
    Yields WellFormed (boolBinary op a b) := by
  cases op with
  | equal | notEqual | andAlso | orElse => exact .ok (.bool _)
  | _ => exact .error _

theorem wellFormed_bitsBinary (op : BinaryOp) {a b : Bits} (ha : a.WellFormed) (hb : b.WellFormed) :
    Yields WellFormed (bitsBinary op a b) := by
  cases op with
  | equal | notEqual => exact (Yields.trivial _).map fun _ _ => .bool _
  | bitAnd | bitOr | bitEor => exact wellFormed_bits (Bits.wellFormed_combine _ _ a b)
  | concat => exact wellFormed_bits (Bits.wellFormed_concat ha hb)
  | _ => exact .error _

theorem wellFormed_tupleBinary (op : BinaryOp) (vs ws : List Value) :
    Yields WellFormed (tupleBinary op vs ws) := by
  cases op with
  | equal | notEqual => exact (Yields.trivial _).map fun _ _ => .bool _
  | _ => exact .error _

theorem wellFormed_binary (op : BinaryOp) {v w : Value} (hv : v.WellFormed) (hw : w.WellFormed) :
    Yields WellFormed (binary op v w) := by
  unfold binary
  split
  · exact wellFormed_intBinary op _ _
  · exact wellFormed_boolBinary op _ _
  · cases hv with
    | bits ha =>
        cases hw with
        | bits hb => exact wellFormed_bitsBinary op ha hb
  · exact wellFormed_tupleBinary op _ _
  · exact .error _

theorem wellFormed_unary (op : UnaryOp) (v : Value) : Yields WellFormed (unary op v) := by
  unfold unary
  split
  · exact .ok (.bool _)
  · exact .ok (.int _)
  · exact wellFormed_checked _ _
  · exact .ite (fun _ => .ok (.int _)) fun _ => .error _
  · exact .error _

end Value

end ArmPseudocode

import ArmPseudocode.Proofs.Value.Operations

/-!
# Equality of values

The two operators of equality are one comparison: where it has a result, `!=` negates the one of
`==`, and neither has one otherwise. Tuples of one length are compared slot by slot, and every slot
is compared, so that a slot that cannot be compared is found behind slots that differ. A value that
can be compared at all equals itself; for its vectors this rests on their payloads, which have no
one under an `x`.
-/

namespace ArmPseudocode.Value

/-- The value is put together from booleans, integers and vectors alone. -/
inductive Plain : Value → Prop
  | bool (b : Bool) : Plain (.bool b)
  | int (n : Int64) : Plain (.int n)
  | bits (b : Bits) : Plain (.bits b)
  | tuple {items : List Value} (hitems : ∀ v ∈ items, Plain v) : Plain (.tuple items)

/-! ### The operators -/

theorem binary_equal (v w : Value) : binary .equal v w = bool <$> v.equals w := by
  cases v with
  | int a | bool a | bits a | tuple a => cases w <;> rfl
  | _ => rfl

/-- Either `!=` negates the comparison, or the values are of kinds that have none. -/
theorem binary_notEqual (v w : Value) :
    binary .notEqual v w = (fun same => bool !same) <$> v.equals w ∨
    ∃ e e', v.equals w = .error e ∧ binary .notEqual v w = .error e' := by
  cases v with
  | int a =>
      cases w with
      | int b =>
          left
          show Except.ok (bool (decide (a ≠ b))) = .ok (.bool !decide (a = b))
          rw [decide_not]
      | _ => exact .inr ⟨_, _, rfl, rfl⟩
  | bool a =>
      cases w with
      | bool b => exact .inl rfl
      | _ => exact .inr ⟨_, _, rfl, rfl⟩
  | bits a =>
      cases w with
      | bits b => exact .inl rfl
      | _ => exact .inr ⟨_, _, rfl, rfl⟩
  | tuple vs =>
      cases w with
      | tuple ws => exact .inl rfl
      | _ => exact .inr ⟨_, _, rfl, rfl⟩
  | _ => exact .inr ⟨_, _, rfl, rfl⟩

variable {v w : Value} {vs ws : List Value}

theorem binary_equal_of_ok {same : Bool} (h : v.equals w = .ok same) :
    binary .equal v w = .ok (.bool same) := by
  rw [binary_equal, h]
  rfl

theorem binary_equal_of_error {e : EvalError} (h : v.equals w = .error e) :
    binary .equal v w = .error e := by
  rw [binary_equal, h]
  rfl

theorem binary_notEqual_of_ok {same : Bool} (h : v.equals w = .ok same) :
    binary .notEqual v w = .ok (.bool !same) := by
  rcases binary_notEqual v w with heq | ⟨e, e', he, -⟩
  · rw [heq, h]
    rfl
  · rw [h] at he
    cases he

theorem binary_notEqual_of_error {e : EvalError} (h : v.equals w = .error e) :
    ∃ e', binary .notEqual v w = .error e' := by
  rcases binary_notEqual v w with heq | ⟨-, e', -, he'⟩
  · rw [heq, h]
    exact ⟨e, rfl⟩
  · exact ⟨e', he'⟩

theorem binary_equal_iff_notEqual (v w : Value) (same : Bool) :
    binary .equal v w = .ok (.bool same) ↔ binary .notEqual v w = .ok (.bool !same) := by
  cases h : v.equals w with
  | error e =>
      obtain ⟨e', he'⟩ := binary_notEqual_of_error h
      rw [binary_equal_of_error h, he']
      exact iff_of_false (by rintro ⟨⟩) (by rintro ⟨⟩)
  | ok found =>
      rw [binary_equal_of_ok h, binary_notEqual_of_ok h]
      simp

theorem binary_equal_fails_iff (v w : Value) :
    (∃ e, binary .equal v w = .error e) ↔ ∃ e, binary .notEqual v w = .error e := by
  cases h : v.equals w with
  | error e => exact iff_of_true ⟨e, binary_equal_of_error h⟩ (binary_notEqual_of_error h)
  | ok found =>
      rw [binary_equal_of_ok h, binary_notEqual_of_ok h]
      exact iff_of_false (by rintro ⟨_, ⟨⟩⟩) (by rintro ⟨_, ⟨⟩⟩)

/-! ### Tuples -/

def comparisons (vs ws : List Value) : List (Except EvalError Value) :=
  List.zipWith (binary .equal) vs ws

/-- Either all slots can be compared, and the tuples are equal where all of them are, or there is a
first that cannot, and the comparison ends in its defect. -/
theorem equalsAll_cases (vs ws : List Value) :
    (∃ sames : List Bool, comparisons vs ws = sames.map (fun same => .ok (.bool same)) ∧
      equalsAll vs ws = .ok (sames.all id)) ∨
    ∃ (front : List Value) (e : EvalError) (back : List (Except EvalError Value)),
      comparisons vs ws = front.map .ok ++ .error e :: back ∧ equalsAll vs ws = .error e := by
  induction vs generalizing ws with
  | nil => exact .inl ⟨[], rfl, rfl⟩
  | cons v vs ih =>
      cases ws with
      | nil => exact .inl ⟨[], rfl, rfl⟩
      | cons w ws =>
          have hslots : comparisons (v :: vs) (w :: ws) =
            binary .equal v w :: comparisons vs ws := rfl
          cases h : v.equals w with
          | error e =>
              right
              refine ⟨[], e, comparisons vs ws, ?_, ?_⟩
              · rw [hslots, binary_equal_of_error h]
                rfl
              · rw [equalsAll, h]
                rfl
          | ok same =>
              rw [hslots, binary_equal_of_ok h, equalsAll, h]
              obtain ⟨sames, hcompared, hequals⟩ | ⟨front, e, back, hcompared, hequals⟩ := ih ws
              · left
                refine ⟨same :: sames, ?_, ?_⟩
                · rw [hcompared]
                  rfl
                · rw [hequals]
                  rfl
              · right
                refine ⟨.bool same :: front, e, back, ?_, ?_⟩
                · rw [hcompared]
                  rfl
                · rw [hequals]
                  rfl

theorem binary_equal_tuple (vs ws : List Value) :
    binary .equal (.tuple vs) (.tuple ws) =
      if vs.length = ws.length then bool <$> equalsAll vs ws
      else .error (.tupleLengths vs.length ws.length) := by
  rw [binary_equal, equals]
  split
  · rfl
  · rfl

theorem binary_equal_tuple_cases (hlength : vs.length = ws.length) :
    (∃ sames : List Bool, comparisons vs ws = sames.map (fun same => .ok (.bool same)) ∧
      binary .equal (.tuple vs) (.tuple ws) = .ok (.bool (sames.all id))) ∨
    ∃ (front : List Value) (e : EvalError) (back : List (Except EvalError Value)),
      comparisons vs ws = front.map .ok ++ .error e :: back ∧
      binary .equal (.tuple vs) (.tuple ws) = .error e := by
  rw [binary_equal_tuple, if_pos hlength]
  obtain ⟨sames, hcompared, hequals⟩ | ⟨front, e, back, hcompared, hequals⟩ :=
    equalsAll_cases vs ws
  · left
    refine ⟨sames, hcompared, ?_⟩
    rw [hequals]
    rfl
  · right
    refine ⟨front, e, back, hcompared, ?_⟩
    rw [hequals]
    rfl

/-! ### A value and itself -/

theorem equals_self_of_wellFormed {b : Bits} (hb : b.WellFormed) : b.equals b = .ok true := by
  have hmasked : b.value &&& ~~~b.dontCare = b.value := by
    rw [Bits.masked_eq_iff hb hb rfl]
    intro i _ hknown
    cases hdigit : b.digitAt i with
    | any => exact absurd hdigit hknown
    | _ => rfl
  rw [Bits.equals_of_width_eq rfl, decide_eq_true hmasked]

theorem equalsAll_self (h : ∀ v ∈ vs, v.equals v = .ok true) : equalsAll vs vs = .ok true := by
  induction vs with
  | nil => rfl
  | cons v vs ih =>
      rw [List.forall_mem_cons] at h
      rw [equalsAll, h.1, ih h.2]
      rfl

theorem equals_self (hv : v.WellFormed) (hplain : v.Plain) : v.equals v = .ok true := by
  induction hv with
  | bool b => simp [equals]
  | int n => simp [equals]
  | bits hb =>
      rw [equals, equals_self_of_wellFormed hb]
      rfl
  | tuple _ _ ih =>
      cases hplain with
      | tuple hitems =>
          rw [equals, if_pos rfl]
          exact equalsAll_self fun v hv => ih v hv (hitems v hv)
  | symbol _ | func _ | inconsistent => cases hplain

/-- **Equality and its negation.** One of the operators has a truth value on two values exactly if
the other has the opposite one, and so both fail or neither. Tuples of different lengths cannot be
compared. Tuples of one length are compared in all their slots: the comparison ends in the defect of
the first slot that cannot be compared, whatever the slots in front of it compare to, and if there
is none the tuples are equal where all slots are. A well-formed value equals itself, unless there is
a part in it that cannot be compared. -/
theorem equality_of_values :
    (∀ v w same,
      binary .equal v w = .ok (.bool same) ↔ binary .notEqual v w = .ok (.bool !same)) ∧
    (∀ v w, (∃ e, binary .equal v w = .error e) ↔ ∃ e, binary .notEqual v w = .error e) ∧
    (∀ vs ws, vs.length ≠ ws.length → binary .equal (.tuple vs) (.tuple ws) =
      .error (.tupleLengths vs.length ws.length)) ∧
    (∀ vs ws, vs.length = ws.length →
      (∃ sames : List Bool, comparisons vs ws = sames.map (fun same => .ok (.bool same)) ∧
        binary .equal (.tuple vs) (.tuple ws) = .ok (.bool (sames.all id))) ∨
      ∃ (front : List Value) (e : EvalError) (back : List (Except EvalError Value)),
        comparisons vs ws = front.map .ok ++ .error e :: back ∧
        binary .equal (.tuple vs) (.tuple ws) = .error e) ∧
    ∀ v, v.WellFormed → v.Plain → binary .equal v v = .ok (.bool true) := by
  refine ⟨binary_equal_iff_notEqual, binary_equal_fails_iff, ?_, ?_, ?_⟩
  · intro vs ws hlength
    rw [binary_equal_tuple, if_neg hlength]
  · intro vs ws hlength
    exact binary_equal_tuple_cases hlength
  · intro v hv hplain
    exact binary_equal_of_ok (equals_self hv hplain)

def nestedPattern : Value :=
  .tuple [.bits ⟨2, 0b10, 0b01⟩, .tuple [.int 3, .bool true]]

theorem nestedPattern_equals_self :
    nestedPattern.WellFormed ∧ nestedPattern.Plain ∧
    binary .equal nestedPattern nestedPattern = .ok (.bool true) ∧
    binary .notEqual nestedPattern nestedPattern = .ok (.bool false) := by
  have hbits : (⟨2, 0b10, 0b01⟩ : Bits).WellFormed := by constructor <;> decide
  have hwellFormed : nestedPattern.WellFormed := by
    have hinner : WellFormed (.tuple [.int 3, .bool true]) :=
      .tuple (by decide)
        (List.forall_mem_cons.mpr ⟨.int 3, List.forall_mem_singleton.mpr (.bool true)⟩)
    apply WellFormed.tuple (by decide)
    exact List.forall_mem_cons.mpr ⟨.bits hbits, List.forall_mem_singleton.mpr hinner⟩
  have hplain : nestedPattern.Plain := by
    have hinner : Plain (.tuple [.int 3, .bool true]) :=
      .tuple (List.forall_mem_cons.mpr ⟨.int 3, List.forall_mem_singleton.mpr (.bool true)⟩)
    apply Plain.tuple
    exact List.forall_mem_cons.mpr ⟨.bits _, List.forall_mem_singleton.mpr hinner⟩
  obtain ⟨hnegates, -, -, -, hself⟩ := equality_of_values
  have hequal := hself nestedPattern hwellFormed hplain
  exact ⟨hwellFormed, hplain, hequal, (hnegates _ _ true).mp hequal⟩

/-- The slots in front differ, and still the last one is compared. -/
example : binary .equal (.tuple [.int 1, .bool true]) (.tuple [.int 2, .int 0]) =
    .error (.operandsDiffer .equal .bool .int) := rfl

end ArmPseudocode.Value

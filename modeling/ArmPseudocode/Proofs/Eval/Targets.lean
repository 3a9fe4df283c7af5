import ArmPseudocode.Proofs.Eval.Sequencing
import ArmPseudocode.Proofs.Eval.Writes

/-!
# Targets of assignments

Against a value a target falls apart into slots, from left to right, the slots of a tuple in the
place of the tuple: each is a name with the component it takes, or does not fit its component. An
assignment binds the names in this order up to the first slot that does not fit. So it binds all of
them exactly if the target matches the value, and the value is known before the first of them is
bound.
-/

namespace ArmPseudocode

variable {α : Type}

namespace Environment

/-- After a row of bindings a name stands for what the last of them that is its own gave it. -/
theorem get?_bindAll (env : Environment) (writes : List (String × Value)) (id : String) :
    (env.bindAll writes).get? id = (writes.reverse.lookup id).or (env.get? id) := by
  induction writes generalizing env with
  | nil => rfl
  | cons write writes ih =>
      obtain ⟨bound, v⟩ := write
      have hlast : (if id = bound then some v else env.get? id) =
          ([(bound, v)].lookup id).or (env.get? id) := by
        by_cases hid : id = bound
        · simp [hid]
        · have hne : (id == bound) = false := beq_eq_false_iff_ne.mpr hid
          simp [List.lookup_cons, hid, hne]
      show ((env.bind bound v).bindAll writes).get? id = _
      rw [ih, get?_bind, hlast, List.reverse_cons, List.lookup_append, Option.or_assoc]

end Environment

/-- A name of a target with the component it takes, or the defect of a slot that does not fit its
component. -/
abbrev Slot := Except EvalError (String × Value)

namespace Expr

mutual

/-- The target takes the value. -/
inductive Matches : Expr α → Value → Prop
  | name (info : α) (id : String) (v : Value) : Matches (name info id) v
  | declare (info : α) (type : TypeExpr α) (id : String) (v : Value) :
      Matches (declare info type id) v
  /-- A slot alone in parentheses stands for itself. -/
  | single (info : α) {slot : Expr α} {v : Value} (hslot : Matches slot v) :
      Matches (tuple info [slot]) v
  | tuple (info : α) {slots : List (Expr α)} {vs : List Value} (hmany : slots.length ≠ 1)
      (hslots : MatchesEach slots vs) : Matches (tuple info slots) (.tuple vs)

/-- There are as many targets as values, and each that is not blank takes its own. -/
inductive MatchesEach : List (Expr α) → List Value → Prop
  | nil : MatchesEach [] []
  | blank (info : α) (v : Value) {slots : List (Expr α)} {vs : List Value}
      (hslots : MatchesEach slots vs) : MatchesEach (blank info :: slots) (v :: vs)
  | cons {slot : Expr α} {v : Value} {slots : List (Expr α)} {vs : List Value}
      (hslot : Matches slot v) (hslots : MatchesEach slots vs) :
      MatchesEach (slot :: slots) (v :: vs)

end

mutual

/-- The slots of a target against a value, from left to right. A tuple that does not take the value
because of its form or of the number of its components is one slot, which does not fit. -/
def slots : Expr α → Value → List Slot
  | name _ id, v | declare _ _ id, v => [.ok (id, v)]
  | tuple _ [item], v => item.slots v
  | tuple _ items, .tuple vs =>
    if items.length = vs.length then slotsEach items vs
    else [.error (.tupleArity items.length vs.length)]
  | tuple _ _, v => [.error (.notATuple v.kind)]
  | target, _ => [.error (.notATarget target.describe)]
termination_by structural target => target

def slotsEach : List (Expr α) → List Value → List Slot
  | item :: items, v :: vs => (if item.isBlank then [] else item.slots v) ++ slotsEach items vs
  | _, _ => []
termination_by structural items => items

end

end Expr

namespace Action

def takeSlot : Slot → Action Unit
  | .ok (id, v) => .bind id v
  | .error defect => throw defect

theorem forM_takeSlot_ok (writes : List (String × Value)) (env : Environment) :
    (writes.map Except.ok).forM takeSlot env = .ok () (env.bindAll writes) := by
  induction writes generalizing env with
  | nil => rfl
  | cons write writes ih => exact ih (env.bind write.1 write.2)

theorem forM_takeSlot_error (writes : List (String × Value)) (defect : EvalError)
    (rest : List Slot) (env : Environment) :
    (writes.map Except.ok ++ Except.error defect :: rest).forM takeSlot env =
      .error defect (env.bindAll writes) := by
  induction writes generalizing env with
  | nil => rfl
  | cons write writes ih => exact ih (env.bind write.1 write.2)

theorem ite_forM_takeSlot {p : Prop} [Decidable p]
    (slots : List Slot) (defect : EvalError) :
    (if p then slots.forM takeSlot else throw defect) =
      (if p then slots else [.error defect]).forM takeSlot := by
  split
  · rfl
  · rfl

end Action

namespace Expr

/-! ### An assignment takes slot by slot -/

mutual

theorem assign_eq_forM_slots (target : Expr α) (v : Value) :
    target.assign v = (target.slots v).forM Action.takeSlot := by
  cases target with
  | tuple _ items =>
      match items with
      | [item] =>
          simp only [assign, slots]
          exact assign_eq_forM_slots item v
      | [] =>
          cases v with
          | tuple vs =>
              simp only [assign, slots]
              rw [assignAll_eq_forM_slotsEach [] vs]
              exact Action.ite_forM_takeSlot _ _
          | _ => rfl
      | first :: second :: rest =>
          cases v with
          | tuple vs =>
              simp only [assign, slots]
              rw [assignAll_eq_forM_slotsEach (first :: second :: rest) vs]
              exact Action.ite_forM_takeSlot _ _
          | _ => rfl
  | _ => rfl
termination_by structural target

theorem assignAll_eq_forM_slotsEach (items : List (Expr α)) (vs : List Value) :
    assignAll items vs = (slotsEach items vs).forM Action.takeSlot := by
  cases items with
  | nil => rfl
  | cons item items =>
      cases vs with
      | nil => rfl
      | cons v vs =>
          simp only [assignAll, slotsEach, assign_eq_forM_slots item v,
            assignAll_eq_forM_slotsEach items vs]
          cases item.isBlank
          · exact (List.forM_append ..).symm
          · rfl
termination_by structural items

end

/-! ### A target matches if all its slots fit -/

theorem matches_single_iff (info : α) (slot : Expr α) (v : Value) :
    (tuple info [slot]).Matches v ↔ slot.Matches v := by
  constructor
  · intro h
    cases h with
    | single _ hslot => exact hslot
    | tuple _ hmany _ => exact absurd rfl hmany
  · exact .single info

theorem matches_tuple_iff (info : α) {items : List (Expr α)} (hmany : items.length ≠ 1)
    (vs : List Value) : (tuple info items).Matches (.tuple vs) ↔ MatchesEach items vs := by
  constructor
  · intro h
    cases h with
    | single _ hslot => exact absurd rfl hmany
    | tuple _ _ hslots => exact hslots
  · exact .tuple info hmany

theorem matchesEach_cons_iff (item : Expr α) (v : Value) (items : List (Expr α))
    (vs : List Value) :
    MatchesEach (item :: items) (v :: vs) ↔
      (item.isBlank = true ∨ item.Matches v) ∧ MatchesEach items vs := by
  constructor
  · intro h
    cases h with
    | blank _ _ hslots => exact ⟨.inl rfl, hslots⟩
    | cons hslot hslots => exact ⟨.inr hslot, hslots⟩
  · rintro ⟨hblank | hslot, hslots⟩
    · cases item with
      | blank info => exact .blank info v hslots
      | _ => cases hblank
    · exact .cons hslot hslots

theorem all_isOk_ite {p : Prop} [Decidable p] (slots : List Slot)
    (defect : EvalError) :
    (if p then slots else [.error defect]).all Except.isOk = true ↔
      p ∧ slots.all Except.isOk = true := by
  by_cases h : p
  · simp [h]
  · simp [h, Except.isOk, Except.toBool]

mutual

theorem matches_iff (target : Expr α) (v : Value) :
    target.Matches v ↔ (target.slots v).all Except.isOk = true := by
  cases target with
  | name info id => exact iff_of_true (.name info id v) rfl
  | declare info type id => exact iff_of_true (.declare info type id v) rfl
  | tuple info items =>
      match items with
      | [item] =>
          simp only [slots]
          rw [matches_single_iff]
          exact matches_iff item v
      | [] =>
          cases v with
          | tuple vs =>
              simp only [slots]
              rw [matches_tuple_iff info (by simp), all_isOk_ite, matchesEach_iff [] vs]
          | _ => exact iff_of_false (by rintro ⟨⟩) Bool.false_ne_true
      | first :: second :: rest =>
          cases v with
          | tuple vs =>
              simp only [slots]
              rw [matches_tuple_iff info (by simp), all_isOk_ite,
                matchesEach_iff (first :: second :: rest) vs]
          | _ => exact iff_of_false (by rintro ⟨⟩) Bool.false_ne_true
  | _ => exact iff_of_false (by rintro ⟨⟩) Bool.false_ne_true
termination_by structural target

theorem matchesEach_iff (items : List (Expr α)) (vs : List Value) :
    MatchesEach items vs ↔ items.length = vs.length ∧
      (slotsEach items vs).all Except.isOk = true := by
  cases items with
  | nil =>
      cases vs with
      | nil => exact iff_of_true .nil ⟨rfl, rfl⟩
      | cons v vs => exact iff_of_false (by rintro ⟨⟩) (by simp)
  | cons item items =>
      cases vs with
      | nil => exact iff_of_false (by rintro ⟨⟩) (by simp)
      | cons v vs =>
          rw [matchesEach_cons_iff, matches_iff item v, matchesEach_iff items vs]
          simp only [slotsEach, List.all_append]
          cases item.isBlank <;> simp [and_left_comm]
termination_by structural items

end

/-- A list of slots either fits as a whole or has a first slot that does not. -/
theorem exists_writes (slots : List Slot) :
    (slots.all Except.isOk = true ∧
      ∃ writes : List (String × Value), slots = writes.map Except.ok) ∨
    (slots.all Except.isOk = false ∧
      ∃ (writes : List (String × Value)) (defect : EvalError) (rest : List Slot),
        slots = writes.map Except.ok ++ Except.error defect :: rest) := by
  induction slots with
  | nil => exact .inl ⟨rfl, [], rfl⟩
  | cons slot slots ih =>
      cases slot with
      | error defect => exact .inr ⟨rfl, [], defect, slots, rfl⟩
      | ok write =>
          obtain ⟨hfit, writes, rfl⟩ | ⟨hfit, writes, defect, rest, rfl⟩ := ih
          · exact .inl ⟨hfit, write :: writes, rfl⟩
          · exact .inr ⟨hfit, write :: writes, defect, rest, rfl⟩

end Expr

namespace Stmt

/-! ### Assignments -/

variable (limit : Nat) (info : α) (target : Expr α) {e : Expr α} {env : Environment}

theorem exec_assign_of_error {defect : EvalError} (he : e.eval env = .error defect) :
    (assign info target e).exec limit env = .error defect env := by
  simp only [exec]
  exact Action.bind_reading_of_error he

theorem exec_assign_of_slots {v : Value} (he : e.eval env = .ok v) :
    (assign info target e).exec limit env =
      ((target.slots v).forM Action.takeSlot >>= fun _ => pure .proceed) env := by
  simp only [exec, Expr.assign_eq_forM_slots]
  exact Action.bind_reading_of_ok he

theorem exec_assign_of_writes {v : Value} (he : e.eval env = .ok v)
    {writes : List (String × Value)} (hslots : target.slots v = writes.map Except.ok) :
    (assign info target e).exec limit env = .ok .proceed (env.bindAll writes) := by
  rw [exec_assign_of_slots limit info target he, hslots]
  exact Action.bind_of_ok (Action.forM_takeSlot_ok writes env)

theorem exec_assign_of_defect {v : Value} (he : e.eval env = .ok v)
    {writes : List (String × Value)} {defect : EvalError} {rest : List Slot}
    (hslots : target.slots v = writes.map Except.ok ++ Except.error defect :: rest) :
    (assign info target e).exec limit env = .error defect (env.bindAll writes) := by
  rw [exec_assign_of_slots limit info target he, hslots]
  exact Action.bind_of_error (Action.forM_takeSlot_error writes defect rest env)

variable (e : Expr α) (env : Environment)

/-- **What an assignment binds.** The value is computed in the environment as it was, and without a
value nothing is bound. With one, the assignment goes through exactly if the target matches it, and
binds what its slots pair, from left to right, so that the last pair of a name decides. If the
target does not match, what is bound is what the slots in front of the first that does not fit
pair. -/
theorem assign_binds_slots :
    (∀ defect, e.eval env = .error defect →
      (assign info target e).exec limit env = .error defect env) ∧
    (∀ v, e.eval env = .ok v →
      ((∃ outcome left, (assign info target e).exec limit env = .ok outcome left) ↔
        target.Matches v) ∧
      (target.Matches v → ∃ writes : List (String × Value),
        target.slots v = writes.map Except.ok ∧
          (assign info target e).exec limit env = .ok .proceed (env.bindAll writes)) ∧
      (¬target.Matches v →
        ∃ (writes : List (String × Value)) (defect : EvalError) (rest : List Slot),
          target.slots v = writes.map Except.ok ++ Except.error defect :: rest ∧
          (assign info target e).exec limit env = .error defect (env.bindAll writes))) ∧
    ∀ (writes : List (String × Value)) (id : String),
      (env.bindAll writes).get? id = (writes.reverse.lookup id).or (env.get? id) := by
  refine ⟨fun defect he => exec_assign_of_error limit info target he, fun v he => ?_,
    env.get?_bindAll⟩
  obtain ⟨hfit, writes, hslots⟩ | ⟨hfit, writes, defect, rest, hslots⟩ :=
    Expr.exists_writes (target.slots v)
  · have hmatches : target.Matches v := (target.matches_iff v).mpr hfit
    have hexec := exec_assign_of_writes limit info target he hslots
    exact ⟨iff_of_true ⟨_, _, hexec⟩ hmatches, fun _ => ⟨writes, hslots, hexec⟩,
      fun h => absurd hmatches h⟩
  · have hmatches : ¬target.Matches v := by
      rw [target.matches_iff v, hfit]
      exact Bool.false_ne_true
    have hexec := exec_assign_of_defect limit info target he hslots
    refine ⟨iff_of_false ?_ hmatches, fun h => absurd h hmatches,
      fun _ => ⟨writes, defect, rest, hslots, hexec⟩⟩
    rintro ⟨outcome, left, h⟩
    rw [hexec] at h
    cases h

def crossedTarget : Expr Unit :=
  .tuple () [.name () "x", .tuple () [.blank (), .declare () .integer "y"],
    .tuple () [.name () "x"]]

def crossedValue : Expr Unit :=
  .tuple () [.name () "y", .tuple () [.int () 7, .name () "x"], .int () 3]

theorem crossed_binds_slots :
    (assign () crossedTarget crossedValue).exec 8 ⟨[("x", .int 1), ("y", .int 2)], .strict⟩ =
      .ok .proceed ⟨[("x", .int 3), ("y", .int 1)], .strict⟩ ∧
    crossedTarget.Matches (.tuple [.int 2, .tuple [.int 7, .int 1], .int 3]) := by
  obtain ⟨hiff, -, -⟩ := (assign_binds_slots 8 () crossedTarget crossedValue
    ⟨[("x", .int 1), ("y", .int 2)], .strict⟩).2.1
      (.tuple [.int 2, .tuple [.int 7, .int 1], .int 3]) rfl
  exact ⟨rfl, hiff.mp ⟨_, _, rfl⟩⟩

/-- The number `7` takes no value. What stands in front of it is bound, and `c` is not. -/
example :
    (assign () (.tuple () [.name () "a", .tuple () [.name () "b", .int () 7], .name () "c"])
        (.tuple () [.int () 1, .tuple () [.int () 2, .int () 3], .int () 4])).exec 8
        (.empty .strict) =
      .error (.notATarget (Expr.int () 7).describe) ⟨[("a", .int 1), ("b", .int 2)], .strict⟩ :=
  rfl

end Stmt

end ArmPseudocode

import ArmPseudocode.Proofs.Eval.Bindings
import ArmPseudocode.Proofs.Eval.Coupling
import ArmPseudocode.Proofs.Value.WellFormed

/-!
# Well-formed environments

An environment is well-formed if everything bound in it is. Every name then stands for a well-formed
value, the builtins among them give well-formed results, and assignments keep the environment
well-formed, also those that fail after some of their targets.
-/

namespace ArmPseudocode

namespace Builtin

open Value (WellFormed)

theorem wellFormed_bitsArgument (f : Builtin) {v : Value} (hv : v.WellFormed) :
    Yields Bits.WellFormed (f.bitsArgument v) := by
  cases hv with
  | bits hb => exact .ok hb
  | _ => exact .error _

theorem wellFormed_zerosOf (n : Int64) : Yields WellFormed (zerosOf n) := by
  apply Yields.ite
  · intro _
    exact .error _
  · intro _
    exact Value.wellFormed_bits (Bits.wellFormed_ofPayload _ _ _)

theorem wellFormed_expandImmediate (b : Bits) : Yields WellFormed (expandImmediate b) :=
  Value.wellFormed_bits (Bits.wellFormed_ofPayload _ _ _)

theorem wellFormed_zeroExtended {b : Bits} (hb : b.WellFormed) (n : Int64) :
    Yields WellFormed (zeroExtended b n) := by
  apply Yields.ite
  · rintro ⟨hold, hnew⟩
    apply Yields.ok
    apply WellFormed.bits
    have hwidth : n.toInt.toNat ≤ Bits.maxWidth := by omega
    exact Bits.wellFormed_extend hb (by omega) hwidth
  · intro _
    exact .error _

theorem wellFormed_apply (f : Builtin) {args : List Value} (hargs : ∀ v ∈ args, v.WellFormed) :
    Yields WellFormed (f.apply args) := by
  unfold apply
  split
  · exact (Yields.trivial _).bind fun _ _ => .ok (.int _)
  · exact (Yields.trivial _).bind fun _ _ => .ok (.int _)
  · refine (wellFormed_bitsArgument _ (hargs _ List.mem_cons_self)).bind fun b hb => ?_
    exact (Yields.trivial _).bind fun n _ => wellFormed_zeroExtended hb n
  · exact (Yields.trivial _).bind fun n _ => wellFormed_zerosOf n
  · exact (Yields.trivial _).bind fun _ _ => .ok (.int _)
  · exact .ok (.bool _)
  · exact .ok (.int _)
  · refine (Yields.trivial _).bind fun b _ => ?_
    exact .ite (fun _ => wellFormed_expandImmediate b) fun _ => .error _
  · have hpair : WellFormed (.tuple [.int 0, .int 0]) := by
      apply WellFormed.tuple (by decide)
      intro v hv
      simp only [List.mem_cons, List.not_mem_nil, or_false, or_self] at hv
      rw [hv]
      exact .int 0
    exact (Yields.trivial _).bind fun _ _ => (Yields.trivial _).bind fun _ _ => .ok hpair
  all_goals exact .error _

theorem wellFormed_of_mem_table {entry : String × Value} (h : entry ∈ table) :
    entry.2.WellFormed := by
  obtain rfl | h := List.mem_cons.mp h
  · exact .bool true
  obtain rfl | h := List.mem_cons.mp h
  · exact .bool false
  · obtain ⟨f, -, rfl⟩ := List.mem_map.mp h
    exact .func f

end Builtin

namespace Value

theorem wellFormed_unknownBits (width : Int64) : Yields WellFormed (unknownBits width) := by
  apply Yields.ite
  · intro _
    exact .error _
  · intro _
    exact wellFormed_bits (Bits.wellFormed_ofPayload _ _ _)

theorem wellFormed_member (field : String) (v : Value) : Yields WellFormed (v.member field) := by
  cases v with
  | symbol id => exact .ok (.symbol _)
  | _ => exact .error _

end Value

/-! ### Bindings -/

namespace Environment

/-- Everything bound in the environment is well-formed. -/
def WellFormed (env : Environment) : Prop :=
  ∀ id v, env.get? id = some v → v.WellFormed

variable {env : Environment}

theorem wellFormed_empty (names : NameResolution) : (empty names).WellFormed := by
  intro id v h
  nomatch h

theorem WellFormed.bind (henv : env.WellFormed) (id : String) {v : Value} (hv : v.WellFormed) :
    (env.bind id v).WellFormed := by
  intro other w h
  rw [get?_bind] at h
  by_cases heq : other = id
  · rw [if_pos heq] at h
    cases h
    exact hv
  · rw [if_neg heq] at h
    exact henv other w h

theorem WellFormed.lookup (henv : env.WellFormed) (id : String) :
    Yields Value.WellFormed (env.lookup id) := by
  unfold Environment.lookup
  cases hget : env.get? id with
  | some v => exact .ok (henv id v hget)
  | none =>
      dsimp only
      cases hbuiltin : Builtin.ofName? id with
      | some v =>
          obtain ⟨front, back, htable, -⟩ := List.lookup_eq_some_iff.mp hbuiltin
          have hmem : (id, v) ∈ Builtin.table := by
            rw [htable]
            exact List.mem_append_right _ List.mem_cons_self
          exact .ok (Builtin.wellFormed_of_mem_table hmem)
      | none =>
          cases env.names with
          | lenient => exact .ok (.symbol id)
          | strict => exact .error _

end Environment

/-! ### Assignments -/

namespace Action

variable {α β : Type}

/-- The action leaves a well-formed environment well-formed, however it ends. -/
def Keeps (action : Action β) : Prop :=
  ∀ env : Environment, env.WellFormed → (final (action env)).WellFormed

namespace Keeps

theorem pure (b : β) : Keeps (Pure.pure b) :=
  fun _ henv => henv

theorem throw (e : EvalError) : Keeps (MonadExcept.throw e : Action β) :=
  fun _ henv => henv

theorem bindName (id : String) {v : Value} (hv : v.WellFormed) : Keeps (Action.bind id v) :=
  fun _ henv => henv.bind id hv

theorem ite {p : Prop} [Decidable p] {yes no : Action β} (hyes : p → Keeps yes)
    (hno : ¬p → Keeps no) : Keeps (if p then yes else no) := by
  by_cases h : p
  · rw [if_pos h]
    exact hyes h
  · rw [if_neg h]
    exact hno h

theorem andThen {first : Action Unit} {second : Action β} (h : Keeps first)
    (hnext : Keeps second) : Keeps (first >>= fun _ => second) := by
  intro env henv
  have hmid := h env henv
  change (final (EStateM.bind first (fun _ => second) env)).WellFormed
  unfold EStateM.bind
  generalize first env = r at hmid ⊢
  cases r with
  | ok b env => exact hnext env hmid
  | error e env => exact hmid

end Keeps

end Action

namespace Expr

variable {α : Type}

mutual

/-- The components of a well-formed tuple are well-formed, and nothing else is bound. -/
theorem assign_keeps (target : Expr α) {v : Value} (hv : v.WellFormed) :
    Action.Keeps (target.assign v) := by
  cases target with
  | name _ id => exact .bindName id hv
  | declare _ _ id => exact .bindName id hv
  | tuple _ slots =>
      match slots with
      | [slot] =>
          simp only [assign]
          exact assign_keeps slot hv
      | [] =>
          cases hv with
          | tuple _ hitems => exact .ite (fun _ => assignAll_keeps [] hitems) fun _ => .throw _
          | _ => exact .throw _
      | first :: second :: rest =>
          cases hv with
          | tuple _ hitems =>
              exact .ite (fun _ => assignAll_keeps (first :: second :: rest) hitems)
                fun _ => .throw _
          | _ => exact .throw _
  | _ => exact .throw _
termination_by structural target

theorem assignAll_keeps (slots : List (Expr α)) {vs : List Value}
    (hvs : ∀ v ∈ vs, v.WellFormed) : Action.Keeps (assignAll slots vs) := by
  cases slots with
  | nil => exact .pure _
  | cons slot slots =>
      cases vs with
      | nil => exact .pure _
      | cons v vs =>
          obtain ⟨hv, hvs⟩ := List.forall_mem_cons.mp hvs
          simp only [assignAll]
          have hrest := assignAll_keeps slots hvs
          exact .ite (fun _ => (assign_keeps slot hv).andThen hrest) fun _ => hrest
termination_by structural slots

end

end Expr

end ArmPseudocode

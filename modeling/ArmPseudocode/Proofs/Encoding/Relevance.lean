import ArmPseudocode.Encoding.Check
import ArmPseudocode.Proofs.Encoding.Slice
import ArmPseudocode.Proofs.Eval.Bindings
import ArmPseudocode.Proofs.Eval.CoupledRun

/-!
# Fields that do not matter

The check of a word reads the fixed bits and the fields whose names occur in the program. Two words
that agree there get one verdict or meet one defect, whatever stands in the other fields: the two
environments agree on the names that occur, every statement keeps them so, and nothing that is
evaluated can see the rest.
-/

namespace ArmPseudocode

/-- Environments that resolve some names alike. -/
def Coupling.agreeing (known : List String) : Coupling where
  Related env env' := env.names = env'.names ∧ ∀ id ∈ known, env.get? id = env'.get? id
  Known id := id ∈ known
  Excused _ := False
  extra := 0
  lookup henv hid := by
    rw [Environment.lookup_congr henv.1 (henv.2 _ hid)]
    exact .same _
  bind id v henv := by
    refine ⟨henv.1, fun other hother => ?_⟩
    rw [Environment.get?_bind, Environment.get?_bind, henv.2 other hother]
  loopLimit h := absurd h (by decide)

namespace Template

variable {known : List String} {word word' : BitVec 32}

theorem agreeing_bindField {env env' : Environment} {id : String} {v v' : Value}
    (henv : (Coupling.agreeing known).Related env env') (hvalue : id ∈ known → v = v') :
    (Coupling.agreeing known).Related (env.bindField id v) (env'.bindField id v') := by
  refine ⟨?_, fun other hother => ?_⟩
  · rw [Environment.names_bindField, Environment.names_bindField]
    exact henv.1
  · rw [Environment.get?_bindField, Environment.get?_bindField, henv.2 other hother]
    split
    · next h =>
        subst h
        rw [henv.2 other hother, hvalue hother]
    · rfl

/-- Matching two words that agree on the fixed bits and on the fields of known names gives one
answer and environments that agree on these names. -/
theorem bindFrom_agreeing (known : List String) {specs : List FieldSpec} {start : Nat}
    {env env' : Environment} (hend : start + FieldSpec.totalWidth specs ≤ wordBits)
    (henv : (Coupling.agreeing known).Related env env')
    (hliterals : ∀ offset bit parenthesized,
      (offset, .literal bit parenthesized) ∈ FieldSpec.placedFrom start specs →
        word.getMsbD offset = word'.getMsbD offset)
    (hfields : ∀ offset id width, (offset, .field id width) ∈ FieldSpec.placedFrom start specs →
      id ∈ known → ∀ i < width, word.getMsbD (offset + i) = word'.getMsbD (offset + i)) :
    (bindFrom word start specs env).1 = (bindFrom word' start specs env').1 ∧
      (Coupling.agreeing known).Related (bindFrom word start specs env).2
        (bindFrom word' start specs env').2 := by
  induction specs generalizing start env env' with
  | nil => exact ⟨rfl, henv⟩
  | cons first rest ih =>
      rw [FieldSpec.totalWidth_cons, ← Nat.add_assoc] at hend
      have hliteralsRest := fun offset bit parenthesized hmem =>
        hliterals offset bit parenthesized (List.mem_cons_of_mem _ hmem)
      have hfieldsRest := fun offset id width hmem =>
        hfields offset id width (List.mem_cons_of_mem _ hmem)
      cases first with
      | literal bit parenthesized =>
          have hbit := hliterals start bit parenthesized List.mem_cons_self
          rw [bindFrom, bindFrom, hbit]
          split
          · exact ih hend henv hliteralsRest hfieldsRest
          · exact ⟨rfl, henv⟩
      | field id width =>
          have hcut : start + width ≤ wordBits := Nat.le_trans (Nat.le_add_right _ _) hend
          have hslice : id ∈ known →
              Value.bits (fieldBits word start width) = .bits (fieldBits word' start width) := by
            intro hid
            have hdigits := wordDigits_eq_iff.mpr (hfields start id width List.mem_cons_self hid)
            rw [(fieldBits_eq_iff hcut hcut).mpr hdigits]
          exact ih hend (agreeing_bindField henv hslice) hliteralsRest hfieldsRest

/-- Two words that agree on the fixed bits of the layout and on every field whose name occurs in the
program have one check. -/
theorem check_eq_of_agree (config : EvalConfig) (t : Template) {word word' : BitVec 32}
    (hliterals : ∀ offset bit parenthesized,
      (offset, .literal bit parenthesized) ∈ FieldSpec.placed t.specs →
        word.getMsbD offset = word'.getMsbD offset)
    (hfields : ∀ offset id width, (offset, .field id width) ∈ FieldSpec.placed t.specs →
      id ∈ t.program.names → ∀ i < width, word.getMsbD (offset + i) = word'.getMsbD (offset + i)) :
    t.check config word = t.check config word' := by
  have hend : 0 + FieldSpec.totalWidth t.specs ≤ wordBits := by
    rw [t.covers]
    exact Nat.le_refl _
  have hfresh : (Coupling.agreeing t.program.names).Related (.empty config.names)
      (.empty config.names) := ⟨rfl, fun _ _ => rfl⟩
  obtain ⟨hmatched, henv⟩ := bindFrom_agreeing t.program.names hend hfresh hliterals hfields
  unfold check bind
  generalize bindFrom word 0 t.specs (.empty config.names) = first at hmatched henv ⊢
  generalize bindFrom word' 0 t.specs (.empty config.names) = second at hmatched henv ⊢
  obtain ⟨matched, env⟩ := first
  obtain ⟨matched', env'⟩ := second
  simp only at hmatched henv
  subst hmatched
  cases matched with
  | false => rfl
  | true =>
      have hrun := t.program.run_coupled (.agreeing t.program.names) (fun _ hid => hid)
        config config rfl env env' henv
      simp only
      generalize t.program.run config env = ended at hrun ⊢
      generalize t.program.run config env' = ended' at hrun ⊢
      cases hrun with
      | ok outcome _ => rfl
      | error e _ => rfl
      | released he => exact absurd he id

def registerTemplate : Template where
  name := "R"
  specs := [.field "Rd" 4, .literal true false, .field "imm" 27]
  program :=
    ⟨[.branch .none
      (.binary .none .equal (.call .none "UInt" [.name .none "Rd"]) (.int .none 15))
      (.unpredictable .none) [] none]⟩
  covers := by decide

theorem registerTemplate_check :
    registerTemplate.program.names = ["UInt", "Rd"] ∧
      registerTemplate.check {} 0xF8000000 = .ok .unspecified ∧
      registerTemplate.check {} 0xFABCDEF0 = .ok .unspecified := by
  have hfirst : registerTemplate.check {} 0xF8000000 = .ok .unspecified := by rfl
  refine ⟨rfl, hfirst, Eq.trans (check_eq_of_agree {} registerTemplate ?_ ?_) hfirst⟩
  · intro offset bit parenthesized hmem
    simp only [FieldSpec.placed, FieldSpec.placedFrom, registerTemplate, FieldSpec.width,
      List.mem_cons, Prod.mk.injEq, reduceCtorEq, and_false, false_or] at hmem
    obtain ⟨rfl, -⟩ | hnil := hmem
    · rfl
    · simp at hnil
  · intro offset id width hmem hid
    simp only [FieldSpec.placed, FieldSpec.placedFrom, registerTemplate, FieldSpec.width,
      List.mem_cons, Prod.mk.injEq, FieldSpec.field.injEq, reduceCtorEq, and_false, false_or]
      at hmem
    obtain ⟨rfl, rfl, rfl⟩ | ⟨rfl, rfl, rfl⟩ | hnil := hmem
    · decide
    · revert hid
      decide
    · simp at hnil

end Template

end ArmPseudocode

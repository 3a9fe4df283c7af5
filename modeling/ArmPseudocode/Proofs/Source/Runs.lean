import ArmPseudocode.Proofs.Eval.ProvenanceRun
import ArmPseudocode.Proofs.Source.Acceptance

/-!
# Runs of a text

What holds of every run of every text, whatever was reported of it: the parser makes no empty tuple,
not even where it recovers, so that a run from a well-formed environment never meets a value that is
not well-formed.
-/

namespace ArmPseudocode

namespace ParsedSource

theorem filled_of_mem_program (limits : DiagnosticConfig) (name : String) (text : List Char) :
    ∀ s ∈ (ofText limits name text).program.body, s.Everywhere Expr.Filled := by
  unfold ofText
  dsimp only
  split
  · intro s hs
    nomatch hs
  · intro s hs x hx
    obtain ⟨hread, hexprs⟩ := TokenStream.everywhere_of_mem_parse _ _ _ s hs x hx
    refine ⟨hread, fun e he => ?_⟩
    obtain ⟨inPattern, hgrammatical⟩ := (hexprs e he).grammatical
    exact hgrammatical.filled

/-- A text is run from a well-formed environment. Watching the run does not change it, and its
record is what the run meets, no less and no more; every value in it is well-formed, every range
that is taken out of a vector lies inside the vector, and every width a vector is put under is one
that the vector fits; and however the run ends, everything that is bound then is well-formed. -/
theorem run_wellFormed (limits : DiagnosticConfig) (name : String) (text : List Char)
    (config : EvalConfig) {env : Environment} (henv : env.WellFormed) :
    Watched.forget ((ofText limits name text).program.watched config ⟨env, []⟩) =
        (ofText limits name text).program.run config env ∧
      (∀ event,
        event ∈ Watched.record ((ofText limits name text).program.watched config ⟨env, []⟩) ↔
          (ofText limits name text).program.Meets config env event) ∧
      SoundRecord (Watched.record ((ofText limits name text).program.watched config ⟨env, []⟩)) ∧
      (Action.final ((ofText limits name text).program.run config env)).WellFormed := by
  have hfilled := filled_of_mem_program limits name text
  have hempty : SoundRecord [] := fun event hevent => nomatch hevent
  have hmeets : ∀ event,
      event ∈ Watched.record ((ofText limits name text).program.watched config ⟨env, []⟩) ↔
        (ofText limits name text).program.Meets config env event :=
    fun event => Program.mem_record_iff henv hfilled
  have hends := Program.watched_tracks config _ hfilled ⟨env, []⟩ henv hempty
  generalize (ofText limits name text).program.watched config ⟨env, []⟩ = watched at hends hmeets ⊢
  generalize hrun : (ofText limits name text).program.run config env = run
  change Watched.Ends _ watched ((ofText limits name text).program.run config env) at hends
  rw [hrun] at hends
  cases hends with
  | ok _ hfinal hrecord => exact ⟨rfl, hmeets, hrecord, hfinal⟩
  | error e hfinal hrecord => exact ⟨rfl, hmeets, hrecord, hfinal⟩

/-- Binds two cuts of a field and then asks for a position that the field does not have. -/
def cutField : List Char :=
  "(low, high) = (ZeroExtend(imm5<2:0>, 8), imm5<4>:'x');\nbad = imm5<9>;\n".toList

def fieldBound : Environment :=
  (Environment.empty .lenient).bind "imm5" (.bits ⟨5, 0b10110, 0⟩)

theorem wellFormed_fieldBound : fieldBound.WellFormed := by
  have hfield : (⟨5, 0b10110, 0⟩ : Bits).WellFormed := by constructor <;> decide
  exact (Environment.wellFormed_empty .lenient).bind "imm5" (.bits hfield)

/-- The run takes positions out of the field and extends them, and ends in a defect. -/
theorem cutField_run_wellFormed :
    fieldBound.WellFormed ∧
      (Watched.forget ((ofText {} "cut" cutField).program.watched {} ⟨fieldBound, []⟩) =
          (ofText {} "cut" cutField).program.run {} fieldBound ∧
        (∀ event,
          event ∈ Watched.record ((ofText {} "cut" cutField).program.watched {} ⟨fieldBound, []⟩) ↔
            (ofText {} "cut" cutField).program.Meets {} fieldBound event) ∧
        SoundRecord
          (Watched.record ((ofText {} "cut" cutField).program.watched {} ⟨fieldBound, []⟩)) ∧
        (Action.final ((ofText {} "cut" cutField).program.run {} fieldBound)).WellFormed) ∧
      (ofText {} "cut" cutField).program.Meets {} fieldBound (.slice ⟨5, 0b10110, 0⟩ 2 0) ∧
      (ofText {} "cut" cutField).program.Meets {} fieldBound (.extend ⟨3, 0b110, 0⟩ 8) ∧
      .slice ⟨5, 0b10110, 0⟩ 2 0 ∈
        Watched.record ((ofText {} "cut" cutField).program.watched {} ⟨fieldBound, []⟩) ∧
      .extend ⟨3, 0b110, 0⟩ 8 ∈
        Watched.record ((ofText {} "cut" cutField).program.watched {} ⟨fieldBound, []⟩) ∧
      (Action.ending ((ofText {} "cut" cutField).program.run {} fieldBound)).toOption = none := by
  have hrun := run_wellFormed {} "cut" cutField {} wellFormed_fieldBound
  have hrecord :
      .slice ⟨5, 0b10110, 0⟩ 2 0 ∈
          Watched.record ((ofText {} "cut" cutField).program.watched {} ⟨fieldBound, []⟩) ∧
        .extend ⟨3, 0b110, 0⟩ 8 ∈
          Watched.record ((ofText {} "cut" cutField).program.watched {} ⟨fieldBound, []⟩) ∧
        (Action.ending ((ofText {} "cut" cutField).program.run {} fieldBound)).toOption = none := by
    decide +kernel
  exact ⟨wellFormed_fieldBound, hrun, (hrun.2.1 _).mp hrecord.1, (hrun.2.1 _).mp hrecord.2.1,
    hrecord⟩

end ParsedSource

end ArmPseudocode

import ArmPseudocode.Proofs.Parser.TracedRun
import ArmPseudocode.Proofs.Source.Grammar

/-!
# What makes a text faulty

A text has errors exactly if the tokenizer leaves an error token or a statement is given up, at the
top or inside another one. The trace that tells so is kept beside the reading, which it does not
change. A text without errors is spelled by its tokens, down to the smallest part of every
statement.
-/

namespace ArmPseudocode

namespace TokenStream

theorem marked_parse_iff (lines : LineTable) (config : DiagnosticConfig) (s : TokenStream) :
    (s.parse lines (.empty config)).2.Marked ↔ (s.parseTraced lines (.empty config)).2 ≠ [] := by
  obtain ⟨herrors, hqueue⟩ := s.parse_reportAll lines (.empty config)
  have hfailures : ∀ d ∈ (s.parseTraced lines (.empty config)).2.map (·.failure),
      d.isError = true := List.forall_mem_map.mpr herrors
  rw [hqueue, DiagnosticQueue.marked_reportAll_iff hfailures, ne_eq, List.map_eq_nil_iff]

end TokenStream

namespace ParsedSource

/-- Reads a text under limits on what is reported, and traces the statements given up. -/
def traced (config : DiagnosticConfig) (name : String) (text : List Char) :
    ParsedSource × List GivenUp :=
  let marked := Source.markup text
  let lines := LineTable.ofText marked
  let (stream, queue) := TokenStream.ofText lines (.empty config) marked
  let ((program, queue), givenUp) :=
    if queue.limitReached then ((Program.empty, queue), []) else stream.parseTraced lines queue
  ({ name, program, diagnostics := queue.flush.1 }, givenUp)

variable {text : List Char}

theorem traced_eq (config : DiagnosticConfig) (name : String) (text : List Char) :
    (traced config name text).1 = ofText config name text := by
  unfold traced ofText
  dsimp only
  generalize TokenStream.ofText _ _ _ = tokenized
  obtain ⟨stream, queue⟩ := tokenized
  dsimp only
  split
  · rfl
  · rw [← TokenStream.parseTraced_fst]

/-- A text without a fault of the tokenizer has errors exactly if a statement is given up. -/
theorem hasErrors_iff_traced {s : TokenStream} (name : String) (config : DiagnosticConfig)
    (hstream : TokenStream.ofText (lines text) (.empty config) (Source.markup text) =
      (s, .empty config)) :
    (ofText config name text).hasErrors = true ↔ (traced config name text).2 ≠ [] := by
  have htraced : (traced config name text).2 =
      (s.parseTraced (lines text) (.empty config)).2 := by
    rw [lines] at hstream
    simp only [traced, hstream]
    rfl
  rw [(ofText_of_stream name config hstream).2, htraced, TokenStream.marked_parse_iff]

theorem hasErrors_iff (config : DiagnosticConfig) (name : String) (text : List Char) :
    (ofText config name text).hasErrors = true ↔
      (∃ t ∈ (stream config text).tokens, t.kind = .error) ∨ (traced config name text).2 ≠ [] := by
  obtain ⟨s, hclean, hordinary⟩ | hfault :=
    TokenStream.ofText_faults (lines text) (Source.markup text)
  · have hstream : stream config text = s := congrArg Prod.fst (hclean config)
    have hnoError : ¬∃ t ∈ s.tokens, t.kind = .error := fun ⟨t, ht, herror⟩ =>
      (hordinary t ht).2 herror
    rw [hstream, hasErrors_iff_traced name config (hclean config), or_iff_right hnoError]
  · obtain ⟨htoken, hmarked⟩ := hfault config
    exact iff_of_true (hasErrors_of_marked name config hmarked) (.inl htoken)

/-- Whether a text has errors does not depend on the limits under which it is read: it has them
exactly if the tokenizer leaves an error token or a statement is given up, wherever it stands. A
text without errors is read as the same program under all limits. Every token of it belongs to an
accepted statement, together the tokens spell the program with all that is nested in it, and
everything in the program was read. -/
theorem hasErrors_iff_and_accepted (config config' : DiagnosticConfig) (name : String)
    (text : List Char) :
    (ofText config name text).hasErrors = (ofText config' name text).hasErrors ∧
      ((traced config name text).1 = ofText config name text ∧
        ((ofText config name text).hasErrors = true ↔
          (∃ t ∈ (stream config text).tokens, t.kind = .error) ∨
            (traced config name text).2 ≠ [])) ∧
      ((ofText config name text).hasErrors = false →
        (ofText config name text).program = (ofText config' name text).program ∧
          (∃ final, ParseStmt.AcceptedRun
              (ParseStmt.stmtAt (lines text) ((stream config text).tokens.length + 1))
              ⟨.atStart (stream config text), .empty config⟩ (ofText config name text).program.body
              final ∧
            (Cursor.atStart (stream config text)).Passes
              ((stream config text).tokens.map (·.kind)) final.cursor ∧
            final.cursor.kind = .eof) ∧
          Spells ((stream config text).tokens.map (·.kind)) .eof
            (.list (ofText config name text).program.erase.body) ∧
          ∀ x ∈ (ofText config name text).program.walk, x.isMalformed = false ∧
            ∀ e ∈ x.exprs, ∀ part ∈ e.walk, part.isMalformed = false) := by
  obtain ⟨s, body, c, hordinary, hpasses, hend, hread⟩ | herrors := ofText_uniform text
  · obtain ⟨hclean, hparse, hrun⟩ := hread config
    obtain ⟨hclean', hparse', -⟩ := hread config'
    obtain ⟨hprogram, hnone⟩ := hasErrors_of_parse_eq name config hclean hparse
    obtain ⟨hprogram', hnone'⟩ := hasErrors_of_parse_eq name config' hclean' hparse'
    have hstream : stream config text = s := congrArg Prod.fst hclean
    refine ⟨by rw [hnone, hnone'], ⟨traced_eq config name text, hasErrors_iff config name text⟩,
      fun _ => ⟨by rw [hprogram, hprogram'], ?_, spells_of_accepted hnone, ?_⟩⟩
    · rw [hstream, hprogram]
      exact ⟨⟨c, .empty config⟩, hrun, hpasses, hend⟩
    · have hall := s.isMalformed_eq_false_of_mem_parse (lines text) (.empty config)
        fun t ht => (hordinary t ht).2
      rw [hparse] at hall
      rwa [hprogram]
  · refine ⟨by rw [herrors, herrors],
      ⟨traced_eq config name text, hasErrors_iff config name text⟩, fun hnone => ?_⟩
    rw [herrors] at hnone
    cases hnone

def guardedAssignment : List Char :=
  "if x == '1x' then y = UInt(x<1:0>);\n".toList

/-- Under the usual limits and where the first error ends the reading, it is the same program. -/
theorem guardedAssignment_accepted :
    (ofText {} "guarded" guardedAssignment).hasErrors = false ∧
      (ofText {} "guarded" guardedAssignment).program =
        (ofText ⟨1, false⟩ "guarded" guardedAssignment).program ∧
      (∃ final, ParseStmt.AcceptedRun
        (ParseStmt.stmtAt (lines guardedAssignment)
          ((stream {} guardedAssignment).tokens.length + 1))
        ⟨.atStart (stream {} guardedAssignment), .empty {}⟩
        (ofText {} "guarded" guardedAssignment).program.body final) ∧
      Spells ((stream {} guardedAssignment).tokens.map (·.kind)) .eof
        (.list (ofText {} "guarded" guardedAssignment).program.erase.body) := by
  have hnone : (ofText {} "guarded" guardedAssignment).hasErrors = false := by decide +kernel
  obtain ⟨-, -, haccepted⟩ :=
    hasErrors_iff_and_accepted {} ⟨1, false⟩ "guarded" guardedAssignment
  obtain ⟨hprogram, ⟨final, hrun, -, -⟩, hspells, -⟩ := haccepted hnone
  exact ⟨hnone, hprogram, ⟨final, hrun⟩, hspells⟩

/-- A statement inside a block is given up. -/
example : (traced {} "nested" "if a then\n\tx = ;\ny = 2;".toList).2.map (·.failure.code) =
    [.expectedExpression] := by
  decide +kernel

end ParsedSource

end ArmPseudocode

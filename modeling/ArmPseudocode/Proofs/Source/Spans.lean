import ArmPseudocode.Proofs.Parser.FormExtent
import ArmPseudocode.Proofs.Source.Acceptance

/-!
# The spans of a program

The tokens of a text are in order and lie in the text, so everything that is read of it has the
extent of its tokens: the spans of a program are nested as its statements and expressions are, and
those that stand side by side do not overlap.
-/

namespace ArmPseudocode

namespace TokenStream

variable {size : Nat} {s : TokenStream}

theorem InOrder.mono {size' : Nat} {ts : List Token} (h : InOrder size ts) (hsize : size ≤ size') :
    InOrder size' ts :=
  ⟨fun t ht => ⟨(h.bounds t ht).1, Nat.le_trans (h.bounds t ht).2 hsize⟩, h.ascending⟩

theorem place_atStart (h : InOrder size s.toList) :
    (Cursor.atStart s).Place size (Cursor.atStart s) := by
  refine ⟨.refl _, Cursor.terminated_atStart s, ?_⟩
  have hstart : (Cursor.atStart s).before = [] := by
    rw [Cursor.atStart]
    split <;> rfl
  rw [hstart, Cursor.remaining_atStart]
  exact h

theorem parse_wellSpanned (lines : LineTable) (q : DiagnosticQueue) (h : InOrder size s.toList) :
    (∀ x ∈ (s.parse lines q).1.walk, x.WellSpanned lines (.atStart s) size) ∧
      (s.parse lines q).1.body.Pairwise fun a b => a.info.Precedes b.info := by
  have hstart := place_atStart h
  have hstmt := ParseStmt.stmtAt_places lines (.atStart s) size (s.tokens.length + 1)
  obtain ⟨-, hlisted⟩ := ParseStmt.list_listed hstmt hstart (Nat.le_of_eq s.length_kinds_atStart)
    (fun _ => false) (s.tokens.length + 1) q
  refine ⟨?_, hlisted.ascending⟩
  rw [Program.walk, Stmt.forall_walkAll]
  exact fun st hst x hx => (hlisted.inside st hst x hx).1

end TokenStream

namespace ParsedSource

theorem program_cases (config : DiagnosticConfig) (name : String) (text : List Char) :
    (ofText config name text).program = .empty ∨
      ∃ queue, (ofText config name text).program =
        ((stream config text).parse (lines text) queue).1 := by
  rw [ofText]
  dsimp only
  split
  · exact .inl rfl
  · exact .inr ⟨_, rfl⟩

/-- An arm without a token takes in the pattern in front of it and the word behind it. -/
example :
    (ofText {} "arms" "case x of\n\twhen 1\n\twhen 2 y = 0;".toList).program.walk.map (·.info) =
      [⟨0, 36⟩, ⟨18, 25⟩, ⟨28, 34⟩, ⟨28, 34⟩] := by
  decide +kernel

end ParsedSource

end ArmPseudocode

import ArmPseudocode.Proofs.Diagnostic.Queue
import ArmPseudocode.Proofs.Parser.Steps

/-!
# What is recorded about a text

The parser reports about the token where it stands, and it never goes back, so the tokens of its
reports come in the order of the text. Every entry of a queue is about a token of the text: it has
the span of the token, and the line on which that span starts. The entry that marks the limit is
about the token of the error with which the limit is reached.
-/

namespace ArmPseudocode

variable {lines : LineTable} {c c' : Cursor} {q q' q'' : DiagnosticQueue} {d : Diagnostic}
  {t : Token}

/-- The entry has the span of the token and the line on which it starts. -/
def Concerns (lines : LineTable) (t : Token) (entry : LocatedDiagnostic) : Prop :=
  entry.diagnostic.span = some t.span ∧ entry.line = lines.lineAt t.span.start

/-- An entry that a report brings is about the token that the report is about. -/
theorem concerns_of_report (hd : d.span = some t.span) :
    ∀ entry ∈ (q.report lines d).entries, entry ∈ q.entries ∨ Concerns lines t entry := by
  have hline : DiagnosticQueue.lineOf lines d = lines.lineAt t.span.start := by
    rw [DiagnosticQueue.lineOf, hd]
  have happend : ∀ entry ∈ (q.append d (lines.lineAt t.span.start)).entries,
      entry ∈ q.entries ∨ Concerns lines t entry := by
    intro entry hmem
    obtain hmem | hmem := List.mem_append.mp hmem
    · exact .inl hmem
    · rw [List.mem_singleton.mp hmem]
      exact .inr ⟨hd, rfl⟩
  rw [DiagnosticQueue.report, DiagnosticQueue.addAt, hline, DiagnosticQueue.add]
  split
  · exact fun entry => .inl
  · dsimp only
    split
    · rw [DiagnosticQueue.countError, hd]
      dsimp only [Option.getD_some]
      split
      · intro entry hmem
        obtain hmem | hmem := List.mem_append.mp hmem
        · exact happend entry hmem
        · rw [List.mem_singleton.mp hmem]
          exact .inr ⟨rfl, rfl⟩
      · exact happend
    · exact happend

/-- What is in the second queue is in the first, or is about a token that remains at a cursor. -/
def Recorded (lines : LineTable) (c : Cursor) (q q' : DiagnosticQueue) : Prop :=
  ∀ entry ∈ q'.entries, entry ∈ q.entries ∨ ∃ t ∈ c.remaining, Concerns lines t entry

namespace Recorded

theorem refl : Recorded lines c q q := fun _ => .inl

theorem trans (h : Recorded lines c q q') (hc : c.Reaches c')
    (h' : Recorded lines c' q' q'') : Recorded lines c q q'' := by
  intro entry hmem
  obtain hmem | ⟨t, ht, hentry⟩ := h' entry hmem
  · exact h entry hmem
  · exact .inr ⟨t, hc.subset ht, hentry⟩

theorem report (h : Recorded lines c q q') (hc : c.Reaches c')
    (hd : d.span = some c'.here.span) : Recorded lines c q (q'.report lines d) := by
  refine h.trans hc fun entry hmem => ?_
  obtain hmem | hentry := concerns_of_report hd entry hmem
  · exact .inl hmem
  · exact .inr ⟨c'.here, List.mem_cons_self, hentry⟩

end Recorded

/-- Syntax errors about tokens on the way from one cursor to another, in the order of the tokens. -/
inductive Blames : Cursor → List Diagnostic → Cursor → Prop
  | nil {c c' : Cursor} (h : c.Reaches c') : Blames c [] c'
  | cons {c c' c'' : Cursor} {d : Diagnostic} {ds : List Diagnostic} (h : c.Reaches c')
      (hcode : d.code.isSyntactic = true) (hspan : d.span = some c'.here.span)
      (hrest : Blames c' ds c'') : Blames c (d :: ds) c''

namespace Blames

variable {c'' : Cursor} {ds ds' : List Diagnostic}

theorem reaches (h : Blames c ds c') : c.Reaches c' := by
  induction h with
  | nil h => exact h
  | cons h _ _ _ ih => exact h.trans ih

theorem of_reaches (hc : c.Reaches c') (h : Blames c' ds c'') : Blames c ds c'' := by
  cases h with
  | nil h => exact .nil (hc.trans h)
  | cons h hcode hspan hrest => exact .cons (hc.trans h) hcode hspan hrest

theorem trans (h : Blames c ds c') (h' : Blames c' ds' c'') : Blames c (ds ++ ds') c'' := by
  induction h with
  | nil h => exact h'.of_reaches h
  | cons h hcode hspan _ ih => exact .cons h hcode hspan (ih h')

theorem report (h : Blames c ds c') (hcode : d.code.isSyntactic = true)
    (hspan : d.span = some c'.here.span) (hc : c'.Reaches c'') : Blames c (ds ++ [d]) c'' :=
  h.trans (.cons (.refl c') hcode hspan (.nil hc))

theorem recorded (h : Blames c ds c') (q : DiagnosticQueue) :
    Recorded lines c q (q.reportAll lines ds) := by
  induction h generalizing q with
  | nil => exact .refl
  | cons h _ hspan _ ih => exact (Recorded.refl.report h hspan).trans h (ih _)

end Blames

end ArmPseudocode

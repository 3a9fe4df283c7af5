import ArmPseudocode.Proofs.Parser.Completeness
import ArmPseudocode.Proofs.Parser.Recognition
import ArmPseudocode.Proofs.Source.Acceptance
import ArmPseudocode.Proofs.Token.Lexing

/-!
# The grammar of the accepted texts

A text is accepted as a program exactly if it is cut into pieces that are no faults, and the tokens
among them spell the program up to the end of the text.
-/

namespace ArmPseudocode

namespace TokenStream

open ParseStmt (Clean statements stmtAt)

def statements (lines : LineTable) (s : TokenStream) : ParseStmt (List (Stmt Span)) :=
  ParseStmt.statements lines (stmtAt lines (s.tokens.length + 1)) (fun _ => false)
    (s.tokens.length + 1)

theorem parse_of_clean {lines : LineTable} {s : TokenStream} {body : List (Stmt Span)} {d : Cursor}
    (h : Clean (s.statements lines) (.atStart s) body d) {q : DiagnosticQueue}
    (hq : q.limitReached = false) : s.parse lines q = (⟨body⟩, q) := by
  have hrun := h q hq
  rw [statements, ParseStmt.statements] at hrun
  rw [parse]
  cases hlist : ParseStmt.list lines (stmtAt lines (s.tokens.length + 1)) (fun _ => false)
    (s.tokens.length + 1) ⟨.atStart s, q⟩
  rw [hlist] at hrun
  cases hrun
  rfl

/-- Where a stream is read without a report, its tokens spell what it is read as. -/
theorem spells_of_clean {lines : LineTable} {s : TokenStream} {body : List (Stmt Span)} {d : Cursor}
    (hinner : ∀ t ∈ s.tokens, t.kind ≠ .eof) (hend : d.atEnd = true)
    (h : Clean (s.statements lines) (.atStart s) body d) :
    Spells (s.tokens.map (·.kind)) .eof (.list (Stmt.eraseAll body)) := by
  have hstart := Cursor.terminated_atStart s
  have hlength := Nat.le_of_eq s.length_kinds_atStart
  obtain ⟨ks, hpass, hspells⟩ := ParseStmt.list_recognized hstart
    (ParseStmt.stmtAt_conduct lines hstart _) (ParseStmt.stmtAt_recognizes lines _)
    (.refl (.atStart s)) hlength h
  have hall := passes_tokens hinner hpass.reaches hend
  have hkind : d.kind = .eof := by simpa [Cursor.atEnd] using hend
  rw [List.append_cancel_right (hall.kinds_eq.symm.trans hpass.kinds_eq), ← hkind]
  exact hspells

/-- A stream is read up to its end without a report, or something in it is reported to every
queue. -/
theorem clean_or_reports (lines : LineTable) (s : TokenStream) :
    (∃ body d, d.atEnd = true ∧ Clean (s.statements lines) (.atStart s) body d) ∨
      ∀ q : DiagnosticQueue, q.limitReached = false → ∃ e : Diagnostic, e.isError = true ∧
        (q.report lines e).Reported lines (s.parse lines q).2 := by
  have hstmt := ParseStmt.stmtAt_conduct lines (Cursor.terminated_atStart s) (s.tokens.length + 1)
  obtain ⟨body, d, hend, hlist⟩ | hreports := ParseStmt.list_uniform hstmt (fun _ => false)
    (s.tokens.length + 1) (.refl (.atStart s))
  · refine .inl ⟨body, d, ?_, fun q hq => ?_⟩
    · simpa using hend (Nat.le_of_eq s.length_kinds_atStart)
    · rw [statements, ParseStmt.statements, (hlist q hq).1]
  · exact .inr hreports

theorem spells_of_parse {lines : LineTable} {config : DiagnosticConfig} {s : TokenStream}
    (hinner : ∀ t ∈ s.tokens, t.kind ≠ .eof)
    (hnone : (s.parse lines (.empty config)).2.entries = []) :
    Spells (s.tokens.map (·.kind)) .eof
      (.list (Stmt.eraseAll (s.parse lines (.empty config)).1.body)) := by
  obtain ⟨body, d, hend, hclean⟩ | hreports := s.clean_or_reports lines
  · rw [parse_of_clean hclean rfl]
    exact spells_of_clean hinner hend hclean
  · obtain ⟨e, he, hreported⟩ := hreports (.empty config) rfl
    obtain ⟨entry, hmem, -⟩ := hreported.marked (DiagnosticQueue.marked_report rfl rfl he)
    rw [hnone] at hmem
    cases hmem

/-- Where the tokens of a stream spell a program, the stream is read as that program without a
report. -/
theorem clean_of_spells (lines : LineTable) {s : TokenStream} {ss : List (Stmt Unit)}
    (h : Spells (s.tokens.map (·.kind)) .eof (.list ss)) :
    ∃ body d, Clean (s.statements lines) (.atStart s) body d ∧ Stmt.eraseAll body = ss := by
  have hstart : (Cursor.atStart s).Faces (s.tokens.map (·.kind)) .eof (s.tokens.length + 1) :=
    ⟨Cursor.terminated_atStart s, Nat.le_of_eq s.length_kinds_atStart, [], Cursor.kinds_atStart s⟩
  obtain ⟨body, d, hrun, -, herase⟩ := ParseStmt.accepted_of_spells lines h _ (fun _ => false) _ _
    _ (Nat.le_refl _) (Nat.le_refl _) (fun _ _ => rfl) (.inl rfl) hstart
  exact ⟨body, d, hrun, herase⟩

end TokenStream

namespace ParsedSource

variable {config : DiagnosticConfig} {name : String} {text : List Char}

def kinds (config : DiagnosticConfig) (text : List Char) : List TokenKind :=
  (stream config text).tokens.map (·.kind)

/-- The program of an accepted text is spelled by its tokens. -/
theorem spells_of_accepted (h : (ofText config name text).hasErrors = false) :
    Spells (kinds config text) .eof (.list (ofText config name text).program.erase.body) := by
  obtain ⟨s, hclean, hordinary⟩ | hfault :=
    TokenStream.ofText_faults (lines text) (Source.markup text)
  · have hstream : stream config text = s := congrArg Prod.fst (hclean config)
    obtain ⟨body, d, hend, hrun⟩ | hreports := s.clean_or_reports (lines text)
    · obtain ⟨hprogram, -⟩ := hasErrors_of_parse_eq name config (hclean config)
        (TokenStream.parse_of_clean hrun rfl)
      rw [kinds, hstream, hprogram]
      exact TokenStream.spells_of_clean (fun t ht => (hordinary t ht).1) hend hrun
    · obtain ⟨e, he, hreported⟩ := hreports (.empty config) rfl
      rw [hasErrors_of_reported name config (hclean config) he hreported] at h
      cases h
  · rw [hasErrors_of_marked name config (hfault config).2] at h
    cases h

theorem ne_error_of_accepted (h : (ofText config name text).hasErrors = false) :
    ∀ t ∈ (stream config text).tokens, t.kind ≠ .error := by
  obtain ⟨s, hclean, hordinary⟩ | hfault :=
    TokenStream.ofText_faults (lines text) (Source.markup text)
  · have hstream : stream config text = s := congrArg Prod.fst (hclean config)
    rw [hstream]
    exact fun t ht => (hordinary t ht).2
  · rw [hasErrors_of_marked name config (hfault config).2] at h
    cases h

theorem lexed_of_accepted (h : (ofText config name text).hasErrors = false) :
    Lexeme.Lexed (Source.markup text) (kinds config text) :=
  TokenStream.lexed_of_ofText _ config (ne_error_of_accepted h)

/-- A text is accepted as a program exactly if its tokens spell the program. -/
theorem accepted_iff {p : Program Unit} :
    (ofText config name text).hasErrors = false ∧ (ofText config name text).program.erase = p ↔
      ∃ ks, Lexeme.Lexed (Source.markup text) ks ∧ Spells ks .eof (.list p.body) := by
  constructor
  · rintro ⟨hnone, rfl⟩
    exact ⟨_, lexed_of_accepted hnone, spells_of_accepted hnone⟩
  · rintro ⟨ks, hlexed, hspells⟩
    obtain ⟨s, hread, rfl⟩ := TokenStream.ofText_of_lexed (lines text) config hlexed
    obtain ⟨body, d, hrun, herase⟩ := TokenStream.clean_of_spells (lines text) hspells
    obtain ⟨hprogram, hnone⟩ := hasErrors_of_parse_eq name config hread
      (TokenStream.parse_of_clean hrun rfl)
    exact ⟨hnone, by rw [hprogram, Program.erase, herase]⟩

end ParsedSource

end ArmPseudocode

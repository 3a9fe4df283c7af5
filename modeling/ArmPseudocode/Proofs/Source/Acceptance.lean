import ArmPseudocode.Parser.Source
import ArmPseudocode.Proofs.Parser.Recovery
import ArmPseudocode.Proofs.Token.Stream

/-!
# Which texts are accepted

Whether a text has errors does not depend on the limits under which it is read: until the first
report no queue has any influence, and the first report is taken by all of them. So a text without
errors is read as the same program under all limits, every token of it belongs to an accepted
statement, and nothing in the program stands for something that could not be read.
-/

namespace ArmPseudocode

namespace TokenStream

variable {lines : LineTable} {s : TokenStream}

theorem length_kinds_atStart (s : TokenStream) :
    (Cursor.atStart s).kinds.length = s.tokens.length + 1 := by
  rw [Cursor.kinds_atStart, List.length_append, List.length_map, List.length_singleton]

theorem parse_reported (lines : LineTable) (q : DiagnosticQueue) (s : TokenStream) :
    q.Reported lines (s.parse lines q).2 := by
  have hstmt := ParseStmt.stmtAt_conduct lines (Cursor.terminated_atStart s) (s.tokens.length + 1)
  exact (ParseStmt.list_reported hstmt (fun _ => false) (s.tokens.length + 1) q (.refl _)).2

theorem everywhere_of_mem_parse (lines : LineTable) (q : DiagnosticQueue) (s : TokenStream) :
    ∀ st ∈ (s.parse lines q).1.body, st.Everywhere (ReadFrom (.atStart s)) := by
  have hstmt := ParseStmt.stmtAt_conduct lines (Cursor.terminated_atStart s) (s.tokens.length + 1)
  exact ParseStmt.list_good hstmt (fun _ => false) (s.tokens.length + 1) q (.refl _)

/-- A stream is either read as one program for every queue, every token of it belonging to an
accepted statement, or something in it is reported to each of them. -/
theorem parse_uniform (lines : LineTable) (s : TokenStream) :
    (∃ body c', (Cursor.atStart s).Reaches c' ∧ c'.atEnd = true ∧
        ∀ q : DiagnosticQueue, q.limitReached = false → s.parse lines q = (⟨body⟩, q) ∧
          ParseStmt.AcceptedRun (ParseStmt.stmtAt lines (s.tokens.length + 1)) ⟨.atStart s, q⟩ body
            ⟨c', q⟩) ∨
      ∀ q : DiagnosticQueue, q.limitReached = false → ∃ d : Diagnostic, d.isError = true ∧
        (q.report lines d).Reported lines (s.parse lines q).2 := by
  have hlength := Nat.le_of_eq s.length_kinds_atStart
  have hstmt := ParseStmt.stmtAt_conduct lines (Cursor.terminated_atStart s) (s.tokens.length + 1)
  obtain ⟨body, c', hend, hlist⟩ | hreports := ParseStmt.list_uniform hstmt (fun _ => false)
    (s.tokens.length + 1) (.refl (.atStart s))
  · refine .inl ⟨body, c', ?_, ?_, fun q hq => ?_⟩
    · have hreaches := (ParseStmt.list_reported hstmt (fun _ => false) (s.tokens.length + 1)
        (.empty {}) (.refl (.atStart s))).1
      rwa [(hlist _ rfl).1] at hreaches
    · obtain hatEnd | hfalse := hend hlength
      · exact hatEnd
      · nomatch hfalse
    · obtain ⟨hread, hrun⟩ := hlist q hq
      exact ⟨by rw [parse, hread], hrun⟩
  · exact .inr hreports

/-- Without an error token in the stream, everything in the program was read. -/
theorem isMalformed_eq_false_of_mem_parse (lines : LineTable) (q : DiagnosticQueue)
    (hnoError : ∀ t ∈ s.tokens, t.kind ≠ .error) :
    ∀ x ∈ (s.parse lines q).1.walk, x.isMalformed = false ∧
      ∀ e ∈ x.exprs, ∀ part ∈ e.walk, part.isMalformed = false := by
  rw [Program.walk, Stmt.forall_walkAll]
  intro st hst x hx
  obtain ⟨hmalformed, hexprs⟩ := s.everywhere_of_mem_parse lines q st hst x hx
  refine ⟨hmalformed, fun e he part hpart => ?_⟩
  apply Expr.isMalformed_eq_false_of_mem_walk _ hpart
  intro herror
  have hmem := (hexprs e he).mem_kinds _ herror
  rw [Cursor.kinds_atStart] at hmem
  obtain hmem | heof := List.mem_append.mp hmem
  · obtain ⟨t, ht, hkind⟩ := List.mem_map.mp hmem
    exact hnoError t ht hkind
  · nomatch List.mem_singleton.mp heof

/-- What was read up to the end of a stream is all of it, if the end stands nowhere inside. -/
theorem passes_tokens {c : Cursor} (hinner : ∀ t ∈ s.tokens, t.kind ≠ .eof)
    (hreaches : (Cursor.atStart s).Reaches c) (hend : c.atEnd = true) :
    (Cursor.atStart s).Passes (s.tokens.map (·.kind)) c := by
  obtain ⟨ks, hpass⟩ := hreaches
  have hkind : c.kind = .eof := by simpa [Cursor.atEnd] using hend
  have hkinds := hpass.kinds_eq
  rw [Cursor.kinds_atStart, Cursor.kinds_eq, hkind] at hkinds
  have hall : ks = s.tokens.map (·.kind) := by
    obtain ⟨behind, hks, hrest⟩ | ⟨behind, hks, hrest⟩ := List.append_eq_append_iff.mp hkinds
    · have hlength := congrArg List.length hrest
      simp only [List.length_append, List.length_cons, List.length_nil] at hlength
      have hnil : behind = [] := List.eq_nil_of_length_eq_zero (by omega)
      rw [hks, hnil, List.append_nil]
    · cases behind with
      | nil => rw [hks, List.append_nil]
      | cons k behind =>
          have hmem : TokenKind.eof ∈ s.tokens.map (·.kind) := by
            rw [hks, ← (List.cons.inj hrest).1]
            exact List.mem_append_right _ List.mem_cons_self
          obtain ⟨t, ht, heof⟩ := List.mem_map.mp hmem
          exact absurd heof (hinner t ht)
  rwa [← hall]

theorem passes_of_atEnd {c : Cursor} (hordinary : ∀ t ∈ s.tokens, t.kind.Ordinary)
    (hreaches : (Cursor.atStart s).Reaches c) (hend : c.atEnd = true) :
    (Cursor.atStart s).Passes (s.tokens.map (·.kind)) c :=
  passes_tokens (fun t ht => (hordinary t ht).1) hreaches hend

end TokenStream

namespace ParsedSource

def stream (config : DiagnosticConfig) (text : List Char) : TokenStream :=
  (TokenStream.ofText (.ofText (Source.markup text)) (.empty config) (Source.markup text)).1

def lines (text : List Char) : LineTable := .ofText (Source.markup text)

variable {text : List Char}

/-- What is reported while a text is read, in the order of the reports. -/
def reported (config : DiagnosticConfig) (text : List Char) : DiagnosticQueue :=
  let (stream, queue) :=
    TokenStream.ofText (lines text) (.empty config) (Source.markup text)
  if queue.limitReached then queue else (stream.parse (lines text) queue).2

/-- A text has errors if one was reported; the order of the diagnostics does not matter. -/
theorem hasErrors_iff_marked (name : String) (config : DiagnosticConfig) :
    (ofText config name text).hasErrors = true ↔ (reported config text).Marked := by
  rw [hasErrors, ofText, reported, lines]
  dsimp only
  split <;> exact DiagnosticQueue.any_flush_iff _

theorem ofText_of_stream {s : TokenStream} (name : String) (config : DiagnosticConfig)
    (hstream : TokenStream.ofText (lines text) (.empty config) (Source.markup text) =
      (s, .empty config)) :
    (ofText config name text).program = (s.parse (lines text) (.empty config)).1 ∧
      ((ofText config name text).hasErrors = true ↔
        (s.parse (lines text) (.empty config)).2.Marked) := by
  have hrun : ofText config name text = ⟨name, (s.parse (lines text) (.empty config)).1,
      (s.parse (lines text) (.empty config)).2.flush.1⟩ := by
    rw [lines] at hstream
    simp only [ofText, hstream]
    rfl
  rw [hrun]
  exact ⟨rfl, DiagnosticQueue.any_flush_iff _⟩

/-- A fault of the tokenizer is an error, whether or not the text is then read as a program. -/
theorem hasErrors_of_marked (name : String) (config : DiagnosticConfig)
    (hmarked : (TokenStream.ofText (lines text) (.empty config) (Source.markup text)).2.Marked) :
    (ofText config name text).hasErrors = true := by
  rw [hasErrors_iff_marked, reported]
  dsimp only
  split
  · exact hmarked
  · exact (TokenStream.parse_reported _ _ _).marked hmarked

/-- A text without a fault of the tokenizer has errors if the parser reports one. -/
theorem hasErrors_of_reported {s : TokenStream} (name : String) (config : DiagnosticConfig)
    (hstream : TokenStream.ofText (lines text) (.empty config) (Source.markup text) =
      (s, .empty config))
    {d : Diagnostic} (hd : d.isError = true)
    (hreported : ((DiagnosticQueue.empty config).report (lines text) d).Reported (lines text)
      (s.parse (lines text) (.empty config)).2) :
    (ofText config name text).hasErrors = true := by
  apply (ofText_of_stream name config hstream).2.mpr
  exact hreported.marked (DiagnosticQueue.marked_report rfl rfl hd)

theorem hasErrors_of_parse_eq {s : TokenStream} {p : Program Span} (name : String)
    (config : DiagnosticConfig)
    (hstream : TokenStream.ofText (lines text) (.empty config) (Source.markup text) =
      (s, .empty config))
    (hparse : s.parse (lines text) (.empty config) = (p, .empty config)) :
    (ofText config name text).program = p ∧ (ofText config name text).hasErrors = false := by
  obtain ⟨hprogram, herrors⟩ := ofText_of_stream name config hstream
  rw [hparse] at hprogram herrors
  refine ⟨hprogram, ?_⟩
  rw [Bool.eq_false_iff, ne_eq, herrors]
  exact DiagnosticQueue.not_marked_empty config

/-- A text is either read as one program under all limits, every token of it belonging to an
accepted statement, or it has errors under all of them. -/
theorem ofText_uniform (text : List Char) :
    (∃ (s : TokenStream) (body : List (Stmt Span)) (c : Cursor),
        (∀ t ∈ s.tokens, t.kind.Ordinary) ∧ (Cursor.atStart s).Passes (s.tokens.map (·.kind)) c ∧
        c.kind = .eof ∧ ∀ config,
          TokenStream.ofText (lines text) (.empty config) (Source.markup text) =
              (s, .empty config) ∧
            s.parse (lines text) (.empty config) = (⟨body⟩, .empty config) ∧
            ParseStmt.AcceptedRun (ParseStmt.stmtAt (lines text) (s.tokens.length + 1))
              ⟨.atStart s, .empty config⟩ body ⟨c, .empty config⟩) ∨
      ∀ config name, (ofText config name text).hasErrors = true := by
  obtain ⟨s, hclean, hordinary⟩ | hfault :=
    TokenStream.ofText_faults (lines text) (Source.markup text)
  · obtain ⟨body, c, hreaches, hend, hread⟩ | hreports := s.parse_uniform (lines text)
    · refine .inl ⟨s, body, c, hordinary, TokenStream.passes_of_atEnd hordinary hreaches hend, ?_,
        fun config => ⟨hclean config, hread (.empty config) rfl⟩⟩
      simpa [Cursor.atEnd] using hend
    · refine .inr fun config name => ?_
      obtain ⟨d, hd, hreported⟩ := hreports (.empty config) rfl
      exact hasErrors_of_reported name config (hclean config) hd hreported
  · exact .inr fun config name => hasErrors_of_marked name config (hfault config).2

end ParsedSource

end ArmPseudocode

import ArmPseudocode.Proofs.Parser.Levels
import ArmPseudocode.Proofs.Source.Acceptance

/-!
# Every stream is read to its end

However malformed a stream is, reading it ends. The parser only goes forward and never past the end
of the text; each round of each list of statements takes a token at least, also where a statement
failed on the spot; and so the tokens bound the rounds, the nesting and the number of reports. The
bounds that the functions of the parser count down are the proof of it in the program: none of them
is ever used up.
-/

namespace ArmPseudocode.TokenStream

open Parse (Nested)
open ParseStmt (list above afterOne stmtAt stops)

variable {lines : LineTable} {q : DiagnosticQueue} {s : TokenStream} {c c' : Cursor}

theorem position_add_length (hc : (Cursor.atStart s).Reaches c) :
    c.position + c.kinds.length = s.tokens.length + 1 := by
  obtain ⟨ks, hpass⟩ := hc
  have hposition := hpass.position
  have hlength := hpass.length
  have hstart : (Cursor.atStart s).position = 0 := by
    rw [Cursor.position, Cursor.atStart]
    split <;> rfl
  rw [length_kinds_atStart] at hlength
  omega

/-- A place in a stream, and a place that is reached from it. -/
def Onward (s : TokenStream) (c c' : Cursor) : Prop :=
  c.position ≤ c'.position ∧ c'.position ≤ s.tokens.length

theorem onward_of_reaches (hc : (Cursor.atStart s).Reaches c) (h : c.Reaches c') :
    s.Onward c c' := by
  have hfirst := position_add_length hc
  have hsecond := position_add_length (hc.trans h)
  have hlength := h.length_le
  have hleft := c'.length_kinds
  constructor <;> omega

/-- How a stream is read, starting with what a queue holds. -/
structure Progress (lines : LineTable) (q : DiagnosticQueue) (s : TokenStream) : Prop where
  /-- Expressions and types are read without regard to the bounds: any that are larger than the
  number of tokens come to the same, whatever is done below the deepest level. -/
  exprs_bounded : ∀ c, (Cursor.atStart s).Reaches c → ∀ (inPattern : Bool) (deepest : Nested)
    (bound bound' : Nat), s.tokens.length < bound → s.tokens.length < bound' →
      (∀ level, (Nested.above inPattern deepest bound').expr level c =
        Parse.exprAt inPattern bound level c) ∧
      (Nested.above inPattern deepest bound').type c = Parse.typeAt inPattern bound c
  /-- So are statements and lists of statements. -/
  stmts_bounded : ∀ c q, (Cursor.atStart s).Reaches c → ∀ (deepest : ParseStmt (Stmt Span))
    (bound bound' : Nat), s.tokens.length < bound → s.tokens.length < bound' →
      above lines deepest bound' ⟨c, q⟩ = stmtAt lines bound ⟨c, q⟩ ∧
      ∀ (ends : TokenKind → Bool) (rounds rounds' : Nat), s.tokens.length < rounds →
        s.tokens.length < rounds' → list lines (above lines deepest bound') ends rounds' ⟨c, q⟩ =
          list lines (stmtAt lines bound) ends rounds ⟨c, q⟩
  /-- The program is read up to the end of the text, or to the error limit. -/
  ends : ∀ final, (list lines (stmtAt lines (s.tokens.length + 1)) (fun _ => false)
      (s.tokens.length + 1) ⟨.atStart s, q⟩).2 = final →
    final.cursor.atEnd = true ∨ final.queue.limitReached = true
  /-- Reading an expression, a type or a statement never goes back, nor past the end. -/
  onward : ∀ c, (Cursor.atStart s).Reaches c → ∀ bound : Nat,
    (∀ inPattern level, s.Onward c (stateAfter (Parse.exprAt inPattern bound level c))) ∧
    (∀ inPattern, s.Onward c (stateAfter (Parse.typeAt inPattern bound c))) ∧
    ∀ q, s.Onward c (stateAfter (stmtAt lines bound ⟨c, q⟩)).cursor
  /-- A list of statements that does not stop at a place goes on further behind. -/
  rounds : ∀ c q, (Cursor.atStart s).Reaches c → ∀ (ends : TokenKind → Bool) (bound rounds : Nat),
    stops ends ⟨c, q⟩ = false →
      c.position < (afterOne lines (stmtAt lines bound) ⟨c, q⟩).cursor.position ∧
      (list lines (stmtAt lines bound) ends (rounds + 1) ⟨c, q⟩).2 =
        (list lines (stmtAt lines bound) ends rounds
          (afterOne lines (stmtAt lines bound) ⟨c, q⟩)).2
  /-- There are no more reports than tokens in front of the end. -/
  reports : ∃ ds : List Diagnostic, (s.parse lines q).2 = q.reportAll lines ds ∧
    ds.length ≤ s.tokens.length
  /-- A queue that takes every report has no more entries for them. -/
  entries : q.config = ⟨0, false⟩ → q.limitReached = false →
    (s.parse lines q).2.entries.length ≤ q.entries.length + s.tokens.length

theorem length_entries_reportAll (ds : List Diagnostic) (hconfig : q.config = ⟨0, false⟩)
    (hopen : q.limitReached = false) :
    (q.reportAll lines ds).entries.length = q.entries.length + ds.length := by
  induction ds generalizing q with
  | nil => rfl
  | cons d ds ih =>
      obtain ⟨hentries, hconfig', hopen'⟩ :=
        DiagnosticQueue.entries_report_unlimited d hconfig hopen
      have hrest := ih hconfig' hopen'
      rw [hentries, List.length_append, List.length_singleton] at hrest
      rw [DiagnosticQueue.reportAll, List.foldl_cons, ← DiagnosticQueue.reportAll, hrest,
        List.length_cons]
      omega

theorem exists_reports (lines : LineTable) (q : DiagnosticQueue) (s : TokenStream) :
    ∃ ds : List Diagnostic, (s.parse lines q).2 = q.reportAll lines ds ∧
      ds.length ≤ s.tokens.length := by
  have hstart := Cursor.terminated_atStart s
  have hstmt := ParseStmt.stmtAt_conduct lines hstart (s.tokens.length + 1)
  obtain ⟨ds, hqueue, -, hcount⟩ := ParseStmt.list_counted hstart hstmt (fun _ => false)
    (s.tokens.length + 1) q (.refl _)
  refine ⟨ds, hqueue, ?_⟩
  rw [length_kinds_atStart, Cursor.length_kinds] at hcount
  obtain rfl | hcount := hcount
  · exact Nat.zero_le _
  · omega

/-- **Reading a stream ends**, whatever its tokens are and whatever was reported before. -/
theorem parse_progress (lines : LineTable) (q : DiagnosticQueue) (s : TokenStream) :
    Progress lines q s := by
  have hstart := Cursor.terminated_atStart s
  have hconduct : ∀ bound c, c.Terminated → ParseStmt.ConductStmt lines c (stmtAt lines bound) :=
    fun bound c hc => ParseStmt.stmtAt_conduct lines hc bound
  have hlength : ∀ {c bound}, (Cursor.atStart s).Reaches c → s.tokens.length < bound →
      c.kinds.length ≤ bound := by
    intro c bound hc hbound
    have hplace := position_add_length hc
    omega
  constructor
  case exprs_bounded =>
    intro c hc inPattern deepest bound bound' hbound hbound'
    obtain ⟨hexpr, htype⟩ := Nested.above_agree inPattern .giveUp deepest (hlength hc hbound)
      (hlength hc hbound')
    obtain ⟨hexpr', htype'⟩ := Nested.exprAt_typeAt_eq_above inPattern bound
    rw [hexpr', htype']
    exact ⟨fun level => (hexpr level c (hc.terminated hstart) (Nat.le_refl _)).same,
      (htype c (hc.terminated hstart) (Nat.le_refl _)).same⟩
  case stmts_bounded =>
    intro c q hc deepest bound bound' hbound hbound'
    have hagrees := ParseStmt.stmtAt_agrees lines deepest (hlength hc hbound) (hlength hc hbound')
    refine ⟨(hagrees c (hc.terminated hstart) (Nat.le_refl _)).same q, ?_⟩
    intro ends rounds rounds' hrounds hrounds'
    exact ParseStmt.list_agrees hagrees (hconduct bound) (hc.terminated hstart) (Nat.le_refl _)
      (hlength hc hrounds) (hlength hc hrounds')
  case ends =>
    rintro final rfl
    have hstops : stops (fun _ => false) (list lines (stmtAt lines (s.tokens.length + 1))
        (fun _ => false) (s.tokens.length + 1) ⟨.atStart s, q⟩).2 = true :=
      ParseStmt.list_stops (hconduct _) hstart (Nat.le_of_eq s.length_kinds_atStart)
    simpa [stops] using hstops
  case onward =>
    intro c hc bound
    refine ⟨fun inPattern level => ?_, fun inPattern => ?_, fun q => ?_⟩
    · exact onward_of_reaches hc (((Parse.Forward.exprAt_typeAt inPattern bound).1 level).reaches c)
    · exact onward_of_reaches hc ((Parse.Forward.exprAt_typeAt inPattern bound).2.reaches c)
    · exact onward_of_reaches hc ((hconduct bound c (hc.terminated hstart) c (.refl c)).reaches q)
  case rounds =>
    intro c q hc ends bound rounds hgoes
    have hend : c.atEnd = false :=
      ParseStmt.atEnd_of_not_stops (Bool.eq_false_iff.mp hgoes)
    have hstmt := hconduct bound c (hc.terminated hstart)
    have hreaches := (ParseStmt.afterOne_reported hstmt (.refl c) q).1
    have hless := ParseStmt.afterOne_consumes (hc.terminated hstart) hstmt (.refl c) hend q
    have hplace := position_add_length hc
    have hplace' := position_add_length (hc.trans hreaches)
    refine ⟨by omega, ?_⟩
    rw [ParseStmt.list_succ, hgoes]
    rfl
  case reports => exact exists_reports lines q s
  case entries =>
    intro hconfig hopen
    obtain ⟨ds, hqueue, hcount⟩ := exists_reports lines q s
    rw [hqueue, length_entries_reportAll ds hconfig hopen]
    omega

def strayWords : TokenStream where
  tokens := [.unindent, .fixed .kwWhen, .fixed .closeParen, .indent, .fixed .kwElse, .unindent].map
    fun kind => ⟨kind, .none⟩
  stop := 0

theorem strayWords_progress :
    (strayWords.parse (.ofText []) (.empty ⟨0, false⟩)).2.entries.length = 3 ∧
      ∃ ds : List Diagnostic, ds.length ≤ 6 ∧ (strayWords.parse (.ofText []) (.empty {})).2 =
        (DiagnosticQueue.empty {}).reportAll (.ofText []) ds := by
  obtain ⟨ds, hqueue, hcount⟩ := (parse_progress (.ofText []) (.empty {}) strayWords).reports
  exact ⟨by decide +kernel, ds, hcount, hqueue⟩

end ArmPseudocode.TokenStream

import ArmPseudocode.Proofs.Diagnostic.Limits
import ArmPseudocode.Proofs.Source.LineNumbers
import ArmPseudocode.Proofs.Token.Order
import Mathlib.Data.List.Nodup

/-!
# One syntax error on a line

The queue only remembers the line of the last syntax error. That is enough to keep one of them for
each line, because the parser reports where it stands: the tokens of its reports come in the order
of the text, so a line that was left behind is not reported again.
-/

namespace ArmPseudocode

/-! ### Reports in the order of the tokens -/

namespace Cursor

variable {c c' : Cursor} {s : TokenStream}

theorem Reaches.suffix (h : c.Reaches c') : c'.remaining <:+ c.remaining := by
  obtain ⟨_, passed, -, -, hremaining⟩ := h
  rw [hremaining]
  exact List.suffix_append passed _

theorem getElem?_position (h : (atStart s).Reaches c) : s.toList[c.position]? = some c.here := by
  obtain ⟨_, passed, -, hbefore, hremaining⟩ := h
  have hstart : (atStart s).before = [] := by
    rw [atStart]
    split <;> rfl
  rw [remaining_atStart] at hremaining
  rw [hstart, List.append_nil] at hbefore
  rw [hremaining, position, hbefore, List.length_reverse,
    List.getElem?_append_right (Nat.le_refl _), Nat.sub_self]
  rfl

theorem Reaches.position_le (h : c.Reaches c') : c.position ≤ c'.position := by
  obtain ⟨ks, hpass⟩ := h
  rw [hpass.position]
  exact Nat.le_add_right _ _

end Cursor

/-- Positions in a stream of the tokens that diagnostics are about, none in front of the one before
it. -/
structure AtPositions (s : TokenStream) (reports : List (Nat × Diagnostic)) : Prop where
  ascending : reports.Pairwise fun a b => a.1 ≤ b.1
  about : ∀ report ∈ reports, report.2.code.isSyntactic = true ∧
    ∃ t, s.toList[report.1]? = some t ∧ report.2.span = some t.span

theorem Blames.exists_positions {s : TokenStream} {c c' : Cursor} {ds : List Diagnostic}
    (h : Blames c ds c') (hc : (Cursor.atStart s).Reaches c) :
    ∃ reports : List (Nat × Diagnostic), reports.map (·.2) = ds ∧ AtPositions s reports ∧
      ∀ report ∈ reports, c.position ≤ report.1 := by
  induction h with
  | nil => exact ⟨[], rfl, ⟨.nil, nofun⟩, nofun⟩
  | @cons c c' c'' d ds hreaches hcode hspan _ ih =>
      have hc' := hc.trans hreaches
      obtain ⟨reports, rfl, ⟨hascending, habout⟩, hbehind⟩ := ih hc'
      refine ⟨(c'.position, d) :: reports, rfl, ⟨.cons hbehind hascending, ?_⟩, ?_⟩
      · refine List.forall_mem_cons.mpr ⟨⟨hcode, c'.here, ?_, hspan⟩, habout⟩
        exact Cursor.getElem?_position hc'
      · refine List.forall_mem_cons.mpr ⟨hreaches.position_le, fun report hreport => ?_⟩
        exact Nat.le_trans hreaches.position_le (hbehind report hreport)

/-! ### Lines of syntax errors -/

namespace DiagnosticQueue

variable {config : DiagnosticConfig} {q : DiagnosticQueue} {taken : List LocatedDiagnostic}
  {d : Diagnostic} {line : Nat} {lines : LineTable} {c c' : Cursor} {ds : List Diagnostic}

def syntaxLines (entries : List LocatedDiagnostic) : List Nat :=
  (entries.filter (·.diagnostic.code.isSyntactic)).map (·.line)

theorem syntaxLines_append (entries others : List LocatedDiagnostic) :
    syntaxLines (entries ++ others) = syntaxLines entries ++ syntaxLines others := by
  rw [syntaxLines, List.filter_append, List.map_append, syntaxLines, syntaxLines]

theorem syntaxLines_singleton (hcode : d.code.isSyntactic = true) :
    syntaxLines [⟨d, line⟩] = [line] := by
  simp [syntaxLines, hcode]

theorem lastSyntaxLineOf_eq (entries : List LocatedDiagnostic) :
    lastSyntaxLineOf entries = (syntaxLines entries).getLast? := by
  rw [lastSyntaxLineOf, syntaxLines, List.getLast?_map]

/-- Syntax errors on different lines, in their order, down to a line at most. -/
structure Spaced (taken : List LocatedDiagnostic) (line : Nat) : Prop where
  ascending : (syntaxLines taken).Pairwise (· < ·)
  bounded : ∀ l ∈ syntaxLines taken, l ≤ line

theorem Spaced.lt_of_last_ne (h : Spaced taken line) (hlast : lastSyntaxLineOf taken ≠ some line) :
    ∀ l ∈ syntaxLines taken, l < line := by
  rw [lastSyntaxLineOf_eq] at hlast
  obtain ⟨hascending, hbounded⟩ := h
  obtain hnil | ⟨front, last, hsplit⟩ := List.eq_nil_or_concat (syntaxLines taken)
  · rw [hnil]
    nofun
  · rw [hsplit, List.concat_eq_append] at hlast hascending hbounded ⊢
    rw [List.getLast?_concat] at hlast
    have hbehind := hbounded last (by simp)
    have hne : last ≠ line := fun heq => hlast (heq ▸ rfl)
    intro l hl
    obtain hfront | hl := List.mem_append.mp hl
    · have := (List.pairwise_append.mp hascending).2.2 l hfront last List.mem_cons_self
      omega
    · rw [List.mem_singleton.mp hl]
      omega

theorem Spaced.add (h : Spaced taken line) (hq : Holds config taken q)
    (hdeduplicate : config.deduplicate = true) (hcode : d.code.isSyntactic = true) :
    Spaced (if (q.add d line).1 then taken ++ [⟨d, line⟩] else taken) line := by
  split
  · next htaken =>
      have hlast : lastSyntaxLineOf taken ≠ some line := by
        intro hlast
        cases hreached : q.limitReached with
        | true => simp [DiagnosticQueue.add, hreached] at htaken
        | false =>
            have hrefused := (hq.refused_iff hreached).mpr ⟨hdeduplicate, hcode, hlast⟩
            rw [hrefused] at htaken
            cases htaken
      have hlt := h.lt_of_last_ne hlast
      constructor
      · rw [syntaxLines_append, syntaxLines_singleton hcode]
        refine List.pairwise_append.mpr ⟨h.ascending, List.pairwise_singleton _ _, ?_⟩
        exact fun l hl _ hline => List.mem_singleton.mp hline ▸ hlt l hl
      · rw [syntaxLines_append, syntaxLines_singleton hcode]
        exact List.forall_mem_append.mpr ⟨h.bounded, by simp⟩
  · exact h

/-- A run of reports in the order of the tokens leaves one syntax error on each line. -/
theorem Reachable.reportAll (lines : LineTable) (h : Reachable config taken q)
    (hdeduplicate : config.deduplicate = true) (hblames : Blames c ds c')
    (hstarts : c.remaining.Pairwise fun t t' => t.span.start ≤ t'.span.start)
    (hspaced : Spaced taken (lines.lineAt c.here.span.start)) :
    ∃ taken', Reachable config taken' (q.reportAll lines ds) ∧
      (syntaxLines taken').Pairwise (· < ·) := by
  induction hblames generalizing q taken with
  | nil => exact ⟨taken, h, hspaced.ascending⟩
  | @cons c c' c'' d ds hreaches hcode hspan _ ih =>
      have hline : lineOf lines d = lines.lineAt c'.here.span.start := by rw [lineOf, hspan]
      have hstart : c.here.span.start ≤ c'.here.span.start := by
        obtain heq | hmem := List.mem_cons.mp (hreaches.subset List.mem_cons_self)
        · exact Nat.le_of_eq (by rw [heq])
        · exact (List.pairwise_cons.mp hstarts).1 _ hmem
      have hspaced' : Spaced taken (lineOf lines d) := by
        refine ⟨hspaced.ascending, fun l hl => ?_⟩
        rw [hline]
        exact Nat.le_trans (hspaced.bounded l hl) (LineTable.lineAt_mono lines hstart)
      have hnext := hspaced'.add h.holds hdeduplicate hcode
      rw [hline] at hnext
      refine ih (h.add d (lineOf lines d) ?_) (hstarts.sublist hreaches.suffix.sublist)
        (hline ▸ hnext)
      intro heq
      rw [heq] at hcode
      cases hcode

/-- A syntax error has its line for itself. -/
theorem countP_line_le_one (h : (syntaxLines taken).Pairwise (· < ·)) (line : Nat) :
    taken.countP (fun entry => entry.line == line && entry.diagnostic.code.isSyntactic) ≤ 1 := by
  have hnodup : (syntaxLines taken).Nodup := h.imp Nat.ne_of_lt
  have hcount := List.nodup_iff_count_le_one.mp hnodup line
  rw [syntaxLines, List.count, List.countP_map, List.countP_filter] at hcount
  exact hcount

end DiagnosticQueue

/-! ### A whole text -/

namespace TokenStream

variable {config : DiagnosticConfig} {q : DiagnosticQueue} {taken : List LocatedDiagnostic}

theorem reachable_collect (lines : LineTable) (h : DiagnosticQueue.Reachable config taken q)
    (hnone : DiagnosticQueue.syntaxLines taken = []) (ls : List Lexeme) :
    ∃ taken', DiagnosticQueue.Reachable config taken' (collect lines q ls).2 ∧
      DiagnosticQueue.syntaxLines taken' = [] := by
  induction ls generalizing q taken with
  | nil => exact ⟨taken, h, hnone⟩
  | cons l ls ih =>
      obtain ⟨reading, span⟩ := l
      cases reading with
      | skipped => exact ih h hnone
      | token kind => exact ih h hnone
      | fault fault =>
          have hlexical : (fault.toDiagnostic span).code.isSyntactic = false := by
            cases fault <;> rfl
          have hnext := h.add (fault.toDiagnostic span)
            (DiagnosticQueue.lineOf lines (fault.toDiagnostic span)) (by cases fault <;> nofun)
          have hnone' : DiagnosticQueue.syntaxLines (if (q.addAt lines (fault.toDiagnostic span)).1
              then taken ++ [⟨fault.toDiagnostic span,
                DiagnosticQueue.lineOf lines (fault.toDiagnostic span)⟩] else taken) = [] := by
            split
            · rw [DiagnosticQueue.syntaxLines_append, hnone, DiagnosticQueue.syntaxLines,
                List.filter_cons_of_neg (by rw [hlexical]; exact Bool.false_ne_true)]
              rfl
            · exact hnone
          rw [collect]
          dsimp only
          split
          · exact ⟨_, hnext, hnone'⟩
          · exact ih hnext hnone'

end TokenStream

namespace ParsedSource

open DiagnosticQueue (Reachable errors syntaxLines)

variable {config : DiagnosticConfig}

/-- What the parser adds to what the tokenizer has reported, in the order of the tokens. It adds
nothing if the tokenizer has used up the limit. -/
theorem exists_reports_in_order (config : DiagnosticConfig) (text : List Char) :
    let queue := (TokenStream.ofText (lines text) (.empty config) (Source.markup text)).2
    ∃ ds c', Blames (.atStart (stream config text)) ds c' ∧
      reported config text = queue.reportAll (lines text) ds := by
  rw [reported]
  dsimp only
  split
  · exact ⟨[], _, .nil (.refl _), rfl⟩
  · exact (stream config text).parse_blames (lines text) _

/-- With echoes dropped, what is reported about a text has one syntax error on each line. -/
theorem exists_reachable_reported (hdeduplicate : config.deduplicate = true) (text : List Char) :
    ∃ taken, Reachable config taken (reported config text) ∧
      (syntaxLines taken).Pairwise (· < ·) := by
  obtain ⟨ds, c', hblames, hreported⟩ := exists_reports_in_order config text
  have hfresh : Reachable config [] (.empty config) := .empty
  obtain ⟨read, hread, hnone⟩ :=
    TokenStream.reachable_collect (lines text) hfresh rfl (Lexeme.ofText (Source.markup text))
  have hstarts : (Cursor.atStart (stream config text)).remaining.Pairwise
      fun t t' => t.span.start ≤ t'.span.start := by
    rw [Cursor.remaining_atStart]
    exact (TokenStream.inOrder_ofText (lines text) config (Source.markup text)).starts
  obtain ⟨taken, htaken, hascending⟩ := hread.reportAll (lines text) hdeduplicate hblames hstarts
    ⟨by rw [hnone]; exact .nil, by rw [hnone]; nofun⟩
  exact ⟨taken, hreported ▸ htaken, hascending⟩

/-- Diagnostics come line by line, with the marker of the limit last, which is there exactly when as
many errors were reported as the limit allows. No line has more than one syntax error, if echoes are
dropped: the parser's reports are about tokens at positions that never go back. -/
theorem diagnostics_line_by_line (name : String) (text : List Char)
    (hdeduplicate : config.deduplicate = true) :
    (∀ line, (ofText config name text).diagnostics.countP
        (fun d => d.line == line && d.diagnostic.code.isSyntactic) ≤ 1) ∧
      (∃ sorted markers, (ofText config name text).diagnostics = sorted ++ markers ∧
        sorted.Pairwise (fun a b => a.line ≤ b.line) ∧
        (∀ d ∈ sorted, d.diagnostic.code ≠ .tooManyErrors) ∧
        ((reported config text).limitReached = true ↔
          0 < config.errorLimit ∧ errors sorted = config.errorLimit) ∧
        ((reported config text).limitReached = false → markers = []) ∧
        ((reported config text).limitReached = true →
          ∃ marker, markers = [marker] ∧ marker.diagnostic.code = .tooManyErrors)) ∧
      ∃ reports, AtPositions (stream config text) reports ∧
        reported config text =
          (TokenStream.ofText (lines text) (.empty config) (Source.markup text)).2.reportAll
            (lines text) (reports.map (·.2)) := by
  obtain ⟨taken, hreachable, hascending⟩ := exists_reachable_reported hdeduplicate text
  have hqueue := hreachable.holds
  obtain ⟨markers, hentries, hopen, hclosed⟩ := hqueue.entries_eq
  obtain ⟨others, hothers, hflush⟩ := hqueue.flush_eq
  obtain rfl : others = markers := List.append_cancel_left (hothers.symm.trans hentries)
  have hdiagnostics : (ofText config name text).diagnostics =
      DiagnosticQueue.sortByLine taken ++ others := by
    rw [diagnostics_eq, hflush]
  have hperm : (DiagnosticQueue.sortByLine taken).Perm taken := List.mergeSort_perm _ _
  have herrors : errors (DiagnosticQueue.sortByLine taken) = (reported config text).errorCount := by
    rw [hqueue.counted]
    exact hperm.countP_eq _
  refine ⟨fun line => ?_, ⟨_, others, hdiagnostics, DiagnosticQueue.sortByLine_pairwise taken,
    fun d hd => hqueue.unmarked d (hperm.mem_iff.mp hd), ?_, hopen, hclosed⟩, ?_⟩
  · have hmarkers : others.countP
        (fun d => d.line == line && d.diagnostic.code.isSyntactic) = 0 := by
      cases hreached : (reported config text).limitReached with
      | false => rw [hopen hreached, List.countP_nil]
      | true =>
          obtain ⟨marker, rfl, hcode⟩ := hclosed hreached
          rw [List.countP_singleton, hcode, if_neg (by simp [DiagnosticCode.isSyntactic])]
    rw [hdiagnostics, List.countP_append, hmarkers, hperm.countP_eq]
    exact DiagnosticQueue.countP_line_le_one hascending line
  · rw [herrors]
    constructor
    · intro hreached
      exact ⟨(hqueue.closed hreached).1, (hqueue.closed hreached).2.1⟩
    · rintro ⟨hpos, hcount⟩
      exact (hqueue.limitReached_iff hpos).mpr hcount
  · obtain ⟨ds, c', hblames, hreported⟩ := exists_reports_in_order config text
    obtain ⟨reports, rfl, hpositions, -⟩ := hblames.exists_positions (.refl _)
    exact ⟨reports, hpositions, hreported⟩

def missingValues : List Char := "x = ; y = ;\nz = ;".toList

theorem missingValues_line_by_line :
    (ofText ⟨1, true⟩ "missing" missingValues).diagnostics.map (·.line) = [1, 1] ∧
      (ofText ⟨1, true⟩ "missing" missingValues).diagnostics.countP
        (fun d => d.line == 1 && d.diagnostic.code.isSyntactic) ≤ 1 ∧
      (reported {} missingValues).entries.map (·.line) = [1, 2] ∧
      ∀ line, (ofText {} "missing" missingValues).diagnostics.countP
        (fun d => d.line == line && d.diagnostic.code.isSyntactic) ≤ 1 := by
  refine ⟨by decide +kernel, (diagnostics_line_by_line "missing" missingValues rfl).1 1,
    by decide +kernel, (diagnostics_line_by_line "missing" missingValues rfl).1⟩

end ParsedSource

end ArmPseudocode

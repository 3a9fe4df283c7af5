import ArmPseudocode.Proofs.Source.Acceptance
import ArmPseudocode.Proofs.Source.LineTable
import ArmPseudocode.Proofs.Source.Lines
import ArmPseudocode.Proofs.Token.Collected

/-!
# The lines of diagnostics

Everything that is reported about a text is about a token of it, the end of the text included, and
carries the number of the line on which the token starts in the marked text. That is the line it
starts on in the text as written, since marking keeps every line in its place.
-/

namespace ArmPseudocode

namespace LineTable

theorem count_bytes (s : List Char) : (bytes s).count 10 = s.count '\n' := by
  induction s with
  | nil => rfl
  | cons c s ih =>
      rw [bytes_cons, List.count_append, ih]
      by_cases hc : c = '\n'
      · rw [hc, utf8EncodeChar_lineFeed, List.count_cons_self, List.count_cons_self]
        exact Nat.add_comm _ _
      · rw [List.count_eq_zero.mpr (lineFeed_not_mem hc), List.count_cons_of_ne hc, Nat.zero_add]

theorem length_bytes (s : List Char) : (bytes s).length = Lexeme.byteLength s := by
  induction s with
  | nil => rfl
  | cons c s ih =>
      rw [bytes_cons, List.length_append, String.length_utf8EncodeChar, ih, Lexeme.byteLength]

end LineTable

/-! ### Entries and tokens -/

namespace TokenStream

variable {lines : LineTable} {config : DiagnosticConfig} {read rest : List Lexeme}
  {tokens : List Token} {queue : DiagnosticQueue} {s : List Char}

theorem Collected.concerns (h : Collected lines (.empty config) read rest tokens queue) :
    ∀ entry ∈ queue.entries, ∃ t ∈ tokens, Concerns lines t entry := by
  have hread : ∀ entry ∈ read.filterMap (Lexeme.report? lines),
      ∃ t ∈ tokens, Concerns lines t entry := by
    intro entry hmem
    obtain ⟨⟨reading, span⟩, hl, hentry⟩ := List.mem_filterMap.mp hmem
    rw [h.tokens_eq]
    cases reading with
    | fault fault =>
        cases hentry
        refine ⟨⟨.error, span⟩, List.mem_filterMap.mpr ⟨_, hl, rfl⟩, ?_, rfl⟩
        cases fault <;> rfl
    | _ => nomatch hentry
  obtain ⟨-, -, heq⟩ | ⟨-, -, -, before, last, hlast, hfault, heq⟩ := h.ending
  · rw [heq]
    exact hread
  · rw [heq]
    intro entry hmem
    obtain hmem | hmem := List.mem_append.mp hmem
    · exact hread entry hmem
    · rw [List.mem_singleton.mp hmem, h.tokens_eq, hlast]
      obtain ⟨reading, span⟩ := last
      cases reading with
      | fault fault =>
          exact ⟨⟨.error, span⟩, List.mem_filterMap.mpr
            ⟨_, List.mem_append_right before List.mem_cons_self, rfl⟩, rfl, rfl⟩
      | _ => nomatch hfault

/-- The parser reports about tokens of the stream, in their order. -/
theorem parse_blames (lines : LineTable) (q : DiagnosticQueue) (s : TokenStream) :
    ∃ ds c', Blames (.atStart s) ds c' ∧ (s.parse lines q).2 = q.reportAll lines ds := by
  have hstart := Cursor.terminated_atStart s
  have hstmt := ParseStmt.stmtAt_conduct lines hstart (s.tokens.length + 1)
  obtain ⟨ds, hqueue, hblames, -⟩ :=
    ParseStmt.list_counted hstart hstmt (fun _ => false) (s.tokens.length + 1) q (.refl _)
  exact ⟨ds, _, hblames, hqueue⟩

theorem parse_concerns (lines : LineTable) (q : DiagnosticQueue) (s : TokenStream) :
    ∀ entry ∈ (s.parse lines q).2.entries,
      entry ∈ q.entries ∨ ∃ t ∈ s.toList, Concerns lines t entry := by
  obtain ⟨ds, c', hblames, hqueue⟩ := s.parse_blames lines q
  rw [← Cursor.remaining_atStart, hqueue]
  exact hblames.recorded q

theorem start_le_of_mem_toList (lines : LineTable) (config : DiagnosticConfig) (s : List Char) :
    ∀ t ∈ (ofText lines (.empty config) s).1.toList, t.span.start ≤ Lexeme.byteLength s := by
  obtain ⟨read, rest, hread, hcollected⟩ := collected_ofText lines config s
  intro t hmem
  obtain hmem | hmem := List.mem_append.mp hmem
  · rw [hcollected.tokens_eq] at hmem
    obtain ⟨l, hl, htoken⟩ := List.mem_filterMap.mp hmem
    have hspan : t.span = l.span := by
      obtain ⟨reading, span⟩ := l
      cases reading <;> cases htoken
      · rfl
      · rfl
    have hlocated : l ∈ Lexeme.locate 0 (Lexeme.pieces s) := by
      rw [← Lexeme.ofText_eq_locate, hread]
      exact List.mem_append_left rest hl
    obtain ⟨before, piece, after, hpieces, rfl⟩ := Lexeme.exists_of_mem_locate hlocated
    obtain ⟨hs, -⟩ := Lexeme.eq_scan_of_pieces hpieces
    have hle : Lexeme.byteLength (Lexeme.joined before) ≤ Lexeme.byteLength s := by
      rw [hs, Lexeme.byteLength_append]
      exact Nat.le_add_right _ _
    rw [hspan]
    dsimp only [Span.ofRange]
    omega
  · rw [List.mem_singleton.mp hmem]
    exact Nat.min_le_left _ _

end TokenStream

namespace ParsedSource

variable {text : List Char}

theorem diagnostics_eq (config : DiagnosticConfig) (name : String) (text : List Char) :
    (ofText config name text).diagnostics = (reported config text).flush.1 := by
  rw [ofText, reported, lines]
  dsimp only
  split <;> rfl

/-- Every diagnostic of a text is about a token of it. -/
theorem concerns_of_mem_diagnostics (config : DiagnosticConfig) (name : String) (text : List Char) :
    ∀ d ∈ (ofText config name text).diagnostics,
      ∃ t ∈ (stream config text).toList, Concerns (lines text) t d := by
  obtain ⟨read, rest, -, hcollected⟩ :=
    TokenStream.collected_ofText (lines text) config (Source.markup text)
  have htokens : ∀ entry ∈ (TokenStream.ofText (lines text) (.empty config)
      (Source.markup text)).2.entries, ∃ t ∈ (stream config text).toList,
        Concerns (lines text) t entry := by
    intro entry hmem
    obtain ⟨t, ht, hentry⟩ := hcollected.concerns entry hmem
    exact ⟨t, List.mem_append_left _ ht, hentry⟩
  intro d hmem
  rw [diagnostics_eq, (DiagnosticQueue.flush_perm _).mem_iff, reported] at hmem
  dsimp only at hmem
  split at hmem
  · exact htokens d hmem
  · obtain hmem | hentry := TokenStream.parse_concerns (lines text) _ _ d hmem
    · exact htokens d hmem
    · exact hentry

end ParsedSource

/-! ### Lines of the marked text -/

namespace Source

variable {text fixed marked : List Char} {i : Nat}

/-- The marked line is the corrected one, whole or without its line comment, with markers in front
and, on the last line of a text, closing markers behind. -/
def KeepsLine (isLast : Bool) (fixed marked : List Char) : Prop :=
  ∃ front body closing, marked = front ++ body ++ closing ∧
    (∀ c ∈ front, c = indentMarker ∨ c = unindentMarker) ∧
    (∀ c ∈ closing, c = unindentMarker) ∧ (isLast = false → closing = []) ∧
    Unmarked body ∧ (body = fixed ∨ body = Text.beforeLineComment fixed)

theorem LineMarked.keepsLine {flag : Bool} (h : LineMarked (flag, fixed) marked)
    (hfixed : Unmarked fixed) : KeepsLine false fixed marked := by
  cases h with
  | copied => exact ⟨[], _, [], by simp, nofun, nofun, fun _ => rfl, hfixed, .inl rfl⟩
  | entered closed opened hopened =>
      refine ⟨_, _, [], (List.append_nil _).symm, fun c hc => ?_, nofun, fun _ => rfl,
        hfixed.of_subset fun _ => Text.mem_beforeLineComment, .inr rfl⟩
      obtain hc | hc := List.mem_append.mp hc
      · exact .inr (List.eq_of_mem_replicate hc)
      · exact .inl (List.eq_of_mem_replicate hc)

theorem KeepsLine.append_closing (h : KeepsLine false fixed marked) (closing : Nat) :
    KeepsLine true fixed (marked ++ List.replicate closing unindentMarker) := by
  obtain ⟨front, body, _, rfl, hfront, -, hnone, hbody⟩ := h
  rw [hnone rfl, List.append_nil]
  exact ⟨front, body, _, rfl, hfront, fun c => List.eq_of_mem_replicate, nofun, hbody⟩

theorem exists_of_forall₂ {α β : Type} {R : α → β → Prop} {xs : List α} {ys : List β} {x : α}
    (h : List.Forall₂ R xs ys) (hx : xs[i]? = some x) : ∃ y, ys[i]? = some y ∧ R x y := by
  induction h generalizing i with
  | nil => nomatch hx
  | @cons x' y xs ys hxy _ ih =>
      cases i with
      | zero =>
          obtain rfl := Option.some.inj hx
          exact ⟨y, rfl, hxy⟩
      | succ i => exact ih hx

theorem length_splitOn_markup (text : List Char) :
    (Text.splitOn '\n' (markup text)).length = (Text.splitOn '\n' text).length := by
  obtain ⟨front, last, closing, hsplit, hlines⟩ := splitOn_markup text
  have hlength := hlines.length_eq
  rw [length_withDepth] at hlength
  rw [hsplit, hlength, List.length_append, List.length_append]
  rfl

theorem exists_keepsLine (hs : Unmarked text)
    (hi : (Text.splitOn '\n' (fixTypos text))[i]? = some fixed) :
    ∃ marked, (Text.splitOn '\n' (markup text))[i]? = some marked ∧
      KeepsLine (i + 1 = (Text.splitOn '\n' text).length) fixed marked := by
  obtain ⟨front, last, closing, hsplit, hlines⟩ := splitOn_markup text
  have hfixed := unmarked_of_mem_splitOn (unmarked_fixTypos hs) (List.mem_of_getElem? hi)
  rw [splitOn_fixTypos, ← withDepth_snd false (Text.splitOn '\n' text), List.map_map,
    List.getElem?_map] at hi
  obtain ⟨l, hl, hfix⟩ := Option.map_eq_some_iff.mp hi
  rw [Function.comp_apply] at hfix
  obtain ⟨marked, hmarked, hline⟩ := exists_of_forall₂ hlines hl
  rw [hfix] at hline
  have hkeeps := hline.keepsLine hfixed
  have hlength : (Text.splitOn '\n' text).length = front.length + 1 := by
    rw [← length_splitOn_markup, hsplit, List.length_append]
    rfl
  rw [hsplit, hlength]
  rw [List.getElem?_append] at hmarked ⊢
  split at hmarked
  · next hlt =>
      refine ⟨marked, by rw [if_pos hlt, hmarked], ?_⟩
      rwa [decide_eq_false (by omega)]
  · next hlt =>
      obtain ⟨hi, rfl⟩ : i = front.length ∧ last = marked := by
        cases hindex : i - front.length with
        | zero =>
            rw [hindex] at hmarked
            exact ⟨by omega, Option.some.inj hmarked⟩
        | succ k =>
            rw [hindex] at hmarked
            nomatch hmarked
      refine ⟨last ++ List.replicate closing unindentMarker, ?_, ?_⟩
      · rw [if_neg hlt, hi, Nat.sub_self]
        rfl
      · rw [decide_eq_true (by omega)]
        exact hkeeps.append_closing closing

end Source

namespace ParsedSource

variable {text : List Char}

/-- Marking keeps the lines of a text in their places, and every diagnostic carries the number of
the line on which its span starts. -/
theorem lines_kept (hs : Source.Unmarked text) :
    (Source.markup text).count '\n' = text.count '\n' ∧
      (∀ i fixed, (Text.splitOn '\n' (Source.fixTypos text))[i]? = some fixed →
        ∃ marked, (Text.splitOn '\n' (Source.markup text))[i]? = some marked ∧
          Source.KeepsLine (i + 1 = (Text.splitOn '\n' text).length) fixed marked) ∧
      (∀ o, (lines text).lineAt o =
        1 + ((LineTable.bytes (Source.markup text)).take o).count 10) ∧
      ∀ config name, ∀ d ∈ (ofText config name text).diagnostics,
        ∃ span, d.diagnostic.span = some span ∧
          span.start ≤ (LineTable.bytes (Source.markup text)).length ∧
          d.line = 1 + ((LineTable.bytes (Source.markup text)).take span.start).count 10 ∧
          d.line ≤ (Text.splitOn '\n' text).length := by
  have hcount : (Source.markup text).count '\n' = text.count '\n' := by
    have hlength := Source.length_splitOn_markup text
    rw [Text.length_splitOn, Text.length_splitOn] at hlength
    exact Nat.add_right_cancel hlength
  have hline := LineTable.lineAt_ofText (Source.markup text)
  refine ⟨hcount, fun i fixed => Source.exists_keepsLine hs, hline,
    fun config name d hmem => ?_⟩
  obtain ⟨t, ht, hspan, hd⟩ := concerns_of_mem_diagnostics config name text d hmem
  rw [lines, hline] at hd
  refine ⟨t.span, hspan, ?_, hd, ?_⟩
  · rw [LineTable.length_bytes]
    exact TokenStream.start_le_of_mem_toList _ config _ t ht
  · have hle := ((LineTable.bytes (Source.markup text)).take_sublist t.span.start).count_le 10
    rw [LineTable.count_bytes, hcount] at hle
    rw [hd, Text.length_splitOn, Nat.add_comm]
    exact Nat.add_le_add_right hle 1

def missingValue : List Char := "if a then\n\tx = ; // no value\ny = 1;".toList

theorem missingValue_lines_kept :
    Source.Unmarked missingValue ∧
      (ofText {} "missing" missingValue).diagnostics.map (·.line) = [2] ∧
      (Source.markup missingValue).count '\n' = 2 ∧
      ∀ d ∈ (ofText {} "missing" missingValue).diagnostics,
        ∃ span, d.diagnostic.span = some span ∧ d.line =
          1 + ((LineTable.bytes (Source.markup missingValue)).take span.start).count 10 := by
  have hunmarked : Source.Unmarked missingValue := by decide
  have hlines : (ofText {} "missing" missingValue).diagnostics.map (·.line) = [2] := by
    decide +kernel
  obtain ⟨hcount, -, -, hdiagnostics⟩ := lines_kept hunmarked
  refine ⟨hunmarked, hlines, hcount.trans (by decide), fun d hmem => ?_⟩
  obtain ⟨span, hspan, -, hline, -⟩ := hdiagnostics {} "missing" d hmem
  exact ⟨span, hspan, hline⟩

end ParsedSource

end ArmPseudocode

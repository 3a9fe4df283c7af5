import ArmPseudocode.Proofs.Source.LineTable
import ArmPseudocode.Proofs.Token.Collected
import ArmPseudocode.Proofs.Token.Joining

/-!
# Tokens and the gaps between them

The tokens of a text stand in it one behind the other, each with the bytes of its own characters,
and what stands between them is made of blanks and comments. So every character that was read
belongs to one token or to one gap. An error token and an entry of the queue come from the same
fault, and only the limit of the queue keeps the end of a text from being read.
-/

namespace ArmPseudocode

open Lexeme

/-- What can stand between tokens, before the rest of a text: blanks, a line comment, which goes on
to the end of its line, or a closed block comment. -/
inductive Filler : List Char → List Char → Prop
  | blanks {w rest : List Char} (hne : w ≠ []) (hw : ∀ c ∈ w, Pattern.isSeparator c = true) :
      Filler w rest
  | lineComment {body rest : List Char} (hbody : '\n' ∉ body) (hend : ∀ c ∈ rest.head?, c = '\n') :
      Filler ('/' :: '/' :: body) rest
  | blockComment {body rest : List Char} (hbody : ¬['*', '/'] <:+: body) :
      Filler ('/' :: '*' :: (body ++ ['*', '/'])) rest

/-- The text that begins at `offset` is made of the tokens, each at its span, and of fillers. -/
inductive Laid : Nat → List Char → List Token → Prop
  | nil (offset : Nat) : Laid offset [] []
  | filler {offset : Nat} {w s : List Char} {ts : List Token} (hw : Filler w s)
      (hrest : Laid (offset + byteLength w) s ts) : Laid offset (w ++ s) ts
  | token {offset : Nat} {w s : List Char} {ts : List Token} (kind : TokenKind) (hw : w ≠ [])
      (hrest : Laid (offset + byteLength w) s ts) :
      Laid offset (w ++ s) (⟨kind, ⟨offset, offset + byteLength w⟩⟩ :: ts)

/-- A filler stays one where less of the text behind it is looked at. -/
theorem Filler.of_append {w s behind : List Char} (h : Filler w (s ++ behind)) : Filler w s := by
  cases h with
  | blanks hne hw => exact .blanks hne hw
  | lineComment hbody hend =>
      refine .lineComment hbody fun c hc => hend c ?_
      cases s with
      | nil => nomatch hc
      | cons => exact hc
  | blockComment hbody => exact .blockComment hbody

namespace Laid

variable {offset : Nat} {s : List Char} {ts : List Token}

theorem bounds (h : Laid offset s ts) :
    ∀ t ∈ ts, offset ≤ t.span.start ∧ t.span.start < t.span.stop ∧
      t.span.stop ≤ offset + byteLength s := by
  induction h with
  | nil => nofun
  | filler _ _ ih =>
      intro t ht
      obtain ⟨hstart, hspan, hstop⟩ := ih t ht
      rw [byteLength_append]
      exact ⟨by omega, hspan, by omega⟩
  | token kind hw _ ih =>
      have hpos := byteLength_pos hw
      rw [byteLength_append]
      refine List.forall_mem_cons.mpr
        ⟨⟨Nat.le_refl _, by dsimp only; omega, by dsimp only; omega⟩, ?_⟩
      intro t ht
      obtain ⟨hstart, hspan, hstop⟩ := ih t ht
      exact ⟨by omega, hspan, by omega⟩

theorem ascending (h : Laid offset s ts) :
    ts.Pairwise fun t t' => t.span.stop ≤ t'.span.start := by
  induction h with
  | nil => exact .nil
  | filler _ _ ih => exact ih
  | token _ _ hrest ih => exact .cons (fun t ht => (hrest.bounds t ht).1) ih

end Laid

namespace Lexeme

variable {s w : List Char} {n offset : Nat} {ps : List Piece} {read : List Lexeme}
  {lines : LineTable}

/-! ### Fillers -/

theorem exists_body (h : commentLength? s = some n) :
    ∃ body, s.take n = body ++ ['*', '/'] ∧ ¬['*', '/'] <:+: body := by
  obtain ⟨body, rest, rfl, hbody, rfl⟩ := commentLength?_eq_some.mp h
  exact ⟨body, by rw [List.take_length_add_append]; rfl, hbody⟩

/-- What the tokenizer passes over is a filler. -/
theorem filler_of_scan (h : (scan s).reading = .skipped) :
    Filler (s.take (scan s).length) (s.drop (scan s).length) := by
  have hscan : scan s = ⟨.ofKind none, (scan s).length⟩ :=
    (congrArg (Scan.mk · (scan s).length) h : (_ : Scan) = _)
  obtain ⟨hrun, hpos⟩ | ⟨rest, hs, hrun⟩ | ⟨rest, m, hs, hm, hlength⟩ := of_scan_skipped hscan
  · rw [hrun] at hpos ⊢
    refine .blanks (fun hnil => ?_) fun c hc => Pattern.mem_of_take_run hc
    have hlength := congrArg List.length hnil
    rw [List.length_take_of_le (Pattern.run_le _ s), List.length_nil] at hlength
    omega
  · rw [hrun, hs, List.take_succ_cons, List.take_succ_cons, List.drop_succ_cons,
      List.drop_succ_cons, drop_run]
    refine .lineComment (fun hmem => ?_) fun c hc => ?_
    · have hline := Pattern.mem_of_take_run hmem
      simp at hline
    · have hstops := List.head?_dropWhile_not (· ≠ '\n') rest
      rw [Option.mem_def.mp hc] at hstops
      simpa using hstops
  · obtain ⟨body, htake, hbody⟩ := exists_body hm
    rw [hlength, hs, Nat.add_comm, List.take_succ_cons, List.take_succ_cons, htake]
    exact .blockComment hbody

theorem filler_of_pieces {before after qs : List Piece} {piece : Piece}
    (h : pieces s = before ++ piece :: after ++ qs) (hskipped : piece.reading = .skipped) :
    Filler piece.text (joined after) := by
  rw [List.append_assoc, List.cons_append] at h
  obtain ⟨-, -, hpiece⟩ := eq_scan_of_pieces h
  generalize htext : joined (piece :: (after ++ qs)) = text at hpiece
  have hsplit : text = piece.text ++ (joined after ++ joined qs) := by
    rw [← htext, joined_cons, joined_append]
  have htake : piece.text = text.take (scan text).length := congrArg Piece.text hpiece
  have hdrop : text.drop (scan text).length = joined after ++ joined qs := by
    have hcancel : piece.text ++ text.drop (scan text).length =
        piece.text ++ (joined after ++ joined qs) := by
      rw [← hsplit, htake, List.take_append_drop]
    exact List.append_cancel_left hcancel
  have hfiller := filler_of_scan (s := text) (by rw [← hskipped, hpiece])
  rw [← htake, hdrop] at hfiller
  exact hfiller.of_append

/-! ### Pieces laid out -/

theorem laid_locate (offset : Nat) (hne : ∀ piece ∈ ps, piece.text ≠ [])
    (hfiller : ∀ before piece after, ps = before ++ piece :: after →
      piece.reading = .skipped → Filler piece.text (joined after))
    (hbound : offset + byteLength (joined ps) ≤ Span.maxOffset) :
    Laid offset (joined ps) ((locate offset ps).filterMap token?) := by
  induction ps generalizing offset with
  | nil => exact .nil offset
  | cons piece ps ih =>
      obtain ⟨hpiece, hne⟩ := List.forall_mem_cons.mp hne
      have hskipped := hfiller [] piece ps rfl
      rw [joined_cons, byteLength_append, ← Nat.add_assoc] at hbound
      have hrest := ih _ hne (fun before inner after hps =>
        hfiller (piece :: before) inner after (congrArg (piece :: ·) hps)) hbound
      have hspan : Span.ofRange offset (offset + byteLength piece.text) =
          ⟨offset, offset + byteLength piece.text⟩ := by
        rw [Span.ofRange, Nat.min_eq_left (by omega), Nat.min_eq_left (by omega)]
      obtain ⟨reading, text⟩ := piece
      rw [joined_cons, locate, hspan]
      cases reading with
      | skipped => exact .filler (hskipped rfl) hrest
      | token kind => exact .token kind hpiece hrest
      | fault fault => exact .token .error hpiece hrest

theorem exists_of_locate_append {rest : List Lexeme} (h : locate offset ps = read ++ rest) :
    ∃ ps' qs, ps = ps' ++ qs ∧ read = locate offset ps' ∧
      rest = locate (offset + byteLength (joined ps')) qs := by
  induction ps generalizing offset read with
  | nil =>
      obtain ⟨rfl, rfl⟩ := List.append_eq_nil_iff.mp h.symm
      exact ⟨[], [], rfl, rfl, rfl⟩
  | cons piece ps ih =>
      cases read with
      | nil => exact ⟨[], piece :: ps, rfl, rfl, h.symm⟩
      | cons l read =>
          obtain ⟨rfl, hrest⟩ := List.cons.inj h
          obtain ⟨ps', qs, rfl, rfl, rfl⟩ := ih hrest
          refine ⟨piece :: ps', qs, rfl, rfl, ?_⟩
          rw [joined_cons, byteLength_append, Nat.add_assoc]

/-! ### Error tokens and entries -/

theorem lexical_of_mem {entry : LocatedDiagnostic} (h : entry ∈ read.filterMap (report? lines)) :
    entry.diagnostic.code.isLexical = true := by
  obtain ⟨⟨reading, span⟩, -, hentry⟩ := List.mem_filterMap.mp h
  cases reading with
  | fault fault =>
      cases hentry
      cases fault <;> rfl
  | _ => nomatch hentry

/-- Each fault is one error token and one entry with the same span. -/
theorem spans_of_faults (lines : LineTable)
    (hordinary : ∀ l ∈ read, ∀ kind, l.reading = .token kind → kind.Ordinary) :
    (read.filterMap (report? lines)).map (·.diagnostic.span) =
      ((read.filterMap token?).filter (·.kind = .error)).map fun t => some t.span := by
  induction read with
  | nil => rfl
  | cons l read ih =>
      obtain ⟨hl, hread⟩ := List.forall_mem_cons.mp hordinary
      obtain ⟨reading, span⟩ := l
      cases reading with
      | skipped => exact ih hread
      | token kind =>
          have hkind : ¬decide (kind = .error) = true := by simpa using (hl kind rfl).2
          have hskip := List.filter_cons_of_neg (p := fun t : Token => decide (t.kind = .error))
            (a := ⟨kind, span⟩) (l := read.filterMap token?) hkind
          exact (ih hread).trans (congrArg (List.map _) hskip).symm
      | fault fault =>
          have hspan : (fault.toDiagnostic span).span = some span := by cases fault <;> rfl
          show (fault.toDiagnostic span).span :: _ = some span :: _
          rw [hspan, ih hread]

theorem le_start_of_mem_locate {l : Lexeme} (h : l ∈ locate offset ps) :
    min offset Span.maxOffset ≤ l.span.start := by
  induction ps generalizing offset with
  | nil => nomatch h
  | cons piece ps ih =>
      obtain rfl | h := List.mem_cons.mp h
      · exact Nat.le_refl _
      · have hle := ih h
        omega

/-- The entries come line by line, since the lexemes do. -/
theorem entries_ascending (lines : LineTable) (offset : Nat) (ps : List Piece) :
    ((locate offset ps).filterMap (report? lines)).Pairwise fun a b => a.line ≤ b.line := by
  induction ps generalizing offset with
  | nil => exact .nil
  | cons piece ps ih =>
      obtain ⟨reading, text⟩ := piece
      cases reading with
      | skipped | token => exact ih _
      | fault fault =>
          refine .cons (fun entry hmem => ?_) (ih _)
          obtain ⟨l, hl, hentry⟩ := List.mem_filterMap.mp hmem
          have hline : entry.line = lines.lineAt l.span.start := by
            obtain ⟨reading, span⟩ := l
            cases reading with
            | fault fault =>
                cases hentry
                rfl
            | _ => nomatch hentry
          have hle := le_start_of_mem_locate hl
          rw [hline]
          refine LineTable.lineAt_mono lines ?_
          dsimp only [Span.ofRange]
          omega

end Lexeme

namespace TokenStream

/-- What a stream of tokens and the queue of a fresh run say about a text: the tokens are laid out
in it with nothing but fillers between them, each error token has its entry, and only the limit of
the queue can end the stream early, right behind the error with which it is reached. -/
structure Covers (config : DiagnosticConfig) (s : List Char) (stream : TokenStream)
    (queue : DiagnosticQueue) : Prop where
  ended : stream.toList = stream.tokens ++ [⟨.eof, .point (byteLength s)⟩]
  not_eof : ∀ t ∈ stream.tokens, t.kind ≠ .eof
  spans : ∀ t ∈ stream.tokens, t.span.start < t.span.stop ∧ t.span.stop ≤ byteLength s
  ascending : stream.tokens.Pairwise fun t t' => t.span.stop ≤ t'.span.start
  reported : (queue.entries.filter (·.diagnostic.code.isLexical)).map (·.diagnostic.span) =
    (stream.tokens.filter (·.kind = .error)).map fun t => some t.span
  in_order : queue.flush.1 = queue.entries
  limited : 0 < config.errorLimit →
    (stream.tokens.filter (·.kind = .error)).length ≤ config.errorLimit
  reached : queue.limitReached = true ↔
    0 < config.errorLimit ∧
      (stream.tokens.filter (·.kind = .error)).length = config.errorLimit
  laid : ∃ read rest, s = read ++ rest ∧ Laid 0 read stream.tokens ∧
    (queue.limitReached = false → rest = []) ∧
    (queue.limitReached = true → ∃ t, stream.tokens.getLast? = some t ∧ t.kind = .error ∧
      t.span.stop = byteLength read)

theorem errors_length (lines : LineTable) {read : List Lexeme}
    (hordinary : ∀ l ∈ read, ∀ kind, l.reading = .token kind → kind.Ordinary) :
    ((read.filterMap token?).filter (·.kind = .error)).length =
      (read.filterMap (report? lines)).length := by
  have hlength := congrArg List.length (spans_of_faults lines hordinary)
  rw [List.length_map, List.length_map] at hlength
  exact hlength.symm

/-- The last fault that was read is the last token, and it ends where the text that was read
ends. -/
theorem getLast?_of_fault {ps : List Piece} {before : List Lexeme} {last : Lexeme}
    (hread : locate 0 ps = before ++ [last]) (hlast : isFault last = true)
    (hbound : byteLength (joined ps) ≤ Span.maxOffset) :
    ∃ t, ((locate 0 ps).filterMap token?).getLast? = some t ∧ t.kind = .error ∧
      t.span.stop = byteLength (joined ps) := by
  obtain ⟨ps', qs, rfl, rfl, hlocate⟩ := exists_of_locate_append hread
  obtain _ | ⟨piece, _ | ⟨_, qs⟩⟩ := qs
  · nomatch hlocate
  · obtain ⟨rfl, -⟩ := List.cons.inj hlocate
    rw [joined_concat, byteLength_append] at hbound ⊢
    rw [hread, List.filterMap_append]
    obtain ⟨reading, text⟩ := piece
    cases reading with
    | fault fault =>
        refine ⟨_, List.getLast?_concat, rfl, ?_⟩
        dsimp only [Span.ofRange]
        rw [Nat.zero_add]
        exact Nat.min_eq_left hbound
    | _ => nomatch hlast
  · nomatch hlocate

section

variable {lines : LineTable} {config : DiagnosticConfig} {read rest : List Lexeme}
  {tokens : List Token} {queue : DiagnosticQueue} {ps qs : List Piece} {s : List Char}

theorem Collected.limit (h : Collected lines (.empty config) read rest tokens queue) :
    queue.limitReached = false ∧
        (0 < config.errorLimit →
          (read.filterMap (report? lines)).length < config.errorLimit) ∨
      queue.limitReached = true ∧ 0 < config.errorLimit ∧
        (read.filterMap (report? lines)).length = config.errorLimit := by
  have hcount : queue.errorCount = (read.filterMap (report? lines)).length :=
    h.count_eq.trans (Nat.zero_add _)
  rw [← hcount]
  obtain ⟨hopen, -, -⟩ | ⟨hreached, hpos, heq, -⟩ := h.ending
  · have hbelow := hopen.below
    rw [h.config_eq] at hbelow
    exact .inl ⟨hopen.going, hbelow⟩
  · exact .inr ⟨hreached, hpos, heq⟩

/-- All entries but the mark of the limit are about faults. -/
theorem Collected.lexical (h : Collected lines (.empty config) read rest tokens queue) :
    queue.entries.filter (·.diagnostic.code.isLexical) = read.filterMap (report? lines) := by
  have hlexical : (read.filterMap (report? lines)).filter (·.diagnostic.code.isLexical) =
      read.filterMap (report? lines) := List.filter_eq_self.mpr fun entry => lexical_of_mem
  obtain ⟨-, -, heq⟩ | ⟨-, -, -, _, last, -, -, heq⟩ := h.ending
  · rw [heq]
    exact hlexical
  · rw [heq, List.filter_append]
    exact (congrArg (· ++ _) hlexical).trans (List.append_nil _)

theorem Collected.in_order
    (h : Collected lines (.empty config) (locate 0 ps) rest tokens queue) :
    queue.flush.1 = queue.entries := by
  refine DiagnosticQueue.flush_of_ascending (entries_ascending lines 0 ps) ?_
  obtain ⟨hopen, -, heq⟩ | ⟨hreached, -, -, _, last, -, -, heq⟩ := h.ending
  · exact .inl ⟨hopen.going, heq⟩
  · exact .inr ⟨hreached, _, heq⟩

/-- Some pieces of a text were read, which are all of them if the limit was not reached, and behind
which the limit was reached otherwise. -/
theorem Collected.ends
    (h : Collected lines (.empty config) (locate 0 ps) (locate (0 + byteLength (joined ps)) qs)
      tokens queue) (hbound : byteLength (joined ps) ≤ Span.maxOffset) :
    (queue.limitReached = false → joined qs = []) ∧
      (queue.limitReached = true → ∃ t, tokens.getLast? = some t ∧ t.kind = .error ∧
        t.span.stop = byteLength (joined ps)) := by
  obtain ⟨hopen, hrest, -⟩ | ⟨hreached, -, -, before, last, hread, hlast, -⟩ := h.ending
  · refine ⟨fun _ => ?_, fun hreached => ?_⟩
    · cases qs with
      | nil => rfl
      | cons piece qs => nomatch hrest
    · rw [hopen.going] at hreached
      nomatch hreached
  · refine ⟨fun hgoing => ?_, fun _ => ?_⟩
    · rw [hgoing] at hreached
      nomatch hreached
    · rw [h.tokens_eq]
      exact getLast?_of_fault hread hlast hbound

theorem exists_read (lines : LineTable) (config : DiagnosticConfig) (s : List Char) :
    ∃ ps qs, pieces s = ps ++ qs ∧ s = joined ps ++ joined qs ∧
      locate 0 ps <+: Lexeme.ofText s ∧
      Collected lines (.empty config) (locate 0 ps) (locate (0 + byteLength (joined ps)) qs)
        (ofText lines (.empty config) s).1.tokens (ofText lines (.empty config) s).2 := by
  obtain ⟨read, rest, hread, hcollected⟩ := collected_ofText lines config s
  have hlocate := hread
  rw [ofText_eq_locate] at hlocate
  obtain ⟨ps, qs, hpieces, rfl, rfl⟩ := exists_of_locate_append hlocate
  refine ⟨ps, qs, hpieces, ?_, ⟨_, hread.symm⟩, hcollected⟩
  rw [← joined_pieces s, hpieces, joined_append]

end

/-- The tokens of a text of less than 4 GiB and the gaps between them are the text, as far as the
limit of errors lets it be read. -/
theorem ofText_covers (lines : LineTable) (config : DiagnosticConfig) (s : List Char)
    (hsize : byteLength s < UInt32.size) :
    Covers config s (ofText lines (.empty config) s).1 (ofText lines (.empty config) s).2 := by
  have hmax : byteLength s ≤ Span.maxOffset := Nat.le_sub_one_of_lt hsize
  obtain ⟨ps, qs, hpieces, hs, hfront, hcollected⟩ := exists_read lines config s
  have hread : byteLength (joined ps) ≤ byteLength s := by
    rw [hs, byteLength_append]
    exact Nat.le_add_right _ _
  have hbound := Nat.le_trans hread hmax
  have hordinary : ∀ l ∈ locate 0 ps, ∀ kind, l.reading = .token kind → kind.Ordinary :=
    fun l h kind => ordinary_of_mem_readFrom (hfront.subset h)
  have hmem : ∀ piece ∈ ps, piece ∈ pieces s := fun piece h => hpieces ▸ List.mem_append_left qs h
  have hlaid := laid_locate 0 (fun piece h => ne_nil_of_mem_pieces (hmem piece h))
    (fun before piece after h => filler_of_pieces (h ▸ hpieces)) (by rwa [Nat.zero_add])
  have herrors := errors_length lines hordinary
  have hspans := spans_of_faults lines hordinary
  rw [← hcollected.tokens_eq] at hlaid herrors hspans
  have hlimit := hcollected.limit
  rw [← herrors] at hlimit
  have hstop : (ofText lines (.empty config) s).1.stop = byteLength s := Nat.min_eq_left hmax
  have hends := hcollected.ends hbound
  refine ⟨by rw [toList, endToken, hstop], fun t ht heof => ?_, fun t ht => ?_, hlaid.ascending,
    by rw [hcollected.lexical]; exact hspans, hcollected.in_order, fun hpos => ?_, ?_,
    joined ps, joined qs, hs, hlaid, hends.1, hends.2⟩
  · obtain herror | hother := kind_of_mem_collect
      (fun l hl kind => ordinary_of_mem_readFrom hl) ht
    · rw [heof] at herror
      nomatch herror
    · exact hother.1 heof
  · obtain ⟨-, hspan, hstop⟩ := hlaid.bounds t ht
    rw [Nat.zero_add] at hstop
    exact ⟨hspan, Nat.le_trans hstop hread⟩
  · obtain ⟨-, hbelow⟩ | ⟨-, -, heq⟩ := hlimit
    · exact Nat.le_of_lt (hbelow hpos)
    · exact Nat.le_of_eq heq
  · obtain ⟨hgoing, hbelow⟩ | ⟨hreached, hpos, heq⟩ := hlimit
    · rw [hgoing]
      exact ⟨nofun, fun ⟨hpos, heq⟩ => absurd heq (Nat.ne_of_lt (hbelow hpos))⟩
    · exact ⟨fun _ => ⟨hpos, heq⟩, fun _ => hreached⟩

/-- With a limit of one error the text behind the first fault is not read. -/
theorem ofText_covers_limited :
    byteLength "x = 5 # y".toList < UInt32.size ∧
      Covers ⟨1, true⟩ "x = 5 # y".toList
        (ofText (.ofText "x = 5 # y".toList) (.empty ⟨1, true⟩) "x = 5 # y".toList).1
        (ofText (.ofText "x = 5 # y".toList) (.empty ⟨1, true⟩) "x = 5 # y".toList).2 :=
  ⟨by decide, ofText_covers _ _ _ (by decide)⟩

end TokenStream

end ArmPseudocode

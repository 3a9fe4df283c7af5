import ArmPseudocode.Proofs.Token.Pieces

/-!
# What is collected from a text

A stream of tokens comes from the lexemes of a text up to the fault with which the queue reaches its
limit, or from all of them. Each lexeme that was read gives at most one token, and each fault among
them one error token and one entry, both with the span of the fault. A fault is no syntax error, so
the queue takes every one of them.
-/

namespace ArmPseudocode

def Lexeme.token? (l : Lexeme) : Option Token :=
  match l.reading with
  | .skipped => none
  | .token kind => some ⟨kind, l.span⟩
  | .fault _ => some ⟨.error, l.span⟩

def Lexeme.report? (lines : LineTable) (l : Lexeme) : Option LocatedDiagnostic :=
  match l.reading with
  | .fault fault => some ⟨fault.toDiagnostic l.span, lines.lineAt l.span.start⟩
  | _ => none

namespace DiagnosticQueue

variable {q : DiagnosticQueue}

/-- The queue has room for another error. -/
structure Open (q : DiagnosticQueue) : Prop where
  going : q.limitReached = false
  below : 0 < q.config.errorLimit → q.errorCount < q.config.errorLimit

theorem open_empty (config : DiagnosticConfig) : (empty config).Open :=
  ⟨rfl, id⟩

def marker (lines : LineTable) (span : Span) : LocatedDiagnostic :=
  ⟨.tooManyErrors span, lines.lineAt span.start⟩

/-- An open queue takes every fault, which either leaves it open or is the last that it takes. -/
theorem report_fault (lines : LineTable) (hq : q.Open) (fault : LexicalFault) (span : Span) :
    let next := q.report lines (fault.toDiagnostic span)
    let entry : LocatedDiagnostic := ⟨fault.toDiagnostic span, lines.lineAt span.start⟩
    next.config = q.config ∧ next.errorCount = q.errorCount + 1 ∧
      (next.Open ∧ next.entries = q.entries ++ [entry] ∨
        next.limitReached = true ∧ 0 < q.config.errorLimit ∧
          next.errorCount = q.config.errorLimit ∧
          next.entries = q.entries ++ [entry] ++ [marker lines span]) := by
  obtain ⟨hgoing, hbelow⟩ := hq
  have hspan : (fault.toDiagnostic span).span = some span := by cases fault <;> rfl
  have hcode : (fault.toDiagnostic span).code.isSyntactic = false := by cases fault <;> rfl
  have herror : (fault.toDiagnostic span).isError = true := by cases fault <;> rfl
  have hline : lineOf lines (fault.toDiagnostic span) = lines.lineAt span.start := by
    rw [lineOf, hspan]
  have htaken : ¬(q.limitReached ||
      q.isEcho (fault.toDiagnostic span) (lines.lineAt span.start)) = true := by
    rw [hgoing, isEcho, hcode, Bool.and_false, Bool.false_and]
    exact Bool.false_ne_true
  intro next entry
  have hnext : next =
      (q.append (fault.toDiagnostic span) (lines.lineAt span.start)).countError span
        (lines.lineAt span.start) := by
    show q.report lines (fault.toDiagnostic span) = _
    rw [report, addAt, hline, add, if_neg htaken]
    dsimp only
    rw [if_pos herror, hspan]
    rfl
  rw [hnext, countError]
  split
  · next hlimit =>
      refine ⟨rfl, rfl, .inr ⟨rfl, hlimit.1, ?_, rfl⟩⟩
      have hlast := hbelow hlimit.1
      exact Nat.le_antisymm hlast hlimit.2
  · next hroom =>
      exact ⟨rfl, rfl,
        .inl ⟨⟨hgoing, fun hpos => Nat.lt_of_not_le fun hle => hroom ⟨hpos, hle⟩⟩, rfl⟩⟩

end DiagnosticQueue

namespace TokenStream

variable {lines : LineTable} {q : DiagnosticQueue}

/-- The tokens and the queue that come out when `read` is what was read of some lexemes, and `rest`
what was not. -/
structure Collected (lines : LineTable) (q : DiagnosticQueue) (read rest : List Lexeme)
    (tokens : List Token) (q' : DiagnosticQueue) : Prop where
  tokens_eq : tokens = read.filterMap Lexeme.token?
  config_eq : q'.config = q.config
  count_eq : q'.errorCount = q.errorCount + (read.filterMap (Lexeme.report? lines)).length
  /-- Either all was read and the queue is open, or the last that was read is the fault with which
  the limit was reached. -/
  ending : q'.Open ∧ rest = [] ∧ q'.entries = q.entries ++ read.filterMap (Lexeme.report? lines) ∨
    q'.limitReached = true ∧ 0 < q.config.errorLimit ∧ q'.errorCount = q.config.errorLimit ∧
      ∃ before last, read = before ++ [last] ∧ isFault last = true ∧
        q'.entries = q.entries ++ read.filterMap (Lexeme.report? lines) ++
          [DiagnosticQueue.marker lines last.span]

variable {read rest : List Lexeme} {tokens : List Token} {q' : DiagnosticQueue}

theorem Collected.skipped (h : Collected lines q read rest tokens q') (span : Span) :
    Collected lines q (⟨.skipped, span⟩ :: read) rest tokens q' where
  tokens_eq := h.tokens_eq
  config_eq := h.config_eq
  count_eq := h.count_eq
  ending := by
    obtain hopen | ⟨hreached, hpos, heq, before, last, rfl, hlast⟩ := h.ending
    · exact .inl hopen
    · exact .inr ⟨hreached, hpos, heq, _ :: before, last, rfl, hlast⟩

theorem Collected.token (h : Collected lines q read rest tokens q') (kind : TokenKind)
    (span : Span) :
    Collected lines q (⟨.token kind, span⟩ :: read) rest (⟨kind, span⟩ :: tokens) q' where
  tokens_eq := congrArg (List.cons _) h.tokens_eq
  config_eq := h.config_eq
  count_eq := h.count_eq
  ending := by
    obtain hopen | ⟨hreached, hpos, heq, before, last, rfl, hlast⟩ := h.ending
    · exact .inl hopen
    · exact .inr ⟨hreached, hpos, heq, _ :: before, last, rfl, hlast⟩

theorem Collected.fault {next : DiagnosticQueue} {fault : LexicalFault} {span : Span}
    (h : Collected lines next read rest tokens q') (hconfig : next.config = q.config)
    (hcount : next.errorCount = q.errorCount + 1)
    (hentries : next.entries =
      q.entries ++ [⟨fault.toDiagnostic span, lines.lineAt span.start⟩]) :
    Collected lines q (⟨.fault fault, span⟩ :: read) rest (⟨.error, span⟩ :: tokens) q' where
  tokens_eq := congrArg (List.cons _) h.tokens_eq
  config_eq := h.config_eq.trans hconfig
  count_eq := by
    rw [h.count_eq, hcount, Nat.add_assoc, Nat.add_comm 1]
    rfl
  ending := by
    obtain ⟨hopen, hrest, hq'⟩ | ⟨hreached, hpos, heq, before, last, rfl, hlast, hq'⟩ := h.ending
    · refine .inl ⟨hopen, hrest, ?_⟩
      rw [hq', hentries, List.append_assoc]
      rfl
    · rw [hconfig] at hpos heq
      refine .inr ⟨hreached, hpos, heq, _ :: before, last, rfl, hlast, ?_⟩
      rw [hq', hentries, List.append_assoc q.entries]
      rfl

theorem collected (lines : LineTable) (hq : q.Open) (ls : List Lexeme) :
    ∃ read rest, ls = read ++ rest ∧
      Collected lines q read rest (collect lines q ls).1 (collect lines q ls).2 := by
  induction ls generalizing q with
  | nil => exact ⟨[], [], rfl, rfl, rfl, rfl, .inl ⟨hq, rfl, (List.append_nil _).symm⟩⟩
  | cons l ls ih =>
      obtain ⟨reading, span⟩ := l
      cases reading with
      | skipped =>
          obtain ⟨read, rest, rfl, h⟩ := ih hq
          exact ⟨_ :: read, rest, rfl, h.skipped span⟩
      | token kind =>
          obtain ⟨read, rest, rfl, h⟩ := ih hq
          exact ⟨_ :: read, rest, rfl, h.token kind span⟩
      | fault fault =>
          obtain ⟨hconfig, hcount, hcase⟩ :=
            DiagnosticQueue.report_fault lines hq fault span
          rw [collect]
          dsimp only
          obtain ⟨hopen, hentries⟩ | ⟨hreached, hpos, heq, hentries⟩ := hcase
          · rw [if_neg (by rw [hopen.going]; exact Bool.false_ne_true)]
            obtain ⟨read, rest, rfl, h⟩ := ih hopen
            exact ⟨_ :: read, rest, rfl, h.fault hconfig hcount hentries⟩
          · rw [if_pos hreached]
            exact ⟨[⟨.fault fault, span⟩], ls, rfl, rfl, hconfig, hcount,
              .inr ⟨hreached, hpos, heq, [], _, rfl, rfl, hentries⟩⟩

/-- The tokens of a text and what is reported come from a part of its lexemes at the start. -/
theorem collected_ofText (lines : LineTable) (config : DiagnosticConfig) (s : List Char) :
    ∃ read rest, Lexeme.ofText s = read ++ rest ∧
      Collected lines (.empty config) read rest (ofText lines (.empty config) s).1.tokens
        (ofText lines (.empty config) s).2 :=
  collected lines (DiagnosticQueue.open_empty config) (Lexeme.ofText s)

end TokenStream

end ArmPseudocode

import ArmPseudocode.Proofs.Diagnostic.Queue
import ArmPseudocode.Token.Stream

/-!
# Faults of the tokenizer

A text either has no fault, and then its tokens do not depend on the queue and nothing is reported,
or the first fault leaves an error token in the stream and an error in the queue. No token of a text
is an end of text.
-/

namespace ArmPseudocode

theorem Pattern.mem_of_best? {s : List Char} {rows : List Pattern} {row : Pattern} {n : Nat}
    (h : Pattern.best? s rows = some (row, n)) : row ∈ rows := by
  induction rows generalizing n with
  | nil => nomatch h
  | cons first rows ih =>
      rw [Pattern.best?] at h
      split at h
      · next m other l _ hrest =>
          split at h
          · cases h
            exact List.mem_cons_self
          · cases h
            exact List.mem_cons_of_mem _ (ih hrest)
      · cases h
        exact List.mem_cons_self
      · exact List.mem_cons_of_mem _ (ih h)

/-- A kind of token that a text can be made of. -/
def TokenKind.Ordinary (kind : TokenKind) : Prop :=
  kind ≠ .eof ∧ kind ≠ .error

theorem Pattern.ordinary_of_mem_table {spelling : List Char} {kind : TokenKind}
    (h : Pattern.fixed spelling kind ∈ Pattern.table) : kind.Ordinary := by
  obtain hfixed | hother := List.mem_append.mp h
  · rw [Pattern.fixedRows] at hfixed
    obtain heq | hfixed := List.mem_cons.mp hfixed
    · cases heq
      exact ⟨by nofun, by nofun⟩
    obtain heq | hfixed := List.mem_cons.mp hfixed
    · cases heq
      exact ⟨by nofun, by nofun⟩
    obtain ⟨token, -, hspelling⟩ := List.mem_flatMap.mp hfixed
    obtain ⟨text, -, heq⟩ := List.mem_map.mp hspelling
    cases heq
    exact ⟨by nofun, by nofun⟩
  · simp at hother

namespace Lexeme

theorem ordinary_of_readNumeral {base : Nat} {digits numeral : List Char} {kind : TokenKind}
    (h : readNumeral base digits numeral = .token kind) : kind.Ordinary := by
  rw [readNumeral] at h
  split at h
  · cases h
    exact ⟨by nofun, by nofun⟩
  · nomatch h

theorem ordinary_of_readMatch {row : Pattern} {text : List Char} {kind : TokenKind}
    (hrow : row ∈ Pattern.table) (h : readMatch row text = .token kind) : kind.Ordinary := by
  unfold readMatch at h
  split at h
  · cases h
    exact Pattern.ordinary_of_mem_table hrow
  · nomatch h
  · nomatch h
  · nomatch h
  · cases h
    exact ⟨by nofun, by nofun⟩
  · exact ordinary_of_readNumeral h
  · exact ordinary_of_readNumeral h
  all_goals
    cases h
    exact ⟨by nofun, by nofun⟩

theorem ordinary_of_scan {s : List Char} {kind : TokenKind}
    (h : (scan s).reading = .token kind) : kind.Ordinary := by
  rw [scan] at h
  split at h
  · nomatch h
  · split at h
    · nomatch h
    · nomatch h
  · next hbest => exact ordinary_of_readMatch (Pattern.mem_of_best? hbest) h

theorem ordinary_of_mem_readFrom {offset passing : Nat} {s : List Char} {l : Lexeme}
    {kind : TokenKind} (hmem : l ∈ readFrom offset passing s) (h : l.reading = .token kind) :
    kind.Ordinary := by
  induction s generalizing offset passing with
  | nil => cases passing <;> nomatch hmem
  | cons c s ih =>
      cases passing with
      | succ passing => exact ih hmem
      | zero =>
          obtain rfl | hmem := List.mem_cons.mp hmem
          · exact ordinary_of_scan h
          · exact ih hmem

end Lexeme

namespace TokenStream

variable {lines : LineTable} {ls : List Lexeme}

def isFault (l : Lexeme) : Bool :=
  match l.reading with
  | .fault _ => true
  | _ => false

theorem collect_reported (q : DiagnosticQueue) (ls : List Lexeme) :
    q.Reported lines (collect lines q ls).2 := by
  induction ls generalizing q with
  | nil => exact .refl
  | cons l ls ih =>
      obtain ⟨reading, span⟩ := l
      cases reading with
      | skipped => exact ih q
      | token kind => exact ih q
      | fault f =>
          have hreport : q.Reported lines (q.report lines (f.toDiagnostic span)) :=
            .report .refl _
          rw [collect]
          dsimp only
          split
          · exact hreport
          · exact hreport.trans (ih _)

theorem kind_of_mem_collect {q : DiagnosticQueue} {t : Token}
    (hordinary : ∀ l ∈ ls, ∀ kind, l.reading = .token kind → kind.Ordinary)
    (hmem : t ∈ (collect lines q ls).1) : t.kind = .error ∨ t.kind.Ordinary := by
  induction ls generalizing q with
  | nil => nomatch hmem
  | cons l ls ih =>
      obtain ⟨hl, hrest⟩ := List.forall_mem_cons.mp hordinary
      obtain ⟨reading, span⟩ := l
      cases reading with
      | skipped => exact ih hrest hmem
      | token kind =>
          obtain rfl | hmem := List.mem_cons.mp hmem
          · exact .inr (hl kind rfl)
          · exact ih hrest hmem
      | fault f =>
          rw [collect] at hmem
          dsimp only at hmem
          split at hmem
          · obtain rfl := List.mem_singleton.mp hmem
            exact .inl rfl
          · obtain rfl | hmem := List.mem_cons.mp hmem
            · exact .inl rfl
            · exact ih hrest hmem

/-- Without a fault the tokens are the same for every queue, and the queue stays as it is. -/
theorem collect_of_no_fault (lines : LineTable)
    (hordinary : ∀ l ∈ ls, ∀ kind, l.reading = .token kind → kind.Ordinary)
    (hclean : ∀ l ∈ ls, isFault l = false) :
    ∃ tokens : List Token, (∀ q, collect lines q ls = (tokens, q)) ∧
      ∀ t ∈ tokens, t.kind.Ordinary := by
  induction ls with
  | nil => exact ⟨[], fun _ => rfl, by nofun⟩
  | cons l ls ih =>
      obtain ⟨hl, hrest⟩ := List.forall_mem_cons.mp hordinary
      obtain ⟨hclear, hclean'⟩ := List.forall_mem_cons.mp hclean
      obtain ⟨tokens, hcollect, htokens⟩ := ih hrest hclean'
      obtain ⟨reading, span⟩ := l
      cases reading with
      | skipped => exact ⟨tokens, hcollect, htokens⟩
      | token kind =>
          refine ⟨⟨kind, span⟩ :: tokens, fun q => ?_,
            List.forall_mem_cons.mpr ⟨hl kind rfl, htokens⟩⟩
          rw [collect, hcollect q]
      | fault f => nomatch hclear

theorem isError_toDiagnostic (f : LexicalFault) (span : Span) :
    (f.toDiagnostic span).isError = true := by
  cases f <;> rfl

/-- A fault leaves an error token and an error in the queue, whatever limit the queue has. -/
theorem collect_of_fault {q : DiagnosticQueue} (hopen : q.limitReached = false)
    (hfresh : q.lastSyntaxLine = none) (hfault : ∃ l ∈ ls, isFault l = true) :
    (∃ t ∈ (collect lines q ls).1, t.kind = .error) ∧ (collect lines q ls).2.Marked := by
  induction ls with
  | nil =>
      obtain ⟨l, hmem, -⟩ := hfault
      nomatch hmem
  | cons l ls ih =>
      obtain ⟨reading, span⟩ := l
      cases reading with
      | skipped => exact ih (by simpa [isFault] using hfault)
      | token kind =>
          obtain ⟨⟨t, hmem, ht⟩, hmarked⟩ := ih (by simpa [isFault] using hfault)
          exact ⟨⟨t, List.mem_cons_of_mem _ hmem, ht⟩, hmarked⟩
      | fault f =>
          have hmarked : (q.report lines (f.toDiagnostic span)).Marked :=
            DiagnosticQueue.marked_report hopen hfresh (isError_toDiagnostic f span)
          rw [collect]
          dsimp only
          split
          · exact ⟨⟨_, List.mem_singleton_self _, rfl⟩, hmarked⟩
          · exact ⟨⟨_, List.mem_cons_self, rfl⟩, (collect_reported _ ls).marked hmarked⟩

/-- Either a text has no fault, and then its tokens depend on no limit and nothing is reported, or
it has an error token and an error under every configuration. -/
theorem ofText_faults (lines : LineTable) (s : List Char) :
    (∃ stream : TokenStream, (∀ config, ofText lines (.empty config) s = (stream, .empty config)) ∧
        ∀ t ∈ stream.tokens, t.kind.Ordinary) ∨
      ∀ config, (∃ t ∈ (ofText lines (.empty config) s).1.tokens, t.kind = .error) ∧
        (ofText lines (.empty config) s).2.Marked := by
  have hordinary : ∀ l ∈ Lexeme.ofText s, ∀ kind, l.reading = .token kind → kind.Ordinary :=
    fun l hmem kind h => Lexeme.ordinary_of_mem_readFrom hmem h
  by_cases hfault : ∃ l ∈ Lexeme.ofText s, isFault l = true
  · right
    intro config
    exact collect_of_fault rfl rfl hfault
  · left
    have hclean : ∀ l ∈ Lexeme.ofText s, isFault l = false :=
      fun l hmem => Bool.eq_false_iff.mpr fun h => hfault ⟨l, hmem, h⟩
    obtain ⟨tokens, hcollect, htokens⟩ := collect_of_no_fault lines hordinary hclean
    refine ⟨⟨tokens, min (Lexeme.byteLength s) Span.maxOffset⟩, fun config => ?_, htokens⟩
    rw [ofText, hcollect]

end TokenStream

end ArmPseudocode

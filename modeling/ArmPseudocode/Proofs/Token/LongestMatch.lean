import ArmPseudocode.Proofs.Token.Collected
import ArmPseudocode.Proofs.Token.Languages
import ArmPseudocode.Proofs.Token.Seams

/-!
# The longest match

At each position the tokenizer takes the longest word of the token table that stands there, a
literal before an identifier of the same length, and only where no word of the table stands at all
does it find no token.
-/

namespace ArmPseudocode

namespace Pattern

variable {s : List Char} {row other : Pattern} {n m : Nat}

/-! ### Rows that come first -/

/-- The best match of two lists of rows is in the first of them, if it has one that is as long. -/
theorem best?_append_left {rows rows' : List Pattern} (h : best? s (rows ++ rows') = some (row, n))
    (hother : other ∈ rows) (hmatch : other.longest? s = some n) : row ∈ rows := by
  have hlongest := (of_best? h).2.2
  induction rows generalizing row n with
  | nil => cases hother
  | cons first rows ih =>
      rw [List.cons_append, best?] at h
      split at h
      · next k found l hfirst hrest =>
          have hle := (of_best? hrest).2.2
          split at h
          · cases h
            exact List.mem_cons_self
          · next hlt =>
              cases h
              obtain rfl | hother := List.mem_cons.mp hother
              · rw [hmatch] at hfirst
                cases hfirst
                exact absurd (Nat.le_refl _) hlt
              · exact List.mem_cons_of_mem _ (ih hrest hother hmatch hle)
      · cases h
        exact List.mem_cons_self
      · next hfirst =>
          obtain rfl | hother := List.mem_cons.mp hother
          · rw [hmatch] at hfirst
            cases hfirst
          · exact List.mem_cons_of_mem _ (ih h hother hmatch (of_best? h).2.2)

theorem mem_fixedRows {spelling : List Char} {kind : TokenKind}
    (h : fixed spelling kind ∈ table) : fixed spelling kind ∈ fixedRows := by
  obtain h | h := List.mem_append.mp h
  · exact h
  · simp at h

theorem exists_of_mem_fixedRows (h : row ∈ fixedRows) :
    ∃ spelling kind, row = fixed spelling kind := by
  obtain rfl | rfl | h : row = _ ∨ row = _ ∨ _ := by simpa only [fixedRows, List.mem_cons] using h
  · exact ⟨_, _, rfl⟩
  · exact ⟨_, _, rfl⟩
  · obtain ⟨token, -, h⟩ := List.mem_flatMap.mp h
    obtain ⟨spelling, -, rfl⟩ := List.mem_map.mp h
    exact ⟨_, _, rfl⟩

theorem kind_eq_of_mem_table {spelling : List Char} {kind kind' : TokenKind}
    (h : fixed spelling kind ∈ table) (h' : fixed spelling kind' ∈ table) : kind = kind' := by
  have hnodup : (fixedRows.map Pattern.spelling).Nodup := by decide +kernel
  have heq := List.inj_on_of_nodup_map hnodup (mem_fixedRows h) (mem_fixedRows h') rfl
  cases heq
  rfl

/-- A literal that is as long as the best match is the best match. -/
theorem eq_of_isLiteral (h : best? s table = some (row, n)) (hother : other ∈ table)
    (hliteral : other.isLiteral = true) (hmatch : other.Matches n s) : row = other := by
  obtain ⟨w, z, rfl, rfl, hw⟩ := matches_iff.mp hmatch
  cases other with
  | fixed spelling kind =>
      obtain rfl : w = spelling := hw
      have hlongest : (fixed w kind).longest? (w ++ z) = some w.length := by
        rw [longest?_fixed, behind?_eq_some.mpr rfl]
        rfl
      have hrow := best?_append_left h (mem_fixedRows hother) hlongest
      obtain ⟨spelling, kind', rfl⟩ := exists_of_mem_fixedRows hrow
      obtain ⟨hmem, hrow', -⟩ := of_best? h
      obtain ⟨hle, htake⟩ := matches_of_longest? hrow'
      obtain rfl : (w ++ z).take w.length = spelling := htake
      rw [List.take_left] at hmem ⊢
      rw [kind_eq_of_mem_table hmem hother]
  | commentOpening =>
      obtain rfl : w = ['/', '*'] := hw
      have hopening := best?_commentOpening z
      rw [show ['/', '*'] ++ z = '/' :: '*' :: z from rfl, hopening] at h
      cases h
      rfl
  | _ => nomatch hliteral

end Pattern

namespace Lexeme

open Pattern (best? table)

variable {s rest : List Char} {piece : Piece} {before after ps : List Piece} {row : Pattern}
  {n : Nat}

/-! ### What a piece is -/

/-- A piece is what a row of the token table matches at the start of a text, and the longest match
there is. A comment goes on behind its opening, which is the match. -/
structure LongestMatch (rest : List Char) (piece : Piece) (row : Pattern) (n : Nat) : Prop where
  row_mem : row ∈ table
  row_matches : row.Matches n rest
  longest : ∀ other ∈ table, ∀ m, other.Matches m rest → m ≤ n
  literal : ∀ other ∈ table, other.isLiteral = true → other.Matches n rest → row = other
  taken : row ≠ .commentOpening → piece = ⟨readMatch row (rest.take n), rest.take n⟩
  comment : row = .commentOpening → n = 2 ∧
    piece = match commentLength? (rest.drop 2) with
      | some m => ⟨.skipped, rest.take (2 + m)⟩
      | none => ⟨.fault .unterminatedComment, rest⟩

/-- No word of the token table stands at the start of a text. -/
def NoMatch (rest : List Char) : Prop :=
  ∀ row ∈ table, ∀ n, ¬row.Matches n rest

theorem noMatch_of_best?_eq_none (h : best? rest table = none) : NoMatch rest := by
  intro row hrow n hmatch
  obtain ⟨other, hother, m, hm, -⟩ := Pattern.exists_longer hrow hmatch
  rw [Pattern.of_best?_eq_none h other hother] at hm
  nomatch hm

theorem longestMatch_of_best? (h : best? rest table = some (row, n)) :
    LongestMatch rest ⟨(scan rest).reading, rest.take (scan rest).length⟩ row n := by
  obtain ⟨hrow, hmatch, hbest⟩ := Pattern.of_best? h
  refine ⟨hrow, Pattern.matches_of_longest? hmatch, fun other hother m hm => ?_,
    fun other => Pattern.eq_of_isLiteral h, fun hne => ?_, fun heq => ?_⟩
  · obtain ⟨longer, hlonger, k, hk, hle⟩ := Pattern.exists_longer hother hm
    exact Nat.le_trans hle (hbest longer hlonger k hk)
  · rw [scan_of_best? h hne]
  · subst heq
    obtain rfl : n = 2 := by
      rw [Pattern.longest?_commentOpening] at hmatch
      obtain ⟨-, -, heq⟩ := Option.map_eq_some_iff.mp hmatch
      exact heq.symm
    refine ⟨rfl, ?_⟩
    cases hlength : commentLength? (rest.drop 2) with
    | some m => rw [scan_of_opening h hlength]
    | none =>
        rw [scan_of_unclosed h hlength]
        exact congrArg (Piece.mk _) List.take_length

theorem reading_ne_noToken (base : Nat) (digits numeral : List Char) :
    readNumeral base digits numeral ≠ .fault (.noToken rest) := by
  rw [readNumeral]
  split
  · rintro ⟨⟩
  · rintro ⟨⟩

theorem LongestMatch.reading_ne (h : LongestMatch rest piece row n) (text : List Char) :
    piece.reading ≠ .fault (.noToken text) := by
  by_cases hrow : row = .commentOpening
  · obtain ⟨-, hpiece⟩ := h.comment hrow
    rw [hpiece]
    split
    · nofun
    · nofun
  · rw [h.taken hrow]
    cases row with
    | decimal | hexadecimal => exact reading_ne_noToken _ _ _
    | _ => nofun

theorem reading_of_noMatch (h : NoMatch rest) : (scan rest).reading = .fault (.noToken rest) := by
  cases hbest : best? rest table with
  | none => rw [scan, hbest]
  | some found =>
      obtain ⟨row, n⟩ := found
      obtain ⟨hrow, hmatch, -⟩ := Pattern.of_best? hbest
      exact absurd (Pattern.matches_of_longest? hmatch) (h row hrow n)

/-- The tokenizer takes the longest match at every place between two pieces, or finds none. -/
theorem longest_of_pieces (h : pieces s = before ++ piece :: after) :
    ((∃ text, piece.reading = .fault (.noToken text)) ↔ NoMatch (joined (piece :: after))) ∧
      (NoMatch (joined (piece :: after)) ∨
        ∃ row n, LongestMatch (joined (piece :: after)) piece row n) := by
  obtain ⟨-, -, hscan⟩ := eq_scan_of_pieces h
  cases hbest : best? (joined (piece :: after)) table with
  | none =>
      have hnone := noMatch_of_best?_eq_none hbest
      refine ⟨⟨fun _ => hnone, fun _ => ⟨joined (piece :: after), ?_⟩⟩, .inl hnone⟩
      exact (congrArg Piece.reading hscan).trans (reading_of_noMatch hnone)
  | some found =>
      obtain ⟨row, n⟩ := found
      have hlongest := longestMatch_of_best? hbest
      rw [← hscan] at hlongest
      refine ⟨⟨?_, ?_⟩, .inr ⟨row, n, hlongest⟩⟩
      · rintro ⟨text, hreading⟩
        exact absurd hreading (hlongest.reading_ne text)
      · intro hnone
        exact absurd hlongest.row_matches (hnone row hlongest.row_mem n)

end Lexeme

open Lexeme

/-- An entry without a token is about a piece that the tokenizer found no token at. -/
theorem TokenStream.exists_of_noToken {lines : LineTable} {config : DiagnosticConfig}
    {s : List Char} {entry : LocatedDiagnostic}
    (hmem : entry ∈ (ofText lines (.empty config) s).2.entries)
    (hcode : entry.diagnostic.code = .noToken) :
    ∃ before piece after, pieces s = before ++ piece :: after ∧
      (∃ text, piece.reading = .fault (.noToken text)) ∧
      entry.diagnostic.span = some (.ofRange (byteLength (joined before))
        (byteLength (joined before ++ piece.text))) := by
  obtain ⟨read, rest, hread, hcollected⟩ := collected_ofText lines config s
  have hentry : entry ∈ read.filterMap (report? lines) := by
    obtain ⟨-, -, heq⟩ | ⟨-, -, -, -, last, -, -, heq⟩ := hcollected.ending
    · rw [heq] at hmem
      exact hmem
    · rw [heq] at hmem
      obtain hmem | hmarker := List.mem_append.mp hmem
      · exact hmem
      · rw [List.mem_singleton.mp hmarker] at hcode
        nomatch hcode
  obtain ⟨l, hl, hentry⟩ := List.mem_filterMap.mp hentry
  have hlocated : l ∈ locate 0 (pieces s) := by
    rw [← ofText_eq_locate, hread]
    exact List.mem_append_left _ hl
  obtain ⟨before, piece, after, hpieces, rfl⟩ := exists_of_mem_locate hlocated
  rw [Nat.zero_add, Nat.zero_add] at hentry
  refine ⟨before, piece, after, hpieces, ?_⟩
  rw [report?] at hentry
  split at hentry
  · next fault hreading =>
      cases hentry
      cases fault with
      | noToken text => exact ⟨⟨text, hreading⟩, rfl⟩
      | _ => nomatch hcode
  · nomatch hentry

/-- At each position the tokenizer takes the longest match of the token table, and it reports that
there is no token only where nothing matches. -/
theorem Lexeme.ofText_longest (s : List Char) :
    ofText s = locate 0 (pieces s) ∧ joined (pieces s) = s ∧
      (∀ before piece after, pieces s = before ++ piece :: after →
        ((∃ text, piece.reading = .fault (.noToken text)) ↔ NoMatch (joined (piece :: after))) ∧
        (NoMatch (joined (piece :: after)) ∨
          ∃ row n, LongestMatch (joined (piece :: after)) piece row n)) ∧
      ∀ lines config, ∀ entry ∈ (TokenStream.ofText lines (.empty config) s).2.entries,
        entry.diagnostic.code = .noToken →
          ∃ before piece after, pieces s = before ++ piece :: after ∧
            entry.diagnostic.span = some (.ofRange (byteLength (joined before))
              (byteLength (joined before ++ piece.text))) ∧
            NoMatch (joined (piece :: after)) := by
  refine ⟨ofText_eq_locate s, joined_pieces s, fun _ _ _ => longest_of_pieces,
    fun lines config entry hmem hcode => ?_⟩
  obtain ⟨before, piece, after, hpieces, hreading, hspan⟩ :=
    TokenStream.exists_of_noToken hmem hcode
  exact ⟨before, piece, after, hpieces, hspan, (longest_of_pieces hpieces).1.mp hreading⟩

/-- Behind a call there is a sign that nothing matches, and the call's opening is a literal. -/
theorem Lexeme.ofText_longest_of_bits :
    pieces "bits(#".toList =
        [⟨.token (.fixed .kwBits), "bits(".toList⟩, ⟨.fault (.noToken ['#']), ['#']⟩] ∧
      (∃ row n, LongestMatch "bits(#".toList
        ⟨.token (.fixed .kwBits), "bits(".toList⟩ row n) ∧
      NoMatch ['#'] := by
  have hpieces : pieces "bits(#".toList =
      [⟨.token (.fixed .kwBits), "bits(".toList⟩, ⟨.fault (.noToken ['#']), ['#']⟩] := by
    decide +kernel
  obtain ⟨-, -, hlongest, -⟩ := ofText_longest "bits(#".toList
  refine ⟨hpieces, ?_, (hlongest [_] _ [] hpieces).1.mp ⟨['#'], rfl⟩⟩
  obtain hnone | hrow := (hlongest [] _ [_] hpieces).2
  · obtain ⟨text, htext⟩ := (hlongest [] _ [_] hpieces).1.mpr hnone
    nomatch htext
  · exact hrow

end ArmPseudocode

import ArmPseudocode.Proofs.Token.Lexing

/-!
# Seams between texts

Where two texts are put together, or something is put between them, the pieces on both sides stay
what they were. A token that ends a statement is one character that no other token goes on with, so
what stands behind it can be exchanged; blanks and comments can grow at their ends.
-/

namespace ArmPseudocode

namespace Pattern

variable {s w q q' : List Char} {row : Pattern} {n m : Nat} {c x : Char}

/-! ### First characters -/

/-- Whether a match of the row can begin with the character. -/
def begins (c : Char) : Pattern → Bool
  | fixed spelling _ => spelling.head? = some c
  | blanks => isSeparator c
  | lineComment | commentOpening => c = '/'
  | prose word => word.text.toList.head? = some c
  | decimal | real => Text.isDigit c
  | hexadecimal => c = '0'
  | bitString => isOpeningQuote c
  | name | call => isNameStart c

theorem begins_of_digitRun? {p : Char → Bool} (h : digitRun? p (c :: s) = some n) : p c = true := by
  obtain ⟨hrun, hpos⟩ := of_digitRun? h
  rw [run_cons] at hrun
  split at hrun
  · assumption
  · omega

theorem begins_of_behind? {phrase rest : List Char} (hphrase : phrase ≠ [])
    (h : behind? phrase (c :: s) = some rest) : phrase.head? = some c := by
  obtain ⟨d, phrase, rfl⟩ := List.exists_cons_of_ne_nil hphrase
  have heq := behind?_eq_some.mp h
  rw [List.cons_append, List.cons.injEq] at heq
  rw [heq.1]
  rfl

theorem begins_of_nameRun? (h : nameRun? (c :: s) = some n) : isNameStart c = true := by
  rw [nameRun?] at h
  split at h
  · assumption
  · cases h

theorem begins_of_longest? (hrow : row ∈ table) (h : row.longest? (c :: s) = some n) :
    row.begins c = true := by
  cases row with
  | fixed spelling kind =>
      rw [longest?_fixed] at h
      obtain ⟨rest, hbehind, -⟩ := Option.map_eq_some_iff.mp h
      exact decide_eq_true (begins_of_behind? (fixedRows_spelling _ _ hrow).1 hbehind)
  | blanks | decimal => exact begins_of_digitRun? h
  | lineComment =>
      rw [longest?_lineComment] at h
      obtain ⟨rest, hbehind, -⟩ := Option.map_eq_some_iff.mp h
      exact decide_eq_true (Option.some.inj (begins_of_behind? (by simp) hbehind)).symm
  | commentOpening =>
      rw [longest?_commentOpening] at h
      obtain ⟨rest, hbehind, -⟩ := Option.map_eq_some_iff.mp h
      exact decide_eq_true (Option.some.inj (begins_of_behind? (by simp) hbehind)).symm
  | prose word =>
      rw [longest?] at h
      obtain ⟨rest, hbehind, -⟩ := Option.bind_eq_some_iff.mp h
      exact decide_eq_true (begins_of_behind? (by cases word <;> decide) hbehind)
  | hexadecimal =>
      rw [longest?_hexadecimal] at h
      obtain ⟨rest, hbehind, -⟩ := Option.bind_eq_some_iff.mp h
      exact decide_eq_true (Option.some.inj (begins_of_behind? (by simp) hbehind)).symm
  | real =>
      rw [longest?_real] at h
      obtain ⟨k, hk, -⟩ := Option.bind_eq_some_iff.mp h
      exact begins_of_digitRun? hk
  | bitString =>
      rw [longest?] at h
      split at h
      · assumption
      · cases h
  | name => exact begins_of_nameRun? h
  | call =>
      rw [longest?] at h
      obtain ⟨k, hk, -⟩ := Option.bind_eq_some_iff.mp h
      exact begins_of_nameRun? hk

/-- The only blanks that a token can begin with are the separators. -/
theorem isSeparator_of_begins (hrow : row ∈ table) (h : row.begins c = true)
    (hc : Text.isBlank c = true) : isSeparator c = true := by
  have hfixed : table.all (fun row =>
      row.spelling.head?.all fun c => !Text.isBlank c || isSeparator c) = true := by
    decide +kernel
  have hquotes : ∀ c ∈ ['\u2018', '\u2019', '\''], Text.isBlank c = false := by decide
  have hspan : 0x21 ≤ c.toNat → c.toNat ≤ 0x7f → Text.isBlank c = false := by
    intro hlow hhigh
    simp [Text.isBlank]
    omega
  have hdigit : Text.isDigit c = true → Text.isBlank c = false := by
    rw [Text.isDigit, Bool.and_eq_true, decide_eq_true_eq, decide_eq_true_eq]
    exact fun h => hspan (Nat.le_trans (by decide) (Char.le_def.mp h.1))
      (Nat.le_trans (Char.le_def.mp h.2) (by decide))
  have hname : isNameStart c = true → Text.isBlank c = false := by
    simp only [isNameStart, Bool.or_eq_true, Bool.and_eq_true, decide_eq_true_eq]
    rintro ((h | h) | rfl)
    · exact hspan (Nat.le_trans (by decide) (Char.le_def.mp h.1))
        (Nat.le_trans (Char.le_def.mp h.2) (by decide))
    · exact hspan (Nat.le_trans (by decide) (Char.le_def.mp h.1))
        (Nat.le_trans (Char.le_def.mp h.2) (by decide))
    · decide
  suffices hnot : row.begins c = true → isSeparator c = true ∨ Text.isBlank c = false by
    exact (hnot h).resolve_right (by simp [hc])
  intro h
  cases row with
  | fixed spelling kind =>
      have hhead : spelling.head? = some c := of_decide_eq_true h
      have hall := List.all_eq_true.mp hfixed _ hrow
      exact .inl (by simpa [Pattern.spelling, hhead, hc] using hall)
  | blanks => exact .inl h
  | lineComment | commentOpening | hexadecimal =>
      obtain rfl := of_decide_eq_true h
      exact .inr (by decide)
  | prose word =>
      have hhead : word.text.toList.head? = some c := of_decide_eq_true h
      cases word <;> obtain rfl := Option.some.inj hhead <;> exact .inr (by decide)
  | decimal | real => exact .inr (hdigit h)
  | bitString =>
      rw [begins, isOpeningQuote] at h
      exact .inr (hquotes c (by simpa [or_assoc] using h))
  | name | call => exact .inr (hname h)

theorem best?_of_lt {rows : List Pattern} (hrow : row ∈ rows) (hmatch : row.longest? s = some n)
    (hothers : ∀ other ∈ rows, other ≠ row → ∀ m, other.longest? s = some m → m < n) :
    best? s rows = some (row, n) := by
  cases hbest : best? s rows with
  | none =>
      rw [of_best?_eq_none hbest row hrow] at hmatch
      nomatch hmatch
  | some found =>
      obtain ⟨other, m⟩ := found
      obtain ⟨hother, hm, hlongest⟩ := of_best? hbest
      have hle := hlongest row hrow n hmatch
      by_cases heq : other = row
      · subst heq
        rw [hmatch] at hm
        rw [Option.some.inj hm]
      · have := hothers other hother heq m hm
        omega

/-- The only row of the table that matches a character is the best one. -/
theorem best?_of_begins (hrow : row ∈ table) (hmatch : row.longest? (c :: s) = some n)
    (honly : ∀ other ∈ table, other.begins c = true → other = row) :
    best? (c :: s) table = some (row, n) :=
  best?_of_lt hrow hmatch fun other hother hne _ hm =>
    absurd (honly other hother (begins_of_longest? hother hm)) hne

/-! ### Ends of statements -/

/-- The characters that close something and stand alone, with the tokens they are. -/
def stops : List (Char × TokenKind) :=
  [(';', .fixed .semicolon), ('\x7d', .fixed .closeBrace), (Source.unindentMarker, .unindent)]

theorem best?_stop {kind : TokenKind} (h : (x, kind) ∈ stops) (q : List Char) :
    best? (x :: q) table = some (.fixed [x] kind, 1) := by
  have honly : ∀ stop ∈ stops, .fixed [stop.1] stop.2 ∈ table ∧
      ∀ other ∈ table, other.begins stop.1 = true → other = .fixed [stop.1] stop.2 := by
    decide +kernel
  obtain ⟨hrow, hbegins⟩ := honly _ h
  refine best?_of_begins hrow ?_ hbegins
  rw [longest?_fixed, behind?, if_pos rfl]
  rfl

/-! ### Blanks and comments -/

theorem run_pos {p : Char → Bool} (h : p c = true) : 0 < run p (c :: s) := by
  rw [run_cons, if_pos h]
  exact Nat.succ_pos _

/-- Blanks are passed over, unless a relation or a shift takes the only one. -/
theorem best?_blanks (hc : isSeparator c = true) (hs : s.head? ≠ some '<' ∧ s.head? ≠ some '>') :
    best? (c :: s) table = some (blanks, run isSeparator (c :: s)) := by
  have hrows : ∀ row ∈ table, ∀ c ∈ [' ', '\t', '\r', '\n'], row.begins c = true → row = blanks ∨
      (row.spelling.tail.head? = some '<' ∨ row.spelling.tail.head? = some '>') := by
    decide +kernel
  have hmem : c ∈ [' ', '\t', '\r', '\n'] := by
    simpa [isSeparator, or_assoc] using hc
  refine best?_of_lt (by decide +kernel) ?_ ?_
  · rw [longest?, digitRun?_eq, if_neg (Nat.ne_of_gt (run_pos hc))]
  · intro other hother hne m hm
    obtain rfl | hangle := hrows other hother c hmem (begins_of_longest? hother hm)
    · exact absurd rfl hne
    · cases other with
      | fixed spelling kind =>
          rw [longest?_fixed] at hm
          obtain ⟨rest, hbehind, -⟩ := Option.map_eq_some_iff.mp hm
          have heq := behind?_eq_some.mp hbehind
          cases spelling with
          | nil => obtain hangle | hangle := hangle <;> cases hangle
          | cons _ spelling =>
              obtain ⟨-, rfl⟩ := List.cons.inj heq
              cases spelling with
              | nil => obtain hangle | hangle := hangle <;> cases hangle
              | cons => exact absurd hangle (not_or.mpr hs)
      | _ => obtain hangle | hangle := hangle <;> cases hangle

theorem rows_slash : ∀ row ∈ table, row.begins '/' = true →
    row = .fixed ['/'] (.fixed .slash) ∨ row = .lineComment ∨ row = .commentOpening := by
  decide +kernel

theorem best?_lineComment (s : List Char) :
    best? ('/' :: '/' :: s) table = some (lineComment, run (· ≠ '\n') s + 2) := by
  refine best?_of_lt (by decide +kernel) rfl fun other hother hne m hm => ?_
  obtain rfl | rfl | rfl := rows_slash other hother (begins_of_longest? hother hm)
  · rw [longest?_fixed] at hm
    cases hm
    exact Nat.succ_lt_succ (Nat.succ_pos _)
  · exact absurd rfl hne
  · nomatch hm

theorem best?_commentOpening (s : List Char) :
    best? ('/' :: '*' :: s) table = some (commentOpening, 2) := by
  refine best?_of_lt (by decide +kernel) rfl fun other hother hne m hm => ?_
  obtain rfl | rfl | rfl := rows_slash other hother (begins_of_longest? hother hm)
  · rw [longest?_fixed] at hm
    cases hm
    exact Nat.lt_succ_self 1
  · nomatch hm
  · exact absurd rfl hne

/-! ### Exchanges -/

theorem blunt_cons (hx : x ∈ bluntHeads) (hne : x ≠ ' ') (q : List Char) : Blunt (x :: q) := by
  have hquiet : ∀ x ∈ bluntHeads, x ≠ ' ' → isBitChar x = false ∧ isClosingQuote x = false := by
    decide
  obtain ⟨hbit, hquote⟩ := hquiet x hx hne
  refine ⟨fun c hc => ?_, ?_⟩
  · rw [← Option.some.inj hc]
    exact hx
  · rw [run_cons, if_neg (by rw [hbit]; exact Bool.false_ne_true)]
    exact hquote

theorem blunt_comment (q : List Char) : Blunt (' ' :: '/' :: q) :=
  ⟨fun c hc => by rw [← Option.some.inj hc]; decide, rfl⟩

/-- Behind the end of a statement or of a line anything can stand. -/
theorem exchange_stop (hw : w ≠ []) (hx : x ∈ bluntHeads) (hne : x ≠ ' ') (q q' : List Char) :
    Exchange w (x :: q) (x :: q') where
  nonempty := hw
  blunt := blunt_cons hx hne q
  blunt' := blunt_cons hx hne q'
  line h := by
    rw [run_cons] at h ⊢
    split at h
    · nomatch h
    · next hstop => rw [if_neg hstop]
  prose h := by
    rw [run_cons] at h ⊢
    split at h
    · nomatch h
    · next hstop => rw [if_neg hstop]
  blank _ h := by
    rw [run_cons] at h ⊢
    split at h
    · nomatch h
    · next hstop => rw [if_neg hstop]
  word word _ := by rw [proseLength?_cons, proseLength?_cons, if_neg hne, if_neg hne]

/-- A new line can stand in front of a marker that closes a block. -/
theorem exchange_line (hw : w ≠ []) (hblank : run isSeparator w ≠ w.length) (q q' : List Char) :
    Exchange w (Source.unindentMarker :: q) ('\n' :: q') where
  nonempty := hw
  blunt := blunt_cons (by decide) (by decide) q
  blunt' := blunt_cons (by decide) (by decide) q'
  line h := by
    rw [run_cons, if_pos (by decide)] at h
    nomatch h
  prose h := by
    rw [run_cons, if_pos (by decide)] at h
    nomatch h
  blank h := absurd h hblank
  word word _ := by
    have hhead : Source.unindentMarker ≠ ' ' ∧ '\n' ≠ ' ' := by decide
    rw [proseLength?_cons, proseLength?_cons, if_neg hhead.1, if_neg hhead.2]

/-- A comment can stand in front of a marker that closes a block. -/
theorem exchange_comment (hw : w ≠ []) (hblank : run isSeparator w ≠ w.length)
    (hword : ∀ word : ProseWord, w ≠ word.text.toList) (q q' : List Char) :
    Exchange w (Source.unindentMarker :: q) (' ' :: '/' :: q') where
  nonempty := hw
  blunt := blunt_cons (by decide) (by decide) q
  blunt' := blunt_comment q'
  line h := by
    rw [run_cons, if_pos (by decide)] at h
    nomatch h
  prose h := by
    rw [run_cons, if_pos (by decide)] at h
    nomatch h
  blank h := absurd h hblank
  word word h := absurd h (hword word)

end Pattern

end ArmPseudocode

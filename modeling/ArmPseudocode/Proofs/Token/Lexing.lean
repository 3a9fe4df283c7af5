import ArmPseudocode.Proofs.Text.Cutting
import ArmPseudocode.Proofs.Token.Rows

/-!
# Texts without a fault of the tokenizer

Such a text is cut into pieces, each of them a token or something that is passed over. What a piece
is read as depends on the text behind it only through the rows of the token table that look there,
so the text behind a piece can be exchanged for another one that the rows do not tell apart.
-/

namespace ArmPseudocode

/-- What a piece of text is to the tokenizer if it is no fault: a token, or nothing. -/
def Reading.ofKind : Option TokenKind → Reading
  | none => .skipped
  | some kind => .token kind

theorem Reading.ofKind_inj {kind kind' : Option TokenKind} :
    ofKind kind = ofKind kind' ↔ kind = kind' := by
  cases kind <;> cases kind' <;> simp [ofKind]

namespace Lexeme

open Pattern (best? table Exchange)

variable {s w z z' piece rest : List Char} {row : Pattern} {n m : Nat} {kind : Option TokenKind}
  {ks : List TokenKind}

/-! ### One piece -/

theorem scan_of_best? (h : best? s table = some (row, n)) (hrow : row ≠ .commentOpening) :
    scan s = ⟨readMatch row (s.take n), n⟩ := by
  rw [scan, h]
  cases row with
  | commentOpening => exact absurd rfl hrow
  | _ => rfl

theorem scan_of_opening (h : best? s table = some (.commentOpening, n))
    (hm : commentLength? (s.drop n) = some m) : scan s = ⟨.skipped, n + m⟩ := by
  rw [scan, h]
  dsimp only
  rw [hm]

/-- A piece that is no fault was matched by a row, and is the match, or a comment that begins with
it. -/
theorem of_scan (h : scan s = ⟨.ofKind kind, n⟩) :
    ∃ row m, best? s table = some (row, m) ∧ m ≤ n ∧
      ((row = .commentOpening ∧ kind = none ∧ ∃ k, commentLength? (s.drop m) = some k ∧ n = m + k) ∨
        (row ≠ .commentOpening ∧ n = m ∧ readMatch row (s.take m) = .ofKind kind)) := by
  cases hbest : best? s table with
  | none =>
      rw [scan, hbest] at h
      cases kind <;> cases h
  | some found =>
      obtain ⟨row, m⟩ := found
      refine ⟨row, m, rfl, ?_⟩
      by_cases hrow : row = .commentOpening
      · subst hrow
        cases hlength : commentLength? (s.drop m) with
        | none =>
            rw [scan, hbest] at h
            dsimp only at h
            rw [hlength] at h
            cases kind <;> cases h
        | some k =>
            rw [scan_of_opening hbest hlength] at h
            obtain ⟨hreading, rfl⟩ := Scan.mk.inj h
            refine ⟨Nat.le_add_right m k, .inl ⟨rfl, ?_, k, rfl, rfl⟩⟩
            cases kind with
            | none => rfl
            | some kind => cases hreading
      · rw [scan_of_best? hbest hrow] at h
        obtain ⟨hreading, rfl⟩ := Scan.mk.inj h
        exact ⟨Nat.le_refl _, .inr ⟨hrow, rfl, hreading⟩⟩

theorem commentLength?_cons (c : Char) (s : List Char) :
    commentLength? (c :: s) =
      if c = '*' ∧ s.head? = some '/' then some 2 else (commentLength? s).map (· + 1) := by
  split
  · next h =>
      obtain ⟨rfl, hhead⟩ := h
      obtain ⟨rest, rfl⟩ := List.head?_eq_some_iff.mp hhead
      rfl
  · next h =>
      rw [commentLength?]
      rintro rest rfl heq
      rw [heq] at h
      exact h ⟨rfl, rfl⟩

/-- A comment is closed by the first closing mark in it. -/
theorem commentLength?_eq_some : commentLength? s = some n ↔
    ∃ body rest, s = body ++ '*' :: '/' :: rest ∧ ¬['*', '/'] <:+: body ∧ n = body.length + 2 := by
  constructor
  · intro h
    induction s generalizing n with
    | nil => nomatch h
    | cons c s ih =>
        rw [commentLength?_cons] at h
        split at h
        · next hclose =>
            cases h
            obtain ⟨rfl, hhead⟩ := hclose
            obtain ⟨rest, rfl⟩ := List.head?_eq_some_iff.mp hhead
            exact ⟨[], rest, rfl, by simp, rfl⟩
        · next hopen =>
            obtain ⟨m, hm, rfl⟩ := Option.map_eq_some_iff.mp h
            obtain ⟨body, rest, rfl, hbody, rfl⟩ := ih hm
            refine ⟨c :: body, rest, rfl, ?_, rfl⟩
            rw [Text.pair_infix_cons, not_or]
            refine ⟨fun hclose => hopen ⟨hclose.1, ?_⟩, hbody⟩
            rw [List.head?_append, hclose.2, Option.some_or]
  · rintro ⟨body, rest, rfl, hbody, rfl⟩
    induction body with
    | nil => rfl
    | cons c body ih =>
        rw [Text.pair_infix_cons, not_or] at hbody
        rw [List.cons_append, commentLength?_cons, if_neg, ih hbody.2]
        · rfl
        · rintro ⟨hc, hhead⟩
          cases body with
          | nil => nomatch hhead
          | cons d body => exact hbody.1 ⟨hc, hhead⟩

theorem of_commentLength? (h : commentLength? s = some n) : 2 ≤ n ∧ n ≤ s.length := by
  obtain ⟨body, rest, rfl, -, rfl⟩ := commentLength?_eq_some.mp h
  refine ⟨Nat.le_add_left 2 _, ?_⟩
  rw [List.length_append, List.length_cons, List.length_cons]
  omega

theorem getElem?_of_commentLength? (h : commentLength? s = some n) : s[n - 1]? = some '/' := by
  obtain ⟨body, rest, rfl, -, rfl⟩ := commentLength?_eq_some.mp h
  rw [List.getElem?_append_right (by omega), show body.length + 2 - 1 - body.length = 1 by omega]
  rfl

theorem scan_bounds (h : scan s = ⟨.ofKind kind, n⟩) : 0 < n ∧ n ≤ s.length := by
  obtain ⟨row, m, hbest, -, hcase⟩ := of_scan h
  obtain ⟨hrow, hmatch, -⟩ := Pattern.of_best? hbest
  obtain ⟨hle, hpos⟩ := Pattern.of_longest? hmatch
  replace hpos := hpos fun kind heq => by
    subst heq
    exact (Pattern.fixedRows_spelling [] kind hrow).1 rfl
  obtain ⟨-, -, k, hk, rfl⟩ | ⟨-, rfl, -⟩ := hcase
  · have hlength := (of_commentLength? hk).2
    rw [List.length_drop] at hlength
    exact ⟨by omega, by omega⟩
  · exact ⟨hpos, hle⟩

/-- A comment that is closed in the first part is closed there whatever stands behind it. -/
theorem commentLength?_exchange (h : commentLength? (w ++ z) = some n) (hn : n ≤ w.length) :
    commentLength? (w ++ z') = some n := by
  obtain ⟨body, rest, hs, hbody, rfl⟩ := commentLength?_eq_some.mp h
  have hcomment : body ++ ['*', '/'] <+: w ++ z := ⟨rest, by rw [hs, List.append_assoc]; rfl⟩
  obtain ⟨rest', rfl⟩ : body ++ ['*', '/'] <+: w :=
    List.prefix_of_prefix_length_le hcomment (List.prefix_append w z) (by rwa [List.length_append])
  refine commentLength?_eq_some.mpr ⟨body, rest' ++ z', ?_, hbody, rfl⟩
  rw [List.append_assoc, List.append_assoc]
  rfl

/-- Behind a piece the text can be exchanged. -/
theorem scan_exchange (hw : Exchange w z z') (h : scan (w ++ z) = ⟨.ofKind kind, n⟩)
    (hn : n ≤ w.length) : scan (w ++ z') = ⟨.ofKind kind, n⟩ := by
  obtain ⟨row, m, hbest, hle, hcase⟩ := of_scan h
  have hbest' := Pattern.best?_exchange hw hbest (Nat.le_trans hle hn)
  have hm : m ≤ w.length := Nat.le_trans hle hn
  obtain ⟨rfl, rfl, k, hk, rfl⟩ | ⟨hrow, rfl, hreading⟩ := hcase
  · rw [List.drop_append_of_le_length hm] at hk
    refine scan_of_opening hbest' ?_
    rw [List.drop_append_of_le_length hm]
    exact commentLength?_exchange hk (by rw [List.length_drop]; omega)
  · rw [List.take_append_of_le_length hm] at hreading
    rw [scan_of_best? hbest' hrow, List.take_append_of_le_length hm, hreading]

/-! ### Whole texts -/

/-- The text is cut into pieces that are no faults, and the tokens among them are of the kinds. -/
inductive Lexed : List Char → List TokenKind → Prop
  | nil : Lexed [] []
  | cons {piece rest : List Char} {kind : Option TokenKind} {ks : List TokenKind}
      (hpiece : piece ≠ []) (hscan : scan (piece ++ rest) = ⟨.ofKind kind, piece.length⟩)
      (hrest : Lexed rest ks) : Lexed (piece ++ rest) (kind.toList ++ ks)

theorem lexed_of_scan (h : scan s = ⟨.ofKind kind, n⟩) (hrest : Lexed (s.drop n) ks) :
    Lexed s (kind.toList ++ ks) := by
  obtain ⟨hpos, hle⟩ := scan_bounds h
  have hlength : (s.take n).length = n := List.length_take_of_le hle
  have hpiece : s.take n ≠ [] := List.ne_nil_of_length_pos (by omega)
  have hwhole : s.take n ++ s.drop n = s := List.take_append_drop n s
  have hcons := Lexed.cons hpiece (by rw [hwhole, hlength, h]) hrest
  rwa [hwhole] at hcons

theorem of_lexed (hs : s ≠ []) (h : Lexed s ks) :
    ∃ kind n ks', scan s = ⟨.ofKind kind, n⟩ ∧ Lexed (s.drop n) ks' ∧ ks = kind.toList ++ ks' := by
  cases h with
  | nil => exact absurd rfl hs
  | cons _ hscan hrest =>
      refine ⟨_, _, _, hscan, ?_, rfl⟩
      rwa [List.drop_left]

theorem ne_nil_of_scan (h : scan s = ⟨.ofKind kind, n⟩) : s ≠ [] := by
  obtain ⟨hpos, hle⟩ := scan_bounds h
  exact List.ne_nil_of_length_pos (Nat.lt_of_lt_of_le hpos hle)

theorem lexed_iff_of_scan (h : scan s = ⟨.ofKind kind, n⟩) :
    Lexed s ks ↔ ∃ ks', ks = kind.toList ++ ks' ∧ Lexed (s.drop n) ks' := by
  constructor
  · intro hs
    obtain ⟨kind', n', ks', hscan, hrest, rfl⟩ := of_lexed (ne_nil_of_scan h) hs
    rw [h] at hscan
    obtain ⟨hkind, rfl⟩ := Scan.mk.inj hscan
    exact ⟨ks', by rw [Reading.ofKind_inj.mp hkind], hrest⟩
  · rintro ⟨ks', rfl, hrest⟩
    exact lexed_of_scan h hrest

theorem lexed_nil (h : Lexed [] ks) : ks = [] := by
  generalize hs : [] = s at h
  cases h with
  | nil => rfl
  | cons hpiece => exact absurd (List.append_eq_nil_iff.mp hs.symm).1 hpiece

theorem readFrom_passing (offset passing : Nat) (s : List Char) :
    ∃ offset', readFrom offset passing s = readFrom offset' 0 (s.drop passing) := by
  induction s generalizing offset passing with
  | nil => exact ⟨offset, by rw [List.drop_nil]; cases passing <;> rfl⟩
  | cons c s ih =>
      cases passing with
      | zero => exact ⟨offset, rfl⟩
      | succ passing => exact ih _ passing

theorem readFrom_of_scan (offset : Nat) {reading : Reading} (h : scan s = ⟨reading, n⟩)
    (hpos : 0 < n) (hs : s ≠ []) :
    ∃ span offset', readFrom offset 0 s = ⟨reading, span⟩ :: readFrom offset' 0 (s.drop n) := by
  cases s with
  | nil => exact absurd rfl hs
  | cons c s =>
      obtain ⟨n, rfl⟩ : ∃ fewer, n = fewer + 1 := ⟨n - 1, by omega⟩
      obtain ⟨offset', hrest⟩ := readFrom_passing (offset + c.utf8Size) n s
      rw [readFrom]
      simp only [h, Nat.add_sub_cancel, hrest, List.drop_succ_cons]
      exact ⟨_, offset', rfl⟩

theorem exists_scan {offset : Nat} (hs : s ≠ [])
    (hclean : ∀ l ∈ readFrom offset 0 s, TokenStream.isFault l = false) :
    ∃ kind n, scan s = ⟨.ofKind kind, n⟩ := by
  obtain ⟨c, s, rfl⟩ := List.exists_cons_of_ne_nil hs
  have hfirst := hclean _ List.mem_cons_self
  cases hscan : scan (c :: s) with
  | mk reading n =>
      rw [hscan] at hfirst
      cases reading with
      | skipped => exact ⟨none, n, rfl⟩
      | token kind => exact ⟨some kind, n, rfl⟩
      | fault => nomatch hfirst

theorem exists_lexed (offset : Nat) (s : List Char)
    (hclean : ∀ l ∈ readFrom offset 0 s, TokenStream.isFault l = false) : ∃ ks, Lexed s ks := by
  by_cases hs : s = []
  · exact ⟨[], hs ▸ .nil⟩
  · obtain ⟨kind, n, hscan⟩ := exists_scan hs hclean
    obtain ⟨hpos, hle⟩ := scan_bounds hscan
    obtain ⟨span, offset', hread⟩ := readFrom_of_scan offset hscan hpos hs
    rw [hread] at hclean
    obtain ⟨ks, hrest⟩ := exists_lexed offset' (s.drop n) fun l hl =>
      hclean l (List.mem_cons_of_mem _ hl)
    exact ⟨_, lexed_of_scan hscan hrest⟩
termination_by s.length
decreasing_by
  rw [List.length_drop]
  omega

theorem collect_of_lexed (lines : LineTable) (h : Lexed s ks) (offset : Nat) :
    ∃ tokens : List Token, (∀ q, TokenStream.collect lines q (readFrom offset 0 s) = (tokens, q)) ∧
      tokens.map (·.kind) = ks := by
  induction h generalizing offset with
  | nil => exact ⟨[], fun _ => rfl, rfl⟩
  | @cons piece rest kind ks hpiece hscan hrest ih =>
      obtain ⟨span, offset', hread⟩ := readFrom_of_scan offset hscan
        (List.length_pos_iff.mpr hpiece) (by simp [hpiece])
      rw [List.drop_left] at hread
      obtain ⟨tokens, hcollect, hkinds⟩ := ih offset'
      cases kind with
      | none => exact ⟨tokens, fun q => by rw [hread]; exact hcollect q, hkinds⟩
      | some kind =>
          refine ⟨⟨kind, span⟩ :: tokens, fun q => ?_, by rw [List.map_cons, hkinds]; rfl⟩
          rw [hread, Reading.ofKind, TokenStream.collect, hcollect q]

end Lexeme

namespace TokenStream

open Lexeme (Lexed)

variable {s : List Char} {ks : List TokenKind}

/-- A text that is cut into pieces is read as their tokens under all limits, without a report. -/
theorem ofText_of_lexed (lines : LineTable) (config : DiagnosticConfig) (h : Lexed s ks) :
    ∃ stream : TokenStream, ofText lines (.empty config) s = (stream, .empty config) ∧
      stream.tokens.map (·.kind) = ks := by
  obtain ⟨tokens, hcollect, hkinds⟩ := Lexeme.collect_of_lexed lines h 0
  refine ⟨⟨tokens, min (Lexeme.byteLength s) Span.maxOffset⟩, ?_, hkinds⟩
  rw [ofText, Lexeme.ofText, hcollect]

/-- Without an error token a text is cut into pieces that are no faults. -/
theorem lexed_of_ofText (lines : LineTable) (config : DiagnosticConfig)
    (hnoError : ∀ t ∈ (ofText lines (.empty config) s).1.tokens, t.kind ≠ .error) :
    Lexed s ((ofText lines (.empty config) s).1.tokens.map (·.kind)) := by
  by_cases hfault : ∃ l ∈ Lexeme.ofText s, isFault l = true
  · obtain ⟨⟨t, ht, herror⟩, -⟩ :=
      collect_of_fault (q := .empty config) rfl rfl hfault
    exact absurd herror (hnoError t ht)
  · obtain ⟨ks, hlexed⟩ := Lexeme.exists_lexed 0 s fun l hmem =>
      Bool.eq_false_iff.mpr fun h => hfault ⟨l, hmem, h⟩
    obtain ⟨stream, hread, hkinds⟩ := ofText_of_lexed lines config hlexed
    rw [hread, hkinds]
    exact hlexed

end TokenStream

end ArmPseudocode

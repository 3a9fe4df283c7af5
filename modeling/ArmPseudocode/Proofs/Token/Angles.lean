import Mathlib.Data.List.Pairwise
import ArmPseudocode.Proofs.Token.Cover
import ArmPseudocode.Proofs.Token.Leading
import ArmPseudocode.Proofs.Token.LongestMatch

/-!
# Angles and the spaces in front of them

A bare angle is a relation or a bracket of a slice, and the tokenizer tells them apart by the space
in front. The longest match decides: a single space goes with the angle, but two separators are
longer than the relation, and so the angle behind them stands alone. A space is also lost to a quote
that cannot be read, which takes along what might have been its bits.
-/

namespace ArmPseudocode

namespace Pattern

open Computability

variable {L M : Language Char} {p : Char → Bool} {row : Pattern} {w z : List Char} {c d : Char}

/-! ### What words end in -/

theorem exists_of_mem_mul (h : w ++ [c] ∈ L * M) (hM : [] ∉ M) : ∃ v, v ++ [c] ∈ M := by
  obtain ⟨a, -, b, hb, hword⟩ := Language.mem_mul.mp h
  obtain rfl | ⟨v, e, rfl⟩ := List.eq_nil_or_concat' b
  · exact absurd hb hM
  · rw [← List.append_assoc] at hword
    obtain ⟨-, hlast⟩ := List.append_inj' hword rfl
    rw [hlast] at hb
    exact ⟨v, hb⟩

theorem nil_notMem_someOf : [] ∉ someOf p :=
  fun h => (mem_someOf.mp h).1 rfl

theorem of_mem_mul_someOf (h : w ++ [c] ∈ L * someOf p) : p c = true := by
  obtain ⟨v, hv⟩ := exists_of_mem_mul h nil_notMem_someOf
  exact (mem_someOf.mp hv).2 c (by simp)

/-- A word that ends in characters of a class goes on with one more of them. -/
theorem append_mem_mul_someOf (h : w ∈ L * someOf p) (hd : p d = true) :
    w ++ [d] ∈ L * someOf p := by
  obtain ⟨a, ha, b, hb, rfl⟩ := Language.mem_mul.mp h
  obtain ⟨-, hclass⟩ := mem_someOf.mp hb
  rw [List.append_assoc]
  refine Language.append_mem_mul ha (mem_someOf.mpr ⟨by simp, ?_⟩)
  rw [List.forall_mem_append]
  exact ⟨hclass, List.forall_mem_singleton.mpr hd⟩

theorem classes_of_isSeparator (hc : isSeparator c = true) :
    Text.isDigit c = false ∧ Text.isHexDigit c = false ∧ isNameChar c = false ∧
      isClosingQuote c = false ∧ c ≠ '(' := by
  have hclasses : ∀ c ∈ ['<', '>'] ++ [' ', '\t', '\r', '\n'],
      isSeparator c = true → Text.isDigit c = false ∧ Text.isHexDigit c = false ∧
        isNameChar c = false ∧ isClosingQuote c = false ∧ c ≠ '(' := by
    decide
  exact hclasses c (Lexeme.mem_of_isSeparator hc) hc

theorem isNameChar_of_mem_name (h : w ++ [c] ∈ oneOf isNameStart * (oneOf isNameChar)∗) :
    isNameChar c = true := by
  obtain ⟨d, rest, hword, hd, hrest⟩ := mem_name.mp h
  have hc : c ∈ d :: rest := by
    rw [← hword]
    simp
  obtain rfl | hc := List.mem_cons.mp hc
  · rw [isNameChar, hd, Bool.true_or]
  · exact hrest c hc

theorem not_isSeparator_of_phrase {phrase : List Char} (hphrase : phrase ∈
      ["/*".toList, ProseWord.implementationDefined.text.toList,
        ProseWord.subarchitectureDefined.text.toList] ∨
      ∃ kind, fixed phrase kind ∈ table) (h : w ++ [c] = phrase) : isSeparator c = false := by
  have hwords : ∀ phrase ∈ ["/*".toList, ProseWord.implementationDefined.text.toList,
      ProseWord.subarchitectureDefined.text.toList],
      phrase.getLast?.all (fun c => !isSeparator c) = true := by
    decide
  have hrows : table.all (fun row => row.spelling.getLast?.all fun c => !isSeparator c) = true := by
    decide +kernel
  have hlast : phrase.getLast?.all (fun c => !isSeparator c) = true := by
    obtain hphrase | ⟨kind, hrow⟩ := hphrase
    · exact hwords phrase hphrase
    · exact List.all_eq_true.mp hrows _ hrow
  rw [← h, List.getLast?_append_cons] at hlast
  simpa using hlast

/-- What ends in a separator would go on: blanks with another separator, a line comment to the end
of the line and prose to a semicolon. -/
theorem append_mem_language (hrow : row ∈ table) (hword : w ++ [c] ∈ row.language)
    (hc : isSeparator c = true) (hblanks : row = blanks → isSeparator d = true)
    (hd : d ≠ '\n' ∧ d ≠ ';') : w ++ [c] ++ [d] ∈ row.language := by
  obtain ⟨hdigit, hhex, hname, hquote, hparen⟩ := classes_of_isSeparator hc
  cases row with
  | fixed spelling kind =>
      rw [not_isSeparator_of_phrase (.inr ⟨kind, hrow⟩) hword] at hc
      cases hc
  | commentOpening =>
      rw [not_isSeparator_of_phrase (.inl (by simp)) hword] at hc
      cases hc
  | blanks =>
      obtain ⟨-, hclass⟩ := mem_someOf.mp hword
      refine mem_someOf.mpr ⟨by simp, ?_⟩
      rw [List.forall_mem_append]
      exact ⟨hclass, List.forall_mem_singleton.mpr (hblanks rfl)⟩
  | lineComment =>
      obtain ⟨slashes, hslashes, line, hline, heq⟩ := Language.mem_mul.mp hword
      rw [← heq, List.append_assoc]
      refine Language.append_mem_mul hslashes (mem_kstar_oneOf.mpr ?_)
      rw [List.forall_mem_append]
      exact ⟨mem_kstar_oneOf.mp hline, List.forall_mem_singleton.mpr (by simpa using hd.1)⟩
  | prose word =>
      have hprose : (fun c => decide (c ≠ ';')) d = true := by simpa using hd.2
      cases word with
      | see => exact append_mem_mul_someOf hword hprose
      | implementationDefined | subarchitectureDefined =>
          obtain ⟨_, rfl, rest, rfl | hrest, heq⟩ := Language.mem_mul.mp hword
          · rw [List.append_nil] at heq
            rw [not_isSeparator_of_phrase (.inl (by simp)) heq.symm] at hc
            cases hc
          · rw [← heq, List.append_assoc]
            exact Language.append_mem_mul rfl (.inr (append_mem_mul_someOf hrest hprose))
  | decimal =>
      rw [(mem_someOf.mp hword).2 c (by simp)] at hdigit
      cases hdigit
  | hexadecimal =>
      rw [of_mem_mul_someOf hword] at hhex
      cases hhex
  | real =>
      rw [of_mem_mul_someOf hword] at hdigit
      cases hdigit
  | bitString =>
      obtain ⟨v, x, hx, heq⟩ := exists_of_mem_mul hword (by rintro ⟨x, -, hnil⟩; cases hnil)
      obtain ⟨-, hlast⟩ := List.append_inj' (heq.trans (List.nil_append [x]).symm) rfl
      cases hlast
      rw [hx] at hquote
      cases hquote
  | name =>
      rw [isNameChar_of_mem_name hword] at hname
      cases hname
  | call =>
      obtain ⟨v, hv⟩ := exists_of_mem_mul hword (by rintro ⟨⟩)
      have heq : v ++ [c] = [] ++ ['('] := hv
      obtain ⟨-, hlast⟩ := List.append_inj' heq rfl
      exact absurd (List.singleton_inj.mp hlast) hparen

end Pattern

namespace Lexeme

open Pattern

variable {s rest w : List Char} {c d : Char} {piece : Piece} {before after ps : List Piece}
  {row : Pattern} {n : Nat}

/-! ### Separators at the end of a piece -/

/-- The longest match has no character left that it could go on with. -/
theorem LongestMatch.not_append_mem (h : LongestMatch rest piece row n)
    (hd : (rest.drop n).head? = some d) : rest.take n ++ [d] ∉ row.language := by
  intro hmem
  rw [← take_succ_of_head? hd] at hmem
  rw [List.head?_drop] at hd
  have hlonger := h.longest row h.row_mem (n + 1)
    ⟨(List.getElem?_eq_some_iff.mp hd).1, hmem⟩
  omega

theorem LongestMatch.text_eq (h : LongestMatch (piece.text ++ rest) piece row n)
    (hrow : row ≠ .commentOpening) :
    n = piece.text.length ∧ (piece.text ++ rest).take n = piece.text := by
  have htext : piece.text = (piece.text ++ rest).take n := congrArg Piece.text (h.taken hrow)
  have hlength := congrArg List.length htext
  rw [List.length_take_of_le h.row_matches.1] at hlength
  exact ⟨hlength.symm, htext.symm⟩

theorem LongestMatch.last_of_comment
    (h : LongestMatch (piece.text ++ d :: rest) piece .commentOpening n)
    (hword : piece.text = w ++ [c]) : c = '/' := by
  obtain ⟨-, hpiece⟩ := h.comment rfl
  have htext := congrArg Piece.text hpiece
  split at htext
  · next m hlength =>
      have hm := (of_commentLength? hlength).1
      have hslash := getElem?_of_commentLength? hlength
      rw [List.getElem?_drop, show 2 + (m - 1) = 2 + m - 1 by omega] at hslash
      have hlast := congrArg List.getLast? htext
      rw [List.getLast?_take, if_neg (by omega), hslash, Option.some_or, hword,
        List.getLast?_append_cons] at hlast
      exact Option.some.inj hlast
  · have hlength := congrArg List.length htext
    rw [List.length_append, List.length_cons] at hlength
    omega

theorem scan_of_noMatch (h : NoMatch s) : scan s = ⟨.fault (.noToken s), faultLength s⟩ := by
  cases hbest : best? s table with
  | none => rw [scan, hbest]
  | some found =>
      obtain ⟨hrow, hmatch, -⟩ := of_best? hbest
      exact absurd (matches_of_longest? hmatch) (h _ hrow _)

/-- What cannot be read ends in a separator only behind a quote, and in front of no more bits. -/
theorem not_isBitChar_of_noMatch (h : NoMatch s) (hs : s = w ++ c :: d :: rest)
    (hlength : faultLength s = w.length + 1) (hc : isSeparator c = true) : isBitChar d = false := by
  cases w with
  | nil =>
      refine absurd ?_ (h .blanks (by decide +kernel) 1)
      rw [matches_iff]
      exact ⟨[c], d :: rest, hs, rfl, mem_someOf.mpr ⟨by simp, by simpa using hc⟩⟩
  | cons quote w =>
      rw [List.cons_append] at hs
      rw [hs, faultLength] at hlength
      split at hlength
      · have hdrop := drop_run isBitChar (w ++ c :: d :: rest)
        have hrun : run isBitChar (w ++ c :: d :: rest) = w.length + 1 := by simpa using hlength
        rw [hrun, ← List.drop_drop, List.drop_left] at hdrop
        have hstop := List.head?_dropWhile_not isBitChar (w ++ c :: d :: rest)
        rw [← hdrop] at hstop
        simpa using hstop
      · simp at hlength

/-- What stands behind a piece that ends in a separator: behind blanks no other separator, and
behind what cannot be read no character of a bit string. All other such pieces reach up to the end
of a line or a semicolon. -/
theorem behind_separator (h : pieces s = before ++ piece :: after)
    (hword : piece.text = w ++ [c]) (hc : isSeparator c = true)
    (hnext : joined after = d :: rest) (hd : d ≠ '\n' ∧ d ≠ ';') :
    ((∀ x ∈ w, isSeparator x = true) ∧ isSeparator d = false) ∨
      ((∃ fault, piece.reading = .fault fault) ∧ isBitChar d = false) := by
  obtain ⟨-, -, hscan⟩ := eq_scan_of_pieces h
  obtain ⟨-, hnone | ⟨row, n, hlongest⟩⟩ := longest_of_pieces h
  · rw [joined_cons, hnext] at hscan hnone
    rw [scan_of_noMatch hnone] at hscan
    refine .inr ⟨⟨_, congrArg Piece.reading hscan⟩, ?_⟩
    have hlength := congrArg List.length (congrArg Piece.text hscan)
    rw [List.length_take_of_le (faultLength_bounds (by simp)).2] at hlength
    have hwhole : piece.text ++ d :: rest = w ++ c :: d :: rest := by
      rw [hword, List.append_assoc]
      rfl
    have htaken : faultLength (piece.text ++ d :: rest) = w.length + 1 := by
      rw [← hlength, hword, List.length_append, List.length_singleton]
    exact not_isBitChar_of_noMatch hnone hwhole htaken hc
  · rw [joined_cons, hnext] at hlongest
    by_cases hrow : row = .commentOpening
    · subst hrow
      rw [hlongest.last_of_comment hword] at hc
      cases hc
    · obtain ⟨hn, htake⟩ := hlongest.text_eq hrow
      have hmem := hlongest.row_matches.2
      have hstop := hlongest.not_append_mem (d := d) (by rw [hn, List.drop_left]; rfl)
      rw [htake, hword] at hmem hstop
      by_cases hblanks : row = .blanks
      · subst hblanks
        refine .inl ⟨fun x hx => (mem_someOf.mp hmem).2 x (List.mem_append_left _ hx), ?_⟩
        rw [← Bool.not_eq_true]
        exact fun hmore => hstop (append_mem_language hlongest.row_mem hmem hc (fun _ => hmore) hd)
      · exact absurd (append_mem_language hlongest.row_mem hmem hc (absurd · hblanks) hd) hstop

/-- A space that an angle stands behind is not taken alone: the relation is longer. -/
theorem text_ne_space (h : pieces s = before ++ piece :: after) (hnext : joined after = c :: rest)
    (hc : c = '<' ∨ c = '>') : piece.text ≠ [' '] := by
  intro htext
  have hrelations : ∀ k ∈ [FixedToken.less, .greater],
      fixed (' ' :: k.text.toList) (.fixed k) ∈ table := by
    decide +kernel
  obtain ⟨kind, hrow⟩ : ∃ kind, fixed [' ', c] kind ∈ table := by
    obtain rfl | rfl := hc
    · exact ⟨_, hrelations .less (by decide)⟩
    · exact ⟨_, hrelations .greater (by decide)⟩
  have hmatch : (fixed [' ', c] kind).Matches 2 (piece.text ++ c :: rest) := by
    rw [htext, matches_iff]
    exact ⟨[' ', c], rest, rfl, rfl, rfl⟩
  obtain ⟨-, hnone | ⟨other, n, hlongest⟩⟩ := longest_of_pieces h
  · rw [joined_cons, hnext] at hnone
    exact hnone _ hrow 2 hmatch
  · rw [joined_cons, hnext] at hlongest
    have hle := hlongest.longest _ hrow 2 hmatch
    by_cases hother : other = .commentOpening
    · subst hother
      cases hlongest.last_of_comment (w := []) htext
    · rw [(hlongest.text_eq hother).1, htext] at hle
      cases hle
      contradiction

/-! ### Tokens as pieces -/

theorem mem_locate (offset : Nat) (before : List Piece) (piece : Piece) (after : List Piece) :
    ⟨piece.reading, .ofRange (offset + byteLength (joined before))
      (offset + byteLength (joined before ++ piece.text))⟩ ∈
        locate offset (before ++ piece :: after) := by
  induction before generalizing offset with
  | nil => exact List.mem_cons_self
  | cons first before ih =>
      have hmem := ih (offset + byteLength first.text)
      rw [joined_cons, List.append_assoc, byteLength_append first.text,
        byteLength_append first.text, ← Nat.add_assoc, ← Nat.add_assoc]
      exact List.mem_cons_of_mem _ hmem

theorem readMatch_eq_fixed {text : List Char} {k : FixedToken}
    (h : readMatch row text = .token (.fixed k)) :
    ∃ spelling, row = .fixed spelling (.fixed k) := by
  cases row with
  | fixed spelling kind =>
      cases h
      exact ⟨spelling, rfl⟩
  | decimal | hexadecimal =>
      rw [readMatch, readNumeral] at h
      split at h <;> cases h
  | _ => cases h

theorem exists_spelling {k : FixedToken} (h : pieces s = before ++ piece :: after)
    (hread : piece.reading = .token (.fixed k)) :
    ∃ spelling ∈ k.spellings, piece.text = spelling.toList := by
  obtain ⟨hfault, hnone | ⟨row, n, hlongest⟩⟩ := longest_of_pieces h
  · obtain ⟨text, htext⟩ := hfault.mpr hnone
    rw [hread] at htext
    cases htext
  · have hrow : row ≠ .commentOpening := by
      intro hcomment
      have hreading := congrArg Piece.reading (hlongest.comment hcomment).2
      rw [hread] at hreading
      split at hreading <;> cases hreading
    obtain ⟨spelling, rfl⟩ :=
      readMatch_eq_fixed ((congrArg Piece.reading (hlongest.taken hrow)).symm.trans hread)
    have htext : piece.text = spelling :=
      (congrArg Piece.text (hlongest.taken hrow)).trans hlongest.row_matches.2
    have hmem := mem_fixedRows hlongest.row_mem
    rw [fixedRows, List.mem_cons, List.mem_cons] at hmem
    obtain hmark | hmark | hmem := hmem
    · cases hmark
    · cases hmark
    · obtain ⟨token, -, hmem⟩ := List.mem_flatMap.mp hmem
      obtain ⟨spelling', hspelling, heq⟩ := List.mem_map.mp hmem
      cases heq
      exact ⟨spelling', hspelling, htext⟩

/-- What stands in front of a piece ends as the piece in front of it does. -/
theorem exists_last_piece (h : pieces s = before ++ piece :: after)
    (hlast : (joined before).getLast? = some c) :
    ∃ before' last w, before = before' ++ [last] ∧ last.text = w ++ [c] ∧
      joined before = joined before' ++ w ++ [c] ∧
      pieces s = before' ++ last :: (piece :: after) := by
  obtain rfl | ⟨before', last, rfl⟩ := List.eq_nil_or_concat' before
  · cases hlast
  · have hjoined := joined_concat before' last
    rw [List.append_assoc] at h
    have htext := ne_nil_of_mem_pieces (h ▸ List.mem_append_right _ List.mem_cons_self)
    obtain ⟨w, x, hword⟩ := (List.eq_nil_or_concat' last.text).resolve_left htext
    rw [hjoined, hword, ← List.append_assoc, List.getLast?_concat] at hlast
    cases hlast
    exact ⟨before', last, w, rfl, hword, by rw [hjoined, hword, List.append_assoc], h⟩

/-- A piece that takes a space along has no separator in front of the space. -/
theorem not_isSeparator_ahead {z : List Char} (h : pieces s = before ++ piece :: after)
    (htext : piece.text = ' ' :: z) (hlast : (joined before).getLast? = some c) :
    isSeparator c = false := by
  obtain ⟨before', last, w, -, hword, -, hpieces⟩ := exists_last_piece h hlast
  rw [← Bool.not_eq_true]
  intro hc
  have hnext : joined (piece :: after) = ' ' :: (z ++ joined after) := by
    rw [joined_cons, htext]
    rfl
  obtain ⟨-, hspace⟩ | ⟨-, hspace⟩ := behind_separator hpieces hword hc hnext (by decide)
  · cases hspace
  · cases hspace

/-- A single space in front of an angle that is read alone was taken by what cannot be read. -/
theorem exists_fault_ahead {front : List Char} (h : pieces s = before ++ piece :: after)
    (htext : piece.text = [d]) (hd : d = '<' ∨ d = '>') (hfront : joined before = front ++ [' '])
    (hsingle : ∀ c, front.getLast? = some c → isSeparator c = false) :
    ∃ before' last fault, before = before' ++ [last] ∧ last.reading = .fault fault := by
  have hnext : joined (piece :: after) = d :: joined after := by
    rw [joined_cons, htext]
    rfl
  have hstop : d ≠ '\n' ∧ d ≠ ';' := by
    obtain rfl | rfl := hd <;> decide
  obtain ⟨before', last, w, rfl, hword, hjoined, hpieces⟩ :=
    exists_last_piece (c := ' ') h (by rw [hfront, List.getLast?_concat])
  obtain ⟨hblanks, -⟩ | ⟨⟨fault, hread⟩, -⟩ := behind_separator hpieces hword rfl hnext hstop
  · -- Of two separators the first ends what is in front of the second.
    obtain rfl | ⟨w', x, rfl⟩ := List.eq_nil_or_concat' w
    · exact absurd hword (text_ne_space hpieces hnext hd)
    · obtain ⟨rfl, -⟩ := List.append_inj' (hfront.symm.trans hjoined) rfl
      have hx := hsingle x (by rw [← List.append_assoc, List.getLast?_concat])
      rw [hblanks x (by simp)] at hx
      cases hx
  · exact ⟨before', last, fault, rfl, hread⟩

end Lexeme

/-! ### Relations and brackets -/

/-- The relations that are spelled as the brackets of a slice are. -/
def FixedToken.relations : List FixedToken := [.less, .greater]

def FixedToken.brackets : List FixedToken := [.openAngle, .closeAngle]

namespace TokenStream

open Lexeme Pattern

/-- A single space ends what stands in front: no other separator is before it, and no error token
has taken it. -/
def SpaceAhead (tokens : List Token) (ahead : List Char) : Prop :=
  ∃ front, ahead = front ++ [' '] ∧ (∀ c, front.getLast? = some c → isSeparator c = false) ∧
    ∀ t ∈ tokens, t.kind = .error → t.span.stop ≠ byteLength ahead

/-- How the token of a bare angle stands in a text. -/
inductive AngleIn (s : List Char) (tokens : List Token) : Token → Prop
  /-- A relation takes the single space in front. -/
  | relation {k : FixedToken} {front rest : List Char} (hk : k ∈ FixedToken.relations)
      (htext : s = front ++ ' ' :: (k.text.toList ++ rest))
      (hspace : SpaceAhead tokens (front ++ [' '])) :
      AngleIn s tokens ⟨.fixed k, ⟨byteLength front, byteLength front + 2⟩⟩
  /-- A bracket is the angle alone, where no single space is in front. -/
  | bracket {k : FixedToken} {ahead rest : List Char} (hk : k ∈ FixedToken.brackets)
      (htext : s = ahead ++ (k.text.toList ++ rest)) (hspace : ¬SpaceAhead tokens ahead) :
      AngleIn s tokens ⟨.fixed k, ⟨byteLength ahead, byteLength ahead + 1⟩⟩

/-- What is between a piece and the end of the text is less than 4 GiB, so spans are exact. -/
theorem ofRange_of_pieces {s : List Char} {before after : List Piece} {piece : Piece}
    (h : pieces s = before ++ piece :: after) (hsize : byteLength s < UInt32.size) :
    Span.ofRange (byteLength (joined before)) (byteLength (joined before ++ piece.text)) =
      ⟨byteLength (joined before), byteLength (joined before) + byteLength piece.text⟩ := by
  have hmax : byteLength s ≤ Span.maxOffset := Nat.le_sub_one_of_lt hsize
  rw [(eq_scan_of_pieces h).1, joined_cons, byteLength_append, byteLength_append] at hmax
  rw [byteLength_append, Span.ofRange, Nat.min_eq_left (by omega), Nat.min_eq_left (by omega)]

theorem spellings_relations : ∀ k ∈ FixedToken.relations, ∀ spelling ∈ k.spellings,
    spelling.toList = ' ' :: k.text.toList ∧ byteLength spelling.toList = 2 := by
  decide

theorem spellings_brackets : ∀ k ∈ FixedToken.brackets, ∀ spelling ∈ k.spellings,
    spelling.toList = k.text.toList ∧ byteLength spelling.toList = 1 ∧
      ∃ angle, k.text.toList = [angle] ∧ (angle = '<' ∨ angle = '>') := by
  have hangles : ∀ k ∈ FixedToken.brackets, k.spellings = [k.text] ∧
      byteLength k.text.toList = 1 ∧ (k.text.toList = ['<'] ∨ k.text.toList = ['>']) := by
    decide
  intro k hk spelling hspelling
  obtain ⟨hone, hlength, hangle⟩ := hangles k hk
  obtain rfl := List.mem_singleton.mp (hone ▸ hspelling)
  refine ⟨rfl, hlength, ?_⟩
  obtain hangle | hangle := hangle
  · exact ⟨'<', hangle, .inl rfl⟩
  · exact ⟨'>', hangle, .inr rfl⟩

theorem Covers.apart {config : DiagnosticConfig} {s : List Char} {stream : TokenStream}
    {queue : DiagnosticQueue} (h : Covers config s stream queue) :
    ∀ t ∈ stream.tokens, ∀ t' ∈ stream.tokens,
      t = t' ∨ t.span.stop ≤ t'.span.start ∨ t'.span.stop ≤ t.span.start := by
  have : Std.Symm fun t t' : Token =>
      t.span.stop ≤ t'.span.start ∨ t'.span.stop ≤ t.span.start := ⟨fun _ _ => Or.symm⟩
  have hpairs : stream.tokens.Pairwise fun t t' =>
      t.span.stop ≤ t'.span.start ∨ t'.span.stop ≤ t.span.start := h.ascending.imp .inl
  intro t ht t' ht'
  by_cases heq : t = t'
  · exact .inl heq
  · exact .inr (hpairs.forall ht ht' heq)

/-- A fixed token was read from a piece of the text, and what could not be read in front of it has
left error tokens. -/
theorem exists_piece_of_mem (lines : LineTable) (config : DiagnosticConfig) (s : List Char)
    (hsize : byteLength s < UInt32.size) {t : Token} {k : FixedToken}
    (ht : t ∈ (ofText lines (.empty config) s).1.tokens) (hkind : t.kind = .fixed k) :
    ∃ before piece after, pieces s = before ++ piece :: after ∧
      piece.reading = .token (.fixed k) ∧
      t = ⟨.fixed k,
        ⟨byteLength (joined before), byteLength (joined before) + byteLength piece.text⟩⟩ ∧
      ∀ before' last fault, before = before' ++ [last] → last.reading = .fault fault →
        ∃ error ∈ (ofText lines (.empty config) s).1.tokens, error.kind = .error ∧
          error.span.stop = byteLength (joined before) := by
  obtain ⟨ps, qs, hpieces, -, -, hcollected⟩ := exists_read lines config s
  have htokens := hcollected.tokens_eq
  obtain ⟨l, hl, htoken⟩ := List.mem_filterMap.mp (htokens ▸ ht)
  obtain ⟨before, piece, after, rfl, rfl⟩ := exists_of_mem_locate hl
  rw [List.append_assoc, List.cons_append] at hpieces
  rw [Nat.zero_add, Nat.zero_add, ofRange_of_pieces hpieces hsize] at htoken
  have hpiece : piece.reading = .token (.fixed k) ∧ t = ⟨.fixed k,
      ⟨byteLength (joined before), byteLength (joined before) + byteLength piece.text⟩⟩ := by
    obtain ⟨reading, text⟩ := piece
    cases reading with
    | skipped => cases htoken
    | fault fault =>
        cases htoken
        cases hkind
    | token kind =>
        cases htoken
        cases hkind
        exact ⟨rfl, rfl⟩
  refine ⟨before, piece, after ++ qs, hpieces, hpiece.1, hpiece.2, ?_⟩
  rintro before' last fault rfl hfault
  rw [List.append_assoc, List.singleton_append] at hpieces htokens
  have hspan := ofRange_of_pieces hpieces hsize
  refine ⟨⟨.error, .ofRange (byteLength (joined before'))
    (byteLength (joined before' ++ last.text))⟩, ?_, rfl, ?_⟩
  · rw [htokens]
    refine List.mem_filterMap.mpr ⟨_, mem_locate 0 before' last (piece :: after), ?_⟩
    simp only [token?, hfault, Nat.zero_add]
  · rw [hspan, joined_concat, byteLength_append]

/-- The space that a relation takes along is a single one, and no error token ends with it: it would
overlap the relation. -/
theorem spaceAhead_of_mem {config : DiagnosticConfig} {s : List Char} {stream : TokenStream}
    {queue : DiagnosticQueue} {before after : List Piece} {piece : Piece} {k : FixedToken}
    {z : List Char} (hcovers : Covers config s stream queue)
    (hpieces : pieces s = before ++ piece :: after) (htext : piece.text = ' ' :: z)
    (ht : ⟨.fixed k, ⟨byteLength (joined before), byteLength (joined before) + 2⟩⟩ ∈
      stream.tokens) : SpaceAhead stream.tokens (joined before ++ [' ']) := by
  refine ⟨joined before, rfl, fun c hlast => not_isSeparator_ahead hpieces htext hlast, ?_⟩
  intro t' ht' herror hstop
  have hspan := (hcovers.spans t' ht').1
  rw [byteLength_append, show byteLength [' '] = 1 from rfl] at hstop
  obtain rfl | hbefore | hbehind := hcovers.apart t' ht' _ ht
  · cases herror
  · dsimp only at hbefore
    omega
  · dsimp only at hbehind
    omega

/-- **A bare angle is a relation exactly behind a single space.** The token of a relation takes that
space and the angle, and that of a bracket is the angle alone. The space must be a single one: with
another separator in front of it the two are passed over, and an error token may have taken it. -/
theorem angles_of_spaces (lines : LineTable) (config : DiagnosticConfig) (s : List Char)
    (hsize : byteLength s < UInt32.size) :
    ∀ t ∈ (ofText lines (.empty config) s).1.tokens,
      ∀ k ∈ FixedToken.relations ++ FixedToken.brackets, t.kind = .fixed k →
        AngleIn s (ofText lines (.empty config) s).1.tokens t := by
  intro t ht k hk hkind
  obtain ⟨before, piece, after, hpieces, hread, rfl, hfaults⟩ :=
    exists_piece_of_mem lines config s hsize ht hkind
  have hs : s = joined before ++ (piece.text ++ joined after) := (eq_scan_of_pieces hpieces).1
  obtain ⟨spelling, hspelling, htext⟩ := exists_spelling hpieces hread
  obtain hk | hk := List.mem_append.mp hk
  · obtain ⟨hword, hlength⟩ : piece.text = ' ' :: k.text.toList ∧ byteLength piece.text = 2 :=
      htext ▸ spellings_relations k hk spelling hspelling
    rw [hlength] at ht ⊢
    exact .relation hk (hword ▸ hs)
      (spaceAhead_of_mem (ofText_covers lines config s hsize) hpieces hword ht)
  · obtain ⟨hword, hlength, angle, hbracket, hangle⟩ : piece.text = k.text.toList ∧
        byteLength piece.text = 1 ∧ ∃ angle, k.text.toList = [angle] ∧
          (angle = '<' ∨ angle = '>') :=
      htext ▸ spellings_brackets k hk spelling hspelling
    rw [hlength] at ht ⊢
    refine .bracket hk (hword ▸ hs) ?_
    rintro ⟨front, hfront, hsingle, herrors⟩
    obtain ⟨before', last, fault, hbefore, hfault⟩ :=
      exists_fault_ahead hpieces (hword.trans hbracket) hangle hfront hsingle
    obtain ⟨error, hmem, herror, hstop⟩ := hfaults before' last fault hbefore hfault
    exact herrors error hmem herror hstop

def comparedSlice : List Char := "a < b<1>".toList

theorem comparedSlice_angles :
    byteLength comparedSlice < UInt32.size ∧
      let tokens := (ofText (.ofText comparedSlice) (.empty {}) comparedSlice).1.tokens
      ⟨.fixed .less, ⟨1, 3⟩⟩ ∈ tokens ∧ AngleIn comparedSlice tokens ⟨.fixed .less, ⟨1, 3⟩⟩ ∧
        ⟨.fixed .openAngle, ⟨5, 6⟩⟩ ∈ tokens ∧
          AngleIn comparedSlice tokens ⟨.fixed .openAngle, ⟨5, 6⟩⟩ := by
  have hsize : byteLength comparedSlice < UInt32.size := by decide
  have hangles := angles_of_spaces (.ofText comparedSlice) {} comparedSlice hsize
  refine ⟨hsize, ?_⟩
  intro tokens
  have hless : ⟨.fixed .less, ⟨1, 3⟩⟩ ∈ tokens := by decide +kernel
  have hopen : ⟨.fixed .openAngle, ⟨5, 6⟩⟩ ∈ tokens := by decide +kernel
  exact ⟨hless, hangles _ hless .less (by decide) rfl, hopen,
    hangles _ hopen .openAngle (by decide) rfl⟩

/-- Behind two spaces an angle is a bracket. -/
theorem bracket_behind_spaces :
    let s := Source.markup "a  < b".toList
    (ofText (.ofText s) (.empty {}) s).1.tokens =
        [⟨.name "a", ⟨0, 1⟩⟩, ⟨.fixed .openAngle, ⟨3, 4⟩⟩, ⟨.name "b", ⟨5, 6⟩⟩] ∧
      s[2]? = some ' ' ∧ s[3]? = some '<' := by
  decide +kernel

end TokenStream

end ArmPseudocode

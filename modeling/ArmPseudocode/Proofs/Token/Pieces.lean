import ArmPseudocode.Proofs.Token.Lexing

/-!
# The pieces of a text

The tokenizer cuts a text into pieces, faults among them, each of which is what it takes at one
position. The pieces put together are the text, so nothing is passed over and nothing is read twice,
and a position at which a match starts is a place between two pieces: the pieces in front of it have
been read, and the match is looked for in what the others are together.
-/

namespace ArmPseudocode

/-- What the tokenizer takes in one step, and what it is to it. -/
structure Piece where
  reading : Reading
  text : List Char
deriving DecidableEq

namespace Lexeme

open Pattern (best? table)

variable {s : List Char} {piece : Piece} {before after ps : List Piece}

/-- The pieces of a text whose first `passing` characters belong to a piece that has been read. -/
def piecesFrom : Nat → List Char → List Piece
  | _, [] => []
  | passing + 1, _ :: cs => piecesFrom passing cs
  | 0, c :: cs =>
    let found := scan (c :: cs)
    ⟨found.reading, (c :: cs).take found.length⟩ :: piecesFrom (found.length - 1) cs

def pieces (s : List Char) : List Piece :=
  piecesFrom 0 s

def joined (ps : List Piece) : List Char :=
  ps.flatMap (·.text)

def locate : Nat → List Piece → List Lexeme
  | _, [] => []
  | offset, piece :: ps =>
    ⟨piece.reading, .ofRange offset (offset + byteLength piece.text)⟩ ::
      locate (offset + byteLength piece.text) ps

@[simp] theorem joined_nil : joined [] = [] := rfl

@[simp] theorem joined_cons (piece : Piece) (ps : List Piece) :
    joined (piece :: ps) = piece.text ++ joined ps := List.flatMap_cons

theorem joined_append (ps qs : List Piece) : joined (ps ++ qs) = joined ps ++ joined qs :=
  List.flatMap_append

theorem joined_concat (ps : List Piece) (piece : Piece) :
    joined (ps ++ [piece]) = joined ps ++ piece.text := by
  rw [joined_append, joined_cons, joined_nil, List.append_nil]

theorem byteLength_append (s z : List Char) :
    byteLength (s ++ z) = byteLength s + byteLength z := by
  induction s with
  | nil => exact (Nat.zero_add _).symm
  | cons c s ih => rw [List.cons_append, byteLength, byteLength, ih, Nat.add_assoc]

theorem byteLength_pos (h : s ≠ []) : 0 < byteLength s := by
  obtain ⟨c, s, rfl⟩ := List.exists_cons_of_ne_nil h
  rw [byteLength]
  exact Nat.add_pos_left c.utf8Size_pos _

/-! ### One step -/

theorem faultLength_bounds (h : s ≠ []) : 0 < faultLength s ∧ faultLength s ≤ s.length := by
  obtain ⟨c, s, rfl⟩ := List.exists_cons_of_ne_nil h
  have hrun := Pattern.run_le Pattern.isBitChar s
  rw [faultLength, List.length_cons]
  split <;> omega

theorem best?_bounds {row : Pattern} {n : Nat} (h : best? s table = some (row, n)) :
    0 < n ∧ n ≤ s.length := by
  obtain ⟨hrow, hmatch, -⟩ := Pattern.of_best? h
  obtain ⟨hle, hpos⟩ := Pattern.of_longest? hmatch
  refine ⟨hpos fun kind heq => ?_, hle⟩
  subst heq
  exact (Pattern.fixedRows_spelling [] kind hrow).1 rfl

theorem scan_of_unclosed {n : Nat} (h : best? s table = some (.commentOpening, n))
    (hm : commentLength? (s.drop n) = none) : scan s = ⟨.fault .unterminatedComment, s.length⟩ := by
  rw [scan, h]
  dsimp only
  rw [hm]

/-- Each step of the tokenizer takes a character at least, faults or not. -/
theorem scan_length_bounds (hs : s ≠ []) : 0 < (scan s).length ∧ (scan s).length ≤ s.length := by
  cases hbest : best? s table with
  | none =>
      rw [scan, hbest]
      exact faultLength_bounds hs
  | some found =>
      obtain ⟨row, n⟩ := found
      obtain ⟨hpos, hle⟩ := best?_bounds hbest
      by_cases hrow : row = .commentOpening
      · subst hrow
        cases hlength : commentLength? (s.drop n) with
        | none =>
            rw [scan_of_unclosed hbest hlength]
            exact ⟨List.length_pos_iff.mpr hs, Nat.le_refl _⟩
        | some m =>
            have hm := (of_commentLength? hlength).2
            rw [List.length_drop] at hm
            rw [scan_of_opening hbest hlength]
            dsimp only
            omega
      · rw [scan_of_best? hbest hrow]
        exact ⟨hpos, hle⟩

/-! ### All steps -/

theorem piecesFrom_eq (passing : Nat) (s : List Char) :
    piecesFrom passing s = pieces (s.drop passing) := by
  induction s generalizing passing with
  | nil => cases passing <;> rfl
  | cons c s ih =>
      cases passing with
      | zero => rfl
      | succ passing => exact ih passing

theorem pieces_of_ne_nil (hs : s ≠ []) :
    pieces s = ⟨(scan s).reading, s.take (scan s).length⟩ :: pieces (s.drop (scan s).length) := by
  have hpos := (scan_length_bounds hs).1
  obtain ⟨c, s, rfl⟩ := List.exists_cons_of_ne_nil hs
  obtain ⟨n, hn⟩ : ∃ n, (scan (c :: s)).length = n + 1 := ⟨_, (Nat.sub_add_cancel hpos).symm⟩
  rw [pieces, piecesFrom, piecesFrom_eq, hn]
  rfl

theorem joined_pieces (s : List Char) : joined (pieces s) = s := by
  by_cases hs : s = []
  · subst hs
    rfl
  · have hpos := (scan_length_bounds hs).1
    have hlength := List.length_pos_iff.mpr hs
    rw [pieces_of_ne_nil hs, joined_cons, joined_pieces (s.drop _), List.take_append_drop]
termination_by s.length
decreasing_by
  rw [List.length_drop]
  omega

/-- The lexemes of a text are its pieces, each with the bytes that it takes. -/
theorem readFrom_eq_locate (offset passing : Nat) (s : List Char) :
    readFrom offset passing s =
      locate (offset + byteLength (s.take passing)) (piecesFrom passing s) := by
  induction s generalizing offset passing with
  | nil => cases passing <;> rfl
  | cons c s ih =>
      cases passing with
      | succ passing =>
          rw [readFrom, ih, List.take_succ_cons, byteLength, piecesFrom, Nat.add_assoc]
      | zero =>
          have hpos := (scan_length_bounds (List.cons_ne_nil c s)).1
          have htake : (c :: s).take (scan (c :: s)).length =
              c :: s.take ((scan (c :: s)).length - 1) := by
            rw [← List.take_succ_cons, Nat.sub_add_cancel hpos]
          rw [readFrom, ih, piecesFrom, List.take_zero, byteLength, Nat.add_zero, locate, htake,
            byteLength, Nat.add_assoc]

theorem ofText_eq_locate (s : List Char) : ofText s = locate 0 (pieces s) :=
  readFrom_eq_locate 0 0 s

/-- A piece is what the tokenizer takes at the start of what the pieces from it on are together. -/
theorem eq_scan_of_pieces (h : pieces s = before ++ piece :: after) :
    s = joined before ++ joined (piece :: after) ∧ joined (piece :: after) ≠ [] ∧
      piece = ⟨(scan (joined (piece :: after))).reading,
        (joined (piece :: after)).take (scan (joined (piece :: after))).length⟩ := by
  have hs : s ≠ [] := by
    rintro rfl
    exact List.append_ne_nil_of_right_ne_nil before (List.cons_ne_nil piece after) h.symm
  induction before generalizing s with
  | nil =>
      have hwhole : joined (piece :: after) = s := by rw [← joined_pieces s, h, List.nil_append]
      rw [hwhole, joined_nil]
      rw [pieces_of_ne_nil hs] at h
      exact ⟨rfl, hs, (List.cons.inj h).1.symm⟩
  | cons first before ih =>
      rw [pieces_of_ne_nil hs] at h
      obtain ⟨rfl, hrest⟩ := List.cons.inj h
      have hrest' : s.drop (scan s).length ≠ [] := by
        intro hnil
        rw [hnil] at hrest
        exact List.append_ne_nil_of_right_ne_nil before (List.cons_ne_nil piece after) hrest.symm
      obtain ⟨hsplit, hne, hpiece⟩ := ih hrest hrest'
      refine ⟨?_, hne, hpiece⟩
      rw [joined_cons, List.append_assoc, ← hsplit, List.take_append_drop]

theorem ne_nil_of_mem_pieces (h : piece ∈ pieces s) : piece.text ≠ [] := by
  obtain ⟨before, after, hsplit⟩ := List.append_of_mem h
  obtain ⟨-, hne, hpiece⟩ := eq_scan_of_pieces hsplit
  obtain ⟨hpos, hle⟩ := scan_length_bounds hne
  rw [hpiece]
  refine List.ne_nil_of_length_pos ?_
  rw [List.length_take_of_le hle]
  exact hpos

/-! ### Where a piece stands -/

theorem exists_of_mem_locate {l : Lexeme} {offset : Nat} (h : l ∈ locate offset ps) :
    ∃ before piece after, ps = before ++ piece :: after ∧
      l = ⟨piece.reading, .ofRange (offset + byteLength (joined before))
        (offset + byteLength (joined before ++ piece.text))⟩ := by
  induction ps generalizing offset with
  | nil => nomatch h
  | cons first ps ih =>
      obtain rfl | h := List.mem_cons.mp h
      · exact ⟨[], first, ps, rfl, rfl⟩
      · obtain ⟨before, piece, after, rfl, rfl⟩ := ih h
        refine ⟨first :: before, piece, after, rfl, ?_⟩
        rw [joined_cons, List.append_assoc, byteLength_append first.text,
          byteLength_append first.text, Nat.add_assoc, Nat.add_assoc]

end Lexeme

end ArmPseudocode

import ArmPseudocode.Proofs.Source.Comments

/-!
# Texts one behind the other

Two accepted texts that begin at the margin make up an accepted text, and its program is theirs, one
behind the other. The first line of the second text closes the levels that are open at the end of
the first, unless a comment behind the first has taken up the markers.
-/

namespace ArmPseudocode

open Lexeme (Lexed Closed Bland)
open Source (markedText openLevels lastLine isSignificant isCommentOnly AtMargin)

variable {s s' : List Char} {ks ks' : List TokenKind}

/-! ### The first text -/

/-- Behind a text that does not end with a line comment alone no line comment goes on. -/
theorem Source.closed_markedText_of_code (hs : ¬['/', '*'] <:+: s)
    (hend : isCommentOnly (lastLine s) = false) : Closed (markedText s) := by
  obtain ⟨front, last, hsplit⟩ := Text.exists_splitOn_append '\n' s
  have hlines := hsplit [] List.not_mem_nil
  rw [List.append_nil, List.append_nil] at hlines
  rw [lastLine_eq hlines] at hend
  have hfront : ∀ line ∈ front, ¬['/', '*'] <:+: line := fun line hline =>
    plain_lines hs line (hlines ▸ List.mem_append_left _ hline)
  have hstate := inComment_behindLines hfront []
  rw [markedText_of_splitOn hlines]
  refine Lexeme.closed_lines _ (Lexeme.closed_of_notin ?_)
  by_cases hcode : isSignificant last = true
  · rw [markLine_code hstate hcode, Text.pair_infix_append]
    · exact Text.notin_beforeLineComment last
    · intro hmem
      obtain hslash | hslash := mem_markers _ _ _ hmem <;> cases hslash
  · rw [Bool.not_eq_true] at hcode
    rw [markLine_raw (by rw [hcode, Bool.not_false, Bool.or_true])]
    have hblank : Text.isEmptyLine last = true := by simpa [isCommentOnly, hcode] using hend
    rintro hslashes
    have hmem := List.all_eq_true.mp hblank _ (hslashes.mem List.mem_cons_self)
    cases hmem

/-! ### The second text -/

theorem ParseStmt.beginsStmt_angle : ∀ t ∈ Lexeme.angles, beginsStmt (.fixed t) = false := by
  decide

theorem Spells.head?_ne_angle {k : TokenKind} {ss : List (Stmt Unit)}
    (h : Spells ks k (.list ss)) : ∀ t ∈ Lexeme.angles, ks.head? ≠ some (.fixed t) := by
  intro t ht hhead
  obtain rfl | ⟨k₀, rest, rfl, hk₀⟩ := h.begins_of_list
  · nomatch hhead
  · obtain rfl := Option.some.inj hhead
    rw [ParseStmt.beginsStmt_angle t ht] at hk₀
    nomatch hk₀

theorem eq_nil_of_vacant (hs : ¬['/', '*'] <:+: s)
    (hvacant : ∀ line ∈ Text.splitOn '\n' s, isSignificant line = false)
    (h : Lexed (Source.insertMarkers s) ks)
    (hk : ∀ t ∈ Lexeme.angles, ks.head? ≠ some (.fixed t)) : ks = [] := by
  obtain ⟨front, last, hsplit⟩ := Text.exists_splitOn_append '\n' s
  have hlines := hsplit [] List.not_mem_nil
  rw [List.append_nil, List.append_nil] at hlines
  obtain ⟨hmarked, hbehind⟩ := Source.markLines_vacant hvacant (Source.plain_lines hs) []
  have htext : Source.insertMarkers s = front.flatMap (· ++ ['\n']) ++ last := by
    rw [Source.insertMarkers_eq, markedText, openLevels, hmarked, hbehind, hlines,
      Text.joinWith_append (List.cons_ne_nil _ _)]
    exact List.append_nil _
  have hline : ∀ line ∈ front ++ [last], Lexeme.Vacant line ∧ '\n' ∉ line := by
    intro line hline
    rw [← hlines] at hline
    have hempty := hvacant line hline
    rw [isSignificant, Bool.not_eq_false'] at hempty
    exact ⟨hempty, Text.notin_of_mem_splitOn hline⟩
  rw [htext] at h
  obtain ⟨-, hlast, -⟩ := Lexeme.of_lexed_lines (b := []) rfl
    (fun line hmem => hline line (List.mem_append_left _ hmem)) h hk
  obtain ⟨hempty, hfeed⟩ := hline last (by simp)
  exact Lexeme.eq_nil_of_lexed_vacant hempty hfeed hlast hk

/-- What stands between two texts that are put together: a line feed, the lines in front of the
code of the second, and the markers that close the levels of the first. -/
theorem lexed_between {vacant : List (List Char)} {rest : List Char}
    (hvacant : ∀ line ∈ vacant, isSignificant line = false ∧ '\n' ∉ line)
    (h : Lexed (vacant.flatMap (· ++ ['\n']) ++ rest) ks)
    (hk : ∀ t ∈ Lexeme.angles, ks.head? ≠ some (.fixed t)) (levels : Nat) :
    Bland ('\n' :: (vacant.flatMap (· ++ ['\n']) ++
        (List.replicate levels Source.unindentMarker ++ rest))) ∧
      Lexed ('\n' :: (vacant.flatMap (· ++ ['\n']) ++
        (List.replicate levels Source.unindentMarker ++ rest)))
        (List.replicate levels .unindent ++ ks) := by
  have hline : ∀ line ∈ vacant, Lexeme.Vacant line ∧ '\n' ∉ line := by
    intro line hline
    obtain ⟨hempty, hfeed⟩ := hvacant line hline
    rw [isSignificant, Bool.not_eq_false'] at hempty
    exact ⟨hempty, hfeed⟩
  obtain ⟨hbland, hrest, hnone⟩ := Lexeme.of_lexed_lines (b := []) rfl hline h hk
  have hmarked := (Lexeme.lexed_replicate_iff levels).mpr ⟨ks, rfl, hrest⟩
  have hmarked' : Bland (List.replicate levels Source.unindentMarker ++ rest) := by
    cases levels with
    | zero => exact hbland
    | succ => exact ⟨by rintro ⟨⟩, by rintro ⟨⟩⟩
  have hfront : Lexed ('\n' :: vacant.flatMap (· ++ ['\n'])) [] := by
    have hfeed : ['\n'].all Pattern.isSeparator = true := rfl
    have hbland' := Lexeme.bland_of_lexed hnone Lexeme.bland_nil
    rw [List.append_nil] at hbland'
    exact (Lexeme.lexed_blanks hfeed hbland').mpr hnone
  have hclosed : Closed ('\n' :: vacant.flatMap (· ++ ['\n'])) := by
    have hlines := Lexeme.closed_lines vacant (Lexeme.closed_of_notin (s := []) (by simp))
    rw [List.append_nil] at hlines
    exact hlines.line []
  have hbland' := Lexeme.bland_of_lexed hfront hmarked'
  exact ⟨hbland', Lexeme.lexed_append _ hfront hmarked hmarked' (.inl hclosed)⟩

namespace ParsedSource

variable {config : DiagnosticConfig} {name : String} {text text' : List Char}

/-- Two accepted texts without block comments that begin at the margin, one behind the other. The
second has a statement, and the first does not end with a line comment alone while a level is
open. -/
theorem accepted_append (h : (ofText config name text).hasErrors = false)
    (h' : (ofText config name text').hasErrors = false)
    (hplain : ¬['/', '*'] <:+: text) (hplain' : ¬['/', '*'] <:+: text')
    (hmargin : AtMargin (Text.splitOn '\n' text)) (hmargin' : AtMargin (Text.splitOn '\n' text'))
    (hbody : (ofText config name text').program.body ≠ [])
    (hend : openLevels text = 0 ∨ isCommentOnly (lastLine text) = false) :
    (ofText config name (text ++ '\n' :: text')).hasErrors = false ∧
      (ofText config name (text ++ '\n' :: text')).program.erase.body =
        (ofText config name text).program.erase.body ++
          (ofText config name text').program.erase.body := by
  obtain ⟨ks, hlexed, hspells⟩ := accepted_iff.mp ⟨h, rfl⟩
  obtain ⟨ks', hlexed', hspells'⟩ := accepted_iff.mp ⟨h', rfl⟩
  have hplain₁ :=
    Source.not_pair_infix_fixTypos (x := '/') (y := '*') (by decide) (by decide) hplain
  have hplain₂ :=
    Source.not_pair_infix_fixTypos (x := '/') (y := '*') (by decide) (by decide) hplain'
  have hangle := hspells'.head?_ne_angle
  have hcode : ∃ line ∈ Text.splitOn '\n' (Source.fixTypos text'), isSignificant line = true := by
    false_or_by_contra
    rename_i hnone
    have hvacant : ∀ line ∈ Text.splitOn '\n' (Source.fixTypos text'),
        isSignificant line = false := fun line hline =>
      Bool.eq_false_iff.mpr fun hcode => hnone ⟨line, hline, hcode⟩
    obtain rfl := eq_nil_of_vacant hplain₂ hvacant hlexed' hangle
    have hnil := hspells'.eq_nil_of_list
    cases hstmts : (ofText config name text').program.body with
    | nil => exact hbody hstmts
    | cons => rw [Program.erase, hstmts] at hnil; cases hnil
  obtain ⟨vacant, rest, hvacant, htext', hjoined⟩ := Source.insertMarkers_join hplain₁ hplain₂
    (Source.atMargin_fixTypos hmargin) (Source.atMargin_fixTypos hmargin') hcode
  rw [Source.markup, htext'] at hlexed'
  rw [Source.markup, Source.insertMarkers_eq] at hlexed
  obtain ⟨hbland, hbetween⟩ :=
    lexed_between hvacant hlexed' hangle (openLevels (Source.fixTypos text))
  have hseam : openLevels (Source.fixTypos text) = 0 ∨
      Closed (markedText (Source.fixTypos text)) := by
    rw [Source.openLevels_fixTypos]
    refine hend.imp_right fun hlast => Source.closed_markedText_of_code hplain₁ ?_
    rwa [Source.lastLine_fixTypos, Source.isCommentOnly_fixTypos]
  generalize openLevels (Source.fixTypos text) = levels at hlexed hbland hbetween hseam hjoined
  obtain ⟨front, rfl, hall⟩ := Lexeme.exists_seam_line hlexed hspells.getLast?_stop hseam hbland
  have hwhole : Lexed (Source.markup (text ++ '\n' :: text'))
      (front ++ List.replicate levels .unindent ++ ks') := by
    rw [Source.markup, Source.fixTypos_append_cons (by decide), hjoined, List.append_assoc]
    exact hall _ hbetween
  obtain ⟨hnone, hprogram⟩ := accepted_iff.mpr ⟨_, hwhole, hspells.append hspells'⟩
  exact ⟨hnone, by rw [hprogram]⟩

def commented : List Char := "\n// note\ny = 2;".toList

theorem openBlocks_then_commented :
    (ofText {} "joined" (openBlocks ++ '\n' :: commented)).hasErrors = false ∧
      (ofText {} "joined" (openBlocks ++ '\n' :: commented)).program.erase.body =
        (ofText {} "joined" openBlocks).program.erase.body ++
          (ofText {} "joined" commented).program.erase.body :=
  accepted_append (by decide +kernel) (by decide +kernel) (by decide +kernel) (by decide +kernel)
    (by decide +kernel) (by decide +kernel) (by decide +kernel) (by decide +kernel)

/-- A comment takes up the marker that closes the line inside a prose, and the next text brings it
out again. -/
theorem marker_behind_prose :
    (ofText {} "prose" "SEE b\n\tc;\n// foo".toList).hasErrors = false ∧
      (ofText {} "prose" "x = 1;".toList).hasErrors = false ∧
      (ofText {} "prose" ("SEE b\n\tc;\n// foo".toList ++ '\n' :: "x = 1;".toList)).hasErrors =
        true := by
  rw [hasErrors_iff_marked]
  decide +kernel

end ParsedSource

end ArmPseudocode

import ArmPseudocode.Proofs.Parser.Sequence
import ArmPseudocode.Proofs.Source.Grammar
import ArmPseudocode.Proofs.Source.Layout
import ArmPseudocode.Proofs.Token.Leading

/-!
# Comments at the end of a text

A text is accepted as the same program with a comment behind it, as long as the comment leaves the
layout alone: the marking cuts a line at two slashes even inside a block comment, and a line with
only a comment takes up the markers that close the open levels.
-/

namespace ArmPseudocode

open Lexeme (Lexed Closed Bland)
open Source (markedText openLevels lastLine)

variable {s c : List Char} {ks : List TokenKind}

/-! ### Ends of marked texts -/

theorem Spells.getLast?_stop {k : TokenKind} {phrase : Phrase} (h : Spells ks k phrase) :
    ∀ k, ks.getLast? = some k → ∃ stop ∈ Pattern.stops, stop.2 = k := by
  intro k hk
  have hends := h.ended k hk
  simp only [TokenKind.endsStmt, Bool.or_eq_true, decide_eq_true_eq] at hends
  obtain (rfl | rfl) | rfl := hends
  · exact ⟨_, .head _, rfl⟩
  · exact ⟨_, .tail _ (.head _), rfl⟩
  · exact ⟨_, .tail _ (.tail _ (.head _)), rfl⟩

namespace Source

theorem exists_markedText (h : ¬['/', '/'] <:+: lastLine s) :
    ∃ (lines : List (List Char)) (markers : List Char),
      (∀ c ∈ markers, c = indentMarker ∨ c = unindentMarker) ∧
      markedText s = lines.flatMap (· ++ ['\n']) ++ (markers ++ lastLine s) := by
  obtain ⟨front, last, hsplit⟩ := Text.exists_splitOn_append '\n' s
  have hs := hsplit [] List.not_mem_nil
  rw [List.append_nil, List.append_nil] at hs
  rw [lastLine_eq hs] at h ⊢
  obtain ⟨markers, hmarkers, hline⟩ := exists_markers (behindLines ⟨[], false⟩ front) h
  exact ⟨_, markers, hmarkers, by rw [markedText_of_splitOn hs, hline]⟩

theorem closed_markedText (h : ¬['/', '/'] <:+: lastLine s) : Closed (markedText s) := by
  obtain ⟨lines, markers, hmarkers, htext⟩ := exists_markedText h
  rw [htext]
  refine Lexeme.closed_lines _ (Lexeme.closed_of_notin ?_)
  rwa [Text.pair_infix_append fun hmem => ?_]
  obtain hslash | hslash := hmarkers _ hmem <;> nomatch hslash

/-- A phrase without a line feed or a marker that ends a marked text ends the text. -/
theorem suffix_of_suffix_markedText {phrase : List Char} (h : ¬['/', '/'] <:+: lastLine s)
    (hphrase : ∀ c ∈ ['\n', indentMarker, unindentMarker], c ∉ phrase)
    (hend : phrase <:+ markedText s) : phrase <:+ s := by
  obtain ⟨lines, markers, hmarkers, htext⟩ := exists_markedText h
  rw [htext] at hend
  have hmarked := Text.suffix_of_suffix_append (fun c hc => ?_) hend
  · have hlast := Text.suffix_of_suffix_append (fun c hc => ?_) hmarked
    · exact hlast.trans (lastLine_suffix s)
    · obtain rfl | rfl := hmarkers c (List.mem_of_getLast? hc) <;> exact hphrase _ (by decide)
  · obtain rfl | ⟨front, line, rfl⟩ := List.eq_nil_or_concat lines
    · nomatch hc
    · rw [List.concat_eq_append, List.flatMap_append, List.flatMap_singleton, ← List.append_assoc,
        List.getLast?_concat] at hc
      obtain rfl := Option.some.inj hc
      exact hphrase _ (by decide)

end Source

namespace Source

def comment (c : List Char) : List Char :=
  ' ' :: '/' :: '*' :: (fixTypos c ++ ['*', '/'])

theorem fixTypos_append_comment (text c : List Char) :
    fixTypos (text ++ " /*".toList ++ c ++ "*/".toList) = fixTypos text ++ comment c := by
  have hwhole : text ++ " /*".toList ++ c ++ "*/".toList =
      text ++ ' ' :: '/' :: ('*' :: (c ++ '*' :: '/' :: [])) := by simp
  rw [hwhole, fixTypos_append_space, fixTypos_cons (by decide), fixTypos_append_cons (by decide),
    fixTypos_cons (by decide)]
  rfl

theorem slashes_append_comment {line : List Char} (h : ¬['/', '/'] <:+: line)
    (hc : ¬['/', '/'] <:+: c) : ¬['/', '/'] <:+: line ++ comment c := by
  have hc' := not_pair_infix_fixTypos (x := '/') (y := '/') (by decide) (by decide) hc
  rw [comment, Text.pair_infix_append_cons (by decide) (by decide), not_or]
  refine ⟨h, ?_⟩
  rw [Text.pair_infix_cons, Text.pair_infix_cons,
    Text.pair_infix_append_cons (by decide) (by decide)]
  simp [hc', Text.pair_infix_cons]

/-- Behind a line with something on it a comment without two slashes stays where it is. -/
theorem markup_append_comment {text : List Char}
    (hline : Text.isEmptyLine (lastLine text) = false) (hcut : ¬['/', '/'] <:+: lastLine text)
    (hc : '\n' ∉ c) (hslashes : ¬['/', '/'] <:+: c) :
    markup (text ++ " /*".toList ++ c ++ "*/".toList) = markedText (fixTypos text) ++
      (comment c ++ List.replicate (openLevels (fixTypos text)) unindentMarker) := by
  rw [markup, fixTypos_append_comment]
  refine insertMarkers_append ?_ ?_ ?_
  · have hc' := notin_fixTypos (by decide) hc
    simp [comment, hc']
  · rwa [lastLine_fixTypos, isEmptyLine_fixTypos]
  · rw [lastLine_fixTypos]
    exact slashes_append_comment (not_pair_infix_fixTypos (by decide) (by decide) hcut) hslashes

end Source

namespace Lexeme

theorem lexed_markers (n : Nat) :
    Lexed (List.replicate n Source.unindentMarker) (List.replicate n .unindent) := by
  rw [← List.append_nil (List.replicate n Source.unindentMarker), lexed_replicate_iff]
  exact ⟨[], (List.append_nil _).symm, .nil⟩

theorem lexed_comment {body z : List Char} (hbody : ¬['*', '/'] <:+: body) (hz : Lexed z ks) :
    Lexed (' ' :: '/' :: '*' :: (body ++ '*' :: '/' :: z)) ks := by
  have hscan := scan_comment (commentLength?_eq_some.mpr ⟨body, z, rfl, hbody, rfl⟩)
  have hspace : [' '].all Pattern.isSeparator = true := rfl
  refine (lexed_blanks hspace ⟨by nofun, by nofun⟩).mpr (lexed_of_scan hscan ?_)
  have hlength : 2 + (body.length + 2) = (body ++ ['*', '/']).length + 2 := by
    rw [List.length_append, Nat.add_comm]
    rfl
  have hwhole : body ++ '*' :: '/' :: z = (body ++ ['*', '/']) ++ z := by simp
  rw [hlength, List.drop_succ_cons, List.drop_succ_cons, hwhole, List.drop_left]
  exact hz

end Lexeme

namespace ParsedSource

variable {config : DiagnosticConfig} {name : String} {text : List Char}

/-- The last token of the text is the word `SEE` as an identifier, and nothing stands behind it. -/
def EndsWithSee (config : DiagnosticConfig) (text : List Char) : Prop :=
  "SEE".toList <:+ text ∧
    .name "SEE" :: List.replicate (openLevels text) .unindent <:+ kinds config text

/-- A text is accepted as the same program with a block comment behind its last line, if neither
the line nor the comment has two slashes, the line is not empty and does not end with the word that
the comment would be prose of. -/
theorem accepted_with_comment (h : (ofText config name text).hasErrors = false)
    (hline : Text.isEmptyLine (lastLine text) = false) (hcut : ¬['/', '/'] <:+: lastLine text)
    (hsee : ¬EndsWithSee config text) (hc : '\n' ∉ c) (hclose : ¬['*', '/'] <:+: c)
    (hslashes : ¬['/', '/'] <:+: c) :
    (ofText config name (text ++ " /*".toList ++ c ++ "*/".toList)).hasErrors = false ∧
      (ofText config name (text ++ " /*".toList ++ c ++ "*/".toList)).program.erase =
        (ofText config name text).program.erase := by
  have hlexed := lexed_of_accepted h
  have hspells := spells_of_accepted h
  refine accepted_iff.mpr ⟨kinds config text, ?_, hspells⟩
  have hcut' : ¬['/', '/'] <:+: lastLine (Source.fixTypos text) := by
    rw [Source.lastLine_fixTypos]
    exact Source.not_pair_infix_fixTypos (by decide) (by decide) hcut
  have hword : ∀ word : ProseWord, word.text.toList <:+ markedText (Source.fixTypos text) →
      ¬Lexeme.standingAlone word :: List.replicate (openLevels text) .unindent <:+
        kinds config text := by
    intro word hend hlast
    by_cases hword : word = .see
    · subst hword
      have hend' := Source.suffix_of_suffix_markedText hcut' (by decide) hend
      exact hsee ⟨Source.suffix_of_suffix_fixTypos (by decide) text hend', hlast⟩
    · rw [Lexeme.standingAlone, if_neg hword] at hlast
      exact hspells.not_prose_suffix word "" _ hlast
  rw [Source.markup, Source.insertMarkers_eq, Source.openLevels_fixTypos] at hlexed
  obtain ⟨front, hfront, hall⟩ := Lexeme.exists_seam_comment hlexed hspells.getLast?_stop
    (Source.closed_markedText hcut') hword
  have hbehind := Lexeme.lexed_comment
    (Source.not_pair_infix_fixTypos (x := '*') (y := '/') (by decide) (by decide) hclose)
    (Lexeme.lexed_markers (openLevels text))
  rw [Source.markup_append_comment hline hcut hc hslashes, Source.openLevels_fixTypos, hfront]
  simpa [Source.comment] using hall _ hbehind

def openBlocks : List Char := "if a then\n\tif b then\n\t\tx = 1;".toList

theorem openBlocks_with_comment :
    (ofText {} "open" (openBlocks ++ " /*".toList ++ " a * / b ".toList ++ "*/".toList)).hasErrors =
        false ∧
      (ofText {} "open"
          (openBlocks ++ " /*".toList ++ " a * / b ".toList ++ "*/".toList)).program.erase =
        (ofText {} "open" openBlocks).program.erase :=
  accepted_with_comment (by decide +kernel) (by decide +kernel) (by decide +kernel)
    (fun h => absurd h.1 (by decide +kernel)) (by decide +kernel) (by decide +kernel)
    (by decide +kernel)

/-- Two slashes in a comment cut its end off. -/
theorem slashes_in_comment :
    (ofText {} "slashes" "x = 1;".toList).hasErrors = false ∧
      (ofText {} "slashes" ("x = 1;".toList ++ " /*".toList ++ " a // b ".toList ++
        "*/".toList)).hasErrors = true := by
  rw [hasErrors_iff_marked]
  decide +kernel

/-- A comment behind the word `SEE` is its prose. -/
example : (ofText {} "see" "case x of\n\twhen SEE".toList).hasErrors = false ∧
    (ofText {} "see" ("case x of\n\twhen SEE".toList ++ " /*".toList ++ " b ".toList ++
      "*/".toList)).hasErrors = true := by
  rw [hasErrors_iff_marked]
  decide +kernel

/-- The markers that close the levels open at the end of a text are no tokens of it: there are none,
or they stand in a comment. -/
def MarkersUnread (config : DiagnosticConfig) (text : List Char) : Prop :=
  (TokenStream.ofText (lines text) (.empty config)
    (markedText (Source.fixTypos text))).1.tokens.map (·.kind) = kinds config text

instance (config : DiagnosticConfig) (text : List Char) : Decidable (MarkersUnread config text) :=
  inferInstanceAs (Decidable (_ = _))

theorem markersUnread_of_openLevels (h : openLevels text = 0) : MarkersUnread config text := by
  have hmarkup : Source.markup text = markedText (Source.fixTypos text) := by
    rw [Source.markup, Source.insertMarkers_eq, Source.openLevels_fixTypos, h]
    exact List.append_nil _
  rw [MarkersUnread, ← hmarkup]
  rfl

/-- A text is accepted as the same program with a line behind it that is only a line comment, if
there is no marker behind the text that the comment would take up. -/
theorem accepted_with_commentLine (h : (ofText config name text).hasErrors = false)
    (hunread : MarkersUnread config text) (hc : '\n' ∉ c) :
    (ofText config name (text ++ "\n//".toList ++ c)).hasErrors = false ∧
      (ofText config name (text ++ "\n//".toList ++ c)).program.erase =
        (ofText config name text).program.erase := by
  have hspells := spells_of_accepted h
  refine accepted_iff.mpr ⟨kinds config text, ?_, hspells⟩
  have hlexed : Lexed (markedText (Source.fixTypos text)) (kinds config text) := by
    rw [← hunread]
    refine TokenStream.lexed_of_ofText _ config fun t ht herror => ?_
    have hmem : .error ∈ kinds config text := hunread ▸ List.mem_map.mpr ⟨t, ht, herror⟩
    obtain ⟨t', ht', herror'⟩ := List.mem_map.mp hmem
    exact ne_error_of_accepted h t' ht' herror'
  generalize hmarkers : List.replicate (openLevels text) Source.unindentMarker = markers
  have hbody : '\n' ∉ Source.fixTypos c ++ markers := by
    rw [← hmarkers, List.mem_append, not_or]
    refine ⟨Source.notin_fixTypos (by decide) hc, fun hmem => ?_⟩
    nomatch List.eq_of_mem_replicate hmem
  have hwhole : Source.markup (text ++ "\n//".toList ++ c) = markedText (Source.fixTypos text) ++
      '\n' :: '/' :: '/' :: (Source.fixTypos c ++ markers) := by
    have htext : text ++ "\n//".toList ++ c = text ++ '\n' :: '/' :: '/' :: c := by simp
    rw [htext, Source.markup, Source.fixTypos_append_cons (by decide),
      Source.fixTypos_cons (by decide), Source.fixTypos_cons (by decide),
      Source.insertMarkers_lineComment (Source.notin_fixTypos (by decide) hc),
      Source.openLevels_fixTypos, hmarkers]
    rfl
  have hbehind : Lexed ('\n' :: '/' :: '/' :: (Source.fixTypos c ++ markers)) [] := by
    have hblank : ['\n'].all Pattern.isSeparator = true := rfl
    refine (Lexeme.lexed_blanks hblank ⟨by nofun, by nofun⟩).mpr ?_
    have hcomment := (Lexeme.lexed_lineComment (z := []) hbody (.inl rfl)).mpr .nil
    rwa [List.append_nil] at hcomment
  rw [hwhole, ← List.append_nil (kinds config text)]
  exact Lexeme.lexed_append_of_stop hlexed hspells.getLast?_stop (.inr rfl)
    ⟨by nofun, by nofun⟩ hbehind

def closedBlock : List Char := "if a then\n\tx = 1;\ny = 2;".toList

/-- A text with a level open at its end, the marker of which a comment takes up. -/
def commentedProse : List Char := "SEE b\n\tc;\n// foo".toList

theorem closedBlock_with_commentLine :
    ((ofText {} "closed" (closedBlock ++ "\n//".toList ++ " a /* b".toList)).hasErrors = false ∧
      (ofText {} "closed" (closedBlock ++ "\n//".toList ++ " a /* b".toList)).program.erase =
        (ofText {} "closed" closedBlock).program.erase) ∧
      (ofText {} "prose" (commentedProse ++ "\n//".toList ++ " a".toList)).hasErrors = false ∧
      (ofText {} "prose" (commentedProse ++ "\n//".toList ++ " a".toList)).program.erase =
        (ofText {} "prose" commentedProse).program.erase :=
  ⟨accepted_with_commentLine (by decide +kernel) (markersUnread_of_openLevels (by decide +kernel))
      (by decide +kernel),
    accepted_with_commentLine (by decide +kernel) (by decide +kernel) (by decide +kernel)⟩

/-- A line with only a comment takes up the marker that closes an open level. -/
theorem commentLine_behind_block :
    (ofText {} "block" "if a then\n\tx = 1;".toList).hasErrors = false ∧
      (ofText {} "block" ("if a then\n\tx = 1;".toList ++ "\n//".toList ++
        " note".toList)).hasErrors = true := by
  rw [hasErrors_iff_marked]
  decide +kernel

end ParsedSource

end ArmPseudocode

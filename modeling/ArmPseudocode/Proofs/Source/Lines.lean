import ArmPseudocode.Proofs.Source.Layout
import Mathlib.Data.List.Forall2

/-!
# Lines and marked lines

Marking a text up changes its lines one by one. A line with a depth gets the markers of the levels
that end in front of it and of the level that begins with it, and loses its line comment; the other
lines are copied. So a text without markers of its own has them only in front of its lines and at
its end, and the marked text has the line feeds of the text as written.
-/

namespace ArmPseudocode

namespace Text

variable {sep x : Char} {s line : List Char}

/-! ### Cutting again -/

theorem length_splitOn (sep : Char) (s : List Char) :
    (splitOn sep s).length = s.count sep + 1 := by
  induction s with
  | nil => rfl
  | cons c s ih =>
      obtain ⟨piece, rest, hpieces⟩ := List.exists_cons_of_ne_nil (splitOn_ne_nil sep s)
      rw [splitOn]
      by_cases hc : c = sep
      · rw [if_pos hc, hc, List.count_cons_self, List.length_cons, ih]
      · rw [if_neg hc, List.count_cons_of_ne hc, ← ih, hpieces]
        rfl

theorem mem_beforeLineComment (h : x ∈ beforeLineComment s) : x ∈ s := by
  obtain ⟨rest, hrest, -⟩ := beforeLineComment_append s
  rw [hrest]
  exact List.mem_append_left rest h

end Text

namespace Source

variable {s s' line marked : List Char} {lines : List (List Char)} {state : LayoutState} {d : Nat}
  {levels : List Nat} {x : Char}

/-! ### Texts without markers -/

/-- The text has no block marker. -/
def Unmarked (s : List Char) : Prop :=
  indentMarker ∉ s ∧ unindentMarker ∉ s

instance (s : List Char) : Decidable (Unmarked s) :=
  inferInstanceAs (Decidable (_ ∧ _))

theorem Unmarked.of_subset (h : Unmarked s) (hsub : s' ⊆ s) : Unmarked s' :=
  ⟨fun hmem => h.1 (hsub hmem), fun hmem => h.2 (hsub hmem)⟩

theorem unmarked_of_mem_splitOn (h : Unmarked s) (hline : line ∈ Text.splitOn '\n' s) :
    Unmarked line :=
  h.of_subset (Text.infix_of_mem_splitOn hline).subset

theorem unmarked_fixTypos (h : Unmarked s) : Unmarked (fixTypos s) := by
  have htypo : ∀ typo ∈ typos, Unmarked typo.2.toList := by decide +kernel
  refine fixTypos_induction (R := fun s s' => Unmarked s → Unmarked s') (fun _ => id)
    (fun h h' => h' ∘ h) (fun {s s'} hedit => ?_) s h
  induction hedit with
  | nil => exact id
  | keep c _ ih =>
      rintro ⟨hindent, hunindent⟩
      rw [List.mem_cons, not_or] at hindent hunindent
      obtain ⟨hindent', hunindent'⟩ := ih ⟨hindent.2, hunindent.2⟩
      simp only [Unmarked, List.mem_cons, not_or]
      exact ⟨⟨hindent.1, hindent'⟩, hunindent.1, hunindent'⟩
  | fix hmem _ ih =>
      intro h
      obtain ⟨hindent, hunindent⟩ := htypo _ hmem
      obtain ⟨hindent', hunindent'⟩ := ih (h.of_subset (List.subset_append_right _ _))
      simp only [Unmarked, List.mem_append, not_or]
      exact ⟨⟨hindent, hindent'⟩, hunindent, hunindent'⟩

/-! ### Lines with a depth -/

/-- The lines, each with whether it has a depth: it does not begin in a block comment and has
something on it in front of a line comment. -/
def withDepth : Bool → List (List Char) → List (Bool × List Char)
  | _, [] => []
  | inComment, line :: lines =>
    (!inComment && isSignificant line, line) :: withDepth (commentOpenAfter inComment line) lines

/-- What marking makes of a line. -/
inductive LineMarked : Bool × List Char → List Char → Prop
  | copied (line : List Char) : LineMarked (false, line) line
  | entered (line : List Char) (closed opened : Nat) (hopened : opened ≤ 1) :
      LineMarked (true, line) (List.replicate closed unindentMarker ++
        List.replicate opened indentMarker ++ Text.beforeLineComment line)

theorem length_withDepth (inComment : Bool) (lines : List (List Char)) :
    (withDepth inComment lines).length = lines.length := by
  induction lines generalizing inComment with
  | nil => rfl
  | cons line lines ih => exact congrArg (· + 1) (ih _)

theorem withDepth_snd (inComment : Bool) (lines : List (List Char)) :
    (withDepth inComment lines).map Prod.snd = lines := by
  induction lines generalizing inComment with
  | nil => rfl
  | cons line lines ih => exact congrArg (line :: ·) (ih _)

theorem commentOpenAfter_fixTypos (inComment : Bool) (line : List Char) :
    commentOpenAfter inComment (fixTypos line) = commentOpenAfter inComment line :=
  fixTypos_induction
    (R := fun s s' => commentOpenAfter inComment s' = commentOpenAfter inComment s)
    (fun _ => rfl) (fun h h' => h'.trans h) (fun h => h.commentOpenAfter_eq inComment) line

theorem withDepth_map_fixTypos (inComment : Bool) (lines : List (List Char)) :
    withDepth inComment (lines.map fixTypos) =
      (withDepth inComment lines).map fun l => (l.1, fixTypos l.2) := by
  induction lines generalizing inComment with
  | nil => rfl
  | cons line lines ih =>
      rw [List.map_cons, withDepth, withDepth, isSignificant_fixTypos, commentOpenAfter_fixTypos,
        ih, List.map_cons]

/-! ### Marked lines -/

theorem leaveLevels_eq (d : Nat) (levels : List Nat) :
    leaveLevels d levels =
      ((levels.takeWhile (d < ·)).length, levels.dropWhile (d < ·)) := by
  induction levels with
  | nil => rfl
  | cons level outer ih =>
      rw [leaveLevels, ih, List.takeWhile_cons, List.dropWhile_cons]
      by_cases h : d < level
      · rw [if_pos h, if_pos (decide_eq_true h), if_pos (decide_eq_true h)]
        rfl
      · rw [if_neg h, if_neg (by simpa using h), if_neg (by simpa using h)]
        rfl

/-- A line is behind the ends of the levels deeper than it, and begins a level if the one around it
is not as deep. -/
theorem enterLine_eq (d : Nat) (levels : List Nat) :
    (levels.dropWhile (d < ·) = [] ∧
        enterLine d levels =
          (List.replicate (levels.takeWhile (d < ·)).length unindentMarker, [d])) ∨
      (∃ top outer, levels.dropWhile (d < ·) = top :: outer ∧ top < d ∧
        enterLine d levels =
          (List.replicate (levels.takeWhile (d < ·)).length unindentMarker ++ [indentMarker],
            d :: top :: outer)) ∨
      ∃ outer, levels.dropWhile (d < ·) = d :: outer ∧
        enterLine d levels =
          (List.replicate (levels.takeWhile (d < ·)).length unindentMarker, d :: outer) := by
  have hhead := List.head?_dropWhile_not (d < ·) levels
  rw [enterLine, leaveLevels_eq]
  dsimp only
  cases hrest : levels.dropWhile (d < ·) with
  | nil => exact .inl ⟨rfl, rfl⟩
  | cons top outer =>
      right
      rw [hrest] at hhead
      have hle : top ≤ d := by simpa using hhead
      dsimp only
      by_cases htop : top < d
      · exact .inl ⟨top, outer, rfl, htop, if_pos htop⟩
      · obtain rfl : top = d := Nat.le_antisymm hle (Nat.le_of_not_lt htop)
        exact .inr ⟨outer, rfl, if_neg htop⟩

theorem lineMarked_markLine (state : LayoutState) (line : List Char) :
    LineMarked (!state.inComment && isSignificant line, line) (markLine state line).1 := by
  by_cases hraw : state.inComment || !isSignificant line
  · rw [markLine_raw hraw]
    have hflag : (!state.inComment && isSignificant line) = false := by
      cases hcomment : state.inComment <;> simp_all
    rw [hflag]
    exact .copied line
  · rw [Bool.or_eq_true, not_or, Bool.not_eq_true, Bool.not_eq_true, Bool.not_eq_false'] at hraw
    obtain ⟨hcomment, hsignificant⟩ := hraw
    rw [markLine_code hcomment hsignificant, hcomment, hsignificant]
    obtain ⟨-, heq⟩ | ⟨top, outer, -, -, heq⟩ | ⟨outer, -, heq⟩ :=
      enterLine_eq (depth (Text.beforeLineComment line)) state.levels
    · rw [heq, ← List.append_nil (List.replicate _ _)]
      exact .entered line _ 0 (Nat.zero_le 1)
    · rw [heq]
      exact .entered line _ 1 (Nat.le_refl 1)
    · rw [heq, ← List.append_nil (List.replicate _ _)]
      exact .entered line _ 0 (Nat.zero_le 1)

theorem inComment_markLine (state : LayoutState) (line : List Char) :
    (markLine state line).2.inComment = commentOpenAfter state.inComment line := by
  rw [markLine]
  dsimp only
  split <;> rfl

theorem lineMarked_markLines (state : LayoutState) (lines : List (List Char)) :
    List.Forall₂ LineMarked (withDepth state.inComment lines) (markLines state lines).1 := by
  induction lines generalizing state with
  | nil => exact .nil
  | cons line lines ih =>
      have hrest := ih (markLine state line).2
      rw [inComment_markLine] at hrest
      exact .cons (lineMarked_markLine state line) hrest

theorem LineMarked.notin {flag : Bool} (h : LineMarked (flag, line) marked) (hline : '\n' ∉ line) :
    '\n' ∉ marked := by
  cases h with
  | copied => exact hline
  | entered closed opened hopened =>
      simp only [List.mem_append, not_or]
      refine ⟨⟨fun h => ?_, fun h => ?_⟩, fun h => hline (Text.mem_beforeLineComment h)⟩
      · exact absurd (List.eq_of_mem_replicate h) (by decide)
      · exact absurd (List.eq_of_mem_replicate h) (by decide)

theorem notin_markLines (state : LayoutState) (s : List Char) :
    ∀ marked ∈ (markLines state (Text.splitOn '\n' s)).1, '\n' ∉ marked := by
  have hall : ∀ {ls : List (Bool × List Char)} {ms : List (List Char)},
      List.Forall₂ LineMarked ls ms → (∀ line ∈ ls.map Prod.snd, '\n' ∉ line) →
        ∀ marked ∈ ms, '\n' ∉ marked := by
    intro ls ms h hlines
    induction h with
    | nil => nofun
    | @cons l marked ls ms hl _ ih =>
        obtain ⟨hline, hlines⟩ := List.forall_mem_cons.mp hlines
        exact List.forall_mem_cons.mpr ⟨hl.notin hline, ih hlines⟩
  refine hall (lineMarked_markLines state _) ?_
  rw [withDepth_snd]
  exact fun line => Text.notin_of_mem_splitOn

theorem joinWith_concat_append (front : List (List Char)) (last closing : List Char) :
    Text.joinWith ['\n'] (front ++ [last]) ++ closing =
      Text.joinWith ['\n'] (front ++ [last ++ closing]) := by
  rw [Text.joinWith_append (List.cons_ne_nil _ _), Text.joinWith_append (List.cons_ne_nil _ _),
    List.append_assoc]
  rfl

/-- The lines of the marked text are the marked lines, with the markers of the levels that are open
at the end behind the last of them. -/
theorem splitOn_markup (s : List Char) :
    ∃ front last closing, Text.splitOn '\n' (markup s) =
        front ++ [last ++ List.replicate closing unindentMarker] ∧
      List.Forall₂ (fun l marked => LineMarked (l.1, fixTypos l.2) marked)
        (withDepth false (Text.splitOn '\n' s)) (front ++ [last]) := by
  have hlines := lineMarked_markLines ⟨[], false⟩ (Text.splitOn '\n' (fixTypos s))
  have hmarkup := insertMarkers_eq (fixTypos s)
  rw [markedText] at hmarkup
  obtain ⟨front, last, hmarked⟩ := List.eq_nil_or_concat' _ |>.resolve_left
    (markedLines_ne_nil ⟨[], false⟩ (fixTypos s))
  have hnotin := notin_markLines ⟨[], false⟩ (fixTypos s)
  rw [hmarked] at hmarkup hlines hnotin
  rw [joinWith_concat_append] at hmarkup
  rw [splitOn_fixTypos, withDepth_map_fixTypos, List.forall₂_map_left_iff] at hlines
  refine ⟨front, last, openLevels (fixTypos s), ?_, hlines⟩
  rw [markup, hmarkup]
  refine Text.splitOn_joinWith (by simp) fun piece hpiece => ?_
  obtain hpiece | hpiece := List.mem_append.mp hpiece
  · exact hnotin piece (List.mem_append_left _ hpiece)
  · rw [List.mem_singleton.mp hpiece, List.mem_append, not_or]
    refine ⟨hnotin last (by simp), fun h => ?_⟩
    exact absurd (List.eq_of_mem_replicate h) (by decide)

end Source

end ArmPseudocode

import ArmPseudocode.Proofs.Source.Typos

/-!
# The layout of a text

What the marking of a text depends on from line to line: the open levels and whether a block comment
runs on. The marked text is the marked lines, and behind them a marker for each level that is open
at the end.
-/

namespace ArmPseudocode.Source

variable {state : LayoutState} {line b s s' : List Char} {lines others : List (List Char)}
  {d : Nat} {levels : List Nat}

/-! ### Lines -/

def isSignificant (line : List Char) : Bool :=
  !Text.isEmptyLine (Text.beforeLineComment line)

def isCommentOnly (line : List Char) : Bool :=
  !isSignificant line && !Text.isEmptyLine line

def lastLine (s : List Char) : List Char :=
  (Text.splitOn '\n' s).getLastD []

/-- Where the marking stands behind some lines. -/
def behindLines (state : LayoutState) (lines : List (List Char)) : LayoutState :=
  lines.foldl (fun state line => (markLine state line).2) state

/-- How many levels are open at the end of a text, the base level apart. -/
def openLevels (s : List Char) : Nat :=
  (behindLines ⟨[], false⟩ (Text.splitOn '\n' s)).levels.length - 1

def markedText (s : List Char) : List Char :=
  Text.joinWith ['\n'] (markLines ⟨[], false⟩ (Text.splitOn '\n' s)).1

@[simp] theorem markLines_nil_fst (state : LayoutState) : (markLines state []).1 = [] := rfl

@[simp] theorem markLines_cons_fst (state : LayoutState) (line : List Char)
    (lines : List (List Char)) : (markLines state (line :: lines)).1 =
      (markLine state line).1 :: (markLines (markLine state line).2 lines).1 := rfl

theorem markLines_snd (state : LayoutState) (lines : List (List Char)) :
    (markLines state lines).2 =
      List.replicate ((behindLines state lines).levels.length - 1) unindentMarker := by
  induction lines generalizing state with
  | nil => rfl
  | cons line lines ih => exact ih _

theorem markLines_append (state : LayoutState) (lines others : List (List Char)) :
    (markLines state (lines ++ others)).1 =
      (markLines state lines).1 ++ (markLines (behindLines state lines) others).1 := by
  induction lines generalizing state with
  | nil => rfl
  | cons line lines ih => exact congrArg (_ :: ·) (ih _)

@[simp] theorem behindLines_nil (state : LayoutState) : behindLines state [] = state := rfl

@[simp] theorem behindLines_cons (state : LayoutState) (line : List Char)
    (lines : List (List Char)) :
    behindLines state (line :: lines) = behindLines (markLine state line).2 lines := rfl

theorem behindLines_append (state : LayoutState) (lines others : List (List Char)) :
    behindLines state (lines ++ others) = behindLines (behindLines state lines) others :=
  List.foldl_append

theorem insertMarkers_eq (s : List Char) :
    insertMarkers s = markedText s ++ List.replicate (openLevels s) unindentMarker := by
  rw [openLevels, ← markLines_snd]
  rfl

theorem markLine_raw (h : state.inComment || !isSignificant line) :
    markLine state line =
      (line, { state with inComment := commentOpenAfter state.inComment line }) := by
  rw [isSignificant, Bool.not_not] at h
  rw [markLine, if_pos h]

theorem markLine_code (hstate : state.inComment = false) (h : isSignificant line = true) :
    markLine state line =
      ((enterLine (depth (Text.beforeLineComment line)) state.levels).1 ++
          Text.beforeLineComment line,
        ⟨(enterLine (depth (Text.beforeLineComment line)) state.levels).2,
          commentOpenAfter false line⟩) := by
  rw [isSignificant, Bool.not_eq_true'] at h
  rw [markLine, hstate, h]
  rfl

theorem markedLines_ne_nil (state : LayoutState) (s : List Char) :
    (markLines state (Text.splitOn '\n' s)).1 ≠ [] := by
  obtain ⟨line, lines, hlines⟩ := List.exists_cons_of_ne_nil (Text.splitOn_ne_nil '\n' s)
  rw [hlines]
  exact List.cons_ne_nil _ _

theorem markedText_of_splitOn (h : Text.splitOn '\n' s = lines ++ [line]) :
    markedText s = (markLines ⟨[], false⟩ lines).1.flatMap (· ++ ['\n']) ++
      (markLine (behindLines ⟨[], false⟩ lines) line).1 := by
  rw [markedText, h, markLines_append]
  exact Text.joinWith_append (List.cons_ne_nil _ _)

theorem markedText_append (s s' : List Char) : markedText (s ++ '\n' :: s') = markedText s ++
    '\n' :: Text.joinWith ['\n'] (markLines (behindLines ⟨[], false⟩ (Text.splitOn '\n' s))
      (Text.splitOn '\n' s')).1 := by
  rw [markedText, Text.splitOn_append_cons, markLines_append, Text.joinWith_append_of_ne_nil
    (markedLines_ne_nil _ s) (markedLines_ne_nil _ s'), List.append_assoc]
  rfl

theorem openLevels_append (s s' : List Char) : openLevels (s ++ '\n' :: s') =
    (behindLines (behindLines ⟨[], false⟩ (Text.splitOn '\n' s))
      (Text.splitOn '\n' s')).levels.length - 1 := by
  rw [openLevels, Text.splitOn_append_cons, behindLines_append]

/-! ### The fixes -/

/-- The fixes change nothing that the layout depends on. -/
theorem Edited.markLine_snd (h : Edited s s') (state : LayoutState) :
    (markLine state s').2 = (markLine state s).2 := by
  have hcode := h.beforeLineComment
  rw [markLine, markLine]
  simp only [h.commentOpenAfter_eq, hcode.isEmptyLine_eq, hcode.depth_eq]
  split <;> rfl

theorem markLine_snd_fixTypos (state : LayoutState) (line : List Char) :
    (markLine state (fixTypos line)).2 = (markLine state line).2 :=
  fixTypos_induction (R := fun s s' => ∀ state, (markLine state s').2 = (markLine state s).2)
    (fun _ _ => rfl) (fun h h' state => (h' state).trans (h state)) (fun h => h.markLine_snd)
    line state

theorem behindLines_map_fixTypos (state : LayoutState) (lines : List (List Char)) :
    behindLines state (lines.map fixTypos) = behindLines state lines := by
  rw [behindLines, behindLines, List.foldl_map]
  simp only [markLine_snd_fixTypos]

theorem openLevels_fixTypos (s : List Char) : openLevels (fixTypos s) = openLevels s := by
  rw [openLevels, openLevels, splitOn_fixTypos, behindLines_map_fixTypos]

theorem isSignificant_fixTypos (line : List Char) :
    isSignificant (fixTypos line) = isSignificant line := by
  rw [isSignificant, isSignificant, isEmptyLine_beforeLineComment_fixTypos]

theorem lastLine_eq {front : List (List Char)} {last : List Char}
    (h : Text.splitOn '\n' s = front ++ [last]) : lastLine s = last := by
  rw [lastLine, h, List.getLastD_concat]

theorem lastLine_suffix (s : List Char) : lastLine s <:+ s := by
  obtain ⟨last, hlast, rfl | ⟨a, rfl⟩⟩ := Text.exists_last_piece '\n' s
  · rw [lastLine, Text.splitOn_of_notin hlast]
    exact List.suffix_refl s
  · rw [lastLine_eq (by rw [Text.splitOn_append_cons, Text.splitOn_of_notin hlast])]
    exact ⟨a ++ ['\n'], by simp⟩

theorem lastLine_fixTypos (s : List Char) : lastLine (fixTypos s) = fixTypos (lastLine s) := by
  obtain ⟨front, last, hsplit⟩ := Text.exists_splitOn_append '\n' s
  have hs := hsplit [] List.not_mem_nil
  rw [List.append_nil, List.append_nil] at hs
  have hfixed : Text.splitOn '\n' (fixTypos s) = front.map fixTypos ++ [fixTypos last] := by
    rw [splitOn_fixTypos, hs, List.map_append, List.map_singleton]
  rw [lastLine_eq hs, lastLine_eq hfixed]

theorem isCommentOnly_fixTypos (line : List Char) :
    isCommentOnly (fixTypos line) = isCommentOnly line := by
  rw [isCommentOnly, isCommentOnly, isSignificant_fixTypos, isEmptyLine_fixTypos]

/-! ### Comments at the end -/

theorem depth_append (h : Text.isEmptyLine line = false) (b : List Char) :
    depth (line ++ b) = depth line := by
  rw [depth, depth, List.takeWhile_append]
  split
  · next hall =>
      have htabs : line.all (· = '\t') = true := by
        rw [← (List.takeWhile_prefix _).eq_of_length hall]
        exact List.all_takeWhile
      have hblank : Text.isEmptyLine line = true := by
        refine List.all_eq_true.mpr fun c hc => ?_
        rw [of_decide_eq_true (List.all_eq_true.mp htabs c hc)]
        decide
      rw [h] at hblank
      cases hblank
  · rfl

/-- What is put behind a line with something on it stays there, unless there is a line comment. -/
theorem markLine_append (state : LayoutState) (hline : Text.isEmptyLine line = false)
    (hcut : ¬['/', '/'] <:+: line ++ b) :
    (markLine state (line ++ b)).1 = (markLine state line).1 ++ b ∧
      (markLine state (line ++ b)).2.levels = (markLine state line).2.levels := by
  have hcut' : ¬['/', '/'] <:+: line := fun h => hcut (h.trans (List.prefix_append line b).isInfix)
  have hlong : Text.isEmptyLine (line ++ b) = false := by
    rw [Text.isEmptyLine, List.all_append, ← Text.isEmptyLine, hline, Bool.false_and]
  rw [markLine, markLine, Text.beforeLineComment_eq_self hcut, Text.beforeLineComment_eq_self hcut',
    hline, hlong, depth_append hline]
  split
  · exact ⟨rfl, rfl⟩
  · exact ⟨(List.append_assoc ..).symm, rfl⟩

/-- What is put behind a text without a line feed or a line comment stands in front of the closing
markers. -/
theorem insertMarkers_append (hb : '\n' ∉ b) (hlast : Text.isEmptyLine (lastLine s) = false)
    (hcut : ¬['/', '/'] <:+: lastLine s ++ b) :
    insertMarkers (s ++ b) =
      markedText s ++ (b ++ List.replicate (openLevels s) unindentMarker) := by
  obtain ⟨front, last, hsplit⟩ := Text.exists_splitOn_append '\n' s
  have hs := hsplit [] List.not_mem_nil
  rw [List.append_nil, List.append_nil] at hs
  rw [lastLine_eq hs] at hlast hcut
  obtain ⟨hmarked, hlevels⟩ := markLine_append (behindLines ⟨[], false⟩ front) hlast hcut
  have hopen : openLevels (s ++ b) = openLevels s := by
    rw [openLevels, openLevels, hsplit b hb, hs, behindLines_append, behindLines_append]
    exact congrArg (List.length · - 1) hlevels
  have htext : markedText (s ++ b) = markedText s ++ b := by
    rw [markedText_of_splitOn (hsplit b hb), markedText_of_splitOn hs, hmarked, List.append_assoc]
  rw [insertMarkers_eq, htext, hopen, List.append_assoc]

/-- A line with only a line comment behind a text stands in front of the closing markers. -/
theorem insertMarkers_lineComment (hb : '\n' ∉ b) :
    insertMarkers (s ++ '\n' :: '/' :: '/' :: b) =
      markedText s ++ ('\n' :: '/' :: '/' :: b ++
        List.replicate (openLevels s) unindentMarker) := by
  have hline : ∀ state : LayoutState, markLine state ('/' :: '/' :: b) =
      ('/' :: '/' :: b, ⟨state.levels, commentOpenAfter state.inComment ('/' :: '/' :: b)⟩) :=
    fun state => markLine_raw
      (by rw [isSignificant, Text.beforeLineComment]; simp [Text.isEmptyLine])
  have hsplit : Text.splitOn '\n' ('/' :: '/' :: b) = ['/' :: '/' :: b] :=
    Text.splitOn_of_notin (by simp [hb])
  rw [insertMarkers_eq, markedText_append, openLevels_append, hsplit, markLines_cons_fst,
    behindLines_cons, behindLines_nil, hline, List.append_assoc]
  rfl

theorem mem_markers (d : Nat) (levels : List Nat) :
    ∀ c ∈ (enterLine d levels).1, c = indentMarker ∨ c = unindentMarker := by
  rw [enterLine]
  dsimp only
  split
  · exact fun c hc => .inr (List.eq_of_mem_replicate hc)
  · split
    · intro c hc
      obtain hc | hc := List.mem_append.mp hc
      · exact .inr (List.eq_of_mem_replicate hc)
      · exact .inl (List.mem_singleton.mp hc)
    · exact fun c hc => .inr (List.eq_of_mem_replicate hc)

/-- A marked line is markers and the line, where that has no line comment. -/
theorem exists_markers (state : LayoutState) (h : ¬['/', '/'] <:+: line) :
    ∃ markers, (∀ c ∈ markers, c = indentMarker ∨ c = unindentMarker) ∧
      (markLine state line).1 = markers ++ line := by
  rw [markLine, Text.beforeLineComment_eq_self h]
  split
  · exact ⟨[], nofun, rfl⟩
  · exact ⟨_, mem_markers _ _, rfl⟩

/-! ### Texts at the margin -/

/-- There is no level yet, or the base level is at the margin and the others are not. -/
def Grounded (levels : List Nat) : Prop :=
  levels = [] ∨ ∃ deeper, levels = deeper ++ [0] ∧ ∀ d ∈ deeper, 0 < d

/-- The first line that has a depth is at the margin. -/
def AtMargin (lines : List (List Char)) : Prop :=
  ∀ line ∈ lines.find? isSignificant, depth line = 0

instance (lines : List (List Char)) : Decidable (AtMargin lines) :=
  inferInstanceAs (Decidable (∀ line ∈ lines.find? isSignificant, depth line = 0))

theorem atMargin_fixTypos (h : AtMargin (Text.splitOn '\n' s)) :
    AtMargin (Text.splitOn '\n' (fixTypos s)) := by
  have hsignificant : isSignificant ∘ fixTypos = isSignificant := funext isSignificant_fixTypos
  intro line hline
  rw [splitOn_fixTypos, List.find?_map, hsignificant] at hline
  obtain ⟨first, hfirst, rfl⟩ := Option.map_eq_some_iff.mp hline
  rw [depth_fixTypos, h first hfirst]

theorem depth_cons (c : Char) (s : List Char) :
    depth (c :: s) = if c = '\t' then depth s + 1 else 0 := by
  rw [depth, depth, List.takeWhile_cons]
  by_cases hc : c = '\t' <;> simp [hc]

theorem depth_beforeLineComment (h : depth line = 0) :
    depth (Text.beforeLineComment line) = 0 := by
  cases line with
  | nil => rfl
  | cons c line =>
      rw [depth_cons] at h
      rw [Text.beforeLineComment_cons]
      split
      · rfl
      · rw [depth_cons]
        split
        · next hc =>
            rw [if_pos hc] at h
            nomatch h
        · rfl

theorem exists_leaveLevels (d : Nat) (deeper : List Nat) : ∃ left rest, deeper = left ++ rest ∧
    leaveLevels d (deeper ++ [0]) = (left.length, rest ++ [0]) := by
  induction deeper with
  | nil =>
      refine ⟨[], [], rfl, ?_⟩
      rw [List.nil_append, leaveLevels, if_neg (Nat.not_lt_zero d)]
      rfl
  | cons level deeper ih =>
      obtain ⟨left, rest, rfl, hleave⟩ := ih
      rw [List.cons_append, leaveLevels, hleave]
      split
      · exact ⟨level :: left, rest, rfl, rfl⟩
      · exact ⟨[], level :: (left ++ rest), rfl, rfl⟩

theorem leaveLevels_zero {deeper : List Nat} (h : ∀ d ∈ deeper, 0 < d) :
    leaveLevels 0 (deeper ++ [0]) = (deeper.length, [0]) := by
  induction deeper with
  | nil => rfl
  | cons level deeper ih =>
      obtain ⟨hlevel, hdeeper⟩ := List.forall_mem_cons.mp h
      rw [List.cons_append, leaveLevels, if_pos hlevel, ih hdeeper]
      rfl

/-- A line at the margin closes every level but the base level. -/
theorem enterLine_zero (h : Grounded levels) :
    enterLine 0 levels = (List.replicate (levels.length - 1) unindentMarker, [0]) := by
  obtain rfl | ⟨deeper, rfl, hdeeper⟩ := h
  · rfl
  · rw [enterLine, leaveLevels_zero hdeeper, List.length_append]
    rfl

theorem grounded_enterLine (h : Grounded levels) (hd : levels = [] → d = 0) :
    Grounded (enterLine d levels).2 ∧ (enterLine d levels).2 ≠ [] := by
  obtain rfl | ⟨deeper, rfl, hdeeper⟩ := h
  · rw [hd rfl]
    exact ⟨.inr ⟨[], rfl, nofun⟩, List.cons_ne_nil _ _⟩
  · obtain ⟨left, rest, rfl, hleave⟩ := exists_leaveLevels d deeper
    have hrest : ∀ d ∈ rest, 0 < d := fun d hd => hdeeper d (List.mem_append_right left hd)
    have hgrounded : ∀ level, 0 < level → Grounded (level :: (rest ++ [0])) := fun level hlevel =>
      .inr ⟨level :: rest, rfl, List.forall_mem_cons.mpr ⟨hlevel, hrest⟩⟩
    rw [enterLine, hleave]
    obtain ⟨top, outer, htop⟩ : ∃ top outer, rest ++ [0] = top :: outer :=
      List.exists_cons_of_ne_nil (by simp)
    rw [htop] at hgrounded ⊢
    dsimp only
    split
    · next hdeep => exact ⟨hgrounded d (Nat.zero_lt_of_lt hdeep), List.cons_ne_nil _ _⟩
    · exact ⟨htop ▸ .inr ⟨rest, rfl, hrest⟩, List.cons_ne_nil _ _⟩

theorem markLine_plain (hline : ¬['/', '*'] <:+: line) (levels : List Nat) :
    (markLine ⟨levels, false⟩ line).2 =
      ⟨if isSignificant line then
        (enterLine (depth (Text.beforeLineComment line)) levels).2 else levels, false⟩ := by
  split
  · next hcode => rw [markLine_code rfl hcode, commentOpenAfter_eq_false hline]
  · next hvacant =>
      rw [markLine_raw (by simp [hvacant]), commentOpenAfter_eq_false hline]

theorem inComment_behindLines (hlines : ∀ line ∈ lines, ¬['/', '*'] <:+: line)
    (levels : List Nat) : (behindLines ⟨levels, false⟩ lines).inComment = false := by
  induction lines generalizing levels with
  | nil => rfl
  | cons line lines ih =>
      obtain ⟨hline, hlines⟩ := List.forall_mem_cons.mp hlines
      rw [behindLines_cons, markLine_plain hline]
      exact ih hlines _

/-- The levels behind lines without a block comment, the first of which with a depth is at the
margin. -/
theorem grounded_behindLines (hlines : ∀ line ∈ lines, ¬['/', '*'] <:+: line)
    (hlevels : Grounded levels) (hmargin : levels = [] → AtMargin lines) :
    ∃ levels', behindLines ⟨levels, false⟩ lines = ⟨levels', false⟩ ∧ Grounded levels' := by
  induction lines generalizing levels with
  | nil => exact ⟨levels, rfl, hlevels⟩
  | cons line lines ih =>
      obtain ⟨hline, hlines⟩ := List.forall_mem_cons.mp hlines
      rw [behindLines_cons, markLine_plain hline]
      by_cases hcode : isSignificant line = true
      · have hdepth : levels = [] → depth (Text.beforeLineComment line) = 0 := fun hnil =>
          depth_beforeLineComment (hmargin hnil line (List.find?_cons_of_pos hcode))
        obtain ⟨hgrounded, hne⟩ := grounded_enterLine hlevels hdepth
        rw [if_pos hcode]
        exact ih hlines hgrounded fun hnil => absurd hnil hne
      · rw [if_neg hcode]
        refine ih hlines hlevels fun hnil first hfirst => hmargin hnil first ?_
        rwa [List.find?_cons_of_neg hcode]

theorem plain_lines (hs : ¬['/', '*'] <:+: s) :
    ∀ line ∈ Text.splitOn '\n' s, ¬['/', '*'] <:+: line :=
  fun _ hline h => hs (h.trans (Text.infix_of_mem_splitOn hline))

theorem markLines_vacant (hlines : ∀ line ∈ lines, isSignificant line = false)
    (hplain : ∀ line ∈ lines, ¬['/', '*'] <:+: line) (levels : List Nat) :
    (markLines ⟨levels, false⟩ lines).1 = lines ∧
      behindLines ⟨levels, false⟩ lines = ⟨levels, false⟩ := by
  induction lines with
  | nil => exact ⟨rfl, rfl⟩
  | cons line lines ih =>
      obtain ⟨hline, hlines⟩ := List.forall_mem_cons.mp hlines
      obtain ⟨hcomment, hplain⟩ := List.forall_mem_cons.mp hplain
      have hraw : markLine ⟨levels, false⟩ line = (line, ⟨levels, false⟩) := by
        rw [markLine_raw (by simp [hline]), commentOpenAfter_eq_false hcomment]
      rw [markLines_cons_fst, behindLines_cons, hraw]
      obtain ⟨hmarked, hbehind⟩ := ih hlines hplain
      exact ⟨congrArg (line :: ·) hmarked, hbehind⟩

/-- A text at the margin behind another one: the levels that are open at the end of the first are
closed by the first line of the second that has a depth. -/
theorem insertMarkers_join (hs : ¬['/', '*'] <:+: s) (hs' : ¬['/', '*'] <:+: s')
    (hmargin : AtMargin (Text.splitOn '\n' s)) (hmargin' : AtMargin (Text.splitOn '\n' s'))
    (hcode : ∃ line ∈ Text.splitOn '\n' s', isSignificant line = true) :
    ∃ (vacant : List (List Char)) (rest : List Char),
      (∀ line ∈ vacant, isSignificant line = false ∧ '\n' ∉ line) ∧
      insertMarkers s' = vacant.flatMap (· ++ ['\n']) ++ rest ∧
      insertMarkers (s ++ '\n' :: s') = markedText s ++ '\n' :: (vacant.flatMap (· ++ ['\n']) ++
        (List.replicate (openLevels s) unindentMarker ++ rest)) := by
  obtain ⟨levels, hbehind, hgrounded⟩ :=
    grounded_behindLines (plain_lines hs) (.inl rfl) fun _ => hmargin
  obtain ⟨first, hfirst⟩ : ∃ first, (Text.splitOn '\n' s').find? isSignificant = some first := by
    obtain ⟨line, hline, hsignificant⟩ := hcode
    exact Option.isSome_iff_exists.mp (List.find?_isSome.mpr ⟨line, hline, hsignificant⟩)
  have hdepth := depth_beforeLineComment (hmargin' first hfirst)
  obtain ⟨hsignificant, vacant, others, hlines, hvacant⟩ := List.find?_eq_some_iff_append.mp hfirst
  have hvacant' : ∀ line ∈ vacant, isSignificant line = false := by simpa using hvacant
  have hmem : ∀ line ∈ vacant, line ∈ Text.splitOn '\n' s' := fun line hline =>
    hlines ▸ List.mem_append_left _ hline
  have hfirstPlain := plain_lines hs' first (hlines ▸ List.mem_append_right _ List.mem_cons_self)
  have hmark : ∀ levels, Grounded levels →
      (markLines ⟨levels, false⟩ (Text.splitOn '\n' s')).1 = vacant ++
        (List.replicate (levels.length - 1) unindentMarker ++ Text.beforeLineComment first) ::
          (markLines ⟨[0], false⟩ others).1 ∧
      behindLines ⟨levels, false⟩ (Text.splitOn '\n' s') = behindLines ⟨[0], false⟩ others := by
    intro levels hgrounded
    obtain ⟨hmarked, hbehind⟩ :=
      markLines_vacant hvacant' (fun line hline => plain_lines hs' line (hmem line hline)) levels
    have hline : markLine ⟨levels, false⟩ first =
        (List.replicate (levels.length - 1) unindentMarker ++ Text.beforeLineComment first,
          ⟨[0], false⟩) := by
      rw [markLine_code rfl hsignificant, hdepth, enterLine_zero hgrounded,
        commentOpenAfter_eq_false hfirstPlain]
    rw [hlines, markLines_append, behindLines_append, hmarked, hbehind, markLines_cons_fst,
      behindLines_cons, hline]
    exact ⟨rfl, rfl⟩
  refine ⟨vacant, Text.joinWith ['\n'] (Text.beforeLineComment first ::
    (markLines ⟨[0], false⟩ others).1) ++ List.replicate
      ((behindLines ⟨[0], false⟩ others).levels.length - 1) unindentMarker,
    fun line hline => ⟨hvacant' line hline, Text.notin_of_mem_splitOn (hmem line hline)⟩, ?_, ?_⟩
  · obtain ⟨hmarked, hend⟩ := hmark [] (.inl rfl)
    rw [insertMarkers_eq, markedText, openLevels, hmarked, hend,
      Text.joinWith_append (List.cons_ne_nil _ _), List.append_assoc]
    rfl
  · obtain ⟨hmarked, hend⟩ := hmark levels hgrounded
    rw [insertMarkers_eq, markedText_append, openLevels_append, hbehind, hmarked, hend,
      Text.joinWith_append (List.cons_ne_nil _ _), Text.joinWith_append_cons, openLevels, hbehind]
    simp only [List.append_assoc, List.cons_append]

end ArmPseudocode.Source

import ArmPseudocode.Proofs.Source.Lines
import Mathlib.Data.List.TakeWhile

/-!
# Nesting of block markers

The open levels are kept innermost first, and the last of them, the base level, is the least depth
so far. A level is opened by a marker and closed by another one, but the base level is opened
without a marker. So a closing marker is without its opening one exactly where a line is shallower
than all lines in front of it and closes the base level as well.
-/

namespace ArmPseudocode.Source

variable {s a b line marked : List Char} {lines : List (List Char)} {state : LayoutState}
  {levels earlier : List Nat} {d h h₁ h₂ n m : Nat}

/-! ### Least depths -/

def depths (lines : List (Bool × List Char)) : List Nat :=
  lines.filterMap fun l => if l.1 then some (depth l.2) else none

/-- How many depths are smaller than each in front of them, the very first not counted. -/
def newMarginsBehind (earlier : List Nat) : List Nat → Nat
  | [] => 0
  | d :: ds =>
    (if earlier ≠ [] ∧ ∀ e ∈ earlier, d < e then 1 else 0) +
      newMarginsBehind (earlier ++ [d]) ds

def newMargins (ds : List Nat) : Nat :=
  newMarginsBehind [] ds

theorem depths_cons (l : Bool × List Char) (lines : List (Bool × List Char)) :
    depths (l :: lines) = depths [l] ++ depths lines := by
  rw [depths, depths, depths, ← List.filterMap_append]
  rfl

theorem newMarginsBehind_append (earlier ds ds' : List Nat) :
    newMarginsBehind earlier (ds ++ ds') =
      newMarginsBehind earlier ds + newMarginsBehind (earlier ++ ds) ds' := by
  induction ds generalizing earlier with
  | nil => rw [List.nil_append, List.append_nil, newMarginsBehind, Nat.zero_add]
  | cons d ds ih =>
      rw [List.cons_append, newMarginsBehind, newMarginsBehind, ih, Nat.add_assoc,
        List.append_assoc, List.singleton_append]

/-- Where the marking stands behind lines of some depths: the base level is the least of them, and
the levels on it are deeper. -/
def Based (earlier levels : List Nat) : Prop :=
  (earlier = [] ∧ levels = []) ∨
    ∃ deeper base, levels = deeper ++ [base] ∧ (∀ level ∈ deeper, base < level) ∧
      base ∈ earlier ∧ ∀ e ∈ earlier, base ≤ e

def height (levels : List Nat) : Nat :=
  levels.length - 1

/-! ### Climbs -/

/-- Read from a height on, the markers of a text lead to another height, and `n` more levels are
closed than were there; with none of those the height is never left downwards. -/
structure Climb (h : Nat) (s : List Char) (h' n : Nat) : Prop where
  total : s.count unindentMarker + h' = h + s.count indentMarker + n
  bounded : n = 0 → ∀ p, p <+: s → p.count unindentMarker ≤ h + p.count indentMarker

namespace Climb

theorem append (ha : Climb h a h₁ n) (hb : Climb h₁ b h₂ m) : Climb h (a ++ b) h₂ (n + m) where
  total := by
    have hatotal := ha.total
    have hbtotal := hb.total
    rw [List.count_append, List.count_append]
    omega
  bounded := by
    intro hnone p hp
    obtain ⟨hn, hm⟩ : n = 0 ∧ m = 0 := by omega
    obtain hp | ⟨q, rfl⟩ := List.prefix_or_prefix_of_prefix hp (List.prefix_append a b)
    · exact ha.bounded hn p hp
    · have hq := hb.bounded hm q ((List.prefix_append_right_inj a).mp hp)
      have hatotal := ha.total
      rw [List.count_append, List.count_append]
      omega

theorem of_unmarked (hs : Unmarked s) : Climb h s h 0 where
  total := by
    rw [List.count_eq_zero.mpr hs.1, List.count_eq_zero.mpr hs.2]
    exact Nat.zero_add h
  bounded := by
    intro _ p hp
    rw [List.count_eq_zero.mpr fun hmem => hs.2 (hp.subset hmem)]
    exact Nat.zero_le _

theorem count_closing (k : Nat) :
    (List.replicate k unindentMarker).count unindentMarker = k ∧
      (List.replicate k unindentMarker).count indentMarker = 0 :=
  ⟨List.count_replicate_self, by rw [List.count_replicate, if_neg (by decide)]⟩

theorem closing (h k : Nat) : Climb (h + k) (List.replicate k unindentMarker) h 0 where
  total := by
    obtain ⟨hclosed, hopened⟩ := count_closing k
    omega
  bounded := by
    intro _ p hp
    refine Nat.le_trans List.count_le_length ?_
    have hlength := hp.length_le
    rw [List.length_replicate] at hlength
    omega

theorem closing_base (h : Nat) : Climb h (List.replicate (h + 1) unindentMarker) 0 1 where
  total := by
    obtain ⟨hclosed, hopened⟩ := count_closing (h + 1)
    omega
  bounded := nofun

theorem opening (h k : Nat) : Climb h (List.replicate k indentMarker) (h + k) 0 where
  total := by
    have hopened : (List.replicate k indentMarker).count indentMarker = k :=
      List.count_replicate_self
    have hclosed : (List.replicate k indentMarker).count unindentMarker = 0 := by
      rw [List.count_replicate, if_neg (by decide)]
    omega
  bounded := by
    intro _ p hp
    have hnone : unindentMarker ∉ p := fun hmem =>
      absurd (List.eq_of_mem_replicate (hp.subset hmem)) (by decide)
    rw [List.count_eq_zero.mpr hnone]
    exact Nat.zero_le _

end Climb

/-! ### Lines -/

theorem run_concat {p : Nat → Bool} {x : Nat} (hx : p x = false) (l : List Nat) :
    (l ++ [x]).takeWhile p = l.takeWhile p ∧ (l ++ [x]).dropWhile p = l.dropWhile p ++ [x] := by
  induction l with
  | nil => simp [hx]
  | cons y l ih =>
      obtain ⟨htake, hdrop⟩ := ih
      rw [List.cons_append, List.takeWhile_cons, List.takeWhile_cons, List.dropWhile_cons,
        List.dropWhile_cons, htake, hdrop]
      split
      · exact ⟨rfl, rfl⟩
      · exact ⟨rfl, rfl⟩

/-- A line not as shallow as the base level leaves some levels on it, and may open one. -/
theorem climb_above {deeper : List Nat} {base : Nat} (hdeeper : ∀ level ∈ deeper, base < level)
    (hd : base ≤ d) :
    Climb (height (deeper ++ [base])) (enterLine d (deeper ++ [base])).1
        (height (enterLine d (deeper ++ [base])).2) 0 ∧
      ∃ deeper', (enterLine d (deeper ++ [base])).2 = deeper' ++ [base] ∧
        ∀ level ∈ deeper', base < level := by
  obtain ⟨htake, hdrop⟩ := run_concat (p := (d < ·)) (decide_eq_false (Nat.not_lt.mpr hd)) deeper
  have hheight : ∀ deeper : List Nat, height (deeper ++ [base]) = deeper.length := fun deeper => by
    rw [height, List.length_append, List.length_singleton, Nat.add_sub_cancel]
  have hlength : deeper.length =
      (deeper.dropWhile (d < ·)).length + (deeper.takeWhile (d < ·)).length := by
    rw [Nat.add_comm, ← List.length_append, List.takeWhile_append_dropWhile]
  have hrest : ∀ level ∈ deeper.dropWhile (d < ·), base < level :=
    fun level hmem => hdeeper level (List.dropWhile_subset _ hmem)
  have hclosing := Climb.closing (deeper.dropWhile (d < ·)).length
    (deeper.takeWhile (d < ·)).length
  rw [← hlength] at hclosing
  have henter := enterLine_eq d (deeper ++ [base])
  rw [htake, hdrop] at henter
  obtain ⟨hnil, -⟩ | ⟨top, outer, hsplit, htop, heq⟩ | ⟨outer, hsplit, heq⟩ := henter
  · exact absurd hnil (by simp)
  · have hbase : base < d := by
      have hmem : top ∈ deeper.dropWhile (d < ·) ++ [base] := hsplit ▸ List.mem_cons_self
      obtain hmem | hmem := List.mem_append.mp hmem
      · exact Nat.lt_trans (hrest top hmem) htop
      · rwa [← List.mem_singleton.mp hmem]
    rw [heq, ← hsplit, ← List.cons_append]
    refine ⟨?_, d :: deeper.dropWhile (d < ·), rfl, List.forall_mem_cons.mpr ⟨hbase, hrest⟩⟩
    rw [hheight, hheight]
    exact hclosing.append (.opening _ 1)
  · rw [heq, ← hsplit]
    refine ⟨?_, deeper.dropWhile (d < ·), rfl, hrest⟩
    rw [hheight, hheight]
    exact hclosing

/-- A line with a depth leads from one height to the next, and closes the base level if it is
shallower than all lines in front of it. -/
theorem climb_enterLine (hlevels : Based earlier levels) (d : Nat) :
    Climb (height levels) (enterLine d levels).1 (height (enterLine d levels).2)
        (if earlier ≠ [] ∧ ∀ e ∈ earlier, d < e then 1 else 0) ∧
      Based (earlier ++ [d]) (enterLine d levels).2 := by
  obtain ⟨rfl, rfl⟩ | ⟨deeper, base, rfl, hdeeper, hbase, hleast⟩ := hlevels
  · exact ⟨Climb.of_unmarked (s := []) (by decide),
      .inr ⟨[], d, rfl, nofun, List.mem_cons_self, by simp⟩⟩
  · by_cases hd : d < base
    · have hall : ∀ level ∈ deeper ++ [base], decide (d < level) = true := by
        intro level hmem
        obtain hmem | hmem := List.mem_append.mp hmem
        · exact decide_eq_true (Nat.lt_trans hd (hdeeper level hmem))
        · rw [List.mem_singleton.mp hmem]
          exact decide_eq_true hd
      have hlow : earlier ≠ [] ∧ ∀ e ∈ earlier, d < e :=
        ⟨List.ne_nil_of_mem hbase, fun e he => Nat.lt_of_lt_of_le hd (hleast e he)⟩
      have henter : enterLine d (deeper ++ [base]) =
          (List.replicate (deeper.length + 1) unindentMarker, [d]) := by
        obtain ⟨-, heq⟩ | ⟨top, outer, hsplit, -⟩ | ⟨outer, hsplit, -⟩ :=
          enterLine_eq d (deeper ++ [base])
        · rw [heq, List.takeWhile_eq_self_iff.mpr hall, List.length_append, List.length_singleton]
        all_goals
          rw [List.dropWhile_eq_nil_iff.mpr hall] at hsplit
          nomatch hsplit
      rw [if_pos hlow, henter, height, List.length_append]
      refine ⟨Climb.closing_base deeper.length, .inr ⟨[], d, rfl, nofun, by simp, ?_⟩⟩
      intro e he
      obtain he | he := List.mem_append.mp he
      · exact Nat.le_of_lt (hlow.2 e he)
      · exact Nat.le_of_eq (List.mem_singleton.mp he).symm
    · obtain ⟨hclimb, deeper', hlevels, hdeeper'⟩ := climb_above hdeeper (Nat.not_lt.mp hd)
      have hlow : ¬(earlier ≠ [] ∧ ∀ e ∈ earlier, d < e) := fun h => hd (h.2 base hbase)
      rw [if_neg hlow]
      refine ⟨hclimb, .inr ⟨deeper', base, hlevels, hdeeper', List.mem_append_left _ hbase, ?_⟩⟩
      intro e he
      obtain he | he := List.mem_append.mp he
      · exact hleast e he
      · rw [List.mem_singleton.mp he]
        exact Nat.not_lt.mp hd

theorem depth_beforeLineComment_of_significant (h : isSignificant line = true) :
    depth (Text.beforeLineComment line) = depth line := by
  obtain ⟨rest, hrest, -⟩ := Text.beforeLineComment_append line
  rw [isSignificant, Bool.not_eq_true'] at h
  exact (depth_append h rest).symm.trans (congrArg depth hrest.symm)

theorem climb_markLine (hlevels : Based earlier state.levels) (hline : Unmarked line) :
    let ds := depths [(!state.inComment && isSignificant line, line)]
    Climb (height state.levels) (markLine state line).1 (height (markLine state line).2.levels)
        (newMarginsBehind earlier ds) ∧
      Based (earlier ++ ds) (markLine state line).2.levels := by
  by_cases hraw : state.inComment || !isSignificant line
  · have hflag : (!state.inComment && isSignificant line) = false := by
      rw [← Bool.not_eq_true', Bool.not_and, Bool.not_not]
      exact hraw
    rw [hflag, markLine_raw hraw]
    exact ⟨.of_unmarked hline, by rwa [depths, List.filterMap_cons_none rfl, List.filterMap_nil,
      List.append_nil]⟩
  · rw [Bool.or_eq_true, not_or, Bool.not_eq_true, Bool.not_eq_true, Bool.not_eq_false'] at hraw
    obtain ⟨hcomment, hsignificant⟩ := hraw
    obtain ⟨hclimb, hbased⟩ := climb_enterLine hlevels (depth line)
    have hcode : Unmarked (Text.beforeLineComment line) :=
      hline.of_subset fun _ => Text.mem_beforeLineComment
    rw [markLine_code hcomment hsignificant, depth_beforeLineComment_of_significant hsignificant,
      hcomment, hsignificant]
    exact ⟨hclimb.append (.of_unmarked hcode), hbased⟩

/-- The marked lines and the line feeds between them lead from the height at which the marking
stands to the one at which it ends. -/
theorem climb_markLines (hlevels : Based earlier state.levels)
    (hlines : ∀ line ∈ lines, Unmarked line) :
    Climb (height state.levels) (Text.joinWith ['\n'] (markLines state lines).1)
      (height (behindLines state lines).levels)
      (newMarginsBehind earlier (depths (withDepth state.inComment lines))) := by
  induction lines generalizing state earlier with
  | nil => exact Climb.of_unmarked (s := []) (by decide)
  | cons line lines ih =>
      obtain ⟨hline, hlines⟩ := List.forall_mem_cons.mp hlines
      obtain ⟨hclimb, hbased⟩ := climb_markLine hlevels hline
      have hrest := ih hbased hlines
      rw [inComment_markLine] at hrest
      rw [withDepth, depths_cons, newMarginsBehind_append, markLines_cons_fst, behindLines_cons]
      cases lines with
      | nil => exact hclimb
      | cons next lines =>
          have hfeed : Climb (height (markLine state line).2.levels) ['\n']
              (height (markLine state line).2.levels) 0 := .of_unmarked (by decide)
          have hfront := hclimb.append hfeed
          exact hfront.append hrest

/-- The markers of a text lead from the ground to the ground. -/
theorem climb_markup (hs : Unmarked s) :
    Climb 0 (markup s) 0 (newMargins (depths (withDepth false (Text.splitOn '\n' s)))) := by
  have hlines : ∀ line ∈ (Text.splitOn '\n' s).map fixTypos, Unmarked line := by
    intro line hmem
    obtain ⟨line, hline, rfl⟩ := List.mem_map.mp hmem
    exact unmarked_fixTypos (unmarked_of_mem_splitOn hs hline)
  have hbased : Based [] (⟨[], false⟩ : LayoutState).levels := .inl ⟨rfl, rfl⟩
  have hclimb := climb_markLines hbased hlines
  rw [withDepth_map_fixTypos, ← splitOn_fixTypos] at hclimb
  have hclosing := Climb.closing 0 (openLevels (fixTypos s))
  rw [Nat.zero_add] at hclosing
  have hdepths : ∀ lines : List (Bool × List Char),
      depths (lines.map fun l => (l.1, fixTypos l.2)) = depths lines := by
    intro lines
    rw [depths, depths, List.filterMap_map]
    congr 1
    funext l
    show (if l.1 then some (depth (fixTypos l.2)) else none) = _
    rw [depth_fixTypos]
  rw [hdepths] at hclimb
  rw [markup, insertMarkers_eq, newMargins]
  exact hclimb.append hclosing

/-! ### The marked text -/

/-- A text without markers is given one closing marker too many for each line that is shallower than
all lines in front of it. Markers stand in front of lines with a depth and at the end, and without
such a shallow line they are well nested. -/
theorem markup_nesting (hs : Unmarked s) :
    let lines := withDepth false (Text.splitOn '\n' s)
    (markup s).count unindentMarker = (markup s).count indentMarker + newMargins (depths lines) ∧
      (∃ front last closing, Text.splitOn '\n' (markup s) =
          front ++ [last ++ List.replicate closing unindentMarker] ∧
        List.Forall₂ (fun l marked => LineMarked (l.1, fixTypos l.2) marked ∧
          Unmarked (fixTypos l.2)) lines (front ++ [last])) ∧
      (newMargins (depths lines) = 0 →
        (markup s).count unindentMarker = (markup s).count indentMarker ∧
          ∀ p, p <+: markup s → p.count unindentMarker ≤ p.count indentMarker) := by
  have hclimb := climb_markup hs
  have htotal := hclimb.total
  rw [Nat.add_zero, Nat.zero_add] at htotal
  obtain ⟨front, last, closing, hsplit, hlines⟩ := splitOn_markup s
  refine ⟨htotal, ⟨front, last, closing, hsplit, ?_⟩, fun hnone => ⟨?_, fun p hp => ?_⟩⟩
  · refine ((List.forall₂_and_left _ _).mpr ⟨fun l hmem => ?_, hlines⟩).imp fun _ _ h => ⟨h.2, h.1⟩
    have hline : l.2 ∈ Text.splitOn '\n' s := by
      rw [← withDepth_snd false (Text.splitOn '\n' s)]
      exact List.mem_map_of_mem hmem
    exact unmarked_fixTypos (unmarked_of_mem_splitOn hs hline)
  · rw [hnone, Nat.add_zero] at htotal
    exact htotal
  · have hle := hclimb.bounded hnone p hp
    rwa [Nat.zero_add] at hle

/-- The last line is shallower than all others and closes the base level of a text that begins
deep. -/
theorem markup_nesting_of_shallow :
    let s := "\tif a then\n\t\tx = 1;\ny = 2;".toList
    Unmarked s ∧ newMargins (depths (withDepth false (Text.splitOn '\n' s))) = 1 ∧
      (markup s).count unindentMarker = (markup s).count indentMarker + 1 := by
  intro s
  have hs : Unmarked s := by decide
  have hmargins : newMargins (depths (withDepth false (Text.splitOn '\n' s))) = 1 := by
    decide +kernel
  obtain ⟨htotal, -⟩ := markup_nesting hs
  rw [hmargins] at htotal
  exact ⟨hs, hmargins, htotal⟩

end ArmPseudocode.Source

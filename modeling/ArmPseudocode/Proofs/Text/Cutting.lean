import ArmPseudocode.Text.Split

/-!
# Cutting, joining and replacing

How the text functions act on texts that are put together.
-/

namespace ArmPseudocode.Text

variable {sep x : Char} {s a b z line phrase replacement : List Char}
  {pieces others : List (List Char)}

/-- What is said of the characters of a list is decided along the list, and not by a walk through
all characters there are. -/
instance decidableForallMem (s : List Char) (P : Char → Prop) [DecidablePred P] :
    Decidable (∀ c ∈ s, P c) :=
  List.decidableBAll P s

/-! ### Pieces -/

theorem splitOn_ne_nil (sep : Char) (s : List Char) : splitOn sep s ≠ [] := by
  cases s with
  | nil => exact List.cons_ne_nil _ _
  | cons c s =>
      rw [splitOn]
      split
      · exact List.cons_ne_nil _ _
      · split <;> exact List.cons_ne_nil _ _

theorem splitOn_of_notin (h : sep ∉ s) : splitOn sep s = [s] := by
  induction s with
  | nil => rfl
  | cons c s ih =>
      rw [List.mem_cons, not_or] at h
      rw [splitOn, if_neg (Ne.symm h.1), ih h.2]

theorem splitOn_append_cons (a b : List Char) :
    splitOn sep (a ++ sep :: b) = splitOn sep a ++ splitOn sep b := by
  induction a with
  | nil => simp [splitOn]
  | cons c a ih =>
      rw [List.cons_append, splitOn, splitOn, ih]
      split
      · rfl
      · obtain ⟨piece, pieces, hpieces⟩ := List.exists_cons_of_ne_nil (splitOn_ne_nil sep a)
        rw [hpieces]
        rfl

theorem notin_of_mem_splitOn (h : line ∈ splitOn sep s) : sep ∉ line := by
  induction s generalizing line with
  | nil =>
      obtain rfl := List.mem_singleton.mp h
      exact List.not_mem_nil
  | cons c s ih =>
      obtain ⟨piece, pieces, hpieces⟩ := List.exists_cons_of_ne_nil (splitOn_ne_nil sep s)
      rw [splitOn, hpieces] at h
      rw [hpieces] at ih
      split at h
      · obtain rfl | hline := List.mem_cons.mp h
        · exact List.not_mem_nil
        · exact ih hline
      · next hne =>
          obtain rfl | hline := List.mem_cons.mp h
          · rw [List.mem_cons, not_or]
            exact ⟨Ne.symm hne, ih List.mem_cons_self⟩
          · exact ih (List.mem_cons_of_mem _ hline)

theorem exists_last_piece (sep : Char) (s : List Char) :
    ∃ last, sep ∉ last ∧ (s = last ∨ ∃ a, s = a ++ sep :: last) := by
  induction s with
  | nil => exact ⟨[], List.not_mem_nil, .inl rfl⟩
  | cons c s ih =>
      obtain ⟨last, hlast, rfl | ⟨a, rfl⟩⟩ := ih
      · by_cases hc : c = sep
        · exact ⟨s, hlast, .inr ⟨[], by rw [hc]; rfl⟩⟩
        · refine ⟨c :: s, ?_, .inl rfl⟩
          rw [List.mem_cons, not_or]
          exact ⟨Ne.symm hc, hlast⟩
      · exact ⟨last, hlast, .inr ⟨c :: a, rfl⟩⟩

theorem infix_of_mem_splitOn {s : List Char} (h : line ∈ splitOn sep s) : line <:+: s := by
  obtain ⟨last, hlast, rfl | ⟨a, rfl⟩⟩ := exists_last_piece sep s
  · rw [splitOn_of_notin hlast] at h
    obtain rfl := List.mem_singleton.mp h
    exact List.infix_refl _
  · rw [splitOn_append_cons, splitOn_of_notin hlast, List.mem_append] at h
    obtain hmem | hmem := h
    · exact (infix_of_mem_splitOn hmem).trans (List.prefix_append a _).isInfix
    · rw [List.mem_singleton.mp hmem]
      exact ⟨a ++ [sep], [], by simp⟩
termination_by s.length
decreasing_by
  rename_i heq
  rw [heq, List.length_append, List.length_cons]
  omega

/-- What is put behind a text goes on with its last piece. -/
theorem exists_splitOn_append (sep : Char) (s : List Char) :
    ∃ front last, ∀ b, sep ∉ b → splitOn sep (s ++ b) = front ++ [last ++ b] := by
  obtain ⟨last, hlast, rfl | ⟨a, rfl⟩⟩ := exists_last_piece sep s
  · exact ⟨[], s, fun b hb => splitOn_of_notin (by simp [hlast, hb])⟩
  · refine ⟨splitOn sep a, last, fun b hb => ?_⟩
    rw [List.append_assoc, List.cons_append, splitOn_append_cons,
      splitOn_of_notin (s := last ++ b) (by simp [hlast, hb])]

theorem joinWith_append (h : others ≠ []) :
    joinWith s (pieces ++ others) = pieces.flatMap (· ++ s) ++ joinWith s others := by
  induction pieces with
  | nil => rfl
  | cons piece pieces ih =>
      obtain ⟨next, rest, hnext⟩ :=
        List.exists_cons_of_ne_nil (List.append_ne_nil_of_right_ne_nil pieces h)
      rw [List.cons_append, hnext, joinWith, ← hnext, ih, List.flatMap_cons]
      · simp only [List.append_assoc]
      · nofun

theorem joinWith_append_of_ne_nil (hpieces : pieces ≠ []) (h : others ≠ []) :
    joinWith s (pieces ++ others) = joinWith s pieces ++ s ++ joinWith s others := by
  obtain ⟨front, last, rfl⟩ := List.eq_nil_or_concat pieces |>.resolve_left hpieces
  rw [joinWith_append h, List.concat_eq_append, joinWith_append (List.cons_ne_nil _ _)]
  simp [joinWith]

theorem joinWith_append_cons (a b : List Char) (pieces : List (List Char)) :
    joinWith s ((a ++ b) :: pieces) = a ++ joinWith s (b :: pieces) := by
  cases pieces with
  | nil => rfl
  | cons => simp [joinWith]

theorem splitOn_joinWith (hne : pieces ≠ []) (h : ∀ piece ∈ pieces, sep ∉ piece) :
    splitOn sep (joinWith [sep] pieces) = pieces := by
  induction pieces with
  | nil => exact absurd rfl hne
  | cons piece pieces ih =>
      obtain ⟨hpiece, hpieces⟩ := List.forall_mem_cons.mp h
      cases pieces with
      | nil => exact splitOn_of_notin hpiece
      | cons next rest =>
          rw [joinWith, List.append_assoc, List.singleton_append, splitOn_append_cons,
            splitOn_of_notin hpiece, ih (List.cons_ne_nil _ _) hpieces, List.singleton_append]
          rintro ⟨⟩

theorem joinWith_eq_intercalate (s : List Char) (pieces : List (List Char)) :
    joinWith s pieces = s.intercalate pieces := by
  fun_induction joinWith s pieces with
  | case1 => rw [List.intercalate_nil]
  | case2 piece => rw [List.intercalate_singleton]
  | case3 piece pieces hne ih =>
      obtain ⟨next, rest, rfl⟩ := List.exists_cons_of_ne_nil hne
      rw [ih, List.intercalate_cons_cons]

/-! ### One cut -/

theorem cutAt?_of_notin (h : sep ∉ s) : cutAt? sep s = none := by
  induction s with
  | nil => rfl
  | cons c s ih =>
      rw [List.mem_cons, not_or] at h
      rw [cutAt?, if_neg (Ne.symm h.1), ih h.2, Option.map_none]

theorem cutAt?_append_cons (h : sep ∉ a) : cutAt? sep (a ++ sep :: b) = some (a, b) := by
  induction a with
  | nil => rw [List.nil_append, cutAt?, if_pos rfl]
  | cons c a ih =>
      rw [List.mem_cons, not_or] at h
      rw [List.cons_append, cutAt?, if_neg (Ne.symm h.1), ih h.2, Option.map_some]

theorem cutAt?_cases (sep : Char) (s : List Char) :
    sep ∉ s ∧ cutAt? sep s = none ∨
      ∃ a b, sep ∉ a ∧ s = a ++ sep :: b ∧ cutAt? sep s = some (a, b) := by
  by_cases h : sep ∈ s
  · obtain ⟨a, b, rfl, ha⟩ := List.eq_append_cons_of_mem h
    exact .inr ⟨a, b, ha, rfl, cutAt?_append_cons ha⟩
  · exact .inl ⟨h, cutAt?_of_notin h⟩

/-! ### Ends of texts -/

/-- What ends a text without the last character of a front part ends the rest. -/
theorem suffix_of_suffix_append (ha : ∀ c, a.getLast? = some c → c ∉ phrase)
    (h : phrase <:+ a ++ b) : phrase <:+ b := by
  obtain hb | ⟨front, rfl⟩ := List.suffix_or_suffix_of_suffix h (List.suffix_append a b)
  · exact hb
  · by_cases hfront : front = []
    · rw [hfront]
      exact List.suffix_refl b
    · have hlast := List.getLast?_eq_some_getLast hfront
      obtain ⟨rest, rfl⟩ := ((List.suffix_append_inj_of_length_eq rfl).mp h).1
      refine absurd (List.mem_append_left b (List.mem_of_getLast? hlast)) (ha _ ?_)
      rw [List.getLast?_append, hlast, Option.some_or]

/-! ### Pairs of characters -/

theorem pair_infix_cons {y c : Char} :
    [x, y] <:+: c :: s ↔ c = x ∧ s.head? = some y ∨ [x, y] <:+: s := by
  rw [List.infix_cons_iff, List.cons_prefix_cons]
  cases s with
  | nil => simp
  | cons d s =>
      rw [List.cons_prefix_cons, List.head?_cons, Option.some_inj]
      simp [eq_comm]

theorem pair_infix_append {y : Char} (hx : x ∉ a) : [x, y] <:+: a ++ s ↔ [x, y] <:+: s := by
  induction a with
  | nil => rfl
  | cons c a ih =>
      rw [List.mem_cons, not_or] at hx
      rw [List.cons_append, pair_infix_cons, ih hx.2]
      exact or_iff_right fun h => hx.1 h.1.symm

theorem pair_infix_append_cons {y d : Char} (hx : d ≠ x) (hy : d ≠ y) :
    [x, y] <:+: a ++ d :: b ↔ [x, y] <:+: a ∨ [x, y] <:+: b := by
  induction a with
  | nil =>
      rw [List.nil_append, pair_infix_cons]
      simp [hx]
  | cons c a ih =>
      have hhead : (a ++ d :: b).head? = some y ↔ a.head? = some y := by
        cases a with
        | nil => simp [hy]
        | cons => rfl
      rw [List.cons_append, pair_infix_cons, pair_infix_cons, ih, hhead, or_assoc]

theorem pair_infix_iff {y : Char} : [x, y] <:+: s ↔ ∃ a b, s = a ++ x :: y :: b := by
  constructor
  · rintro ⟨a, b, rfl⟩
    exact ⟨a, b, by rw [List.append_assoc]; rfl⟩
  · rintro ⟨a, b, rfl⟩
    exact ⟨a, b, by rw [List.append_assoc]; rfl⟩

/-! ### Line comments -/

theorem beforeLineComment_cons (c : Char) (s : List Char) :
    beforeLineComment (c :: s) =
      if c = '/' ∧ s.head? = some '/' then [] else c :: beforeLineComment s := by
  split
  · next h =>
      obtain ⟨rfl, hhead⟩ := h
      obtain ⟨rest, rfl⟩ := List.head?_eq_some_iff.mp hhead
      rfl
  · next h =>
      rw [beforeLineComment]
      rintro rest rfl heq
      exact h ⟨rfl, by rw [heq]; rfl⟩

theorem beforeLineComment_append_of_notin (ha : '/' ∉ a) :
    beforeLineComment (a ++ s) = a ++ beforeLineComment s := by
  induction a with
  | nil => rfl
  | cons c a ih =>
      rw [List.mem_cons, not_or] at ha
      rw [List.cons_append, beforeLineComment_cons, if_neg fun h => ha.1 h.1.symm, ih ha.2,
        List.cons_append]

theorem beforeLineComment_append (s : List Char) : ∃ rest, s = beforeLineComment s ++ rest ∧
    (rest = [] ∨ ∃ body, rest = '/' :: '/' :: body) := by
  fun_induction beforeLineComment s with
  | case1 body => exact ⟨_, rfl, .inr ⟨body, rfl⟩⟩
  | case2 c cs _ ih =>
      obtain ⟨rest, hrest, hform⟩ := ih
      exact ⟨rest, by rw [List.cons_append, ← hrest], hform⟩
  | case3 => exact ⟨[], rfl, .inl rfl⟩

theorem beforeLineComment_eq_self (h : ¬['/', '/'] <:+: s) : beforeLineComment s = s := by
  obtain ⟨rest, hrest, rfl | ⟨body, rfl⟩⟩ := beforeLineComment_append s
  · rw [List.append_nil] at hrest
    exact hrest.symm
  · exact absurd (pair_infix_iff.mpr ⟨_, body, hrest⟩) h

theorem notin_beforeLineComment (s : List Char) : ¬['/', '/'] <:+: beforeLineComment s := by
  induction s with
  | nil => simp [beforeLineComment]
  | cons c s ih =>
      rw [beforeLineComment_cons]
      split
      · simp
      · next hne =>
          rw [pair_infix_cons, not_or]
          refine ⟨fun h => hne ⟨h.1, ?_⟩, ih⟩
          cases s with
          | nil => nomatch h.2
          | cons d s =>
              rw [beforeLineComment_cons] at h
              split at h
              · nomatch h.2
              · exact h.2

/-! ### Replacing -/

/-- No match that begins in front of the text goes on into it. -/
def Cuts (phrase z : List Char) : Prop :=
  ∀ w, w ≠ [] → phrase <+: w ++ z → phrase <+: w

/-- A text cuts a phrase if no end of the phrase stands at its start. -/
theorem cuts_of_not_suffix (h : ∀ u, u ≠ [] → u <+: z → ¬u <:+ phrase) : Cuts phrase z := by
  intro w _ hprefix
  obtain hw | ⟨u, rfl⟩ := List.prefix_or_prefix_of_prefix hprefix (List.prefix_append w z)
  · exact hw
  · rw [List.prefix_append_right_inj] at hprefix
    by_cases hu : u = []
    · exact ⟨[], by simp [hu]⟩
    · exact absurd (List.suffix_append w u) (h u hu hprefix)

theorem cuts_cons (hx : x ∉ phrase) (s : List Char) : Cuts phrase (x :: s) := by
  refine cuts_of_not_suffix fun u hu hprefix hsuffix => ?_
  obtain ⟨y, u, rfl⟩ := List.exists_cons_of_ne_nil hu
  obtain ⟨rfl, -⟩ := List.cons_prefix_cons.mp hprefix
  exact hx (hsuffix.mem List.mem_cons_self)

theorem replaceFrom_append (hz : Cuts phrase z) (passing : Nat)
    (h : passing ≤ s.length) :
    replaceFrom phrase replacement passing (s ++ z) =
      replaceFrom phrase replacement passing s ++ replaceAll phrase replacement z := by
  induction s generalizing passing with
  | nil =>
      obtain rfl := Nat.le_zero.mp h
      rfl
  | cons c s ih =>
      cases passing with
      | succ passing => exact ih passing (Nat.le_of_succ_le_succ h)
      | zero =>
          have hsame : phrase.isPrefixOf (c :: (s ++ z)) = phrase.isPrefixOf (c :: s) := by
            rw [Bool.eq_iff_iff, List.isPrefixOf_iff_prefix, List.isPrefixOf_iff_prefix]
            exact ⟨hz _ (List.cons_ne_nil c s), fun h => h.trans (List.prefix_append _ z)⟩
          rw [List.cons_append, replaceFrom, replaceFrom, hsame]
          split
          · next hprefix =>
              have hlength := (List.isPrefixOf_iff_prefix.mp hprefix).length_le
              rw [List.length_cons] at hlength
              rw [ih _ (by omega), List.append_assoc]
          · rw [ih 0 (Nat.zero_le _), List.cons_append]

theorem replaceAll_append (hz : Cuts phrase z) (s : List Char) :
    replaceAll phrase replacement (s ++ z) =
      replaceAll phrase replacement s ++ replaceAll phrase replacement z :=
  replaceFrom_append hz 0 (Nat.zero_le _)

/-- A character that no match begins with stays. -/
theorem replaceAll_cons (hx : phrase.head? ≠ some x) (hphrase : phrase ≠ []) (s : List Char) :
    replaceAll phrase replacement (x :: s) = x :: replaceAll phrase replacement s := by
  obtain ⟨y, phrase, rfl⟩ := List.exists_cons_of_ne_nil hphrase
  rw [replaceAll, replaceFrom, if_neg]
  · rfl
  · intro hprefix
    obtain ⟨rfl, -⟩ := List.cons_prefix_cons.mp (List.isPrefixOf_iff_prefix.mp hprefix)
    exact hx rfl

end ArmPseudocode.Text

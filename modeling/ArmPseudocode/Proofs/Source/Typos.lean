import ArmPseudocode.Proofs.Text.Cutting
import ArmPseudocode.Source.Markup

/-!
# What the transcription fixes leave alone

The misprints are phrases without slashes, stars, tabs and line feeds that neither begin nor end
with a blank. So putting them right moves no line and no comment, and the texts on both sides of a
line feed or a slash are put right one by one.
-/

namespace ArmPseudocode.Source

variable {s s' z : List Char} {wrong right : String} {x y : Char}

/-! ### The misprints -/

/-- The characters that lay out a text. No misprint holds one of them. -/
def layoutChars : List Char := ['/', '*', '\n', '\t']

theorem notin_typo : ∀ typo ∈ typos, ∀ x ∈ layoutChars, x ∉ typo.1.toList ∧ x ∉ typo.2.toList := by
  decide +kernel

theorem typo_head : ∀ typo ∈ typos, typo.1.toList.head?.any (fun c => !Text.isBlank c) = true ∧
    typo.2.toList.head?.any (fun c => !Text.isBlank c) = true := by
  decide +kernel

theorem typo_last : ∀ typo ∈ typos, typo.2.toList.getLast?.any (· ∈ [';', ']']) = true ∧
    typo.1.toList.getLast? ≠ some ' ' := by
  decide +kernel

/-- The text with some of its misprints put right. -/
inductive Edited : List Char → List Char → Prop
  | nil : Edited [] []
  | keep (c : Char) {s s' : List Char} (h : Edited s s') : Edited (c :: s) (c :: s')
  | fix {wrong right : String} {s s' : List Char} (htypo : (wrong, right) ∈ typos)
      (h : Edited s s') : Edited (wrong.toList ++ s) (right.toList ++ s')

theorem edited_replaceFrom (htypo : (wrong, right) ∈ typos) (passing : Nat) (s : List Char) :
    Edited (s.drop passing) (Text.replaceFrom wrong.toList right.toList passing s) := by
  induction s generalizing passing with
  | nil =>
      rw [List.drop_nil]
      cases passing <;> exact .nil
  | cons c s ih =>
      cases passing with
      | succ passing => exact ih passing
      | zero =>
          rw [Text.replaceFrom, List.drop_zero]
          split
          · next hprefix =>
              obtain ⟨rest, hrest⟩ := List.isPrefixOf_iff_prefix.mp hprefix
              have hmore := ih (wrong.toList.length - 1)
              have hne : wrong.toList ≠ [] := by
                intro hnil
                have hhead := (typo_head _ htypo).1
                rw [hnil] at hhead
                cases hhead
              have hdrop : s.drop (wrong.toList.length - 1) = rest := by
                obtain ⟨d, phrase, hphrase⟩ := List.exists_cons_of_ne_nil hne
                rw [hphrase, List.cons_append] at hrest
                obtain ⟨-, rfl⟩ := List.cons.inj hrest
                rw [hphrase, List.length_cons, Nat.add_sub_cancel, List.drop_left]
              rw [hdrop] at hmore
              rw [← hrest]
              exact .fix htypo hmore
          · exact .keep c (ih 0)

/-- What holds of every text and its edited form holds of a text and its corrected one. -/
theorem fixTypos_induction {R : List Char → List Char → Prop} (hrefl : ∀ s, R s s)
    (htrans : ∀ {s₁ s₂ s₃}, R s₁ s₂ → R s₂ s₃ → R s₁ s₃) (hedit : ∀ {s s'}, Edited s s' → R s s')
    (s : List Char) : R s (fixTypos s) := by
  have hfold : ∀ ts : List (String × String), (∀ t ∈ ts, t ∈ typos) → ∀ s, R s (ts.foldl
      (fun text typo => Text.replaceAll typo.1.toList typo.2.toList text) s) := by
    intro ts
    induction ts with
    | nil => exact fun _ => hrefl
    | cons t ts ih =>
        intro hts s
        obtain ⟨ht, hts⟩ := List.forall_mem_cons.mp hts
        exact htrans (hedit (edited_replaceFrom ht 0 s)) (ih hts _)
  exact hfold typos (fun _ ht => ht) s

/-! ### Comments that run on -/

theorem commentOpenAfter_true_cons (c : Char) (s : List Char) :
    commentOpenAfter true (c :: s) =
      if c = '*' ∧ s.head? = some '/' then commentOpenAfter false s.tail
      else commentOpenAfter true s := by
  split
  · next h =>
      obtain ⟨rfl, hhead⟩ := h
      obtain ⟨rest, rfl⟩ := List.head?_eq_some_iff.mp hhead
      rfl
  · next h =>
      rw [commentOpenAfter]
      rintro rest rfl rfl
      exact h ⟨rfl, rfl⟩

theorem commentOpenAfter_false_cons (c : Char) (s : List Char) :
    commentOpenAfter false (c :: s) =
      if c = '/' ∧ s.head? = some '*' then commentOpenAfter true s.tail
      else if c = '/' ∧ s.head? = some '/' then false
      else commentOpenAfter false s := by
  split
  · next h =>
      obtain ⟨rfl, hhead⟩ := h
      obtain ⟨rest, rfl⟩ := List.head?_eq_some_iff.mp hhead
      rfl
  · next hopen =>
      split
      · next h =>
          obtain ⟨rfl, hhead⟩ := h
          obtain ⟨rest, rfl⟩ := List.head?_eq_some_iff.mp hhead
          rfl
      · next hline =>
          rw [commentOpenAfter]
          · rintro rest rfl rfl
            exact hopen ⟨rfl, rfl⟩
          · rintro rest rfl rfl
            exact hline ⟨rfl, rfl⟩

theorem commentOpenAfter_append {a : List Char} {isOpen : Bool} (hslash : '/' ∉ a)
    (hstar : '*' ∉ a) : commentOpenAfter isOpen (a ++ s) = commentOpenAfter isOpen s := by
  induction a with
  | nil => rfl
  | cons c a ih =>
      rw [List.mem_cons, not_or] at hslash hstar
      rw [← ih hslash.2 hstar.2, List.cons_append]
      cases isOpen with
      | true => rw [commentOpenAfter_true_cons, if_neg fun h => hstar.1 h.1.symm]
      | false =>
          rw [commentOpenAfter_false_cons, if_neg fun h => hslash.1 h.1.symm,
            if_neg fun h => hslash.1 h.1.symm]

theorem commentOpenAfter_eq_false (h : ¬['/', '*'] <:+: s) : commentOpenAfter false s = false := by
  induction s with
  | nil => rfl
  | cons c s ih =>
      rw [Text.pair_infix_cons, not_or] at h
      rw [commentOpenAfter_false_cons, if_neg h.1]
      split
      · rfl
      · exact ih h.2

/-! ### What editing leaves alone -/

theorem exists_cons_of_typo (htypo : (wrong, right) ∈ typos) :
    (∃ c rest, wrong.toList = c :: rest ∧ Text.isBlank c = false) ∧
      ∃ c rest, right.toList = c :: rest ∧ Text.isBlank c = false := by
  obtain ⟨hwrong, hright⟩ := typo_head _ htypo
  constructor
  · cases hcs : wrong.toList with
    | nil => rw [hcs] at hwrong; nomatch hwrong
    | cons c rest => exact ⟨c, rest, rfl, by simpa [hcs] using hwrong⟩
  · cases hcs : right.toList with
    | nil => rw [hcs] at hright; nomatch hright
    | cons c rest => exact ⟨c, rest, rfl, by simpa [hcs] using hright⟩

namespace Edited

theorem head?_iff (h : Edited s s') (hx : x ∈ layoutChars) :
    s'.head? = some x ↔ s.head? = some x := by
  cases h with
  | nil => rfl
  | keep c h => rfl
  | fix htypo h =>
      obtain ⟨hwrong, hright⟩ := notin_typo _ htypo x hx
      obtain ⟨⟨c, rest, hc, -⟩, d, rest', hd, -⟩ := exists_cons_of_typo htypo
      rw [hc] at hwrong ⊢
      rw [hd] at hright ⊢
      rw [List.mem_cons, not_or] at hwrong hright
      simp [Ne.symm hwrong.1, Ne.symm hright.1]

theorem mem_iff (h : Edited s s') (hx : x ∈ layoutChars) : x ∈ s' ↔ x ∈ s := by
  induction h with
  | nil => rfl
  | keep c h ih => rw [List.mem_cons, List.mem_cons, ih]
  | fix htypo h ih =>
      obtain ⟨hwrong, hright⟩ := notin_typo _ htypo x hx
      simp [hwrong, hright, ih]

theorem pair_iff (h : Edited s s') (hx : x ∈ layoutChars) (hy : y ∈ layoutChars) :
    [x, y] <:+: s' ↔ [x, y] <:+: s := by
  induction h with
  | nil => rfl
  | keep c h ih => rw [Text.pair_infix_cons, Text.pair_infix_cons, ih, h.head?_iff hy]
  | fix htypo h ih =>
      obtain ⟨hwrong, hright⟩ := notin_typo _ htypo x hx
      rw [Text.pair_infix_append hwrong, Text.pair_infix_append hright, ih]

theorem beforeLineComment (h : Edited s s') :
    Edited (Text.beforeLineComment s) (Text.beforeLineComment s') := by
  induction h with
  | nil => exact .nil
  | keep c h ih =>
      simp only [Text.beforeLineComment_cons, h.head?_iff (show '/' ∈ layoutChars by decide)]
      split
      · exact .nil
      · exact .keep c ih
  | fix htypo h ih =>
      obtain ⟨hwrong, hright⟩ := notin_typo _ htypo '/' (by decide)
      rw [Text.beforeLineComment_append_of_notin hwrong,
        Text.beforeLineComment_append_of_notin hright]
      exact .fix htypo ih

theorem isEmptyLine_eq (h : Edited s s') : Text.isEmptyLine s' = Text.isEmptyLine s := by
  induction h with
  | nil => rfl
  | keep c h ih =>
      rw [Text.isEmptyLine, Text.isEmptyLine] at ih ⊢
      rw [List.all_cons, List.all_cons, ih]
  | fix htypo h ih =>
      obtain ⟨⟨c, rest, hc, hblank⟩, d, rest', hd, hblank'⟩ := exists_cons_of_typo htypo
      rw [hc, hd, Text.isEmptyLine, Text.isEmptyLine, List.cons_append, List.cons_append,
        List.all_cons, List.all_cons, hblank, hblank']
      rfl

theorem depth_eq (h : Edited s s') : depth s' = depth s := by
  induction h with
  | nil => rfl
  | keep c h ih =>
      rw [depth, depth] at ih ⊢
      rw [List.takeWhile_cons, List.takeWhile_cons]
      split
      · rw [List.length_cons, List.length_cons, ih]
      · rfl
  | fix htypo h ih =>
      obtain ⟨⟨c, rest, hc, hblank⟩, d, rest', hd, hblank'⟩ := exists_cons_of_typo htypo
      have hne : ∀ {c : Char}, Text.isBlank c = false → decide (c = '\t') = false := by
        intro c hc
        refine decide_eq_false ?_
        rintro rfl
        nomatch hc
      rw [hc, hd, depth, depth, List.cons_append, List.cons_append, List.takeWhile_cons,
        List.takeWhile_cons, hne hblank, hne hblank']
      rfl

theorem commentOpenAfter_eq (h : Edited s s') (isOpen : Bool) :
    commentOpenAfter isOpen s' = commentOpenAfter isOpen s := by
  suffices hboth : (∀ isOpen, commentOpenAfter isOpen s' = commentOpenAfter isOpen s) ∧
      ∀ isOpen, commentOpenAfter isOpen s'.tail = commentOpenAfter isOpen s.tail from hboth.1 isOpen
  induction h with
  | nil => exact ⟨fun _ => rfl, fun _ => rfl⟩
  | keep c h ih =>
      refine ⟨fun isOpen => ?_, ih.1⟩
      have hslash := h.head?_iff (show '/' ∈ layoutChars by decide)
      have hstar := h.head?_iff (show '*' ∈ layoutChars by decide)
      cases isOpen with
      | true => simp only [commentOpenAfter_true_cons, hslash, ih.1, ih.2]
      | false => simp only [commentOpenAfter_false_cons, hslash, hstar, ih.1, ih.2]
  | fix htypo h ih =>
      obtain ⟨⟨c, rest, hc, -⟩, d, rest', hd, -⟩ := exists_cons_of_typo htypo
      have hslash := notin_typo _ htypo '/' (by decide)
      have hstar := notin_typo _ htypo '*' (by decide)
      refine ⟨fun isOpen => ?_, fun isOpen => ?_⟩
      · rw [commentOpenAfter_append hslash.2 hstar.2, commentOpenAfter_append hslash.1 hstar.1,
          ih.1]
      · rw [hc, hd, List.mem_cons, List.mem_cons, not_or, not_or] at hslash hstar
        rw [hc, hd, List.cons_append, List.cons_append, List.tail_cons, List.tail_cons,
          commentOpenAfter_append hslash.2.2 hstar.2.2,
          commentOpenAfter_append hslash.1.2 hstar.1.2, ih.1]

/-- A text that holds no end of a corrected phrase is as it was. -/
theorem eq_of_notin (h : Edited s s') (hends : ∀ c ∈ [';', ']'], c ∉ s') : s = s' := by
  induction h with
  | nil => rfl
  | keep c h ih =>
      rw [ih fun d hd hmem => hends d hd (List.mem_cons_of_mem c hmem)]
  | @fix wrong right s s' htypo h ih =>
      obtain ⟨c, hlast, hc⟩ := (Option.any_eq_true _ _).mp (typo_last _ htypo).1
      exact absurd (List.mem_append_left s' (List.mem_of_getLast? hlast))
        (hends c (of_decide_eq_true hc))

/-- A phrase without such an end does not come about at the end of a text. -/
theorem suffix_of_suffix {phrase : List Char} (h : Edited s s')
    (hends : ∀ c ∈ [';', ']'], c ∉ phrase) (hphrase : phrase <:+ s') : phrase <:+ s := by
  induction h with
  | nil => exact hphrase
  | @keep c s s' h ih =>
      obtain rfl | hphrase := List.suffix_cons_iff.mp hphrase
      · obtain rfl := h.eq_of_notin fun d hd hmem => hends d hd (List.mem_cons_of_mem c hmem)
        exact List.suffix_refl _
      · exact (ih hphrase).trans (List.suffix_cons c s)
  | @fix wrong right s s' htypo h ih =>
      obtain ⟨c, hlast, hc⟩ := (Option.any_eq_true _ _).mp (typo_last _ htypo).1
      refine (ih (Text.suffix_of_suffix_append (fun d hd => ?_) hphrase)).trans
        (List.suffix_append _ s)
      obtain rfl := Option.some.inj (hlast.symm.trans hd)
      exact hends c (of_decide_eq_true hc)

end Edited

/-! ### What the fixes leave alone -/

theorem mem_fixTypos (hx : x ∈ layoutChars) (s : List Char) : x ∈ fixTypos s ↔ x ∈ s :=
  fixTypos_induction (R := fun s s' => x ∈ s' ↔ x ∈ s) (fun _ => .rfl) (fun h h' => h'.trans h)
    (fun h => h.mem_iff hx) s

theorem pair_infix_fixTypos (hx : x ∈ layoutChars) (hy : y ∈ layoutChars) (s : List Char) :
    [x, y] <:+: fixTypos s ↔ [x, y] <:+: s :=
  fixTypos_induction (R := fun s s' => [x, y] <:+: s' ↔ [x, y] <:+: s) (fun _ => .rfl)
    (fun h h' => h'.trans h) (fun h => h.pair_iff hx hy) s

theorem notin_fixTypos (hx : x ∈ layoutChars) (h : x ∉ s) : x ∉ fixTypos s :=
  fun hmem => h ((mem_fixTypos hx s).mp hmem)

theorem not_pair_infix_fixTypos (hx : x ∈ layoutChars) (hy : y ∈ layoutChars)
    (h : ¬[x, y] <:+: s) : ¬[x, y] <:+: fixTypos s :=
  fun hmem => h ((pair_infix_fixTypos hx hy s).mp hmem)

theorem isEmptyLine_fixTypos (s : List Char) :
    Text.isEmptyLine (fixTypos s) = Text.isEmptyLine s :=
  fixTypos_induction (R := fun s s' => Text.isEmptyLine s' = Text.isEmptyLine s) (fun _ => rfl)
    (fun h h' => h'.trans h) (fun h => h.isEmptyLine_eq) s

theorem isEmptyLine_beforeLineComment_fixTypos (s : List Char) :
    Text.isEmptyLine (Text.beforeLineComment (fixTypos s)) =
      Text.isEmptyLine (Text.beforeLineComment s) :=
  fixTypos_induction (R := fun s s' => Text.isEmptyLine (Text.beforeLineComment s') =
      Text.isEmptyLine (Text.beforeLineComment s)) (fun _ => rfl)
    (fun h h' => h'.trans h) (fun h => h.beforeLineComment.isEmptyLine_eq) s

theorem depth_fixTypos (s : List Char) : depth (fixTypos s) = depth s :=
  fixTypos_induction (R := fun s s' => depth s' = depth s) (fun _ => rfl)
    (fun h h' => h'.trans h) (fun h => h.depth_eq) s

theorem suffix_of_suffix_fixTypos {phrase : List Char} (hends : ∀ c ∈ [';', ']'], c ∉ phrase)
    (s : List Char) : phrase <:+ fixTypos s → phrase <:+ s :=
  fixTypos_induction (R := fun s s' => phrase <:+ s' → phrase <:+ s) (fun _ => id)
    (fun h h' => h ∘ h') (fun h => h.suffix_of_suffix hends) s

/-! ### Texts put together -/

/-- What each fix keeps together the fixes keep together. -/
theorem fixTypos_hom (join : List Char → List Char → List Char)
    (h : ∀ typo ∈ typos, ∀ s s', Text.replaceAll typo.1.toList typo.2.toList (join s s') =
      join (Text.replaceAll typo.1.toList typo.2.toList s)
        (Text.replaceAll typo.1.toList typo.2.toList s')) (s s' : List Char) :
    fixTypos (join s s') = join (fixTypos s) (fixTypos s') := by
  suffices hfold : ∀ ts : List (String × String), (∀ t ∈ ts, t ∈ typos) → ∀ s s',
      let fix := fun s => ts.foldl (fun text t => Text.replaceAll t.1.toList t.2.toList text) s
      fix (join s s') = join (fix s) (fix s') from hfold typos (fun _ ht => ht) s s'
  intro ts
  induction ts with
  | nil => exact fun _ _ _ => rfl
  | cons t ts ih =>
      intro hts s s'
      obtain ⟨ht, hts⟩ := List.forall_mem_cons.mp hts
      simp only [List.foldl_cons, h t ht s s']
      exact ih hts _ _

theorem typo_ne_nil {typo : String × String} (htypo : typo ∈ typos) : typo.1.toList ≠ [] := by
  obtain ⟨c, rest, hc, -⟩ := (exists_cons_of_typo htypo).1
  rw [hc]
  exact List.cons_ne_nil c rest

theorem fixTypos_append_cons (hx : x ∈ layoutChars) (s s' : List Char) :
    fixTypos (s ++ x :: s') = fixTypos s ++ x :: fixTypos s' := by
  refine fixTypos_hom (fun s s' => s ++ x :: s') (fun typo htypo s s' => ?_) s s'
  have hnotin := (notin_typo typo htypo x hx).1
  rw [Text.replaceAll_append (Text.cuts_cons hnotin s'),
    Text.replaceAll_cons (fun hhead => hnotin (List.mem_of_mem_head? hhead)) (typo_ne_nil htypo)]

theorem fixTypos_cons (hx : x ∈ layoutChars) (s : List Char) :
    fixTypos (x :: s) = x :: fixTypos s :=
  fixTypos_append_cons hx [] s

theorem fixTypos_append_space (s s' : List Char) :
    fixTypos (s ++ ' ' :: '/' :: s') = fixTypos s ++ ' ' :: '/' :: fixTypos s' := by
  refine fixTypos_hom (fun s s' => s ++ ' ' :: '/' :: s') (fun typo htypo s s' => ?_) s s'
  have hslash := (notin_typo typo htypo '/' (by decide)).1
  obtain ⟨c, rest, hc, hblank⟩ := (exists_cons_of_typo htypo).1
  have hspace : typo.1.toList.head? ≠ some ' ' := by
    rw [hc, List.head?_cons]
    rintro ⟨⟩
    nomatch hblank
  have hcuts : Text.Cuts typo.1.toList (' ' :: '/' :: s') := by
    refine Text.cuts_of_not_suffix fun u hu hprefix hsuffix => ?_
    obtain ⟨c, u, rfl⟩ := List.exists_cons_of_ne_nil hu
    obtain ⟨rfl, hmore⟩ := List.cons_prefix_cons.mp hprefix
    cases u with
    | nil =>
        obtain ⟨front, hfront⟩ := hsuffix
        exact (typo_last typo htypo).2 (by rw [← hfront, List.getLast?_concat])
    | cons d u =>
        obtain ⟨rfl, -⟩ := List.cons_prefix_cons.mp hmore
        exact hslash (hsuffix.mem (by simp))
  rw [Text.replaceAll_append hcuts, Text.replaceAll_cons hspace (typo_ne_nil htypo),
    Text.replaceAll_cons (fun hhead => hslash (List.mem_of_mem_head? hhead)) (typo_ne_nil htypo)]

theorem splitOn_fixTypos (s : List Char) :
    Text.splitOn '\n' (fixTypos s) = (Text.splitOn '\n' s).map fixTypos := by
  obtain ⟨last, hlast, rfl | ⟨a, rfl⟩⟩ := Text.exists_last_piece '\n' s
  · rw [Text.splitOn_of_notin hlast, Text.splitOn_of_notin fun hmem =>
      hlast ((mem_fixTypos (by decide) s).mp hmem)]
    rfl
  · rw [fixTypos_append_cons (by decide), Text.splitOn_append_cons, Text.splitOn_append_cons,
      List.map_append, splitOn_fixTypos a, Text.splitOn_of_notin hlast,
      Text.splitOn_of_notin fun hmem => hlast ((mem_fixTypos (by decide) last).mp hmem)]
    rfl
termination_by s.length
decreasing_by
  rename_i h
  rw [h, List.length_append, List.length_cons]
  omega

end ArmPseudocode.Source

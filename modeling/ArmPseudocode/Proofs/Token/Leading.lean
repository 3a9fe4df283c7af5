import ArmPseudocode.Proofs.Token.Joining

/-!
# Beginnings of texts

Lines without a token in front of a text: blank lines, and lines with nothing but a line comment.
Whether they add a token depends on what stands behind them, since the relations on angles take the
blank in front of them.
-/

namespace ArmPseudocode.Lexeme

open Pattern (run isSeparator table)

variable {s b body z : List Char} {c x : Char} {ks : List TokenKind}

/-! ### Angles -/

/-- The tokens whose first character, a blank apart, is an angle. -/
def angles : List FixedToken :=
  [.less, .lessEqual, .greater, .greaterEqual, .shiftLeft, .shiftRight, .openAngle, .closeAngle]

/-- What a row reads that begins with an angle, or with a blank as no run of blanks does. -/
theorem angle_of_begins : ∀ row ∈ table, ∀ c ∈ ['<', '>'] ++ [' ', '\t', '\r', '\n'],
    row.begins c = true → row = .blanks ∧ isSeparator c = true ∨
      (match row with
        | .fixed _ (.fixed t) => t ∈ angles
        | _ => false) = true := by
  decide +kernel

theorem mem_of_isSeparator (hc : isSeparator c = true) :
    c ∈ ['<', '>'] ++ [' ', '\t', '\r', '\n'] :=
  List.mem_append_right _ (by simpa [isSeparator, or_assoc] using hc)

theorem angle_or_blanks (hc : c ∈ ['<', '>'] ++ [' ', '\t', '\r', '\n']) (h : Lexed (c :: s) ks) :
    (∃ t ∈ angles, ks.head? = some (.fixed t)) ∨
      isSeparator c = true ∧ Lexed ((c :: s).dropWhile isSeparator) ks := by
  obtain ⟨kind, n, ks', hscan, hrest, rfl⟩ := of_lexed (List.cons_ne_nil c s) h
  obtain ⟨row, m, hbest, -, hcase⟩ := of_scan hscan
  obtain ⟨hrow, hmatch, -⟩ := Pattern.of_best? hbest
  obtain ⟨rfl, hsep⟩ | hangle :=
    angle_of_begins row hrow c hc (Pattern.begins_of_longest? hrow hmatch)
  · obtain ⟨hopening, -⟩ | ⟨-, rfl, hreading⟩ := hcase
    · nomatch hopening
    · obtain ⟨rfl, -⟩ := Pattern.of_digitRun? hmatch
      obtain rfl : kind = none := by
        cases kind with
        | none => rfl
        | some k => nomatch hreading
      rw [drop_run] at hrest
      exact .inr ⟨hsep, hrest⟩
  · obtain ⟨hopening, -⟩ | ⟨-, rfl, hreading⟩ := hcase
    · rw [hopening] at hangle
      nomatch hangle
    · cases row with
      | fixed spelling k =>
          cases k with
          | fixed t =>
              have hread : Reading.ofKind (some (.fixed t)) = .ofKind kind := hreading
              obtain rfl := Reading.ofKind_inj.mp hread
              exact .inl ⟨t, of_decide_eq_true hangle, rfl⟩
          | _ => nomatch hangle
      | _ => nomatch hangle

/-- A text that begins with another token is bland. -/
theorem bland_of_head (h : Lexed s ks) (hk : ∀ t ∈ angles, ks.head? ≠ some (.fixed t)) :
    Bland s := by
  have hall : ∀ x ∈ ['<', '>'], (s.dropWhile isSeparator).head? ≠ some x := by
    intro x hx hhead
    obtain ⟨rest, hrest⟩ := List.head?_eq_some_iff.mp hhead
    have hstart : Lexed (x :: rest) ks := by
      cases s with
      | nil => nomatch hrest
      | cons c s =>
          by_cases hc : isSeparator c = true
          · obtain ⟨t, ht, hfirst⟩ | ⟨-, hdrop⟩ := angle_or_blanks
              (mem_of_isSeparator hc) h
            · exact absurd hfirst (hk t ht)
            · rwa [hrest] at hdrop
          · rw [List.dropWhile_cons_of_neg hc] at hrest
            rwa [← hrest]
    have hangle : ∀ x ∈ ['<', '>'], isSeparator x = false := by decide
    obtain ⟨t, ht, hfirst⟩ | ⟨hsep, -⟩ := angle_or_blanks (List.mem_append_left _ hx) hstart
    · exact hk t ht hfirst
    · rw [hangle x hx] at hsep
      nomatch hsep
  exact ⟨hall '<' (by decide), hall '>' (by decide)⟩

/-! ### Lines without a token -/

theorem bland_append (hb : b.all isSeparator = true) : Bland (b ++ s) ↔ Bland s := by
  rw [Bland, Bland, List.dropWhile_append_of_pos (by simpa using hb)]

theorem isSeparator_of_lexed (h : Lexed (c :: s) ks) (hc : Text.isBlank c = true) :
    isSeparator c = true := by
  obtain ⟨kind, n, ks', hscan, -, -⟩ := of_lexed (List.cons_ne_nil c s) h
  obtain ⟨row, m, hbest, -⟩ := of_scan hscan
  obtain ⟨hrow, hmatch, -⟩ := Pattern.of_best? hbest
  exact Pattern.isSeparator_of_begins hrow (Pattern.begins_of_longest? hrow hmatch) hc

/-- The blanks in front of a bland text are separators. -/
theorem separators_of_lexed (hb : b.all Text.isBlank = true) (hbland : Bland (b ++ s))
    (h : Lexed (b ++ s) ks) : b.all isSeparator = true := by
  induction b with
  | nil => rfl
  | cons c b ih =>
      obtain ⟨hc, hb⟩ := Bool.and_eq_true_iff.mp (List.all_cons ▸ hb)
      have hsep := isSeparator_of_lexed h hc
      have hone : [c].all isSeparator = true := by rw [List.all_cons, hsep]; rfl
      have hmore : Bland (b ++ s) := (bland_append hone).mp hbland
      rw [List.all_cons, hsep, Bool.true_and]
      exact ih hb hmore ((lexed_blanks hone hmore).mp h)

theorem lexed_lineComment (hbody : '\n' ∉ body) (hz : z = [] ∨ z.head? = some '\n') :
    Lexed ('/' :: '/' :: (body ++ z)) ks ↔ Lexed z ks := by
  have hstop : run (· ≠ '\n') z = 0 := by
    refine Pattern.run_eq_zero fun c hc => ?_
    obtain rfl | hhead := hz
    · nomatch hc
    · rw [hhead] at hc
      obtain rfl := Option.some.inj hc
      rfl
  have hall : run (· ≠ '\n') body = body.length :=
    Pattern.run_eq_length.mpr fun c hc => decide_eq_true fun heq => hbody (heq ▸ hc)
  have hscan := scan_lineComment (body ++ z)
  rw [Pattern.run_append, if_pos hall, hstop] at hscan
  rw [lexed_iff_of_scan hscan]
  simp

/-- The line holds nothing, or only a line comment. -/
def Vacant (line : List Char) : Prop := Text.isEmptyLine (Text.beforeLineComment line) = true

theorem bland_nil : Bland [] := ⟨by nofun, by nofun⟩

/-- Of a vacant line there are left at most blanks, whatever line stands behind it. -/
theorem of_lexed_vacant {line : List Char} (hb : b.all isSeparator = true) (hvacant : Vacant line)
    (hline : '\n' ∉ line) (hz : z = [] ∨ z.head? = some '\n') (h : Lexed (b ++ (line ++ z)) ks)
    (hk : ∀ t ∈ angles, ks.head? ≠ some (.fixed t)) :
    ∃ b', b'.all isSeparator = true ∧ Lexed (b' ++ z) ks ∧ ∀ z' ks',
      (z' = [] ∨ z'.head? = some '\n') → Lexed (b' ++ z') ks' → Lexed (b ++ (line ++ z')) ks' := by
  obtain ⟨rest, hrest, hform⟩ := Text.beforeLineComment_append line
  rw [Vacant, Text.isEmptyLine] at hvacant
  generalize Text.beforeLineComment line = front at hrest hvacant
  subst hrest
  have hbland := (bland_append hb).mp (bland_of_head h hk)
  rw [List.append_assoc] at hbland h
  have hfront := separators_of_lexed hvacant hbland ((lexed_blanks hb hbland).mp h)
  have hall : (b ++ front).all isSeparator = true := by rw [List.all_append, hb, hfront]; rfl
  obtain rfl | ⟨body, rfl⟩ := hform
  · refine ⟨b ++ front, hall, ?_, fun z' ks' _ h' => ?_⟩
    · rwa [List.append_assoc]
    · rwa [List.append_nil, ← List.append_assoc]
  · have hbody : '\n' ∉ body := fun hmem => hline (by simp [hmem])
    have hcomment : ∀ z ks, z = [] ∨ z.head? = some '\n' →
        (Lexed (b ++ (front ++ '/' :: '/' :: body ++ z)) ks ↔ Lexed z ks) := by
      intro z ks hz
      rw [List.append_assoc front, ← List.append_assoc, lexed_blanks hall ⟨by nofun, by nofun⟩]
      exact lexed_lineComment hbody hz
    rw [← List.append_assoc front] at h
    exact ⟨[], rfl, (hcomment z ks hz).mp h, fun z' ks' hz' h' => (hcomment z' ks' hz').mpr h'⟩

theorem eq_nil_of_lexed_vacant {line : List Char} (hvacant : Vacant line) (hline : '\n' ∉ line)
    (h : Lexed line ks) (hk : ∀ t ∈ angles, ks.head? ≠ some (.fixed t)) : ks = [] := by
  rw [← List.append_nil line] at h
  obtain ⟨b, hb, hblanks, -⟩ := of_lexed_vacant (b := []) rfl hvacant hline (.inl rfl) h hk
  exact lexed_nil ((lexed_blanks hb bland_nil).mp hblanks)

/-- Vacant lines in front of a text add no token. -/
theorem of_lexed_lines {lines : List (List Char)} (hb : b.all isSeparator = true)
    (hlines : ∀ line ∈ lines, Vacant line ∧ '\n' ∉ line)
    (h : Lexed (b ++ (lines.flatMap (· ++ ['\n']) ++ s)) ks)
    (hk : ∀ t ∈ angles, ks.head? ≠ some (.fixed t)) :
    Bland s ∧ Lexed s ks ∧ Lexed (b ++ lines.flatMap (· ++ ['\n'])) [] := by
  induction lines generalizing b with
  | nil =>
      have hs := (bland_append hb).mp (bland_of_head h hk)
      exact ⟨hs, (lexed_blanks hb hs).mp h, (lexed_blanks hb bland_nil).mpr .nil⟩
  | cons line lines ih =>
      obtain ⟨⟨hvacant, hline⟩, hothers⟩ := List.forall_mem_cons.mp hlines
      have hfront : ∀ s, (line :: lines).flatMap (· ++ ['\n']) ++ s =
          line ++ '\n' :: (lines.flatMap (· ++ ['\n']) ++ s) := by simp
      rw [hfront] at h
      obtain ⟨b', hb', hmore, hall⟩ := of_lexed_vacant hb hvacant hline (.inr rfl) h hk
      obtain ⟨hs, hrest, hnone⟩ := ih (b := b' ++ ['\n'])
        (by rw [List.all_append, hb']; rfl) hothers (by rwa [List.append_assoc])
      refine ⟨hs, hrest, ?_⟩
      rw [List.append_assoc] at hnone
      have := hall _ [] (.inr rfl) hnone
      simpa using this

end ArmPseudocode.Lexeme

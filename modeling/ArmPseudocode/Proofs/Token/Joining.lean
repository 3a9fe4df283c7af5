import ArmPseudocode.Proofs.Text.Cutting
import ArmPseudocode.Proofs.Token.Seams

/-!
# Texts put together

What a text is cut into when something is put behind it or into it: blanks and comments add no
token, and a text that ends a statement or a line goes on with the tokens of what stands behind it.
-/

namespace ArmPseudocode.Lexeme

open Pattern (run isSeparator stops table Blunt Exchange)

variable {s v w z z' : List Char} {c x : Char} {n : Nat} {kind : Option TokenKind}
  {ks ks' : List TokenKind}

/-! ### Pieces that are passed over -/

theorem scan_stop {k : TokenKind} (h : (x, k) ∈ stops) (q : List Char) :
    scan (x :: q) = ⟨.ofKind (some k), 1⟩ := scan_of_best? (Pattern.best?_stop h q) (by nofun)

theorem scan_blanks (hc : isSeparator c = true) (hs : s.head? ≠ some '<' ∧ s.head? ≠ some '>') :
    scan (c :: s) = ⟨.ofKind none, run isSeparator (c :: s)⟩ :=
  scan_of_best? (Pattern.best?_blanks hc hs) (by nofun)

theorem scan_lineComment (s : List Char) :
    scan ('/' :: '/' :: s) = ⟨.ofKind none, run (· ≠ '\n') s + 2⟩ :=
  scan_of_best? (Pattern.best?_lineComment s) (by nofun)

theorem scan_comment (h : commentLength? s = some n) :
    scan ('/' :: '*' :: s) = ⟨.ofKind none, 2 + n⟩ :=
  scan_of_opening (Pattern.best?_commentOpening s) h

theorem of_scan_skipped (h : scan s = ⟨.ofKind none, n⟩) :
    (n = run isSeparator s ∧ 0 < n) ∨
      (∃ rest, s = '/' :: '/' :: rest ∧ n = run (· ≠ '\n') rest + 2) ∨
      ∃ rest m, s = '/' :: '*' :: rest ∧ commentLength? rest = some m ∧ n = 2 + m := by
  obtain ⟨row, m, hbest, -, hcase⟩ := of_scan h
  obtain ⟨hrow, hmatch, -⟩ := Pattern.of_best? hbest
  obtain ⟨rfl, -, k, hk, rfl⟩ | ⟨hne, rfl, hreading⟩ := hcase
  · rw [Pattern.longest?_commentOpening] at hmatch
    obtain ⟨rest, hbehind, rfl⟩ := Option.map_eq_some_iff.mp hmatch
    obtain rfl := Pattern.behind?_eq_some.mp hbehind
    exact .inr (.inr ⟨rest, k, rfl, hk, rfl⟩)
  · cases row with
    | blanks =>
        obtain ⟨hrun, hpos⟩ := Pattern.of_digitRun? hmatch
        exact .inl ⟨hrun.symm, hpos⟩
    | lineComment =>
        rw [Pattern.longest?_lineComment] at hmatch
        obtain ⟨rest, hbehind, rfl⟩ := Option.map_eq_some_iff.mp hmatch
        obtain rfl := Pattern.behind?_eq_some.mp hbehind
        exact .inr (.inl ⟨rest, rfl, rfl⟩)
    | commentOpening => exact absurd rfl hne
    | decimal | hexadecimal =>
        rw [readMatch, readNumeral] at hreading
        split at hreading <;> cases hreading
    | _ => cases hreading

/-! ### Blanks -/

/-- No blank in front of the text belongs to a token: the first character that is no blank is no
angle. -/
def Bland (s : List Char) : Prop :=
  (s.dropWhile isSeparator).head? ≠ some '<' ∧ (s.dropWhile isSeparator).head? ≠ some '>'

theorem drop_run (p : Char → Bool) (s : List Char) : s.drop (run p s) = s.dropWhile p := by
  induction s with
  | nil => rfl
  | cons c s ih =>
      rw [Pattern.run_cons, List.dropWhile_cons]
      split
      · rw [List.drop_succ_cons, ih]
      · rfl

theorem lexed_dropWhile (hs : Bland s) :
    Lexed s ks ↔ Lexed (s.dropWhile isSeparator) ks := by
  cases s with
  | nil => rfl
  | cons c s =>
      by_cases hc : isSeparator c = true
      · have hhead : s.head? ≠ some '<' ∧ s.head? ≠ some '>' := by
          rw [Bland, List.dropWhile_cons_of_pos hc] at hs
          cases s with
          | nil => exact ⟨by nofun, by nofun⟩
          | cons d s =>
              by_cases hd : isSeparator d = true
              · constructor <;> rintro ⟨⟩ <;> nomatch hd
              · rwa [List.dropWhile_cons_of_neg hd] at hs
        rw [lexed_iff_of_scan (scan_blanks hc hhead), ← drop_run]
        simp
      · rw [List.dropWhile_cons_of_neg hc]

theorem lexed_blanks {b : List Char} (hb : b.all isSeparator = true) (hs : Bland s) :
    Lexed (b ++ s) ks ↔ Lexed s ks := by
  have hdrop : (b ++ s).dropWhile isSeparator = s.dropWhile isSeparator := by
    rw [List.dropWhile_append_of_pos (by simpa using hb)]
  rw [lexed_dropWhile (s := b ++ s) (by rw [Bland, hdrop]; exact hs), hdrop, ← lexed_dropWhile hs]

theorem of_lexed_nil (hs : s ≠ []) (h : Lexed s []) :
    ∃ n, scan s = ⟨.ofKind none, n⟩ ∧ Lexed (s.drop n) [] := by
  obtain ⟨kind, n, ks', hscan, hrest, hnone⟩ := of_lexed hs h
  obtain ⟨hkind, rfl⟩ := List.append_eq_nil_iff.mp hnone.symm
  cases kind with
  | none => exact ⟨n, hscan, hrest⟩
  | some k => nomatch hkind

theorem lexed_nil_dropWhile (h : Lexed s []) : Lexed (s.dropWhile isSeparator) [] := by
  by_cases hs : s = []
  · exact hs ▸ .nil
  · obtain ⟨n, hscan, hrest⟩ := of_lexed_nil hs h
    obtain ⟨rfl, -⟩ | ⟨rest, rfl, -⟩ | ⟨rest, m, rfl, -⟩ := of_scan_skipped hscan
    · rwa [← drop_run]
    · exact h
    · exact h

/-- A text without tokens begins, blanks apart, with a comment. -/
theorem bland_of_lexed (h : Lexed s []) (hz : Bland z) : Bland (s ++ z) := by
  have hdrop := lexed_nil_dropWhile h
  rw [Bland, List.dropWhile_append]
  cases hrest : s.dropWhile isSeparator with
  | nil => exact hz
  | cons c rest =>
      rw [hrest] at hdrop
      have hc : isSeparator c = false := by
        have hhead := List.head?_dropWhile_not isSeparator s
        rw [hrest] at hhead
        simpa using hhead
      obtain ⟨n, hscan, -⟩ := of_lexed_nil (List.cons_ne_nil c rest) hdrop
      obtain ⟨hrun, hpos⟩ | ⟨_, heq, -⟩ | ⟨_, _, heq, -⟩ := of_scan_skipped hscan
      · rw [Pattern.run_cons, if_neg (by rw [hc]; exact Bool.false_ne_true)] at hrun
        omega
      · obtain ⟨rfl, -⟩ := List.cons.inj heq
        exact ⟨by nofun, by nofun⟩
      · obtain ⟨rfl, -⟩ := List.cons.inj heq
        exact ⟨by nofun, by nofun⟩

/-- No line comment goes on to the end of the text. -/
def Closed (s : List Char) : Prop :=
  ∀ front body, s = front ++ '/' :: '/' :: body → '\n' ∈ body

theorem Closed.behind (h : Closed (w ++ s)) : Closed s := by
  intro front body heq
  exact h (w ++ front) body (by rw [heq, List.append_assoc])

theorem Closed.line (h : Closed z) (s : List Char) : Closed (s ++ '\n' :: z) := by
  intro front body heq
  obtain ⟨rest, rfl, hrest⟩ | ⟨rest, rfl, hrest⟩ := List.append_eq_append_iff.mp heq
  · cases rest with
    | nil => nomatch hrest
    | cons c rest =>
        obtain ⟨-, hz⟩ := List.cons.inj hrest
        exact h rest body hz
  · have hmem : '\n' ∈ '/' :: '/' :: body := hrest ▸ List.mem_append_right rest List.mem_cons_self
    simpa using hmem

theorem closed_of_notin (h : ¬['/', '/'] <:+: s) : Closed s :=
  fun front body heq => absurd (Text.pair_infix_iff.mpr ⟨front, body, heq⟩) h

theorem closed_lines (lines : List (List Char)) (h : Closed z) :
    Closed (lines.flatMap (· ++ ['\n']) ++ z) := by
  induction lines with
  | nil => exact h
  | cons line lines ih =>
      rw [List.flatMap_cons, List.append_assoc, List.append_assoc, List.singleton_append]
      exact ih.line line

/-- Two texts, the first of them without a token. Behind a line comment the second has to begin with
a new line. -/
theorem lexed_append (v : List Char) (hv : Lexed v []) (hz : Lexed z ks) (hbland : Bland z)
    (hclosed : Closed v ∨ z.head? = some '\n') : Lexed (v ++ z) ks := by
  by_cases hne : v = []
  · rwa [hne]
  obtain ⟨n, hscan, hrest⟩ := of_lexed_nil hne hv
  obtain ⟨hpos, hle⟩ := scan_bounds hscan
  have hmore := lexed_append (v.drop n) hrest hz hbland (hclosed.imp_left fun h => by
    rw [← List.take_append_drop n v] at h
    exact h.behind)
  have hdrop : (v ++ z).drop n = v.drop n ++ z := List.drop_append_of_le_length hle
  obtain ⟨rfl, -⟩ | ⟨body, rfl, rfl⟩ | ⟨body, m, rfl, hm, rfl⟩ := of_scan_skipped hscan
  · have hblanks : (v.take (run isSeparator v)).all isSeparator = true := by
      rw [run, ← List.prefix_iff_eq_take.mp (List.takeWhile_prefix isSeparator)]
      exact List.all_takeWhile
    rw [← List.take_append_drop (run isSeparator v) v, List.append_assoc]
    exact (lexed_blanks hblanks (bland_of_lexed hrest hbland)).mpr hmore
  · have hrun : run (· ≠ '\n') (body ++ z) = run (· ≠ '\n') body := by
      rw [Pattern.run_append]
      split
      · next hall =>
          have hstop : run (· ≠ '\n') z = 0 := by
            refine hclosed.elim (fun h => ?_) fun h => Pattern.run_eq_zero (by simp [h])
            have hall' := Pattern.run_eq_length.mp hall _ (h [] body rfl)
            cases of_decide_eq_true hall' rfl
          rw [hall, hstop, Nat.add_zero]
      · rfl
    have hscan' : scan ('/' :: '/' :: (body ++ z)) = ⟨.ofKind none, run (· ≠ '\n') body + 2⟩ := by
      rw [scan_lineComment, hrun]
    exact lexed_of_scan hscan' (hdrop ▸ hmore)
  · have hm' : commentLength? (body ++ z) = some m := by
      rw [← List.append_nil body] at hm
      exact commentLength?_exchange hm (by rw [List.length_cons, List.length_cons] at hle; omega)
    exact lexed_of_scan (scan_comment hm') (hdrop ▸ hmore)
termination_by v.length
decreasing_by
  rw [List.length_drop]
  omega

/-! ### Behind the last token -/

theorem eq_of_mem_stops {stop : Char × TokenKind} (h : stop ∈ stops) :
    stop = (';', .fixed .semicolon) ∨ stop = ('\x7d', .fixed .closeBrace) ∨
      stop = (Source.unindentMarker, .unindent) := by
  simpa [stops] using h

theorem of_scan_stop {stop : Char × TokenKind} (hstop : stop ∈ stops)
    (h : scan s = ⟨.ofKind (some stop.2), n⟩) : n = 1 ∧ ∃ v, s = stop.1 :: v := by
  have hrows : ∀ row ∈ table, ∀ stop ∈ stops, row = .fixed row.spelling stop.2 →
      row.spelling = [stop.1] := by
    decide +kernel
  obtain ⟨row, m, hbest, -, ⟨-, hnone, -⟩ | ⟨-, rfl, hreading⟩⟩ := of_scan h
  · cases hnone
  obtain ⟨hrow, hmatch, -⟩ := Pattern.of_best? hbest
  cases row with
  | fixed spelling kind =>
      obtain rfl : kind = stop.2 := Reading.token.inj hreading
      obtain rfl : spelling = [stop.1] := hrows _ hrow stop hstop rfl
      rw [Pattern.longest?_fixed] at hmatch
      obtain ⟨rest, hbehind, rfl⟩ := Option.map_eq_some_iff.mp hmatch
      exact ⟨rfl, rest, Pattern.behind?_eq_some.mp hbehind⟩
  | decimal | hexadecimal =>
      rw [readMatch, readNumeral] at hreading
      split at hreading
      · obtain rfl | rfl | rfl := eq_of_mem_stops hstop <;> cases hreading
      · cases hreading
  | blanks | lineComment | commentOpening => cases hreading
  | _ => obtain rfl | rfl | rfl := eq_of_mem_stops hstop <;> cases hreading

/-- Behind a last token that ends a statement there is nothing but blanks and comments, and anything
else can stand there. -/
theorem exists_behind_stop {stop : Char × TokenKind} (hstop : stop ∈ stops) (h : Lexed s ks)
    (hlast : ks.getLast? = some stop.2) :
    ∃ w v, s = w ++ stop.1 :: v ∧ Lexed v [] ∧
      ∀ v' ks', Lexed v' ks' → Lexed (w ++ stop.1 :: v') (ks ++ ks') := by
  induction h with
  | nil => nomatch hlast
  | @cons piece rest kind ks hpiece hscan hrest ih =>
      cases hend : ks.getLast? with
      | none =>
          obtain rfl := List.getLast?_eq_none_iff.mp hend
          cases kind with
          | none => nomatch hlast
          | some k =>
              obtain rfl : k = stop.2 := Option.some.inj hlast
              obtain ⟨hlength, v, hv⟩ := of_scan_stop hstop hscan
              obtain ⟨x, rfl⟩ := List.length_eq_one_iff.mp hlength
              obtain ⟨rfl, rfl⟩ := List.cons.inj hv
              exact ⟨[], rest, rfl, hrest, fun v' ks' hv' => lexed_of_scan (scan_stop hstop v') hv'⟩
      | some k =>
          rw [List.getLast?_append, hend, Option.some_or] at hlast
          obtain ⟨w, v, rfl, hv, hall⟩ := ih (hend.trans hlast)
          refine ⟨piece ++ w, v, (List.append_assoc ..).symm, hv, fun v' ks' hv' => ?_⟩
          have hheads : ∀ stop ∈ stops, stop.1 ∈ Pattern.bluntHeads ∧ stop.1 ≠ ' ' := by decide
          obtain ⟨hhead, hne⟩ := hheads stop hstop
          have hexchange :=
            Pattern.exchange_stop (w := piece ++ w) (by simp [hpiece]) hhead hne v v'
          have hscan' := scan_exchange hexchange (by rwa [List.append_assoc])
            (by rw [List.length_append]; exact Nat.le_add_right _ _)
          have hmore := hall v' ks' hv'
          rw [List.append_assoc kind.toList]
          exact lexed_of_scan hscan' (by rwa [List.append_assoc, List.drop_left])

/-! ### In front of the closing markers -/

theorem lexed_replicate_iff (j : Nat) :
    Lexed (List.replicate j Source.unindentMarker ++ z) ks ↔
      ∃ ks', ks = List.replicate j .unindent ++ ks' ∧ Lexed z ks' := by
  induction j generalizing ks with
  | zero => simp
  | succ j ih =>
      have hscan := scan_stop (x := Source.unindentMarker) (k := .unindent) (by decide)
        (List.replicate j Source.unindentMarker ++ z)
      rw [List.replicate_succ, List.cons_append, lexed_iff_of_scan hscan]
      constructor
      · rintro ⟨ks₀, rfl, h⟩
        obtain ⟨ks', rfl, hz⟩ := ih.mp h
        exact ⟨ks', rfl, hz⟩
      · rintro ⟨ks', rfl, hz⟩
        exact ⟨_, rfl, ih.mpr ⟨ks', rfl, hz⟩⟩

/-- Markers at the end of a text. -/
structure Markers (z : List Char) : Prop where
  nonempty : z ≠ []
  eq_marker : ∀ c ∈ z, c = Source.unindentMarker

theorem Markers.exists_cons (hz : Markers z) : ∃ q, z = Source.unindentMarker :: q := by
  obtain ⟨x, q, rfl⟩ := List.exists_cons_of_ne_nil hz.nonempty
  rw [hz.eq_marker x List.mem_cons_self]
  exact ⟨q, rfl⟩

theorem Markers.blunt (hz : Markers z) : Blunt z := by
  obtain ⟨q, rfl⟩ := hz.exists_cons
  exact Pattern.blunt_cons (by decide) (by decide) q

theorem Markers.run_eq {p : Char → Bool} (hz : Markers z) (hp : p Source.unindentMarker = true) :
    run p z = z.length :=
  Pattern.run_eq_length.mpr fun c hc => hz.eq_marker c hc ▸ hp

/-- Prose that goes on into the markers at the end takes all of them. -/
theorem of_proseLength?_into_markers {word : ProseWord} {rest : List Char} (hz : Markers z)
    (h : Pattern.proseLength? word (rest ++ z) = some n) (hn : rest.length < n) :
    n = rest.length + z.length := by
  cases rest with
  | nil =>
      obtain ⟨q, rfl⟩ := hz.exists_cons
      have hhead : Source.unindentMarker ≠ ' ' := by decide
      rw [List.nil_append, Pattern.proseLength?_cons, if_neg hhead] at h
      split at h
      · nomatch h
      · cases h
        exact absurd hn (Nat.lt_irrefl _)
  | cons c rest =>
      rw [List.cons_append, Pattern.proseLength?_cons] at h
      rw [List.length_cons] at hn ⊢
      split at h
      · split at h
        · nomatch h
        · cases h
          obtain ⟨-, hrun⟩ := Pattern.run_of_lt (Nat.lt_of_succ_lt_succ hn)
          rw [hrun, hz.run_eq (by decide)]
          exact Nat.add_right_comm _ _ _
      · split at h
        · nomatch h
        · cases h
          nomatch hn

theorem of_longest?_into_markers {row : Pattern} {m : List Char} (hrow : row ∈ table) (hm : m ≠ [])
    (hz : Markers z) (hclosed : Closed m) (h : row.longest? (m ++ z) = some n)
    (hn : m.length < n) : ∃ word, row = .prose word ∧ n = m.length + z.length := by
  cases hlocal : row.isLocal with
  | true =>
      rw [Pattern.longest?_append hrow hlocal hm hz.blunt] at h
      exact absurd (Pattern.of_longest? h).1 (Nat.not_le_of_lt hn)
  | false =>
      cases row with
      | blanks =>
          obtain ⟨rfl, -⟩ := Pattern.of_digitRun? h
          obtain ⟨q, rfl⟩ := hz.exists_cons
          obtain ⟨hall, hrun⟩ := Pattern.run_of_lt hn
          rw [hrun, Pattern.run_cons, if_neg (by decide)] at hn
          exact absurd hn (Nat.lt_irrefl _)
      | lineComment =>
          rw [Pattern.longest?_lineComment, Pattern.behind?_append (hz.blunt.apart (by decide)),
            Option.map_map] at h
          obtain ⟨body, hbehind, rfl⟩ := Option.map_eq_some_iff.mp h
          obtain rfl := Pattern.behind?_eq_some.mp hbehind
          have hlt : body.length < run (· ≠ '\n') (body ++ z) := Nat.lt_of_succ_lt_succ
            (Nat.lt_of_succ_lt_succ hn)
          obtain ⟨hall, -⟩ := Pattern.run_of_lt hlt
          cases of_decide_eq_true (Pattern.run_eq_length.mp hall _ (hclosed [] body rfl)) rfl
      | prose word =>
          have hword : ∀ c ∈ word.text.toList, c ∉ Pattern.bluntHeads := by cases word <;> decide
          rw [Pattern.longest?, Pattern.behind?_append (hz.blunt.apart hword), Option.bind_map] at h
          obtain ⟨rest, hbehind, h⟩ := Option.bind_eq_some_iff.mp h
          obtain ⟨k, hk, rfl⟩ := Option.map_eq_some_iff.mp h
          obtain rfl := Pattern.behind?_eq_some.mp hbehind
          refine ⟨word, rfl, ?_⟩
          rw [List.length_append] at hn ⊢
          have := of_proseLength?_into_markers hz hk (by omega)
          omega
      | _ => cases hlocal

/-- A piece that goes on into the markers at the end of a text takes all of them for prose. -/
theorem of_scan_into_markers {m : List Char} (hm : m ≠ []) (hz : Markers z) (hclosed : Closed m)
    (h : scan (m ++ z) = ⟨.ofKind kind, n⟩) (hn : m.length < n) :
    ∃ word about, kind = some (.prose word about) ∧ n = m.length + z.length := by
  obtain ⟨row, k, hbest, -, hcase⟩ := of_scan h
  obtain ⟨hrow, hmatch, -⟩ := Pattern.of_best? hbest
  obtain ⟨rfl, -, k', hk, rfl⟩ | ⟨-, rfl, hreading⟩ := hcase
  · rw [Pattern.longest?_commentOpening, Pattern.behind?_append (hz.blunt.apart (by decide)),
      Option.map_map] at hmatch
    obtain ⟨body, hbehind, rfl⟩ := Option.map_eq_some_iff.mp hmatch
    obtain rfl := Pattern.behind?_eq_some.mp hbehind
    have hk' : commentLength? (body ++ z) = some k' := hk
    have hslash := getElem?_of_commentLength? hk'
    have hlength : (['/', '*'] ++ body).length = 2 + body.length := by
      rw [List.length_append]
      rfl
    rw [List.getElem?_append_right (by dsimp only [Function.comp_apply] at hn; omega)] at hslash
    have hmarker := hz.eq_marker _ (List.mem_of_getElem? hslash)
    nomatch hmarker
  · obtain ⟨word, rfl, hlength⟩ := of_longest?_into_markers hrow hm hz hclosed hmatch hn
    cases kind with
    | none => nomatch hreading
    | some kind => exact ⟨word, _, congrArg some (Reading.token.inj hreading).symm, hlength⟩

theorem Markers.bland (hz : Markers z) : Bland z := by
  obtain ⟨q, rfl⟩ := hz.exists_cons
  exact ⟨by nofun, by nofun⟩

/-- The tokens in front of the markers at the end of a text stay when something else stands there
instead of the markers, if that can be exchanged behind every piece of the text. -/
theorem exists_front {ks : List TokenKind} (m : List Char) (h : Lexed (m ++ z) ks) (hz : Markers z)
    (hclosed : Closed m) (hlast : ∀ word about, ks.getLast? ≠ some (.prose word about))
    (hz' : ∀ w ks', w <:+ m → w ≠ [] → run isSeparator w ≠ w.length → Lexed (w ++ z) ks' →
      ks' <:+ ks → Exchange w z z')
    (hbland : Bland z') :
    ∃ front, ks = front ++ List.replicate z.length .unindent ∧
      ∀ ks', Lexed z' ks' → Lexed (m ++ z') (front ++ ks') := by
  by_cases hblank : run isSeparator m = m.length
  · have hall : m.all isSeparator = true := List.all_eq_true.mpr (Pattern.run_eq_length.mp hblank)
    rw [lexed_blanks hall hz.bland, List.eq_replicate_of_mem hz.eq_marker, ← List.append_nil
      (List.replicate _ _), lexed_replicate_iff] at h
    obtain ⟨ks', rfl, hnil⟩ := h
    refine ⟨[], ?_, fun ks' => (lexed_blanks hall hbland).mpr⟩
    rw [lexed_nil hnil, List.append_nil, List.nil_append]
  · have hm : m ≠ [] := by
      rintro rfl
      exact hblank rfl
    obtain ⟨kind, n, ks₀, hscan, hrest, hks⟩ := of_lexed (by simp [hm]) h
    by_cases hn : n ≤ m.length
    · have hscan' := scan_exchange
        (hz' m ks (List.suffix_refl m) hm hblank h (List.suffix_refl ks)) hscan hn
      rw [List.drop_append_of_le_length hn] at hrest
      have hpos := (scan_bounds hscan).1
      have hmore : Closed (m.drop n) := by
        rw [← List.take_append_drop n m] at hclosed
        exact hclosed.behind
      have hsuffix : ks₀ <:+ ks := hks ▸ List.suffix_append _ ks₀
      obtain ⟨front, rfl, hall⟩ := exists_front (m.drop n) hrest hz hmore
        (fun word about hend =>
          hlast word about (by rw [hks, List.getLast?_append, hend, Option.some_or]))
        (fun w ks' hw hne hblank hlexed hks' => hz' w ks' (hw.trans (List.drop_suffix n m)) hne
          hblank hlexed (hks'.trans hsuffix)) hbland
      subst hks
      refine ⟨kind.toList ++ front, (List.append_assoc ..).symm, fun ks' hks' => ?_⟩
      rw [List.append_assoc]
      refine lexed_of_scan hscan' ?_
      rw [List.drop_append_of_le_length hn]
      exact hall ks' hks'
    · obtain ⟨word, about, rfl, hlength⟩ :=
        of_scan_into_markers hm hz hclosed hscan (Nat.lt_of_not_le hn)
      rw [hlength, ← List.length_append, List.drop_length] at hrest
      obtain rfl := lexed_nil hrest
      exact absurd (congrArg List.getLast? hks) (hlast word about)
termination_by m.length
decreasing_by
  rw [List.length_drop]
  have := List.length_pos_iff.mpr hm
  omega

/-! ### Seams -/

section

variable {m q : List Char} {j : Nat}

theorem markers_replicate (hj : j ≠ 0) : Markers (List.replicate j Source.unindentMarker) where
  nonempty := by simpa using hj
  eq_marker _ hc := List.eq_of_mem_replicate hc

/-- Behind a text without markers at its end, the last token of which ends a statement, if there is
one, anything can stand but what goes on with its last comment. -/
theorem lexed_append_of_stop (h : Lexed m ks)
    (hlast : ∀ k, ks.getLast? = some k → ∃ stop ∈ stops, stop.2 = k)
    (hclosed : Closed m ∨ z.head? = some '\n') (hbland : Bland z) (hz : Lexed z ks') :
    Lexed (m ++ z) (ks ++ ks') := by
  cases hend : ks.getLast? with
  | none =>
      obtain rfl := List.getLast?_eq_none_iff.mp hend
      exact lexed_append m h hz hbland hclosed
  | some k =>
      obtain ⟨stop, hstop, rfl⟩ := hlast k hend
      obtain ⟨w, v, rfl, hv, hall⟩ := exists_behind_stop hstop h hend
      rw [List.append_assoc]
      refine hall _ ks' (lexed_append v hv hz hbland (hclosed.imp_left fun h => ?_))
      rw [← List.singleton_append, ← List.append_assoc] at h
      exact h.behind

theorem not_prose_of_stop (hlast : ∀ k, ks.getLast? = some k → ∃ stop ∈ stops, stop.2 = k)
    (word : ProseWord) (about : String) : ks.getLast? ≠ some (.prose word about) := by
  intro hend
  obtain ⟨stop, hstop, hkind⟩ := hlast _ hend
  obtain rfl | rfl | rfl := eq_of_mem_stops hstop <;> cases hkind

/-- A text can go on with a new line instead of the markers at its end. -/
theorem exists_seam_line (h : Lexed (m ++ List.replicate j Source.unindentMarker) ks)
    (hlast : ∀ k, ks.getLast? = some k → ∃ stop ∈ stops, stop.2 = k)
    (hclosed : j = 0 ∨ Closed m) (hbland : Bland ('\n' :: q)) :
    ∃ front, ks = front ++ List.replicate j .unindent ∧
      ∀ ks', Lexed ('\n' :: q) ks' → Lexed (m ++ '\n' :: q) (front ++ ks') := by
  cases j with
  | zero =>
      rw [List.replicate_zero, List.append_nil] at h
      exact ⟨ks, (List.append_nil ks).symm, fun ks' =>
        lexed_append_of_stop h hlast (.inr rfl) hbland⟩
  | succ j =>
      obtain ⟨front, hfront, hall⟩ := exists_front m h (markers_replicate (Nat.succ_ne_zero j))
        (hclosed.resolve_left (Nat.succ_ne_zero j)) (not_prose_of_stop hlast)
        (fun w ks' _ hw hblank _ _ => Pattern.exchange_line hw hblank _ q) hbland
      rw [List.length_replicate] at hfront
      exact ⟨front, hfront, hall⟩

/-- What a prose word is read as in front of a marker. -/
def standingAlone (word : ProseWord) : TokenKind :=
  if word = .see then .name word.text else .prose word ""

theorem scan_word (word : ProseWord) (q : List Char) :
    scan (word.text.toList ++ Source.unindentMarker :: q) =
      ⟨.ofKind (some (standingAlone word)), word.text.toList.length⟩ := by
  have hclosed : scan (word.text.toList ++ [Source.unindentMarker]) =
      ⟨.ofKind (some (standingAlone word)), word.text.toList.length⟩ := by
    cases word <;> decide +kernel
  refine scan_exchange (Pattern.exchange_stop ?_ ?_ ?_ [] q) hclosed (Nat.le_refl _)
  · cases word <;> decide
  · decide
  · decide

theorem of_lexed_word {word : ProseWord}
    (h : Lexed (word.text.toList ++ List.replicate (j + 1) Source.unindentMarker) ks) :
    ks = standingAlone word :: List.replicate (j + 1) .unindent := by
  obtain ⟨ks', rfl, hrest⟩ := (lexed_iff_of_scan (scan_word word _)).mp h
  rw [List.drop_left, ← List.replicate_succ, ← List.append_nil (List.replicate _ _),
    lexed_replicate_iff] at hrest
  obtain ⟨ks'', rfl, hnil⟩ := hrest
  rw [lexed_nil hnil, List.append_nil]
  rfl

/-- A text can go on with a comment in front of the markers at its end, unless the last token in
front of them is a prose word, which would take the comment for its prose. -/
theorem exists_seam_comment (h : Lexed (m ++ List.replicate j Source.unindentMarker) ks)
    (hlast : ∀ k, ks.getLast? = some k → ∃ stop ∈ stops, stop.2 = k) (hclosed : Closed m)
    (hword : ∀ word : ProseWord, word.text.toList <:+ m →
      ¬standingAlone word :: List.replicate j .unindent <:+ ks) :
    ∃ front, ks = front ++ List.replicate j .unindent ∧
      ∀ ks', Lexed (' ' :: '/' :: q) ks' → Lexed (m ++ ' ' :: '/' :: q) (front ++ ks') := by
  have hbland : Bland (' ' :: '/' :: q) := ⟨by nofun, by nofun⟩
  cases j with
  | zero =>
      rw [List.replicate_zero, List.append_nil] at h
      exact ⟨ks, (List.append_nil ks).symm, fun ks' =>
        lexed_append_of_stop h hlast (.inl hclosed) hbland⟩
  | succ j =>
      obtain ⟨front, hfront, hall⟩ := exists_front m h (markers_replicate (Nat.succ_ne_zero j))
        hclosed (not_prose_of_stop hlast) (fun w ks' hsuffix hw hblank hlexed hks' =>
          Pattern.exchange_comment hw hblank (fun word hword' => by
            subst hword'
            exact hword word hsuffix (of_lexed_word hlexed ▸ hks')) _ q) hbland
      rw [List.length_replicate] at hfront
      exact ⟨front, hfront, hall⟩

end

end ArmPseudocode.Lexeme

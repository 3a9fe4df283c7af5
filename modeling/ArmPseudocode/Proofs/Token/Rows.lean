import ArmPseudocode.Proofs.Text.Cutting
import ArmPseudocode.Proofs.Token.Stream

/-!
# Rows of the token table

What the rows of the token table match at the start of a text, when the text is cut somewhere and
goes on differently behind the cut. A row looks past the cut only if its match goes that far, or if
it stops right before the cut; the characters behind the cut that matter in this case are few.
-/

namespace ArmPseudocode

namespace Pattern

variable {p : Char → Bool} {s w z z' : List Char} {row : Pattern} {n m : Nat}

/-! ### Runs -/

theorem run_le (p : Char → Bool) (s : List Char) : run p s ≤ s.length :=
  (List.takeWhile_prefix p).length_le

theorem run_cons (p : Char → Bool) (c : Char) (s : List Char) :
    run p (c :: s) = if p c then run p s + 1 else 0 := by
  rw [run, List.takeWhile_cons]
  split <;> rfl

theorem run_eq_zero (h : ∀ c ∈ s.head?, p c = false) : run p s = 0 := by
  cases s with
  | nil => rfl
  | cons c s => rw [run_cons, h c rfl, if_neg Bool.false_ne_true]

theorem run_eq_length : run p s = s.length ↔ ∀ c ∈ s, p c = true := by
  induction s with
  | nil => simp [run]
  | cons c s ih =>
      rw [run_cons, List.length_cons, List.forall_mem_cons, ← ih]
      by_cases hc : p c = true
      · simp [hc]
      · simp [hc]

theorem take_run (p : Char → Bool) (s : List Char) : s.take (run p s) = s.takeWhile p :=
  (List.prefix_iff_eq_take.mp (List.takeWhile_prefix p)).symm

theorem mem_of_take_run {c : Char} (h : c ∈ s.take (run p s)) : p c = true := by
  rw [take_run] at h
  exact List.all_eq_true.mp List.all_takeWhile c h

theorem run_append (p : Char → Bool) (w z : List Char) :
    run p (w ++ z) = if run p w = w.length then w.length + run p z else run p w := by
  induction w with
  | nil => simp [run]
  | cons c w ih =>
      rw [List.cons_append, run_cons, run_cons, ih, List.length_cons]
      split
      · simp only [Nat.add_right_cancel_iff]
        split
        · omega
        · rfl
      · rw [if_neg (by omega)]

theorem run_append_of_head (h : ∀ c ∈ z.head?, p c = false) : run p (w ++ z) = run p w := by
  rw [run_append, run_eq_zero h]
  split
  · next hall => rw [hall, Nat.add_zero]
  · rfl

theorem run_of_lt (h : w.length < run p (w ++ z)) :
    run p w = w.length ∧ run p (w ++ z) = w.length + run p z := by
  rw [run_append] at h ⊢
  split at h
  · next hall => exact ⟨hall, if_pos hall⟩
  · exact absurd (run_le p w) (Nat.not_le_of_lt h)

/-- A run that does not go further than the first part is the same behind another part that it does
not go into. -/
theorem run_append_congr (hle : run p (w ++ z) ≤ w.length)
    (h : run p w = w.length → run p z = 0 → run p z' = 0) :
    run p (w ++ z') = run p (w ++ z) := by
  rw [run_append] at hle
  rw [run_append, run_append]
  split at hle
  · next hall => rw [if_pos hall, if_pos hall, h hall (by omega), (by omega : run p z = 0)]
  · next hne => rw [if_neg hne, if_neg hne]

theorem digitRun?_eq (p : Char → Bool) (s : List Char) :
    digitRun? p s = if run p s = 0 then none else some (run p s) := by
  rw [digitRun?]
  split
  · next hzero => rw [if_pos hzero]
  · next hpos => rw [if_neg hpos]

theorem digitRun?_append_of_head (h : ∀ c ∈ z.head?, p c = false) :
    digitRun? p (w ++ z) = digitRun? p w := by
  rw [digitRun?_eq, digitRun?_eq, run_append_of_head h]

theorem of_digitRun? (h : digitRun? p s = some n) : run p s = n ∧ 0 < n := by
  rw [digitRun?_eq] at h
  split at h
  · nomatch h
  · next hpos =>
      cases h
      exact ⟨rfl, Nat.pos_of_ne_zero hpos⟩

/-! ### Rows by what stands behind a phrase -/

theorem behind?_eq_some {rest : List Char} : behind? w s = some rest ↔ s = w ++ rest := by
  induction w generalizing s with
  | nil => simp [behind?, eq_comm]
  | cons c w ih =>
      cases s with
      | nil => simp [behind?]
      | cons c' s =>
          rw [behind?, List.cons_append, List.cons.injEq]
          split
          · next heq => rw [ih, heq, eq_self, true_and]
          · next hne => simp [Ne.symm hne]

/-- A phrase that the second part cannot go on with stands in the first part or not at all. -/
theorem behind?_append {phrase : List Char} (h : ∀ c ∈ phrase, c ∉ z.head?) :
    behind? phrase (w ++ z) = (behind? phrase w).map (· ++ z) := by
  induction phrase generalizing w with
  | nil => rfl
  | cons c phrase ih =>
      obtain ⟨hc, hphrase⟩ := List.forall_mem_cons.mp h
      cases w with
      | nil =>
          cases z with
          | nil => rfl
          | cons d z => rw [List.nil_append, behind?, if_neg (by simpa [eq_comm] using hc)]; rfl
      | cons d w =>
          rw [List.cons_append, behind?, behind?]
          split
          · exact ih hphrase
          · rfl

theorem longest?_fixed (spelling : List Char) (kind : TokenKind) (s : List Char) :
    (fixed spelling kind).longest? s = (behind? spelling s).map fun _ => spelling.length := by
  rw [longest?]
  cases hbehind : behind? spelling s with
  | none =>
      rw [if_neg]
      · rfl
      · intro hprefix
        obtain ⟨rest, hrest⟩ := List.isPrefixOf_iff_prefix.mp hprefix
        rw [behind?_eq_some.mpr hrest.symm] at hbehind
        nomatch hbehind
  | some rest =>
      rw [if_pos]
      · rfl
      · rw [behind?_eq_some.mp hbehind]
        exact List.isPrefixOf_iff_prefix.mpr (List.prefix_append _ _)

theorem longest?_lineComment (s : List Char) :
    lineComment.longest? s = (behind? ['/', '/'] s).map fun rest => run (· ≠ '\n') rest + 2 := by
  rcases s with _ | ⟨c, _ | ⟨d, s⟩⟩
  · rfl
  · simp [longest?, behind?]
  · by_cases hc : c = '/' <;> by_cases hd : d = '/' <;> simp [longest?, behind?, hc, hd, eq_comm]

theorem longest?_commentOpening (s : List Char) :
    commentOpening.longest? s = (behind? ['/', '*'] s).map fun _ => 2 := by
  rcases s with _ | ⟨c, _ | ⟨d, s⟩⟩
  · rfl
  · simp [longest?, behind?]
  · by_cases hc : c = '/' <;> by_cases hd : d = '*' <;> simp [longest?, behind?, hc, hd, eq_comm]

theorem longest?_hexadecimal (s : List Char) :
    hexadecimal.longest? s =
      (behind? ['0', 'x'] s).bind fun rest => (digitRun? Text.isHexDigit rest).map (· + 2) := by
  rcases s with _ | ⟨c, _ | ⟨d, s⟩⟩
  · rfl
  · simp [longest?, behind?]
  · by_cases hc : c = '0' <;> by_cases hd : d = 'x' <;> simp [longest?, behind?, hc, hd, eq_comm]

theorem longest?_real (s : List Char) :
    real.longest? s = (digitRun? Text.isDigit s).bind fun n =>
      (behind? ['.'] (s.drop n)).bind fun rest =>
        (digitRun? Text.isDigit rest).map (n + 1 + ·) := by
  rw [longest?]
  congr 1
  funext n
  rcases s.drop n with _ | ⟨c, rest⟩
  · rfl
  · by_cases hc : c = '.' <;> simp [behind?, hc, eq_comm]

theorem proseRun?_cons (c : Char) (s : List Char) :
    proseRun? (c :: s) =
      if c = ' ' ∧ run (· ≠ ';') s ≠ 0 then some (run (· ≠ ';') s + 1) else none := by
  by_cases hc : c = ' '
  · subst hc
    rw [proseRun?]
    split
    · next hzero => rw [if_neg fun h => h.2 hzero]
    · next hpos => rw [if_pos ⟨rfl, hpos⟩]
  · rw [if_neg fun h => hc h.1]
    rw [proseRun?]
    rintro cs heq
    exact hc (List.cons.inj heq).1

/-! ### The length of a match -/

theorem of_proseRun? (h : proseRun? s = some n) : 1 < n ∧ n ≤ s.length := by
  cases s with
  | nil => nomatch h
  | cons c s =>
      rw [proseRun?_cons] at h
      split at h
      · next hrun =>
          cases h
          have := run_le (· ≠ ';') s
          rw [List.length_cons]
          omega
      · nomatch h

theorem of_proseLength? {word : ProseWord} (h : proseLength? word s = some n) : n ≤ s.length := by
  rw [proseLength?] at h
  split at h
  · next hrun =>
      cases h
      exact (of_proseRun? hrun).2
  · split at h
    · nomatch h
    · cases h
      exact Nat.zero_le _

theorem of_nameRun? (h : nameRun? s = some n) : 0 < n ∧ n ≤ s.length := by
  cases s with
  | nil => nomatch h
  | cons c s =>
      rw [nameRun?] at h
      split at h
      · cases h
        exact ⟨Nat.succ_pos _, Nat.succ_le_succ (run_le _ _)⟩
      · nomatch h

theorem length_of_behind? {rest : List Char} (h : behind? w s = some rest) :
    s.length = w.length + rest.length := by
  rw [behind?_eq_some.mp h, List.length_append]

theorem length_of_head?_drop {c : Char} (h : (s.drop n).head? = some c) : n + 1 ≤ s.length := by
  have hne : s.drop n ≠ [] := by
    intro hnil
    rw [hnil] at h
    nomatch h
  have := List.length_pos_iff.mpr hne
  rw [List.length_drop] at this
  omega

/-- No row matches more than there is, and but for a fixed spelling without characters each match
has one. -/
theorem of_longest? (h : row.longest? s = some n) :
    n ≤ s.length ∧ ((∀ kind, row ≠ .fixed [] kind) → 0 < n) := by
  cases row with
  | fixed spelling kind =>
      rw [longest?_fixed] at h
      obtain ⟨rest, hbehind, rfl⟩ := Option.map_eq_some_iff.mp h
      refine ⟨by rw [length_of_behind? hbehind]; exact Nat.le_add_right _ _, fun hne => ?_⟩
      exact List.length_pos_iff.mpr fun hnil => hne kind (by rw [hnil])
  | blanks | decimal =>
      obtain ⟨rfl, hpos⟩ := of_digitRun? h
      exact ⟨run_le _ _, fun _ => hpos⟩
  | lineComment =>
      rw [longest?_lineComment] at h
      obtain ⟨rest, hbehind, rfl⟩ := Option.map_eq_some_iff.mp h
      have hlength := length_of_behind? hbehind
      have hle := run_le (· ≠ '\n') rest
      refine ⟨?_, fun _ => Nat.succ_pos _⟩
      simp only [List.length_cons, List.length_nil] at hlength
      omega
  | commentOpening =>
      rw [longest?_commentOpening] at h
      obtain ⟨rest, hbehind, rfl⟩ := Option.map_eq_some_iff.mp h
      have hlength := length_of_behind? hbehind
      simp only [List.length_cons, List.length_nil] at hlength
      exact ⟨by omega, fun _ => by omega⟩
  | prose word =>
      rw [longest?] at h
      obtain ⟨rest, hbehind, h⟩ := Option.bind_eq_some_iff.mp h
      obtain ⟨m, hm, rfl⟩ := Option.map_eq_some_iff.mp h
      have hlength := length_of_behind? hbehind
      have hle := of_proseLength? hm
      have hpos : 0 < word.text.toList.length := by cases word <;> decide
      exact ⟨by omega, fun _ => by omega⟩
  | hexadecimal =>
      rw [longest?_hexadecimal] at h
      obtain ⟨rest, hbehind, h⟩ := Option.bind_eq_some_iff.mp h
      obtain ⟨m, hm, rfl⟩ := Option.map_eq_some_iff.mp h
      obtain ⟨rfl, -⟩ := of_digitRun? hm
      have hlength := length_of_behind? hbehind
      have hle := run_le Text.isHexDigit rest
      simp only [List.length_cons, List.length_nil] at hlength
      exact ⟨by omega, fun _ => Nat.succ_pos _⟩
  | real =>
      rw [longest?_real] at h
      obtain ⟨k, hk, h⟩ := Option.bind_eq_some_iff.mp h
      obtain ⟨rest, hbehind, h⟩ := Option.bind_eq_some_iff.mp h
      obtain ⟨m, hm, rfl⟩ := Option.map_eq_some_iff.mp h
      obtain ⟨rfl, hpos⟩ := of_digitRun? hk
      obtain ⟨rfl, -⟩ := of_digitRun? hm
      have hlength := length_of_behind? hbehind
      have hle := run_le Text.isDigit rest
      rw [List.length_drop, List.length_singleton] at hlength
      exact ⟨by omega, fun _ => by omega⟩
  | bitString =>
      cases s with
      | nil => nomatch h
      | cons c s =>
          rw [longest?] at h
          split at h
          · obtain ⟨k, hk, h⟩ := Option.bind_eq_some_iff.mp h
            split at h
            · next hany =>
                cases h
                obtain ⟨d, hd, -⟩ := (Option.any_eq_true _ _).mp hany
                have hle := length_of_head?_drop hd
                rw [List.length_cons]
                exact ⟨by omega, fun _ => by omega⟩
            · nomatch h
          · nomatch h
  | name =>
      obtain ⟨hpos, hle⟩ := of_nameRun? h
      exact ⟨hle, fun _ => hpos⟩
  | call =>
      rw [longest?] at h
      obtain ⟨k, hk, h⟩ := Option.bind_eq_some_iff.mp h
      split at h
      · next hhead =>
          cases h
          exact ⟨length_of_head?_drop hhead, fun _ => Nat.succ_pos _⟩
      · nomatch h

/-! ### Cuts -/

/-- Characters that no token goes on with: a space goes on only with prose. -/
def bluntHeads : List Char :=
  [';', '\x7d', Source.unindentMarker, '\n', ' ']

/-- Behind a cut a text is blunt if no token but prose goes on with it. -/
structure Blunt (z : List Char) : Prop where
  head : ∀ c ∈ z.head?, c ∈ bluntHeads
  quote : (z.drop (run isBitChar z)).head?.any isClosingQuote = false

/-- Whether the row looks at one character behind its match at most, and takes no blanks. -/
def isLocal : Pattern → Bool
  | blanks | lineComment | prose _ => false
  | _ => true

theorem Blunt.notin {c : Char} (hz : Blunt z) (hc : c ∉ bluntHeads) : c ∉ z.head? :=
  fun hmem => hc (hz.head c hmem)

theorem Blunt.apart {phrase : List Char} (hz : Blunt z) (h : ∀ c ∈ phrase, c ∉ bluntHeads) :
    ∀ c ∈ phrase, c ∉ z.head? :=
  fun c hc => hz.notin (h c hc)

theorem Blunt.eq_false (hz : Blunt z) (hp : ∀ c ∈ bluntHeads, p c = false) :
    ∀ c ∈ z.head?, p c = false :=
  fun c hc => hp c (hz.head c hc)

def spelling : Pattern → List Char
  | fixed spelling _ => spelling
  | _ => []

theorem fixedRows_spelling : ∀ spelling kind, .fixed spelling kind ∈ table →
    spelling ≠ [] ∧ ∀ c ∈ spelling.tail, c ∉ bluntHeads := by
  have hall : table.all (fun row => match row with
      | .fixed spelling _ => !spelling.isEmpty && spelling.tail.all (· ∉ bluntHeads)
      | _ => true) = true := by decide +kernel
  intro spelling kind hmem
  simpa using List.all_eq_true.mp hall _ hmem

theorem nameRun?_append (hw : w ≠ []) (hz : Blunt z) : nameRun? (w ++ z) = nameRun? w := by
  cases w with
  | nil => exact absurd rfl hw
  | cons c w =>
      rw [List.cons_append, nameRun?, nameRun?, run_append_of_head (hz.eq_false (by decide))]

theorem drop_append_of_digitRun? (h : digitRun? p w = some n) :
    (w ++ z).drop n = w.drop n ++ z := by
  obtain ⟨rfl, -⟩ := of_digitRun? h
  exact List.drop_append_of_le_length (run_le p w)

/-- The digits of a bit string are closed in front of a blunt cut, or not at all. -/
theorem closedBits_append (w : List Char) (hz : Blunt z) :
    ((digitRun? isBitChar (w ++ z)).bind fun n =>
        if ((w ++ z).drop n).head?.any isClosingQuote then some (n + 2) else none) =
      (digitRun? isBitChar w).bind fun n =>
        if (w.drop n).head?.any isClosingQuote then some (n + 2) else none := by
  rw [digitRun?_eq, digitRun?_eq, run_append]
  split
  · next hall =>
      have hdrop : (w ++ z).drop (w.length + run isBitChar z) = z.drop (run isBitChar z) := by
        rw [List.drop_append, List.drop_eq_nil_of_le (Nat.le_add_right _ _), List.nil_append,
          Nat.add_sub_cancel_left]
      rw [hall]
      calc
        _ = none := by
          split
          · rfl
          · rw [Option.bind_some, hdrop, if_neg (by rw [hz.quote]; exact Bool.false_ne_true)]
        _ = _ := by
          split
          · rfl
          · rw [Option.bind_some, List.drop_length]
            rfl
  · next hne =>
      have hlt : run isBitChar w < w.length := Nat.lt_of_le_of_ne (run_le _ w) hne
      split
      · rfl
      · rw [Option.bind_some, Option.bind_some, List.drop_append_of_le_length (Nat.le_of_lt hlt)]
        cases hdrop : w.drop (run isBitChar w) with
        | nil => exact absurd (List.drop_eq_nil_iff.mp hdrop) (Nat.not_le_of_lt hlt)
        | cons d rest => rfl

/-- A local row does not look behind a blunt cut. -/
theorem longest?_append (hrow : row ∈ table) (hlocal : row.isLocal = true) (hw : w ≠ [])
    (hz : Blunt z) : row.longest? (w ++ z) = row.longest? w := by
  cases row with
  | blanks | lineComment | prose => nomatch hlocal
  | fixed spelling kind =>
      obtain ⟨hne, htail⟩ := fixedRows_spelling spelling kind hrow
      rw [longest?_fixed, longest?_fixed]
      cases spelling with
      | nil => exact absurd rfl hne
      | cons c spelling =>
          cases w with
          | nil => exact absurd rfl hw
          | cons d w =>
              rw [List.tail_cons] at htail
              rw [List.cons_append, behind?, behind?]
              split
              · rw [behind?_append (hz.apart htail), Option.map_map]
                rfl
              · rfl
  | commentOpening =>
      rw [longest?_commentOpening, longest?_commentOpening, behind?_append (hz.apart (by decide)),
        Option.map_map]
      rfl
  | decimal => exact digitRun?_append_of_head (hz.eq_false (by decide))
  | hexadecimal =>
      rw [longest?_hexadecimal, longest?_hexadecimal, behind?_append (hz.apart (by decide)),
        Option.bind_map]
      congr 1
      funext rest
      rw [Function.comp_apply, digitRun?_append_of_head (hz.eq_false (by decide))]
  | real =>
      rw [longest?_real, longest?_real, digitRun?_append_of_head (hz.eq_false (by decide))]
      cases hrun : digitRun? Text.isDigit w with
      | none => rfl
      | some n =>
          rw [Option.bind_some, Option.bind_some, drop_append_of_digitRun? hrun,
            behind?_append (hz.apart (by decide)), Option.bind_map]
          congr 1
          funext rest
          rw [Function.comp_apply, digitRun?_append_of_head (hz.eq_false (by decide))]
  | bitString =>
      cases w with
      | nil => exact absurd rfl hw
      | cons c w =>
          rw [List.cons_append, longest?, longest?]
          split
          · exact closedBits_append w hz
          · rfl
  | name => exact nameRun?_append hw hz
  | call =>
      rw [longest?, longest?, nameRun?_append hw hz]
      cases hrun : nameRun? w with
      | none => rfl
      | some n =>
          have hle := (of_nameRun? hrun).2
          rw [Option.bind_some, Option.bind_some, List.drop_append_of_le_length hle]
          cases hdrop : w.drop n with
          | nil =>
              have hparen : z.head? ≠ some '(' := hz.notin (by decide)
              rw [List.nil_append, if_neg hparen]
              rfl
          | cons d rest => rfl

/-- Behind `w` one text can stand for the other: no match that ends in `w` changes, and none
begins. -/
structure Exchange (w z z' : List Char) : Prop where
  nonempty : w ≠ []
  blunt : Blunt z
  blunt' : Blunt z'
  line : run (· ≠ '\n') z = 0 → run (· ≠ '\n') z' = 0
  prose : run (· ≠ ';') z = 0 → run (· ≠ ';') z' = 0
  blank : run isSeparator w = w.length → run isSeparator z = 0 → run isSeparator z' = 0
  word : ∀ word : ProseWord, w = word.text.toList → proseLength? word z = proseLength? word z'

/-- A match within `w` is a match in front of the other text, and where there is none, there is none
there either. -/
def Keeps (row : Pattern) (w z z' : List Char) : Prop :=
  (∀ m ≤ w.length, row.longest? (w ++ z) = some m → row.longest? (w ++ z') = some m) ∧
    (row.longest? (w ++ z) = none → row.longest? (w ++ z') = none)

theorem keeps_of_eq (h : row.longest? (w ++ z) = row.longest? (w ++ z')) : Keeps row w z z' :=
  ⟨fun _ _ hm => h ▸ hm, fun hnone => h ▸ hnone⟩

theorem keeps_blanks (h : Exchange w z z') : Keeps blanks w z z' := by
  refine ⟨fun m hm hsome => ?_, fun hnone => ?_⟩
  · rw [longest?] at hsome ⊢
    obtain ⟨rfl, -⟩ := of_digitRun? hsome
    rw [← hsome, digitRun?_eq, digitRun?_eq, run_append_congr hm h.blank]
  · rw [longest?] at hnone ⊢
    have hzero : run isSeparator (w ++ z) = 0 := by
      rw [digitRun?_eq] at hnone
      split at hnone
      · assumption
      · nomatch hnone
    rw [digitRun?_eq, run_append_congr (by rw [hzero]; exact Nat.zero_le _) h.blank, if_pos hzero]

theorem keeps_lineComment (h : Exchange w z z') : Keeps lineComment w z z' := by
  have hslashes : ∀ c ∈ ['/', '/'], c ∉ bluntHeads := by decide
  rw [Keeps, longest?_lineComment, longest?_lineComment, behind?_append (h.blunt.apart hslashes),
    behind?_append (h.blunt'.apart hslashes)]
  cases hbehind : behind? ['/', '/'] w with
  | none => exact ⟨fun m _ hsome => (by nomatch hsome), fun _ => rfl⟩
  | some rest =>
      have hlength := length_of_behind? hbehind
      refine ⟨fun m hm hsome => ?_, fun hnone => by nomatch hnone⟩
      simp only [Option.map_some, Option.some.injEq] at hsome ⊢
      simp only [List.length_cons, List.length_nil] at hlength
      rw [run_append_congr (by omega) fun _ => h.line, hsome]

theorem proseLength?_cons (word : ProseWord) (c : Char) (s : List Char) :
    proseLength? word (c :: s) =
      if c = ' ' then if run (· ≠ ';') s = 0 then none else some (run (· ≠ ';') s + 1)
      else if word = .see then none else some 0 := by
  rw [proseLength?, proseRun?_cons]
  by_cases hc : c = ' '
  · rw [if_pos hc]
    by_cases hzero : run (· ≠ ';') s = 0
    · rw [if_neg (fun h => h.2 hzero), if_pos hzero]
      simp [hc]
    · rw [if_pos ⟨hc, hzero⟩, if_neg hzero]
  · rw [if_neg (fun h => hc h.1), if_neg hc]
    simp [hc]

theorem keeps_prose {word : ProseWord} (h : Exchange w z z') : Keeps (.prose word) w z z' := by
  have hword : ∀ c ∈ word.text.toList, c ∉ bluntHeads := by cases word <;> decide
  rw [Keeps, longest?, longest?, behind?_append (h.blunt.apart hword),
    behind?_append (h.blunt'.apart hword)]
  cases hbehind : behind? word.text.toList w with
  | none => exact ⟨fun m _ hsome => (by nomatch hsome), fun _ => rfl⟩
  | some rest =>
      have hw := behind?_eq_some.mp hbehind
      have hlength := length_of_behind? hbehind
      rw [Option.map_some, Option.map_some, Option.bind_some, Option.bind_some]
      cases rest with
      | nil =>
          rw [List.append_nil] at hw
          rw [List.nil_append, List.nil_append, h.word word hw]
          exact ⟨fun m _ hsome => hsome, id⟩
      | cons c rest =>
          rw [List.cons_append, List.cons_append, proseLength?_cons, proseLength?_cons]
          rw [List.length_cons] at hlength
          by_cases hc : c = ' '
          · rw [if_pos hc, if_pos hc]
            have hsame : run (· ≠ ';') (rest ++ z) ≤ rest.length →
                run (· ≠ ';') (rest ++ z') = run (· ≠ ';') (rest ++ z) :=
              fun hle => run_append_congr hle fun _ => h.prose
            by_cases hzero : run (· ≠ ';') (rest ++ z) = 0
            · rw [hsame (by rw [hzero]; exact Nat.zero_le _)]
              exact ⟨fun m _ hsome => hsome, id⟩
            · rw [if_neg hzero]
              refine ⟨fun m hm hsome => ?_, fun hnone => by nomatch hnone⟩
              simp only [Option.map_some, Option.some.injEq] at hsome
              rw [hsame (by omega), if_neg hzero, Option.map_some, hsome]
          · rw [if_neg hc, if_neg hc]
            exact ⟨fun m _ hsome => hsome, id⟩

theorem keeps_of_mem_table (hrow : row ∈ table) (h : Exchange w z z') : Keeps row w z z' := by
  cases hlocal : row.isLocal with
  | true =>
      exact keeps_of_eq ((longest?_append hrow hlocal h.nonempty h.blunt).trans
        (longest?_append hrow hlocal h.nonempty h.blunt').symm)
  | false =>
      cases row with
      | blanks => exact keeps_blanks h
      | lineComment => exact keeps_lineComment h
      | prose word => exact keeps_prose h
      | _ => nomatch hlocal

/-! ### The best match -/

theorem of_best?_eq_none {rows : List Pattern} (h : best? s rows = none) :
    ∀ row ∈ rows, row.longest? s = none := by
  induction rows with
  | nil => rintro _ ⟨⟩
  | cons first rows ih =>
      rw [best?] at h
      split at h
      · split at h <;> cases h
      · cases h
      · next hfirst => exact List.forall_mem_cons.mpr ⟨hfirst, ih h⟩

theorem of_best? {rows : List Pattern} (h : best? s rows = some (row, n)) :
    row ∈ rows ∧ row.longest? s = some n ∧
      ∀ other ∈ rows, ∀ m, other.longest? s = some m → m ≤ n := by
  induction rows generalizing row n with
  | nil => cases h
  | cons first rows ih =>
      rw [best?] at h
      split at h
      · next m₁ other m₂ hfirst hrest =>
          obtain ⟨hmem, hmatch, hbest⟩ := ih hrest
          split at h
          · next hle =>
              cases h
              refine ⟨List.mem_cons_self, hfirst, List.forall_mem_cons.mpr ⟨?_, ?_⟩⟩
              · intro m hm
                rw [hfirst] at hm
                cases hm
                exact Nat.le_refl _
              · exact fun row hrow m hm => Nat.le_trans (hbest row hrow m hm) hle
          · next hlt =>
              cases h
              refine ⟨List.mem_cons_of_mem _ hmem, hmatch, List.forall_mem_cons.mpr ⟨?_, hbest⟩⟩
              intro m hm
              rw [hfirst] at hm
              cases hm
              omega
      · next m₁ hfirst hrest =>
          cases h
          refine ⟨List.mem_cons_self, hfirst, List.forall_mem_cons.mpr ⟨?_, ?_⟩⟩
          · intro m hm
            rw [hfirst] at hm
            cases hm
            exact Nat.le_refl _
          · intro row hrow m hm
            rw [of_best?_eq_none hrest row hrow] at hm
            cases hm
      · next hfirst =>
          obtain ⟨hmem, hmatch, hbest⟩ := ih h
          refine ⟨List.mem_cons_of_mem _ hmem, hmatch, List.forall_mem_cons.mpr ⟨?_, hbest⟩⟩
          intro m hm
          rw [hfirst] at hm
          cases hm

theorem best?_congr {s' : List Char} {rows : List Pattern}
    (h : ∀ row ∈ rows, row.longest? s = row.longest? s') : best? s rows = best? s' rows := by
  induction rows with
  | nil => rfl
  | cons first rows ih =>
      obtain ⟨hfirst, hrows⟩ := List.forall_mem_cons.mp h
      rw [best?, best?, hfirst, ih hrows]

/-- The best match within `w` is the best match in front of the other text. -/
theorem best?_exchange (hw : Exchange w z z') (h : best? (w ++ z) table = some (row, n))
    (hn : n ≤ w.length) : best? (w ++ z') table = some (row, n) := by
  obtain ⟨-, -, hbest⟩ := of_best? h
  rw [← h]
  refine best?_congr fun other hother => ?_
  obtain ⟨hsome, hnone⟩ := keeps_of_mem_table hother hw
  cases hmatch : other.longest? (w ++ z) with
  | none => exact hnone hmatch
  | some m => exact hsome m (Nat.le_trans (hbest other hother m hmatch) hn) hmatch

end Pattern

end ArmPseudocode

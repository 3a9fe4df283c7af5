import Mathlib.Computability.Language
import ArmPseudocode.Proofs.Token.Pieces

/-!
# The languages of the token table

Each row of the token table stands for a language of character sequences, given here as a regular
expression. What the row matches at the start of a text is a word of its language, and the longest
that stands there. Only the words `IMPLEMENTATION_DEFINED` and `SUBARCHITECTURE_DEFINED` in front of
a single space are passed over by their own rows; there they are as long as the identifier is.

So the tokenizer takes the longest word that stands at its position in any language of the table.
-/

namespace ArmPseudocode

namespace Pattern

open Computability

variable {p : Char → Bool} {s w z : List Char} {c : Char} {row other : Pattern} {n m : Nat}

/-! ### Languages -/

def oneOf (p : Char → Bool) : Language Char :=
  {w | ∃ c, p c = true ∧ w = [c]}

def someOf (p : Char → Bool) : Language Char :=
  oneOf p * (oneOf p)∗

def phrase (text : String) : Language Char :=
  {text.toList}

/-- What a row of the token table stands for. -/
def language : Pattern → Language Char
  | fixed spelling _ => {spelling}
  | blanks => someOf isSeparator
  | lineComment => phrase "//" * (oneOf (· ≠ '\n'))∗
  | commentOpening => phrase "/*"
  | prose .see => phrase "SEE" * phrase " " * someOf (· ≠ ';')
  | prose word => phrase word.text * (1 + phrase " " * someOf (· ≠ ';'))
  | decimal => someOf Text.isDigit
  | hexadecimal => phrase "0x" * someOf Text.isHexDigit
  | real => someOf Text.isDigit * phrase "." * someOf Text.isDigit
  | bitString => oneOf isOpeningQuote * someOf isBitChar * oneOf isClosingQuote
  | name => oneOf isNameStart * (oneOf isNameChar)∗
  | call => oneOf isNameStart * (oneOf isNameChar)∗ * phrase "("

/-- The first `n` characters of a text are a word of the row's language. -/
def Matches (row : Pattern) (n : Nat) (s : List Char) : Prop :=
  n ≤ s.length ∧ s.take n ∈ row.language

/-- A row with one spelling. -/
def isLiteral : Pattern → Bool
  | fixed _ _ | commentOpening => true
  | _ => false

theorem matches_iff : row.Matches n s ↔ ∃ w z, s = w ++ z ∧ w.length = n ∧ w ∈ row.language := by
  constructor
  · rintro ⟨hn, hw⟩
    exact ⟨s.take n, s.drop n, (List.take_append_drop n s).symm, List.length_take_of_le hn, hw⟩
  · rintro ⟨w, z, rfl, rfl, hw⟩
    refine ⟨?_, by rwa [List.take_left]⟩
    rw [List.length_append]
    exact Nat.le_add_right _ _

theorem mem_kstar_oneOf : w ∈ (oneOf p)∗ ↔ ∀ c ∈ w, p c = true := by
  rw [Language.mem_kstar]
  constructor
  · rintro ⟨words, rfl, hwords⟩ c hc
    obtain ⟨word, hword, hmem⟩ := List.mem_flatten.mp hc
    obtain ⟨d, hd, rfl⟩ := hwords word hword
    rwa [List.mem_singleton.mp hmem]
  · intro h
    refine ⟨w.map fun c => [c], by rw [← List.flatMap_def, List.flatMap_singleton'], ?_⟩
    intro word hword
    obtain ⟨c, hc, rfl⟩ := List.mem_map.mp hword
    exact ⟨c, h c hc, rfl⟩

theorem mem_someOf : w ∈ someOf p ↔ w ≠ [] ∧ ∀ c ∈ w, p c = true := by
  rw [someOf, Language.mem_mul]
  constructor
  · rintro ⟨_, ⟨c, hc, rfl⟩, rest, hrest, rfl⟩
    exact ⟨List.cons_ne_nil c rest, List.forall_mem_cons.mpr ⟨hc, mem_kstar_oneOf.mp hrest⟩⟩
  · rintro ⟨hne, hw⟩
    obtain ⟨c, rest, rfl⟩ := List.exists_cons_of_ne_nil hne
    obtain ⟨hc, hrest⟩ := List.forall_mem_cons.mp hw
    exact ⟨[c], ⟨c, hc, rfl⟩, rest, mem_kstar_oneOf.mpr hrest, rfl⟩

/-! ### Runs as words -/

theorem length_le_run (h : ∀ c ∈ w, p c = true) : w.length ≤ run p (w ++ z) := by
  rw [run_append, if_pos (run_eq_length.mpr h)]
  exact Nat.le_add_right _ _

theorem run_append_cons (h : ∀ c ∈ w, p c = true) (hc : p c = false) :
    run p (w ++ c :: z) = w.length := by
  rw [run_append, if_pos (run_eq_length.mpr h), run_eq_zero, Nat.add_zero]
  intro d hd
  rwa [← Option.some.inj hd]

theorem take_mem_someOf (h : digitRun? p s = some n) : s.take n ∈ someOf p := by
  obtain ⟨rfl, hpos⟩ := of_digitRun? h
  refine mem_someOf.mpr ⟨fun hnil => ?_, fun c hc => mem_of_take_run hc⟩
  have hlength := congrArg List.length hnil
  rw [List.length_take_of_le (run_le p s), List.length_nil] at hlength
  omega

theorem exists_digitRun? (h : w ∈ someOf p) :
    ∃ n, digitRun? p (w ++ z) = some n ∧ w.length ≤ n := by
  obtain ⟨hne, hw⟩ := mem_someOf.mp h
  have hle := length_le_run (z := z) hw
  have hpos := List.length_pos_iff.mpr hne
  exact ⟨run p (w ++ z), by rw [digitRun?_eq, if_neg (by omega)], hle⟩

theorem digitRun?_append_cons (h : w ∈ someOf p) (hc : p c = false) :
    digitRun? p (w ++ c :: z) = some w.length := by
  obtain ⟨hne, hw⟩ := mem_someOf.mp h
  rw [digitRun?_eq, run_append_cons hw hc,
    if_neg fun hzero => hne (List.length_eq_zero_iff.mp hzero)]

theorem take_mem_of_nameRun? (h : nameRun? s = some n) :
    s.take n ∈ oneOf isNameStart * (oneOf isNameChar)∗ := by
  cases s with
  | nil => cases h
  | cons c s =>
      rw [nameRun?] at h
      split at h
      · next hc =>
          cases h
          rw [List.take_succ_cons]
          exact Language.append_mem_mul (a := [c]) ⟨c, hc, rfl⟩
            (mem_kstar_oneOf.mpr fun d hd => mem_of_take_run hd)
      · cases h

theorem mem_name : w ∈ oneOf isNameStart * (oneOf isNameChar)∗ ↔
    ∃ c rest, w = c :: rest ∧ isNameStart c = true ∧ ∀ d ∈ rest, isNameChar d = true := by
  rw [Language.mem_mul]
  constructor
  · rintro ⟨_, ⟨c, hc, rfl⟩, rest, hrest, rfl⟩
    exact ⟨c, rest, rfl, hc, mem_kstar_oneOf.mp hrest⟩
  · rintro ⟨c, rest, rfl, hc, hrest⟩
    exact ⟨[c], ⟨c, hc, rfl⟩, rest, mem_kstar_oneOf.mpr hrest, rfl⟩

theorem exists_nameRun? (h : w ∈ oneOf isNameStart * (oneOf isNameChar)∗) :
    ∃ n, nameRun? (w ++ z) = some n ∧ w.length ≤ n := by
  obtain ⟨c, rest, rfl, hc, hrest⟩ := mem_name.mp h
  rw [List.cons_append, nameRun?, if_pos hc]
  exact ⟨_, rfl, Nat.succ_le_succ (length_le_run hrest)⟩

theorem nameRun?_append_cons (h : w ∈ oneOf isNameStart * (oneOf isNameChar)∗)
    (hc : isNameChar c = false) : nameRun? (w ++ c :: z) = some w.length := by
  obtain ⟨d, rest, rfl, hd, hrest⟩ := mem_name.mp h
  rw [List.cons_append, nameRun?, if_pos hd, run_append_cons hrest hc, List.length_cons]

/-! ### What a row matches is a word of its language -/

theorem take_of_behind? {rest : List Char} (h : behind? w s = some rest) (n : Nat) :
    s.take (w.length + n) = w ++ rest.take n := by
  rw [behind?_eq_some.mp h, List.take_length_add_append]

theorem take_mem_of_proseRun? (h : proseRun? s = some n) :
    s.take n ∈ phrase " " * someOf (· ≠ ';') := by
  cases s with
  | nil => nomatch h
  | cons c s =>
      rw [proseRun?_cons] at h
      split at h
      · next hrun =>
          cases h
          obtain ⟨rfl, hpos⟩ := hrun
          rw [List.take_succ_cons]
          refine Language.append_mem_mul (a := [' ']) rfl (take_mem_someOf ?_)
          rw [digitRun?_eq, if_neg hpos]
      · nomatch h

theorem take_mem_of_proseLength? {word : ProseWord} (h : proseLength? word s = some n) :
    s.take n ∈ phrase " " * someOf (· ≠ ';') ∨ word ≠ .see ∧ s.take n = [] := by
  rw [proseLength?] at h
  split at h
  · next hrun =>
      cases h
      exact .inl (take_mem_of_proseRun? hrun)
  · split at h
    · cases h
    · next hword =>
        cases h
        exact .inr ⟨fun hsee => hword (by rw [hsee]; rfl), rfl⟩

theorem take_mem_of_prose {word : ProseWord} (h : (prose word).longest? s = some n) :
    s.take n ∈ (prose word).language := by
  rw [longest?] at h
  obtain ⟨rest, hbehind, h⟩ := Option.bind_eq_some_iff.mp h
  obtain ⟨m, hm, rfl⟩ := Option.map_eq_some_iff.mp h
  rw [take_of_behind? hbehind]
  obtain hprose | ⟨hword, hnil⟩ := take_mem_of_proseLength? hm
  · cases word with
    | see =>
        rw [language, mul_assoc]
        exact Language.append_mem_mul rfl hprose
    | implementationDefined | subarchitectureDefined =>
        exact Language.append_mem_mul rfl (.inr hprose)
  · rw [hnil]
    cases word with
    | see => exact absurd rfl hword
    | implementationDefined | subarchitectureDefined =>
        exact Language.append_mem_mul rfl (.inl rfl)

theorem take_mem_of_real (h : real.longest? s = some n) : s.take n ∈ real.language := by
  rw [longest?_real] at h
  obtain ⟨k, hk, h⟩ := Option.bind_eq_some_iff.mp h
  obtain ⟨rest, hbehind, h⟩ := Option.bind_eq_some_iff.mp h
  obtain ⟨m, hm, rfl⟩ := Option.map_eq_some_iff.mp h
  have hsplit : s.take (k + 1 + m) = s.take k ++ '.' :: rest.take m := by
    rw [Nat.add_assoc, List.take_add, behind?_eq_some.mp hbehind, Nat.add_comm 1 m]
    rfl
  rw [hsplit, language, mul_assoc]
  exact Language.append_mem_mul (take_mem_someOf hk)
    (Language.append_mem_mul (a := ['.']) rfl (take_mem_someOf hm))

theorem take_succ_of_head? {c : Char} (h : (s.drop n).head? = some c) :
    s.take (n + 1) = s.take n ++ [c] := by
  rw [List.head?_drop] at h
  rw [List.take_add_one, h]
  rfl

theorem take_mem_of_bitString (h : bitString.longest? s = some n) :
    s.take n ∈ bitString.language := by
  cases s with
  | nil => cases h
  | cons c s =>
      rw [longest?] at h
      split at h
      · next hopen =>
          obtain ⟨k, hk, h⟩ := Option.bind_eq_some_iff.mp h
          split at h
          · next hany =>
              cases h
              obtain ⟨d, hd, hclose⟩ := (Option.any_eq_true _ _).mp hany
              rw [List.take_succ_cons, take_succ_of_head? hd, language, mul_assoc]
              exact Language.append_mem_mul (a := [c]) ⟨c, hopen, rfl⟩
                (Language.append_mem_mul (take_mem_someOf hk) ⟨d, hclose, rfl⟩)
          · cases h
      · cases h

theorem take_mem_of_call (h : call.longest? s = some n) : s.take n ∈ call.language := by
  rw [longest?] at h
  obtain ⟨k, hk, h⟩ := Option.bind_eq_some_iff.mp h
  split at h
  · next hparen =>
      cases h
      rw [take_succ_of_head? hparen]
      exact Language.append_mem_mul (take_mem_of_nameRun? hk) rfl
  · cases h

theorem matches_of_longest? (h : row.longest? s = some n) : row.Matches n s := by
  refine ⟨(of_longest? h).1, ?_⟩
  cases row with
  | fixed spelling kind =>
      rw [longest?_fixed] at h
      obtain ⟨rest, hbehind, rfl⟩ := Option.map_eq_some_iff.mp h
      rw [behind?_eq_some.mp hbehind, List.take_left]
      rfl
  | blanks | decimal => exact take_mem_someOf h
  | lineComment =>
      rw [longest?_lineComment] at h
      obtain ⟨rest, hbehind, rfl⟩ := Option.map_eq_some_iff.mp h
      rw [Nat.add_comm, show 2 = ['/', '/'].length from rfl, take_of_behind? hbehind]
      exact Language.append_mem_mul rfl (mem_kstar_oneOf.mpr fun c hc => mem_of_take_run hc)
  | commentOpening =>
      rw [longest?_commentOpening] at h
      obtain ⟨rest, hbehind, rfl⟩ := Option.map_eq_some_iff.mp h
      rw [behind?_eq_some.mp hbehind]
      rfl
  | prose word => exact take_mem_of_prose h
  | hexadecimal =>
      rw [longest?_hexadecimal] at h
      obtain ⟨rest, hbehind, h⟩ := Option.bind_eq_some_iff.mp h
      obtain ⟨m, hm, rfl⟩ := Option.map_eq_some_iff.mp h
      rw [Nat.add_comm, show 2 = ['0', 'x'].length from rfl, take_of_behind? hbehind]
      exact Language.append_mem_mul rfl (take_mem_someOf hm)
  | real => exact take_mem_of_real h
  | bitString => exact take_mem_of_bitString h
  | name => exact take_mem_of_nameRun? h
  | call => exact take_mem_of_call h

/-! ### No word of the table is longer -/

theorem name_mem_table : name ∈ table := by decide +kernel

theorem text_mem_name (word : ProseWord) :
    word.text.toList ∈ oneOf isNameStart * (oneOf isNameChar)∗ := by
  have hchars : ∀ word : ProseWord, word.text.toList.head?.any isNameStart = true ∧
      word.text.toList.tail.all isNameChar = true := by
    rintro (_ | _ | _) <;> decide
  obtain ⟨hhead, htail⟩ := hchars word
  obtain ⟨c, hc, hstart⟩ := (Option.any_eq_true _ _).mp hhead
  obtain ⟨rest, hrest⟩ := List.head?_eq_some_iff.mp hc
  rw [hrest] at htail ⊢
  exact mem_name.mpr ⟨c, rest, rfl, hstart, List.all_eq_true.mp htail⟩

/-- Where prose would begin and does not, the word in front is an identifier. -/
theorem exists_longest?_prose {word : ProseWord} (h : w ∈ (prose word).language) :
    (∃ m, (prose word).longest? (w ++ z) = some m ∧ w.length ≤ m) ∨
      w ∈ oneOf isNameStart * (oneOf isNameChar)∗ := by
  have hrun : ∀ b ∈ someOf (· ≠ ';'), w = word.text.toList ++ ' ' :: b →
      ∃ m, (prose word).longest? (w ++ z) = some m ∧ w.length ≤ m := by
    rintro b hb rfl
    obtain ⟨m, hm, hle⟩ := exists_digitRun? (z := z) hb
    obtain ⟨hrun, hpos⟩ := of_digitRun? hm
    refine ⟨word.text.toList.length + (m + 1), ?_, ?_⟩
    · rw [longest?, behind?_eq_some.mpr (List.append_assoc ..), Option.bind_some, List.cons_append,
        proseLength?_cons, if_pos rfl, hrun, if_neg (Nat.ne_of_gt hpos)]
      rfl
    · rw [List.length_append, List.length_cons]
      omega
  cases word with
  | see =>
      rw [language, mul_assoc] at h
      obtain ⟨_, rfl, _, hprose, rfl⟩ := Language.mem_mul.mp h
      obtain ⟨_, rfl, b, hb, rfl⟩ := Language.mem_mul.mp hprose
      exact .inl (hrun b hb rfl)
  | implementationDefined | subarchitectureDefined =>
      obtain ⟨_, rfl, _, rfl | hprose, rfl⟩ := Language.mem_mul.mp h
      · rw [List.append_nil]
        exact .inr (text_mem_name _)
      · obtain ⟨_, rfl, b, hb, rfl⟩ := Language.mem_mul.mp hprose
        exact .inl (hrun b hb rfl)

theorem exists_longest?_real (h : w ∈ real.language) :
    ∃ m, real.longest? (w ++ z) = some m ∧ w.length ≤ m := by
  rw [language, mul_assoc] at h
  obtain ⟨a, ha, _, hrest, rfl⟩ := Language.mem_mul.mp h
  obtain ⟨_, rfl, b, hb, rfl⟩ := Language.mem_mul.mp hrest
  have hwhole : a ++ (".".toList ++ b) ++ z = a ++ '.' :: (b ++ z) := List.append_assoc ..
  obtain ⟨m, hm, hle⟩ := exists_digitRun? (z := z) hb
  refine ⟨a.length + 1 + m, ?_, ?_⟩
  · have hpoint : behind? ['.'] ('.' :: (b ++ z)) = some (b ++ z) := rfl
    rw [longest?_real, hwhole, digitRun?_append_cons ha (by decide), Option.bind_some,
      List.drop_left, hpoint, Option.bind_some, hm]
    rfl
  · rw [List.length_append, List.length_append, ← Nat.add_assoc]
    exact Nat.add_le_add_left hle _

theorem longest?_bitString {d : Char} (hopen : isOpeningQuote c = true)
    (hw : w ∈ someOf isBitChar) (hclose : isClosingQuote d = true) :
    bitString.longest? (c :: (w ++ d :: z)) = some (w.length + 2) := by
  have hclosing : isBitChar d = false := by
    have hquote : d = '\u2019' ∨ d = '\'' := by simpa [isClosingQuote] using hclose
    obtain rfl | rfl := hquote <;> decide
  rw [longest?, if_pos hopen, digitRun?_append_cons hw hclosing, Option.bind_some, List.drop_left,
    List.head?_cons, Option.any_some, if_pos hclose]

theorem exists_longest?_bitString (h : w ∈ bitString.language) :
    ∃ m, bitString.longest? (w ++ z) = some m ∧ w.length ≤ m := by
  rw [language, mul_assoc] at h
  obtain ⟨_, ⟨c, hopen, rfl⟩, _, hrest, rfl⟩ := Language.mem_mul.mp h
  obtain ⟨a, ha, _, ⟨d, hclose, rfl⟩, rfl⟩ := Language.mem_mul.mp hrest
  have hwhole : [c] ++ (a ++ [d]) ++ z = c :: (a ++ d :: z) := by simp
  refine ⟨a.length + 2, ?_, by simp⟩
  rw [hwhole, longest?_bitString hopen ha hclose]

theorem exists_longest?_call (h : w ∈ call.language) :
    ∃ m, call.longest? (w ++ z) = some m ∧ w.length ≤ m := by
  obtain ⟨a, ha, _, rfl, rfl⟩ := Language.mem_mul.mp h
  have hwhole : a ++ "(".toList ++ z = a ++ '(' :: z := List.append_assoc ..
  refine ⟨a.length + 1, ?_, by simp⟩
  rw [hwhole, longest?, nameRun?_append_cons ha (by decide), Option.bind_some, List.drop_left,
    List.head?_cons, if_pos rfl]

/-- A word at the start of a text is no longer than what some row of the table matches there: its
own row, but for the words that prose stands behind. -/
theorem exists_longer (hrow : row ∈ table) (h : row.Matches n s) :
    ∃ other ∈ table, ∃ m, other.longest? s = some m ∧ n ≤ m := by
  obtain ⟨w, z, rfl, rfl, hw⟩ := matches_iff.mp h
  cases row with
  | fixed spelling kind =>
      obtain rfl : w = spelling := hw
      exact ⟨_, hrow, w.length, by rw [longest?_fixed, behind?_eq_some.mpr rfl]; rfl, Nat.le_refl _⟩
  | blanks | decimal => exact ⟨_, hrow, exists_digitRun? hw⟩
  | lineComment =>
      obtain ⟨_, rfl, b, hb, rfl⟩ := Language.mem_mul.mp hw
      have hbehind : behind? ['/', '/'] ("//".toList ++ b ++ z) = some (b ++ z) := rfl
      refine ⟨_, hrow, run (· ≠ '\n') (b ++ z) + 2, ?_, ?_⟩
      · rw [longest?_lineComment, hbehind]
        rfl
      · have hle := length_le_run (z := z) (mem_kstar_oneOf.mp hb)
        rw [List.length_append, Nat.add_comm]
        exact Nat.add_le_add_right hle 2
  | commentOpening =>
      obtain rfl : w = ['/', '*'] := hw
      exact ⟨_, hrow, 2, rfl, Nat.le_refl _⟩
  | prose word =>
      obtain hown | hname := exists_longest?_prose hw
      · exact ⟨_, hrow, hown⟩
      · exact ⟨name, name_mem_table, exists_nameRun? hname⟩
  | hexadecimal =>
      obtain ⟨_, rfl, b, hb, rfl⟩ := Language.mem_mul.mp hw
      obtain ⟨m, hm, hle⟩ := exists_digitRun? (z := z) hb
      have hbehind : behind? ['0', 'x'] ("0x".toList ++ b ++ z) = some (b ++ z) := rfl
      refine ⟨_, hrow, m + 2, ?_, ?_⟩
      · rw [longest?_hexadecimal, hbehind, Option.bind_some, hm]
        rfl
      · rw [List.length_append, Nat.add_comm]
        exact Nat.add_le_add_right hle 2
  | real => exact ⟨_, hrow, exists_longest?_real hw⟩
  | bitString => exact ⟨_, hrow, exists_longest?_bitString hw⟩
  | name => exact ⟨_, hrow, exists_nameRun? hw⟩
  | call => exact ⟨_, hrow, exists_longest?_call hw⟩

end Pattern

end ArmPseudocode

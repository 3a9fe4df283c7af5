import ArmPseudocode.Source.LineTable

/-!
# Line numbers and line feeds

The line that holds a byte is one more than the line feeds in front of it. A line feed is one byte
of its value, and no other character of a text has such a byte.
-/

namespace ArmPseudocode.LineTable

variable {c : Char} {s : List Char} {starts : List Nat} {offset o o' : Nat}

def bytes (s : List Char) : List UInt8 :=
  s.flatMap String.utf8EncodeChar

theorem bytes_cons (c : Char) (s : List Char) :
    bytes (c :: s) = String.utf8EncodeChar c ++ bytes s :=
  List.flatMap_cons

theorem reached_cons (start : Nat) (starts : List Nat) (o : Nat) :
    ((start :: starts).takeWhile (· ≤ o)).length =
      if start ≤ o then (starts.takeWhile (· ≤ o)).length + 1 else 0 := by
  rw [List.takeWhile_cons]
  by_cases h : start ≤ o
  · rw [if_pos (decide_eq_true h), if_pos h, List.length_cons]
  · rw [if_neg (by simpa using h), if_neg h, List.length_nil]

theorem lineAt_mono (t : LineTable) (h : o ≤ o') : t.lineAt o ≤ t.lineAt o' := by
  obtain ⟨starts⟩ := t
  show (starts.takeWhile _).length ≤ (starts.takeWhile _).length
  induction starts with
  | nil => exact Nat.le_refl _
  | cons start starts ih =>
      rw [reached_cons, reached_cons]
      split
      · next hstart =>
          rw [if_pos (Nat.le_trans hstart h)]
          exact Nat.succ_le_succ ih
      · exact Nat.zero_le _

/-! ### Line feeds -/

theorem utf8EncodeChar_lineFeed : String.utf8EncodeChar '\n' = [10] := by decide

theorem lineFeed_not_mem (h : c ≠ '\n') : (10 : UInt8) ∉ String.utf8EncodeChar c := by
  have hval : c.val.toNat ≠ 10 := fun heq => h (Char.ext (UInt32.toNat_inj.mp heq))
  have hbyte : ∀ n, n % 256 ≠ 10 → (10 : UInt8) ≠ UInt8.ofNat n := by
    intro n hn heq
    have hnat := congrArg UInt8.toNat heq
    rw [UInt8.toNat_ofNat'] at hnat
    exact hn hnat.symm
  rw [String.utf8EncodeChar]
  split
  · rw [List.mem_singleton]
    exact hbyte _ (by omega)
  · split
    · simp only [List.mem_cons, List.not_mem_nil, or_false, not_or]
      exact ⟨hbyte _ (by omega), hbyte _ (by omega)⟩
    · split
      · simp only [List.mem_cons, List.not_mem_nil, or_false, not_or]
        exact ⟨hbyte _ (by omega), hbyte _ (by omega), hbyte _ (by omega)⟩
      · simp only [List.mem_cons, List.not_mem_nil, or_false, not_or]
        exact ⟨hbyte _ (by omega), hbyte _ (by omega), hbyte _ (by omega), hbyte _ (by omega)⟩

/-- A line starts behind a line feed, so no line starts where the text does. -/
theorem lt_of_mem_startsFrom {start : Nat} (h : start ∈ startsFrom offset s) : offset < start := by
  induction s generalizing offset with
  | nil => nomatch h
  | cons c s ih =>
      have hsize := c.utf8Size_pos
      rw [startsFrom] at h
      split at h
      · obtain rfl | h := List.mem_cons.mp h
        · exact Nat.lt_add_of_pos_right hsize
        · exact Nat.lt_trans (Nat.lt_add_of_pos_right hsize) (ih h)
      · exact Nat.lt_trans (Nat.lt_add_of_pos_right hsize) (ih h)

theorem reached_eq_zero (h : ∀ start ∈ starts, o < start) :
    (starts.takeWhile (· ≤ o)).length = 0 := by
  cases starts with
  | nil => rfl
  | cons start starts =>
      rw [reached_cons, if_neg (Nat.not_le_of_lt (h start List.mem_cons_self))]

/-- The lines that start behind the beginning of a text and not behind a byte are as many as the
line feeds in front of the byte. -/
theorem reached_startsFrom (offset o : Nat) (s : List Char) :
    ((startsFrom offset s).takeWhile (· ≤ offset + o)).length = ((bytes s).take o).count 10 := by
  induction s generalizing offset o with
  | nil => rw [startsFrom, bytes, List.flatMap_nil, List.take_nil]; rfl
  | cons c s ih =>
      rw [startsFrom, bytes_cons, List.take_append, List.count_append]
      by_cases hc : c = '\n'
      · subst hc
        rw [if_pos rfl, utf8EncodeChar_lineFeed]
        cases o with
        | zero =>
            rw [reached_eq_zero]
            · rfl
            · refine List.forall_mem_cons.mpr ⟨Nat.lt_succ_self _, fun start hstart => ?_⟩
              exact Nat.lt_trans (Nat.lt_succ_self _) (lt_of_mem_startsFrom hstart)
        | succ o =>
            have hrest := ih (offset + 1) o
            rw [Nat.add_right_comm, Nat.add_assoc] at hrest
            rw [reached_cons, if_pos (by show offset + 1 ≤ _; omega)]
            show ((startsFrom (offset + 1) s).takeWhile _).length + 1 = _
            rw [hrest, Nat.add_comm]
            simp
      · have hnone : (((String.utf8EncodeChar c).take o).count 10) = 0 :=
          List.count_eq_zero.mpr fun h => lineFeed_not_mem hc (List.mem_of_mem_take h)
        rw [if_neg hc, hnone, Nat.zero_add, String.length_utf8EncodeChar]
        by_cases ho : c.utf8Size ≤ o
        · rw [← ih (offset + c.utf8Size), Nat.add_assoc, Nat.add_sub_cancel' ho]
        · rw [Nat.sub_eq_zero_of_le (by omega), List.take_zero, List.count_nil, reached_eq_zero]
          intro start hstart
          have hlt := lt_of_mem_startsFrom hstart
          omega

/-- The line that holds a byte of a text is one more than the line feeds in front of it. -/
theorem lineAt_ofText (s : List Char) (o : Nat) :
    (ofText s).lineAt o = 1 + ((bytes s).take o).count 10 := by
  rw [← reached_startsFrom 0 o s, Nat.zero_add, ofText, lineAt, reached_cons,
    if_pos (Nat.zero_le _), Nat.add_comm]

end ArmPseudocode.LineTable

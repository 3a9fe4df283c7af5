import ArmPseudocode.Proofs.Parser.Steps

/-!
# Rounds of a list of statements

A list of statements goes round by round: a round reads a statement, or reports that it cannot and
recovers from it, and then the list goes on from there, unless it stops. Recovery only goes forward,
and passes a token if the statement has not passed one.
-/

namespace ArmPseudocode.ParseStmt

variable {lines : LineTable} {c c' : Cursor} {q : DiagnosticQueue} {state : ParserState}
  {stmt : ParseStmt (Stmt Span)} {ends : TokenKind → Bool} {bound : Nat}

/-! ### Recovery -/

theorem reaches_skipTokens (before : List Token) (here : Token) (after : List Token) :
    Cursor.Reaches ⟨before, here, after⟩ (skipTokens before here after) := by
  induction after generalizing before here with
  | nil => exact .refl _
  | cons next after ih =>
      have hstep : Cursor.Reaches ⟨before, here, next :: after⟩ ⟨here :: before, next, after⟩ :=
        ⟨[here.kind], [here], rfl, rfl, rfl⟩
      unfold skipTokens
      split
      · exact .refl _
      · exact .refl _
      · exact .refl _
      · exact hstep
      · split
        · exact .refl _
        · exact hstep.trans (ih _ _)

theorem reaches_recover (start : Nat) (c : Cursor) : c.Reaches (recover start c) := by
  rw [recover]
  split
  · dsimp only
    split
    · exact c.reaches_advance
    · exact c.reaches_advance
    · exact c.reaches_advance
    · exact c.reaches_advance.trans (reaches_skipTokens _ _ _)
  · exact reaches_skipTokens _ _ _

/-- Recovery passes a token of a failed statement at least. -/
theorem recover_consumes (hc : c.Terminated) (hkind : c.kind ≠ .eof) (hreaches : c.Reaches c') :
    (recover c.position c').kinds.length + 1 ≤ c.kinds.length := by
  obtain ⟨ks, hpass⟩ := hreaches
  have hposition := hpass.position
  have hlength := hpass.length
  cases ks with
  | nil =>
      have hkind' : c'.kind ≠ .eof := fun heof => hkind (hpass.kind_eq.trans heof)
      have hmoved : c'.advance.Reaches (recover c.position c') := by
        rw [recover, if_pos (by simpa [hposition, Cursor.atEnd] using hkind')]
        dsimp only
        split
        · exact .refl _
        · exact .refl _
        · exact .refl _
        · exact reaches_skipTokens _ _ _
      have hadvance := (Cursor.passes_advance (hpass.terminated hc) hkind').length
      have hle := hmoved.length_le
      rw [List.length_singleton] at hadvance
      rw [List.length_nil] at hlength
      omega
  | cons k ks =>
      have hle := (reaches_recover c.position c').length_le
      rw [List.length_cons] at hlength
      omega

/-! ### Rounds -/

/-- The statement that one round of a list reads, if it reads one. -/
def readOne (stmt : ParseStmt (Stmt Span)) (state : ParserState) : List (Stmt Span) :=
  match stmt state with
  | .ok s _ => [s]
  | .error _ _ => []

/-- The state behind one round of a list: where the statement ends, or where recovery from it ends,
its failure reported. -/
def afterOne (lines : LineTable) (stmt : ParseStmt (Stmt Span)) (state : ParserState) :
    ParserState :=
  match stmt state with
  | .ok _ next => next
  | .error d failed =>
    { cursor := recover state.cursor.position failed.cursor
      queue := failed.queue.report lines d }

/-- Whether a list goes no further: at the end of the text, at a token that ends it, or at the error
limit. -/
def stops (ends : TokenKind → Bool) (state : ParserState) : Bool :=
  state.cursor.atEnd || ends state.cursor.kind || state.queue.limitReached

theorem atEnd_of_not_stops (h : ¬stops ends state = true) : state.cursor.atEnd = false := by
  simp only [stops, Bool.or_eq_true, not_or, Bool.not_eq_true] at h
  exact h.1.1

theorem stops_of_kind (h : c.kind = .eof ∨ ends c.kind = true) : stops ends ⟨c, q⟩ = true := by
  obtain hend | hend := h <;> simp [stops, Cursor.atEnd, hend]

theorem stops_eq_false (h : ¬(c.kind = .eof ∨ ends c.kind = true)) (hq : q.limitReached = false) :
    stops ends ⟨c, q⟩ = false := by
  simpa [stops, Cursor.atEnd, hq] using h

theorem list_succ (lines : LineTable) (stmt : ParseStmt (Stmt Span)) (ends : TokenKind → Bool)
    (bound : Nat) (state : ParserState) :
    list lines stmt ends (bound + 1) state =
      if stops ends state then ([], state)
      else (readOne stmt state ++ (list lines stmt ends bound (afterOne lines stmt state)).1,
        (list lines stmt ends bound (afterOne lines stmt state)).2) := by
  rw [list, readOne, afterOne, stops]
  split
  · rfl
  · cases stmt state <;> rfl

theorem list_of_stops (h : stops ends state = true) :
    list lines stmt ends bound state = ([], state) := by
  cases bound with
  | zero => rfl
  | succ bound => rw [list_succ, if_pos h]

theorem list_of_ok {s : Stmt Span} {next : ParserState} (hgoes : stops ends state = false)
    (hrun : stmt state = .ok s next) :
    list lines stmt ends (bound + 1) state =
      (s :: (list lines stmt ends bound next).1, (list lines stmt ends bound next).2) := by
  rw [list_succ, if_neg (Bool.eq_false_iff.mp hgoes), readOne, afterOne, hrun]
  rfl

theorem list_of_error {e : Diagnostic} {failed : ParserState} (hgoes : stops ends state = false)
    (hrun : stmt state = .error e failed) :
    list lines stmt ends (bound + 1) state = list lines stmt ends bound
      ⟨recover state.cursor.position failed.cursor, failed.queue.report lines e⟩ := by
  rw [list_succ, if_neg (Bool.eq_false_iff.mp hgoes), readOne, afterOne, hrun]
  rfl

end ArmPseudocode.ParseStmt

import ArmPseudocode.Parser.Stmt

/-!
# Steps on a cursor

What a parsing step does to its cursor. The tokens in front of a cursor end with the end of the
text, and moving on passes tokens from the front to the back without losing any, so a step that
succeeds has read exactly the tokens between two cursors. A step that fails has moved on as well,
only not to a result.
-/

namespace ArmPseudocode

namespace Cursor

def remaining (c : Cursor) : List Token :=
  c.here :: c.after

def kinds (c : Cursor) : List TokenKind :=
  c.remaining.map (·.kind)

/-- The tokens end with the end of the text. -/
def Terminated (c : Cursor) : Prop :=
  c.kinds.getLast? = some .eof

/-- Moving from one cursor to the other passes tokens of these kinds. -/
def Passes (c : Cursor) (kinds : List TokenKind) (c' : Cursor) : Prop :=
  ∃ passed : List Token, passed.map (·.kind) = kinds ∧ c'.before = passed.reverse ++ c.before ∧
    c.remaining = passed ++ c'.remaining

def Reaches (c c' : Cursor) : Prop :=
  ∃ kinds, c.Passes kinds c'

variable {c c' c'' : Cursor} {ks ks' : List TokenKind} {k : TokenKind}

theorem kinds_eq (c : Cursor) : c.kinds = c.kind :: c.after.map (·.kind) := rfl

theorem kinds_ne_nil (c : Cursor) : c.kinds ≠ [] := by
  rw [kinds_eq]
  exact List.cons_ne_nil _ _

theorem length_kinds (c : Cursor) : c.kinds.length = c.after.length + 1 := by
  simp [kinds_eq]

/-- There is always a token in front, at the latest the end of the text. -/
theorem length_kinds_pos (c : Cursor) : 0 < c.kinds.length := by
  rw [length_kinds]
  exact Nat.succ_pos _

theorem not_length_le_zero (c : Cursor) : ¬c.kinds.length ≤ 0 := Nat.not_le_of_gt c.length_kinds_pos

theorem exists_eq_succ {bound : Nat} (h : c.kinds.length ≤ bound) :
    ∃ fewer, bound = fewer + 1 := by
  cases bound with
  | zero => exact absurd h c.not_length_le_zero
  | succ fewer => exact ⟨fewer, rfl⟩

theorem after_eq_nil (h : c.kinds.length ≤ 1) : c.after = [] := by
  rw [length_kinds] at h
  exact List.eq_nil_of_length_eq_zero (by omega)

theorem Terminated.kind_eq_eof (hc : c.Terminated) (hafter : c.after = []) : c.kind = .eof := by
  rw [Terminated, kinds_eq, hafter] at hc
  exact Option.some.inj hc

theorem kind_eq_of_kinds {rest : List TokenKind} (h : c.kinds = k :: rest) : c.kind = k := by
  rw [kinds_eq] at h
  exact (List.cons.inj h).1

theorem Passes.refl (c : Cursor) : c.Passes [] c := ⟨[], rfl, rfl, rfl⟩

theorem Passes.trans (h : c.Passes ks c') (h' : c'.Passes ks' c'') : c.Passes (ks ++ ks') c'' := by
  obtain ⟨first, rfl, hbefore, hremaining⟩ := h
  obtain ⟨second, rfl, hbefore', hremaining'⟩ := h'
  refine ⟨first ++ second, List.map_append, ?_, ?_⟩
  · rw [hbefore', hbefore, List.reverse_append, List.append_assoc]
  · rw [hremaining, hremaining', List.append_assoc]

theorem Passes.kinds_eq (h : c.Passes ks c') : c.kinds = ks ++ c'.kinds := by
  obtain ⟨passed, rfl, -, hremaining⟩ := h
  rw [kinds, hremaining, List.map_append, kinds]

/-- The first of the tokens passed stood here, or nothing was passed. -/
theorem Passes.kind_eq (h : c.Passes ks c') : c.kind = ks.headD c'.kind := by
  have hkinds := h.kinds_eq
  cases ks with
  | nil => exact kind_eq_of_kinds (hkinds.trans c'.kinds_eq)
  | cons k ks => exact kind_eq_of_kinds hkinds

theorem Passes.length (h : c.Passes ks c') : c.kinds.length = ks.length + c'.kinds.length := by
  rw [h.kinds_eq, List.length_append]

theorem Passes.position (h : c.Passes ks c') : c'.position = c.position + ks.length := by
  obtain ⟨passed, rfl, hbefore, -⟩ := h
  rw [position, hbefore, List.length_append, List.length_reverse, List.length_map, position,
    Nat.add_comm]

theorem Passes.terminated (h : c.Passes ks c') (hc : c.Terminated) : c'.Terminated := by
  have hlast := List.getLast?_eq_some_getLast c'.kinds_ne_nil
  rw [Terminated, h.kinds_eq, List.getLast?_append, hlast, Option.some_or] at hc
  rw [Terminated, hlast, hc]

theorem Passes.reaches (h : c.Passes ks c') : c.Reaches c' := ⟨ks, h⟩

theorem Reaches.refl (c : Cursor) : c.Reaches c := (Passes.refl c).reaches

theorem Reaches.trans (h : c.Reaches c') (h' : c'.Reaches c'') : c.Reaches c'' := by
  obtain ⟨ks, h⟩ := h
  obtain ⟨ks', h'⟩ := h'
  exact (h.trans h').reaches

theorem Reaches.terminated (h : c.Reaches c') (hc : c.Terminated) : c'.Terminated := by
  obtain ⟨ks, h⟩ := h
  exact h.terminated hc

theorem Reaches.length_le (h : c.Reaches c') : c'.kinds.length ≤ c.kinds.length := by
  obtain ⟨ks, h⟩ := h
  rw [h.length]
  exact Nat.le_add_left _ _

theorem Reaches.subset (h : c.Reaches c') : c'.remaining ⊆ c.remaining := by
  obtain ⟨_, passed, -, -, hremaining⟩ := h
  rw [hremaining]
  exact List.subset_append_right _ _

theorem remaining_atStart (s : TokenStream) : (atStart s).remaining = s.toList := by
  unfold atStart
  split
  · next hempty => rw [remaining, TokenStream.toList, hempty, List.nil_append]
  · next htokens => rw [remaining, TokenStream.toList, htokens, List.cons_append]

/-! ### One token on -/

theorem advance_eq {token : Token} {rest : List Token} (hafter : c.after = token :: rest)
    (hkind : c.kind ≠ .eof) : c.advance = ⟨c.here :: c.before, token, rest⟩ := by
  have hend : c.atEnd = false := by simpa [atEnd] using hkind
  simp [advance, hafter, hend]

theorem passes_advance (hc : c.Terminated) (hkind : c.kind ≠ .eof) :
    c.Passes [c.kind] c.advance := by
  cases hafter : c.after with
  | nil => exact absurd (hc.kind_eq_eof hafter) hkind
  | cons token rest =>
      rw [advance_eq hafter hkind]
      exact ⟨[c.here], rfl, rfl, by simp [remaining, hafter]⟩

theorem passes_of_kind (hc : c.Terminated) (hkind : c.kind = k) (hk : k ≠ .eof) :
    c.Passes [k] c.advance := by
  rw [← hkind] at hk ⊢
  exact passes_advance hc hk

theorem passes_word {word : FixedToken} (hc : c.Terminated) (hkind : c.kind = .fixed word) :
    c.Passes [.fixed word] c.advance ∧ c.kinds.length = 1 + c.advance.kinds.length := by
  have hpass := passes_of_kind hc hkind nofun
  exact ⟨hpass, hpass.length⟩

theorem kind_advance (hc : c.Terminated) (hkind : c.kind ≠ .eof) :
    c.advance.kind = c.nextKind := by
  cases hafter : c.after with
  | nil => exact absurd (hc.kind_eq_eof hafter) hkind
  | cons token rest =>
      rw [advance_eq hafter hkind, nextKind, hafter]
      rfl

theorem reaches_advance (c : Cursor) : c.Reaches c.advance := by
  cases hafter : c.after with
  | nil =>
      have hstay : c.advance = c := by simp [advance, hafter]
      rw [hstay]
      exact .refl c
  | cons token rest =>
      by_cases hend : c.atEnd
      · have hstay : c.advance = c := by simp [advance, hafter, hend]
        rw [hstay]
        exact .refl c
      · have hkind : c.kind ≠ .eof := by simpa [atEnd] using hend
        rw [advance_eq hafter hkind]
        exact ⟨[c.kind], [c.here], rfl, rfl, by simp [remaining, hafter]⟩

/-- With something behind it, a token other than the end can be consumed. -/
theorem kinds_advance {rest : List TokenKind} (h : c.kinds = k :: rest) (hk : k ≠ .eof)
    (hrest : rest ≠ []) : c.advance.kinds = rest := by
  rw [Cursor.kinds_eq] at h
  obtain ⟨hkind, hafter⟩ := List.cons.inj h
  cases hc : c.after with
  | nil =>
      rw [hc] at hafter
      exact absurd hafter.symm hrest
  | cons token tokens =>
      rw [advance_eq hc (hkind ▸ hk), Cursor.kinds_eq, ← hafter, hc]
      rfl

theorem kinds_atStart (s : TokenStream) :
    (atStart s).kinds = s.tokens.map (·.kind) ++ [.eof] := by
  unfold atStart
  split
  · next hempty => simp [kinds, remaining, hempty, TokenStream.endToken]
  · next htokens => simp [kinds, remaining, htokens, TokenStream.endToken]

theorem terminated_atStart (s : TokenStream) : (atStart s).Terminated := by
  rw [Terminated, kinds_atStart]
  exact List.getLast?_concat

end Cursor

/-! ### Steps in sequence -/

section Sequence

variable {ε σ β γ : Type} {step : EStateM ε σ β} {next : β → EStateM ε σ γ} {s s' : σ}

theorem of_bind_eq_ok {d : γ} (h : (step >>= next) s = .ok d s') :
    ∃ b mid, step s = .ok b mid ∧ next b mid = .ok d s' := by
  change EStateM.bind step next s = _ at h
  unfold EStateM.bind at h
  cases hstep : step s with
  | ok b mid =>
      rw [hstep] at h
      exact ⟨b, mid, rfl, h⟩
  | error e mid =>
      rw [hstep] at h
      nomatch h

theorem bind_of_eq_ok {b : β} (h : step s = .ok b s') : (step >>= next) s = next b s' := by
  change EStateM.bind step next s = _
  rw [EStateM.bind, h]

theorem bind_of_eq_error {e : ε} (h : step s = .error e s') :
    (step >>= next) s = .error e s' := by
  change EStateM.bind step next s = _
  rw [EStateM.bind, h]

theorem of_bind_eq_error {e : ε} (h : (step >>= next) s = .error e s') :
    step s = .error e s' ∨ ∃ b mid, step s = .ok b mid ∧ next b mid = .error e s' := by
  cases hstep : step s with
  | ok b mid =>
      rw [bind_of_eq_ok hstep] at h
      exact .inr ⟨b, mid, rfl, h⟩
  | error e' mid =>
      rw [bind_of_eq_error hstep] at h
      cases h
      exact .inl rfl

theorem of_pure_eq_ok {b b' : β} (h : (pure b : EStateM ε σ β) s = .ok b' s') :
    b = b' ∧ s = s' := by
  cases h
  exact ⟨rfl, rfl⟩

def stateAfter : EStateM.Result ε σ β → σ
  | .ok _ s => s
  | .error _ s => s

/-- What holds where the first step ended holds at the end if the second step keeps it. -/
theorem stateAfter_bind {P : σ → Prop} (hstep : P (stateAfter (step s)))
    (hnext : ∀ b mid, step s = .ok b mid → P mid → P (stateAfter (next b mid))) :
    P (stateAfter ((step >>= next) s)) := by
  cases hrun : step s with
  | ok b mid =>
      rw [hrun] at hstep
      rw [bind_of_eq_ok hrun]
      exact hnext b mid hrun hstep
  | error e mid =>
      rw [hrun] at hstep
      rwa [bind_of_eq_error hrun]

end Sequence

namespace Parse

variable {β γ : Type} {c c' : Cursor}

theorem kind_run (c : Cursor) : kind c = .ok c.kind c := rfl

theorem nextKind_run (c : Cursor) : nextKind c = .ok c.nextKind c := rfl

theorem span_run (c : Cursor) : span c = .ok c.here.span c := rfl

theorem advance_run (c : Cursor) : advance c = .ok c.here.span c.advance := rfl

theorem isAt_run (token : FixedToken) (c : Cursor) :
    isAt token c = .ok (decide (c.kind = .fixed token)) c := rfl

theorem spanFrom_run (start : Span) (c : Cursor) :
    spanFrom start c = .ok (start.merge c.lastSpan) c := rfl

theorem eat_run (token : FixedToken) (c : Cursor) :
    eat token c = if c.kind = .fixed token then .ok true c.advance else .ok false c := by
  rw [eat, bind_of_eq_ok (isAt_run token c)]
  by_cases h : c.kind = .fixed token
  · simp only [h, decide_true, if_true]
    exact bind_of_eq_ok (advance_run c)
  · simp only [h, decide_false, Bool.false_eq_true, if_false]
    rfl

theorem eat_of_kind {token : FixedToken} (h : c.kind = .fixed token) :
    eat token c = .ok true c.advance := by
  rw [eat_run, if_pos h]

theorem eat_of_kind_ne {token : FixedToken} (h : c.kind ≠ .fixed token) :
    eat token c = .ok false c := by
  rw [eat_run, if_neg h]

theorem expectKind_run (wanted : TokenKind) (c : Cursor) :
    expectKind wanted c =
      if c.kind = wanted then .ok c.here.span c.advance
      else .error (.unexpectedToken c.here.span wanted.describe c.kind.found) c := by
  rw [expectKind, bind_of_eq_ok (kind_run c)]
  split <;> rfl

theorem expectKind_of_kind {wanted : TokenKind} (h : c.kind = wanted) :
    expectKind wanted c = .ok c.here.span c.advance := by
  rw [expectKind_run, if_pos h]

theorem expect_of_kind {token : FixedToken} (h : c.kind = .fixed token) :
    expect token c = .ok c.here.span c.advance := expectKind_of_kind h

theorem expectName_of_kind {id : String} (h : c.kind = .name id) :
    expectName c = .ok id c.advance := by
  rw [expectName, bind_of_eq_ok (kind_run c), h]
  rfl

theorem close_of_kind {opened : Span} {delimiter : Char} {token : FixedToken}
    (h : c.kind = .fixed token) : close opened delimiter token c = .ok () c.advance := by
  rw [close, bind_of_eq_ok (eat_of_kind h)]
  rfl

/-! ### What a successful step has read -/

theorem of_expectKind {wanted : TokenKind} {span : Span} (hc : c.Terminated)
    (hwanted : wanted ≠ .eof) (h : expectKind wanted c = .ok span c') : c.Passes [wanted] c' := by
  rw [expectKind_run] at h
  split at h
  · next hkind =>
      cases h
      rw [← hkind] at hwanted ⊢
      exact Cursor.passes_advance hc hwanted
  · nomatch h

theorem of_expect {token : FixedToken} {span : Span} (hc : c.Terminated)
    (h : expect token c = .ok span c') : c.Passes [.fixed token] c' :=
  of_expectKind hc (by nofun) h

theorem of_expectName {id : String} (hc : c.Terminated) (h : expectName c = .ok id c') :
    c.Passes [.name id] c' := by
  rw [expectName, bind_of_eq_ok (kind_run c)] at h
  generalize hkind : c.kind = kind at h
  split at h
  · cases h
    rw [← hkind]
    exact Cursor.passes_advance hc (by rw [hkind]; nofun)
  · nomatch h

theorem of_eat_true {token : FixedToken} (hc : c.Terminated) (h : eat token c = .ok true c') :
    c.Passes [.fixed token] c' := by
  rw [eat_run] at h
  split at h
  · next hkind =>
      cases h
      rw [← hkind]
      exact Cursor.passes_advance hc (by rw [hkind]; nofun)
  · nomatch h

theorem of_eat_false {token : FixedToken} (h : eat token c = .ok false c') :
    c = c' ∧ c.kind ≠ .fixed token := by
  rw [eat_run] at h
  split at h
  · nomatch h
  · next hkind =>
      cases h
      exact ⟨rfl, hkind⟩

theorem of_close {opened : Span} {delimiter : Char} {token : FixedToken} (hc : c.Terminated)
    (h : close opened delimiter token c = .ok () c') : c.Passes [.fixed token] c' := by
  rw [close] at h
  obtain ⟨found, mid, heat, h⟩ := of_bind_eq_ok h
  cases found with
  | true =>
      cases h
      exact of_eat_true hc heat
  | false => nomatch h

end Parse

/-! ### Steps on the cursor alone -/

namespace ParseStmt

variable {β : Type} {step : Parse β} {c c' : Cursor} {q : DiagnosticQueue}

theorem lift_of_eq_ok {b : β} (h : step c = .ok b c') :
    (liftM step : ParseStmt β) ⟨c, q⟩ = .ok b ⟨c', q⟩ := by
  change onCursor step ⟨c, q⟩ = _
  rw [onCursor, h]

theorem lift_of_eq_error {d : Diagnostic} (h : step c = .error d c') :
    (liftM step : ParseStmt β) ⟨c, q⟩ = .error d ⟨c', q⟩ := by
  change onCursor step ⟨c, q⟩ = _
  rw [onCursor, h]

theorem stateAfter_lift (step : Parse β) (c : Cursor) (q : DiagnosticQueue) :
    stateAfter ((liftM step : ParseStmt β) ⟨c, q⟩) = ⟨stateAfter (step c), q⟩ := by
  cases h : step c with
  | ok b c' => rw [lift_of_eq_ok h, stateAfter, stateAfter]
  | error d c' => rw [lift_of_eq_error h, stateAfter, stateAfter]

end ParseStmt

end ArmPseudocode

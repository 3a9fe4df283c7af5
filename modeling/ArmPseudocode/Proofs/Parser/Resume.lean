import ArmPseudocode.Proofs.Parser.Levels
import ArmPseudocode.Proofs.Parser.Recognition
import ArmPseudocode.Proofs.Parser.Sequence

/-!
# Reading goes on behind a broken statement

A statement that begins with no word of its own consists of tokens of expressions up to its
semicolon, and reading it passes no other, whether it succeeds or breaks off. So recovery from it,
wherever it broke off, finds that semicolon and ends behind it. In front of it a list has read the
statements that are spelled there, and behind it goes on as if nothing had been.
-/

namespace ArmPseudocode

/-- Whether recovery goes no further than the token, or only behind it. -/
def TokenKind.stopsRecovery (kind : TokenKind) : Bool :=
  kind = .eof || kind = .indent || kind = .unindent || kind = .fixed .semicolon ||
    kind.startsStatement

namespace ParseStmt

variable {β γ : Type} {lines : LineTable} {c d : Cursor} {bound : Nat} {q : DiagnosticQueue}
  {k : TokenKind} {ks skipped tail : List TokenKind}

/-! ### Recovery -/

theorem skipTokens_semicolon {before after : List Token} {here next : Token}
    (hkind : here.kind = .fixed .semicolon) :
    skipTokens before here (next :: after) = ⟨here :: before, next, after⟩ := by
  rw [skipTokens, hkind]

theorem skipTokens_of_not_stops {before after : List Token} {here next : Token}
    (hkind : here.kind.stopsRecovery = false) :
    skipTokens before here (next :: after) = skipTokens (here :: before) next after := by
  rw [skipTokens]
  generalize here.kind = kind at hkind ⊢
  have hstarts : kind.startsStatement = false := by
    rw [TokenKind.stopsRecovery, Bool.or_eq_false_iff] at hkind
    exact hkind.2
  cases kind with
  | indent | unindent | eof => cases hkind
  | fixed word =>
      cases word with
      | semicolon => cases hkind
      | _ => dsimp only; rw [if_neg (by simpa using hstarts)]
  | _ => dsimp only; rw [if_neg (by simpa using hstarts)]

/-- Skipping ends behind the first semicolon if nothing in front of it stops recovery. -/
theorem kinds_skipTokens {before after : List Token} {here : Token}
    (hskipped : ∀ k ∈ skipped, k.stopsRecovery = false) (htail : tail ≠ [])
    (hkinds : here.kind :: after.map (·.kind) = skipped ++ .fixed .semicolon :: tail) :
    (skipTokens before here after).kinds = tail := by
  induction skipped generalizing before here after with
  | nil =>
      obtain ⟨hkind, hafter⟩ := List.cons.inj hkinds
      cases after with
      | nil => exact absurd hafter.symm htail
      | cons next after =>
          rw [skipTokens_semicolon hkind, ← hafter]
          rfl
  | cons k skipped ih =>
      obtain ⟨rfl, hafter⟩ := List.cons.inj hkinds
      rw [List.forall_mem_cons] at hskipped
      cases after with
      | nil => simp at hafter
      | cons next after =>
          rw [skipTokens_of_not_stops hskipped.1]
          exact ih hskipped.2 hafter

/-- What does not contain a semicolon goes no further than the first one. -/
theorem split_of_not_mem {behind : List TokenKind}
    (hsplit : ks ++ behind = skipped ++ .fixed .semicolon :: tail) (hks : .fixed .semicolon ∉ ks) :
    ∃ rest, skipped = ks ++ rest ∧ behind = rest ++ .fixed .semicolon :: tail := by
  obtain ⟨rest, hskipped, hbehind⟩ | ⟨more, hmore, hbehind⟩ := List.append_eq_append_iff.mp hsplit
  · exact ⟨rest, hskipped, hbehind⟩
  · cases more with
    | nil => exact ⟨[], by rw [hmore, List.append_nil, List.append_nil], hbehind.symm⟩
    | cons k more =>
        refine absurd ?_ hks
        rw [hmore, ← (List.cons.inj hbehind).1]
        exact List.mem_append_right _ List.mem_cons_self

/-- Recovery from a statement that broke off in front of a semicolon ends behind the semicolon, also
if the statement had not passed anything. -/
theorem kinds_recover (hkinds : c.kinds = skipped ++ .fixed .semicolon :: tail)
    (hne : skipped ≠ []) (hskipped : ∀ k ∈ skipped, k.stopsRecovery = false) (htail : tail ≠ [])
    (hpass : c.Passes ks d) (hks : .fixed .semicolon ∉ ks) :
    (recover c.position d).kinds = tail := by
  obtain ⟨rest, rfl, hd⟩ := split_of_not_mem (hpass.kinds_eq.symm.trans hkinds) hks
  have hrest : ∀ k ∈ rest, k.stopsRecovery = false :=
    fun k hk => hskipped k (List.mem_append_right _ hk)
  rw [recover]
  split
  · next hstays =>
    have hposition := hpass.position
    simp only [Bool.and_eq_true, decide_eq_true_eq] at hstays
    have hnil : ks = [] := List.eq_nil_of_length_eq_zero (by omega)
    cases rest with
    | nil => exact absurd (by rw [hnil, List.append_nil]) hne
    | cons k rest =>
        rw [List.forall_mem_cons] at hrest
        have hkind : d.kind.stopsRecovery = false := by
          rw [Cursor.kind_eq_of_kinds hd]
          exact hrest.1
        have hmoved : d.advance.kinds = rest ++ .fixed .semicolon :: tail := by
          refine Cursor.kinds_advance hd ?_ (by simp)
          rintro rfl
          cases hrest.1
        have hskip : (skipTokens d.advance.before d.advance.here d.advance.after).kinds = tail :=
          kinds_skipTokens hrest.2 htail hmoved
        generalize d.kind = kind at hkind ⊢
        cases kind with
        | indent | unindent => cases hkind
        | fixed word =>
            cases word with
            | semicolon => cases hkind
            | _ => exact hskip
        | _ => exact hskip
  · exact kinds_skipTokens hrest htail hd

/-! ### Statements without a word of their own -/

/-- The only semicolon that has been passed is the last token, and it has been passed if and only if
the step succeeded. Nothing was reported on the way. -/
def EndsAtSemicolon (c : Cursor) (q : DiagnosticQueue) :
    EStateM.Result Diagnostic ParserState β → Prop
  | .ok _ s => s.queue = q ∧
      ∃ ks, .fixed .semicolon ∉ ks ∧ c.Passes (ks ++ [.fixed .semicolon]) s.cursor
  | .error _ s => s.queue = q ∧ ∃ ks, .fixed .semicolon ∉ ks ∧ c.Passes ks s.cursor

def PassesNone (p : Parse β) (c : Cursor) : Prop :=
  ∃ ks, .fixed .semicolon ∉ ks ∧ c.Passes ks (stateAfter (p c))

theorem passesNone_expr (hc : c.Terminated) (hbound : c.kinds.length ≤ bound) :
    PassesNone (Parse.expr bound) c := by
  obtain ⟨ks, hpass, hks⟩ :=
    (Parse.exprAt_agrees false BinaryOp.loosest hbound hbound c hc (Nat.le_refl _)).inside
  refine ⟨ks, fun hmem => ?_, hpass⟩
  cases hks _ hmem

theorem passesNone_eat {token : FixedToken} (hc : c.Terminated) (htoken : token ≠ .semicolon) :
    PassesNone (Parse.eat token) c := by
  rw [PassesNone, Parse.eat_run]
  split
  · next hkind =>
    refine ⟨[c.kind], ?_, Cursor.passes_advance hc (by simp [hkind])⟩
    rw [hkind, List.mem_singleton, TokenKind.fixed.injEq]
    exact htoken.symm
  · exact ⟨[], List.not_mem_nil, .refl c⟩

theorem form_of_not_stops (lines : LineTable) (stmt : ParseStmt (Stmt Span))
    (hkind : c.kind.stopsRecovery = false) :
    form lines stmt bound ⟨c, q⟩ = simple bound ⟨c, q⟩ := by
  rw [form, bind_of_eq_ok (lift_of_eq_ok (Parse.kind_run c))]
  generalize c.kind = kind at hkind
  cases kind with
  | unindent | prose => cases hkind
  | fixed word => cases word <;> first | rfl | cases hkind
  | _ => rfl

namespace EndsAtSemicolon

theorem lift_bind {p : Parse β} {next : β → ParseStmt γ} (h : PassesNone p c)
    (hnext : ∀ b d, p c = .ok b d → c.Reaches d → EndsAtSemicolon d q (next b ⟨d, q⟩)) :
    EndsAtSemicolon c q ((liftM p >>= next) ⟨c, q⟩) := by
  obtain ⟨ks, hks, hpass⟩ := h
  cases hp : p c with
  | error e d =>
      rw [hp] at hpass
      rw [bind_of_eq_error (lift_of_eq_error hp)]
      exact ⟨rfl, ks, hks, hpass⟩
  | ok b d =>
      rw [hp] at hpass
      rw [bind_of_eq_ok (lift_of_eq_ok hp)]
      have hrest := hnext b d hp hpass.reaches
      cases hresult : next b ⟨d, q⟩ with
      | ok x s =>
          rw [hresult] at hrest
          obtain ⟨hqueue, ks', hks', hpass'⟩ := hrest
          refine ⟨hqueue, ks ++ ks', fun hmem => ?_, ?_⟩
          · exact (List.mem_append.mp hmem).elim hks hks'
          · rw [List.append_assoc]
            exact hpass.trans hpass'
      | error e s =>
          rw [hresult] at hrest
          obtain ⟨hqueue, ks', hks', hpass'⟩ := hrest
          exact ⟨hqueue, ks ++ ks', fun hmem => (List.mem_append.mp hmem).elim hks hks',
            hpass.trans hpass'⟩

theorem semicolon (hc : c.Terminated) (b : β) :
    EndsAtSemicolon c q ((do let _ ← Parse.expect .semicolon; return b : ParseStmt β) ⟨c, q⟩) := by
  by_cases hkind : c.kind = .fixed .semicolon
  · rw [bind_of_eq_ok (lift_of_eq_ok (Parse.expect_of_kind hkind))]
    refine ⟨rfl, [], List.not_mem_nil, ?_⟩
    rw [List.nil_append, ← hkind]
    exact Cursor.passes_advance hc (by simp [hkind])
  · have hrun : Parse.expect .semicolon c = .error _ c :=
      (Parse.expectKind_run (.fixed .semicolon) c).trans (if_neg hkind)
    rw [bind_of_eq_error (lift_of_eq_error hrun)]
    exact ⟨rfl, [], List.not_mem_nil, .refl c⟩

theorem simple (hc : c.Terminated) (hbound : c.kinds.length ≤ bound) :
    EndsAtSemicolon c q (ParseStmt.simple bound ⟨c, q⟩) := by
  rw [ParseStmt.simple]
  refine lift_bind (passesNone_expr hc hbound) fun target d _ hd => ?_
  refine lift_bind (passesNone_eat (hd.terminated hc) (by decide)) fun found d₁ _ hd₁ => ?_
  have hd₁ := hd.trans hd₁
  cases found with
  | true =>
      refine lift_bind (passesNone_expr (hd₁.terminated hc)
        (Nat.le_trans hd₁.length_le hbound)) fun value d₂ _ hd₂ => ?_
      exact semicolon ((hd₁.trans hd₂).terminated hc) _
  | false => exact semicolon (hd₁.terminated hc) _

/-- A statement that begins with no word of its own ends at a semicolon, or breaks off in front of
one. -/
theorem stmtAt (lines : LineTable) (hc : c.Terminated) (hbound : c.kinds.length ≤ bound)
    (hkind : c.kind.stopsRecovery = false) :
    EndsAtSemicolon c q (ParseStmt.stmtAt lines bound ⟨c, q⟩) := by
  obtain ⟨bound, rfl⟩ := Cursor.exists_eq_succ hbound
  have hindent : c.kind ≠ .indent := by
    intro hindent
    rw [hindent] at hkind
    cases hkind
  have hsimple := simple (q := q) hc hbound
  rw [← form_of_not_stops lines (ParseStmt.stmtAt lines bound) hkind] at hsimple
  rw [ParseStmt.stmtAt, bind_of_eq_ok (lift_of_eq_ok (Parse.kind_run c)), if_neg hindent,
    bind_of_eq_ok (lift_of_eq_ok (Parse.span_run c))]
  cases hform : form lines (ParseStmt.stmtAt lines bound) (bound + 1) ⟨c, q⟩ with
  | ok form after =>
      rw [hform] at hsimple
      rw [bind_of_eq_ok hform, spanFrom,
        bind_of_eq_ok (lift_of_eq_ok (Parse.spanFrom_run _ after.cursor))]
      exact hsimple
  | error e failed =>
      rw [hform] at hsimple
      rw [bind_of_eq_error hform]
      exact hsimple

end EndsAtSemicolon

theorem stopsRecovery_of_kinds {behind : List TokenKind} (hkinds : c.kinds = skipped ++ behind)
    (hne : skipped ≠ []) (hskipped : ∀ k ∈ skipped, k.stopsRecovery = false) :
    c.kind.stopsRecovery = false := by
  cases skipped with
  | nil => exact absurd rfl hne
  | cons k skipped =>
      rw [Cursor.kind_eq_of_kinds hkinds]
      exact hskipped k List.mem_cons_self

/-- A statement that begins with no word of its own and is not spelled up to its semicolon breaks
off in front of that. -/
theorem stmtAt_breaks_off (lines : LineTable) (hc : c.Terminated) (hbound : c.kinds.length ≤ bound)
    (hkinds : c.kinds = skipped ++ .fixed .semicolon :: tail) (hne : skipped ≠ [])
    (hskipped : ∀ k ∈ skipped, k.stopsRecovery = false)
    (hbroken : ∀ s, ¬Spells (skipped ++ [.fixed .semicolon]) .eof (.stmt s)) :
    ∃ (e : Diagnostic) (d : Cursor) (ks : List TokenKind), e.isError = true ∧
      .fixed .semicolon ∉ ks ∧ c.Passes ks d ∧ ∀ q : DiagnosticQueue, q.limitReached = false →
        stmtAt lines bound ⟨c, q⟩ = .error e ⟨d, q⟩ := by
  have hkind := stopsRecovery_of_kinds hkinds hne hskipped
  have hends := EndsAtSemicolon.stmtAt (q := openQueue) lines hc hbound hkind
  have hconduct := stmtAt_conduct lines hc bound c (.refl c)
  cases hconduct.uniform with
  | ok s d hrun =>
      rw [hrun openQueue rfl] at hends
      obtain ⟨-, ks, hks, hpass⟩ := hends
      have hsplit := hpass.kinds_eq.symm.trans hkinds
      rw [List.append_assoc] at hsplit
      obtain ⟨rest, rfl, hrest⟩ := split_of_not_mem hsplit hks
      have hnil : rest = [] := by
        cases rest with
        | nil => rfl
        | cons k rest =>
            have hstops := hskipped k (List.mem_append_right _ List.mem_cons_self)
            rw [← (List.cons.inj hrest).1] at hstops
            cases hstops
      obtain ⟨ks', hpass', hspells⟩ := stmtAt_recognizes lines bound c s d hc hbound hrun
      rw [hnil, List.append_nil] at hbroken
      rw [List.append_cancel_right (hpass'.kinds_eq.symm.trans hpass.kinds_eq)] at hspells
      exact absurd (hspells.follow trivial ⟨by simp, by simp⟩ (by simp)) (hbroken s.erase)
  | error e d hrun =>
      rw [hrun openQueue rfl] at hends
      obtain ⟨-, ks, hks, hpass⟩ := hends
      exact ⟨e, d, ks, hconduct.isError openQueue e _ (hrun openQueue rfl), hks, hpass, hrun⟩
  | reports hrun =>
      obtain ⟨e, he, hreported⟩ := hrun openQueue rfl
      have hqueue : (stateAfter (stmtAt lines bound ⟨c, openQueue⟩)).queue = openQueue := by
        cases hresult : stmtAt lines bound ⟨c, openQueue⟩ with
        | ok | error =>
            rw [hresult] at hends
            exact hends.1
      rw [hqueue] at hreported
      exact absurd (hreported.marked (DiagnosticQueue.marked_report rfl rfl he))
        (DiagnosticQueue.not_marked_empty _)

/-! ### Lists -/

variable (ends : TokenKind → Bool)

theorem list_of_spells {ss : List (Stmt Unit)} {n : Nat} (lines : LineTable)
    (h : Spells ks k (.list ss)) (hends : ∀ k, beginsStmt k = true → ends k = false)
    (hc : c.Faces ks k n) (hbound : c.kinds.length ≤ bound) :
    ∃ body d fewer, c.Passes ks d ∧ Stmt.eraseAll body = ss ∧ d.kinds.length ≤ fewer ∧
      ∀ q : DiagnosticQueue, q.limitReached = false →
        list lines (stmtAt lines n) ends bound ⟨c, q⟩ =
          (body ++ (list lines (stmtAt lines n) ends fewer ⟨d, q⟩).1,
            (list lines (stmtAt lines n) ends fewer ⟨d, q⟩).2) := by
  induction ss generalizing ks c bound with
  | nil =>
      cases h
      exact ⟨[], c, bound, .refl c, rfl, hbound, fun _ _ => rfl⟩
  | cons s ss ih =>
      cases h with
      | @cons _ _ ks₁ ks₂ _ hs hss =>
          obtain ⟨k₀, rest, rfl, hk₀⟩ := spells_eq_cons hs
          obtain ⟨s', mid, hrun, hpass, rfl⟩ := (accepted_of_spells lines hs n c hc.front).1
          have hlength := hpass.length
          rw [List.length_cons] at hlength
          obtain ⟨bound, rfl⟩ : ∃ fewer, bound = fewer + 1 := ⟨bound - 1, by omega⟩
          have hrest : mid.kinds.length ≤ bound := by omega
          obtain ⟨body, d, fewer, hpass', rfl, hfewer, hlist⟩ := ih hss (hc.behind hpass) hrest
          refine ⟨s' :: body, d, fewer, hpass.trans hpass', by rw [Stmt.eraseAll], hfewer,
            fun q hq => ?_⟩
          have hkind : c.kind = k₀ := hc.kind_eq
          rw [← hkind] at hk₀
          rw [list_of_ok (stops_of_beginsStmt hk₀ hends hq) (hrun q hq), hlist q hq]
          rfl

/-- A list reports a statement without a word of its own once and goes on behind its semicolon. -/
theorem list_of_broken (lines : LineTable) (hc : c.Terminated) {n : Nat} (hn : c.kinds.length ≤ n)
    (hends : ends c.kind = false) (hkinds : c.kinds = skipped ++ .fixed .semicolon :: tail)
    (hne : skipped ≠ []) (hskipped : ∀ k ∈ skipped, k.stopsRecovery = false) (htail : tail ≠ [])
    (hbroken : ∀ s, ¬Spells (skipped ++ [.fixed .semicolon]) .eof (.stmt s)) :
    ∃ (e : Diagnostic) (d : Cursor), e.isError = true ∧ c.Reaches d ∧ d.kinds = tail ∧
      ∀ (bound : Nat) (q : DiagnosticQueue), q.limitReached = false →
        list lines (stmtAt lines n) ends (bound + 1) ⟨c, q⟩ =
          list lines (stmtAt lines n) ends bound ⟨d, q.report lines e⟩ := by
  obtain ⟨e, d, ks, he, hks, hpass, hrun⟩ :=
    stmtAt_breaks_off lines hc hn hkinds hne hskipped hbroken
  refine ⟨e, recover c.position d, he, hpass.reaches.trans (reaches_recover _ _),
    kinds_recover hkinds hne hskipped htail hpass hks, fun bound q hq => ?_⟩
  have hkind : c.kind ≠ .eof := by
    intro heof
    have hstops := stopsRecovery_of_kinds hkinds hne hskipped
    rw [heof] at hstops
    cases hstops
  have hgoes : stops ends ⟨c, q⟩ = false :=
    stops_eq_false (not_or.mpr ⟨hkind, by rw [hends]; exact Bool.false_ne_true⟩) hq
  exact list_of_error hgoes (hrun q hq)

end ParseStmt

end ArmPseudocode

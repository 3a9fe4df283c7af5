import ArmPseudocode.Proofs.Parser.Conduct

/-!
# Runs without a report

A run of the statement parser is clean if it yields something and reports nothing. Reports are never
taken back, so both parts of a clean run in sequence are clean, and two clean runs make one. What a
clean run yields does not depend on the queue.
-/

namespace ArmPseudocode.ParseStmt

variable {β γ : Type} {lines : LineTable} {start c d : Cursor}

/-- The step yields `b` in front of the second cursor, reporting nothing, for every queue that has
not reached its limit. -/
def Clean (step : ParseStmt β) (c : Cursor) (b : β) (d : Cursor) : Prop :=
  ∀ q : DiagnosticQueue, q.limitReached = false → step ⟨c, q⟩ = .ok b ⟨d, q⟩

def openQueue : DiagnosticQueue := .empty ⟨0, false⟩

/-- From places in a text the step goes on to places in the text and only adds to the queue. -/
def Grows (lines : LineTable) (start : Cursor) (step : ParseStmt β) : Prop :=
  ∀ c q, start.Reaches c → start.Reaches (stateAfter (step ⟨c, q⟩)).cursor ∧
    q.Reported lines (stateAfter (step ⟨c, q⟩)).queue

namespace Grows

variable {step : ParseStmt β} {next : β → ParseStmt γ} {least : Nat} {Good : β → Prop}

theorem pure (b : β) : Grows lines start (Pure.pure b) := fun _ _ hc => ⟨hc, .refl⟩

theorem lift {p : Parse β} (hp : Parse.Forward p) : Grows lines start (liftM p) := by
  intro c q hc
  rw [stateAfter_lift]
  exact ⟨hc.trans (hp.reaches c), .refl⟩

theorem of_conduct (h : ∀ c, start.Reaches c → Conduct lines step c least Good) :
    Grows lines start step :=
  fun c q hc => ⟨hc.trans ((h c hc).reaches q), (h c hc).reported q⟩

theorem bind (h : Grows lines start step) (hnext : ∀ b, Grows lines start (next b)) :
    Grows lines start (step >>= next) := by
  intro c q hc
  refine stateAfter_bind
    (P := fun s : ParserState => start.Reaches s.cursor ∧ q.Reported lines s.queue) (h c q hc) ?_
  rintro b mid - ⟨hreaches, hreported⟩
  obtain ⟨hreaches', hreported'⟩ := hnext b mid.cursor mid.queue hreaches
  exact ⟨hreaches', hreported.trans hreported'⟩

theorem throw_bind (d : Diagnostic) :
    Grows lines start ((MonadExcept.throw d : ParseStmt β) >>= next) := fun _ _ hc => ⟨hc, .refl⟩

theorem unlessLimited {blamed excused : ParseStmt γ} (hblamed : Grows lines start blamed)
    (hexcused : Grows lines start excused) :
    Grows lines start (do if !(← get).queue.limitReached then blamed else excused) := by
  intro c q hc
  have hrun : (do if !(← get).queue.limitReached then blamed else excused : ParseStmt γ) ⟨c, q⟩ =
      (if (!q.limitReached) = true then blamed else excused) ⟨c, q⟩ := rfl
  rw [hrun]
  split
  · exact hblamed c q hc
  · exact hexcused c q hc

end Grows

/-- Without a report a run is clean: the queue has had no influence. -/
theorem Conduct.clean {step : ParseStmt β} {least : Nat} {Good : β → Prop} {b : β}
    {s : ParserState} (h : Conduct lines step c least Good)
    (hrun : step ⟨c, openQueue⟩ = .ok b s) (hnone : ¬ s.queue.Marked) :
    Clean step c b s.cursor ∧ s.queue = openQueue := by
  cases h.uniform with
  | ok b' c' huniform =>
      have hsame := huniform openQueue rfl
      rw [hrun] at hsame
      cases hsame
      exact ⟨huniform, rfl⟩
  | error d c' huniform =>
      rw [huniform openQueue rfl] at hrun
      nomatch hrun
  | reports huniform =>
      obtain ⟨d, hd, hreported⟩ := huniform openQueue rfl
      rw [hrun] at hreported
      exact absurd (hreported.marked (DiagnosticQueue.marked_report rfl rfl hd)) hnone

namespace Clean

variable {step : ParseStmt β} {next : β → ParseStmt γ} {least : Nat} {Good : β → Prop} {x : γ}
  {b : β}

theorem lift {p : Parse β} (h : p c = .ok b d) : Clean (liftM p) c b d :=
  fun _ _ => lift_of_eq_ok h

theorem pure (b : β) (c : Cursor) : Clean (Pure.pure b) c b c := fun _ _ => rfl

theorem bind {c' : Cursor} (h : Clean step c b c') (hnext : Clean (next b) c' x d) :
    Clean (step >>= next) c x d := fun q hq => (bind_of_eq_ok (h q hq)).trans (hnext q hq)

theorem lift_bind {p : Parse β} {c' : Cursor} (h : p c = .ok b c')
    (hnext : Clean (next b) c' x d) : Clean (liftM p >>= next) c x d := bind (lift h) hnext

/-! ### The parts of a clean run -/

theorem of_pure {b' : β} (h : Clean (Pure.pure b) c b' d) : b = b' ∧ c = d := by
  have hrun := h openQueue rfl
  cases hrun
  exact ⟨rfl, rfl⟩

theorem of_lift_bind {p : Parse β} (h : Clean (liftM p >>= next) c x d) :
    ∃ b c', p c = .ok b c' ∧ Clean (next b) c' x d := by
  obtain ⟨b, mid, hrun, -⟩ := of_bind_eq_ok (h openQueue rfl)
  cases hp : p c with
  | ok b c' =>
      refine ⟨b, c', rfl, fun q hq => ?_⟩
      rw [← h q hq]
      exact (bind_of_eq_ok (lift hp q hq)).symm
  | error e c' =>
      rw [lift_of_eq_error hp] at hrun
      cases hrun

theorem of_bind (hc : start.Reaches c) (hstep : Conduct lines step c least Good)
    (hnext : ∀ b, Good b → Grows lines start (next b)) (h : Clean (step >>= next) c x d) :
    ∃ b c', Clean step c b c' ∧ Clean (next b) c' x d ∧ start.Reaches c' ∧ Good b := by
  obtain ⟨b, mid, hrun, hrest⟩ := of_bind_eq_ok (h openQueue rfl)
  have hmid : start.Reaches mid.cursor := by
    have hreaches := hstep.reaches openQueue
    rw [hrun] at hreaches
    exact hc.trans hreaches
  have hgood := hstep.good openQueue b mid hrun
  have hnone : ¬ mid.queue.Marked := by
    intro hmarked
    have hreported := (hnext b hgood mid.cursor mid.queue hmid).2
    rw [hrest] at hreported
    exact DiagnosticQueue.not_marked_empty _ (hreported.marked hmarked)
  obtain ⟨hclean, -⟩ := hstep.clean hrun hnone
  refine ⟨b, mid.cursor, hclean, fun q hq => ?_, hmid, hgood⟩
  rw [← h q hq]
  exact (bind_of_eq_ok (hclean q hq)).symm

theorem reading {next : TokenKind → ParseStmt γ} (h : Clean (liftM Parse.kind >>= next) c x d) :
    Clean (next c.kind) c x d := h

theorem reading_span {next : Span → ParseStmt γ} (h : Clean (liftM Parse.span >>= next) c x d) :
    Clean (next c.here.span) c x d := h

theorem advancing {next : Span → ParseStmt γ} (h : Clean (liftM Parse.advance >>= next) c x d) :
    Clean (next c.here.span) c.advance x d := h

end Clean

end ArmPseudocode.ParseStmt

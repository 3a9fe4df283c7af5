import ArmPseudocode.Proofs.Parser.Forward
import ArmPseudocode.Proofs.Parser.Lossless
import ArmPseudocode.Proofs.Parser.Recorded
import ArmPseudocode.Proofs.Parser.Rounds
import ArmPseudocode.Proofs.Syntax.Everywhere

/-!
# How the statement parser conducts itself

Every step of the statement parser goes forward, only adds reports to the queue, and yields
statements whose expressions consist of tokens of the text. What it reports is about tokens that
were in front of it, in their order. As long as the queue has not reached its limit the queue has no
influence: the step ends in one way for all of them and reports nothing, or it reports an error to
each of them. The properties are kept by sequencing, so each function of the parser has them because
its parts do; the loop that recovers from failures is the one place where a failure turns into a
report.
-/

namespace ArmPseudocode

/-- An expression that was read in a text, in or outside the patterns of a case. -/
structure ReadFrom (start : Cursor) (e : Expr Span) : Prop where
  grammatical : ∃ inPattern, e.Grammatical ⟨inPattern, false⟩
  mem_kinds : ∀ k ∈ e.tokens, k ∈ start.kinds

namespace ParseStmt

variable {β γ : Type} {lines : LineTable} {c c' : Cursor}

/-- What a step comes to in front of a cursor, for every queue that has not reached its limit. -/
inductive Uniform (lines : LineTable) (step : ParseStmt β) (c : Cursor) : Prop
  | ok (b : β) (c' : Cursor)
      (hrun : ∀ q, q.limitReached = false → step ⟨c, q⟩ = .ok b ⟨c', q⟩)
  | error (d : Diagnostic) (c' : Cursor)
      (hrun : ∀ q, q.limitReached = false → step ⟨c, q⟩ = .error d ⟨c', q⟩)
  | reports (hrun : ∀ q : DiagnosticQueue, q.limitReached = false → ∃ d : Diagnostic,
      d.isError = true ∧ (q.report lines d).Reported lines (stateAfter (step ⟨c, q⟩)).queue)

/-- A uniform step, and behind it one that is uniform wherever the first leads and only adds to the
queue. -/
theorem Uniform.bind {step : ParseStmt β} {next : β → ParseStmt γ} (h : Uniform lines step c)
    (hnext : ∀ q b c', step ⟨c, q⟩ = .ok b ⟨c', q⟩ → Uniform lines (next b) c')
    (hreported : ∀ q b mid, step ⟨c, q⟩ = .ok b mid →
      mid.queue.Reported lines (stateAfter (next b mid)).queue) :
    Uniform lines (step >>= next) c := by
  cases h with
  | ok b c' hrun =>
      cases hnext (.empty ⟨0, false⟩) b c' (hrun _ rfl) with
      | ok d c'' hrun' =>
          refine .ok d c'' fun q hq => ?_
          rw [bind_of_eq_ok (hrun q hq), hrun' q hq]
      | error d c'' hrun' =>
          refine .error d c'' fun q hq => ?_
          rw [bind_of_eq_ok (hrun q hq), hrun' q hq]
      | reports hrun' =>
          refine .reports fun q hq => ?_
          rw [bind_of_eq_ok (hrun q hq)]
          exact hrun' q hq
  | error d c' hrun => exact .error d c' fun q hq => bind_of_eq_error (hrun q hq)
  | reports hrun =>
      refine .reports fun q hq => ?_
      obtain ⟨d, hd, hfirst⟩ := hrun q hq
      refine ⟨d, hd, stateAfter_bind
        (P := fun s : ParserState => (q.report lines d).Reported lines s.queue) hfirst
        fun b mid hstep hfirst => ?_⟩
      exact hfirst.trans (hreported q b mid hstep)

/-- What was reported on the way from a cursor to a state is about tokens on the way, and comes to
fewer reports than tokens passed: besides one token for each there are so many more, unless nothing
was reported. -/
def Counted (lines : LineTable) (c : Cursor) (least : Nat) (q : DiagnosticQueue)
    (after : ParserState) : Prop :=
  ∃ ds : List Diagnostic, after.queue = q.reportAll lines ds ∧ Blames c ds after.cursor ∧
    (ds = [] ∨ ds.length + least + after.cursor.kinds.length ≤ c.kinds.length)

namespace Counted

variable {least : Nat} {q : DiagnosticQueue} {mid after : ParserState}

theorem refl (h : c.Reaches c') : Counted lines c least q ⟨c', q⟩ := ⟨[], rfl, .nil h, .inl rfl⟩

theorem reaches (h : Counted lines c least q after) : c.Reaches after.cursor := by
  obtain ⟨ds, -, hblames, -⟩ := h
  exact hblames.reaches

theorem reported (h : Counted lines c least q after) : q.Reported lines after.queue := by
  obtain ⟨ds, hqueue, -⟩ := h
  rw [hqueue]
  exact DiagnosticQueue.reported_reportAll ds

theorem weaken (h : Counted lines c least q after) : Counted lines c 0 q after := by
  obtain ⟨ds, hqueue, hblames, hcount⟩ := h
  exact ⟨ds, hqueue, hblames, hcount.imp_right (by omega)⟩

theorem trans (h : Counted lines c least q mid)
    (hconsumes : mid.cursor.kinds.length + least ≤ c.kinds.length)
    (h' : Counted lines mid.cursor 0 mid.queue after) : Counted lines c least q after := by
  have hlength := h'.reaches.length_le
  obtain ⟨ds, hqueue, hblames, hcount⟩ := h
  obtain ⟨ds', hqueue', hblames', hcount'⟩ := h'
  refine ⟨ds ++ ds', by rw [hqueue', hqueue, DiagnosticQueue.reportAll_append],
    hblames.trans hblames', ?_⟩
  obtain rfl | hcount := hcount
  · exact hcount'.imp_right (by rw [List.nil_append]; omega)
  · refine .inr ?_
    rw [List.length_append]
    obtain rfl | hcount' := hcount'
    · rw [List.length_nil]
      omega
    · omega

/-- A failure after some reports is one report more, and the token spared pays for it. -/
theorem report {c'' : Cursor} {d : Diagnostic} (h : Counted lines c 1 q mid)
    (hcode : d.code.isSyntactic = true) (hspan : d.span = some mid.cursor.here.span)
    (hreaches : mid.cursor.Reaches c'') (hconsumes : c''.kinds.length + 1 ≤ c.kinds.length) :
    Counted lines c 0 q ⟨c'', mid.queue.report lines d⟩ := by
  obtain ⟨ds, hqueue, hblames, hcount⟩ := h
  have hlength := hreaches.length_le
  refine ⟨ds ++ [d], by rw [DiagnosticQueue.reportAll_append, ← hqueue]; rfl,
    hblames.report hcode hspan hreaches, .inr ?_⟩
  dsimp only
  rw [List.length_append, List.length_singleton]
  obtain rfl | hcount := hcount
  · rw [List.length_nil]
    omega
  · omega

end Counted

/-- The conduct of a step in front of a cursor: it yields something good, consuming at least so many
tokens. -/
structure Conduct (lines : LineTable) (step : ParseStmt β) (c : Cursor) (least : Nat)
    (Good : β → Prop) : Prop where
  good : ∀ q b s, step ⟨c, q⟩ = .ok b s → Good b
  consumes : ∀ q b s, step ⟨c, q⟩ = .ok b s → s.cursor.kinds.length + least ≤ c.kinds.length
  isError : ∀ q (d : Diagnostic) s, step ⟨c, q⟩ = .error d s → d.isError = true
  syntactic : ∀ q (d : Diagnostic) s, step ⟨c, q⟩ = .error d s → d.code.isSyntactic = true
  located : ∀ q (d : Diagnostic) s, step ⟨c, q⟩ = .error d s → d.span = some s.cursor.here.span
  reaches : ∀ q, c.Reaches (stateAfter (step ⟨c, q⟩)).cursor
  counted : ∀ q, Counted lines c least q (stateAfter (step ⟨c, q⟩))
  uniform : Uniform lines step c

namespace Conduct

variable {step : ParseStmt β} {next : β → ParseStmt γ} {Good : β → Prop} {Better : γ → Prop}
  {least : Nat}

theorem reported (h : Conduct lines step c least Good) (q : DiagnosticQueue) :
    q.Reported lines (stateAfter (step ⟨c, q⟩)).queue := (h.counted q).reported

theorem weaken (h : Conduct lines step c least Good) : Conduct lines step c 0 Good :=
  { h with
    consumes := fun q b s hrun => Nat.le_of_add_right_le (h.consumes q b s hrun)
    counted := fun q => (h.counted q).weaken }

theorem bind (h : Conduct lines step c least Good)
    (hnext : ∀ b c', c.Reaches c' → Good b → Conduct lines (next b) c' 0 Better) :
    Conduct lines (step >>= next) c least Better := by
  have hmid : ∀ q b s, step ⟨c, q⟩ = .ok b s → Conduct lines (next b) s.cursor 0 Better := by
    intro q b s hrun
    have hreaches := h.reaches q
    rw [hrun] at hreaches
    exact hnext b s.cursor hreaches (h.good q b s hrun)
  have hfailure : ∀ q (d : Diagnostic) s, (step >>= next) ⟨c, q⟩ = .error d s →
      d.isError = true ∧ d.code.isSyntactic = true ∧ d.span = some s.cursor.here.span := by
    intro q d s hrun
    obtain hfails | ⟨b, mid, hstep, hfails⟩ := of_bind_eq_error hrun
    · exact ⟨h.isError q d s hfails, h.syntactic q d s hfails, h.located q d s hfails⟩
    · have hafter := hmid q b mid hstep
      exact ⟨hafter.isError mid.queue d s hfails, hafter.syntactic mid.queue d s hfails,
        hafter.located mid.queue d s hfails⟩
  constructor
  case good =>
    intro q d s hrun
    obtain ⟨b, mid, hstep, hrun⟩ := of_bind_eq_ok hrun
    exact (hmid q b mid hstep).good mid.queue d s hrun
  case consumes =>
    intro q d s hrun
    obtain ⟨b, mid, hstep, hrun⟩ := of_bind_eq_ok hrun
    have hfirst := h.consumes q b mid hstep
    have hsecond := (hmid q b mid hstep).consumes mid.queue d s hrun
    omega
  case isError => exact fun q d s hrun => (hfailure q d s hrun).1
  case syntactic => exact fun q d s hrun => (hfailure q d s hrun).2.1
  case located => exact fun q d s hrun => (hfailure q d s hrun).2.2
  case reaches =>
    intro q
    refine stateAfter_bind (P := fun s : ParserState => c.Reaches s.cursor) (h.reaches q)
      fun b mid hstep hreaches => ?_
    exact hreaches.trans ((hmid q b mid hstep).reaches mid.queue)
  case counted =>
    intro q
    refine stateAfter_bind (P := fun s : ParserState => Counted lines c least q s) (h.counted q)
      fun b mid hstep hcounted => ?_
    exact hcounted.trans (h.consumes q b mid hstep) ((hmid q b mid hstep).counted mid.queue)
  case uniform =>
    exact h.uniform.bind (fun q b c' hrun => (hmid q b _ hrun).uniform)
      fun q b mid hrun => (hmid q b mid hrun).reported mid.queue

/-- A step that always yields something, the same for all queues that have not reached their
limit. -/
theorem of_eq_ok {value : DiagnosticQueue → β} {after : DiagnosticQueue → ParserState}
    (hrun : ∀ q, step ⟨c, q⟩ = .ok (value q) (after q)) (hgood : ∀ q, Good (value q))
    (hconsumes : ∀ q, (after q).cursor.kinds.length + least ≤ c.kinds.length)
    (hcounted : ∀ q, Counted lines c least q (after q)) (huniform : Uniform lines step c) :
    Conduct lines step c least Good where
  good q b s h := by
    rw [hrun] at h
    cases h
    exact hgood q
  consumes q b s h := by
    rw [hrun] at h
    cases h
    exact hconsumes q
  isError q d s h := by
    rw [hrun] at h
    nomatch h
  syntactic q d s h := by
    rw [hrun] at h
    nomatch h
  located q d s h := by
    rw [hrun] at h
    nomatch h
  reaches q := by
    rw [hrun]
    exact (hcounted q).reaches
  counted q := by
    rw [hrun]
    exact hcounted q
  uniform := huniform

/-- A step that always fails, with an error about the token it stopped at. -/
theorem of_eq_error {d : Diagnostic} (hrun : ∀ q, step ⟨c, q⟩ = .error d ⟨c', q⟩)
    (hreaches : c.Reaches c') (hd : d.isError = true) (hcode : d.code.isSyntactic = true)
    (hspan : d.span = some c'.here.span) : Conduct lines step c least Good where
  good q b s h := by
    rw [hrun] at h
    nomatch h
  consumes q b s h := by
    rw [hrun] at h
    nomatch h
  isError q d' s h := by
    rw [hrun] at h
    cases h
    exact hd
  syntactic q d' s h := by
    rw [hrun] at h
    cases h
    exact hcode
  located q d' s h := by
    rw [hrun] at h
    cases h
    exact hspan
  reaches q := by
    rw [hrun]
    exact hreaches
  counted q := by
    rw [hrun]
    exact .refl hreaches
  uniform := .error d c' fun q _ => hrun q

theorem pure {b : β} (hgood : Good b) : Conduct lines (Pure.pure b) c 0 Good :=
  of_eq_ok (fun _ => rfl) (fun _ => hgood) (fun _ => Nat.le_refl _) (fun _ => .refl (.refl c))
    (.ok b c fun _ _ => rfl)

theorem throw {d : Diagnostic} (hd : d.isError = true) (hcode : d.code.isSyntactic = true)
    (hspan : d.span = some c.here.span) :
    Conduct lines (throw d : ParseStmt β) c least Good :=
  of_eq_error (fun _ => rfl) (.refl c) hd hcode hspan

theorem lift {p : Parse β} (hforward : Parse.Forward p)
    (hgood : ∀ b c', p c = .ok b c' → Good b ∧ c'.kinds.length + least ≤ c.kinds.length) :
    Conduct lines (liftM p) c least Good := by
  have hreaches := hforward.reaches c
  cases hp : p c with
  | ok b c' =>
      rw [hp] at hreaches
      have hrun : ∀ q, (liftM p : ParseStmt β) ⟨c, q⟩ = .ok b ⟨c', q⟩ := fun _ => lift_of_eq_ok hp
      obtain ⟨hb, hlength⟩ := hgood b c' hp
      exact of_eq_ok hrun (fun _ => hb) (fun _ => hlength) (fun _ => .refl hreaches)
        (.ok b c' fun q _ => hrun q)
  | error d c' =>
      rw [hp] at hreaches
      exact of_eq_error (fun _ => lift_of_eq_error hp) hreaches (hforward.isError c d c' hp)
        (hforward.syntactic c d c' hp) (hforward.located c d c' hp)

theorem forward {p : Parse β} (hforward : Parse.Forward p) :
    Conduct lines (liftM p) c 0 (fun _ => True) := by
  refine lift hforward fun b c' hrun => ⟨trivial, ?_⟩
  have hreaches := hforward.reaches c
  rw [hrun] at hreaches
  exact hreaches.length_le

/-- A step that runs as one of two steps, always as the first while the queue is open. -/
theorem of_run_eq_or {step first second : ParseStmt γ} (hfirst : Conduct lines first c least Better)
    (hsecond : Conduct lines second c least Better)
    (hrun : ∀ q, step ⟨c, q⟩ = first ⟨c, q⟩ ∨ step ⟨c, q⟩ = second ⟨c, q⟩)
    (hopen : ∀ q, q.limitReached = false → step ⟨c, q⟩ = first ⟨c, q⟩) :
    Conduct lines step c least Better := by
  constructor
  · intro q b s h
    obtain heq | heq := hrun q <;> rw [heq] at h
    · exact hfirst.good q b s h
    · exact hsecond.good q b s h
  · intro q b s h
    obtain heq | heq := hrun q <;> rw [heq] at h
    · exact hfirst.consumes q b s h
    · exact hsecond.consumes q b s h
  · intro q d s h
    obtain heq | heq := hrun q <;> rw [heq] at h
    · exact hfirst.isError q d s h
    · exact hsecond.isError q d s h
  · intro q d s h
    obtain heq | heq := hrun q <;> rw [heq] at h
    · exact hfirst.syntactic q d s h
    · exact hsecond.syntactic q d s h
  · intro q d s h
    obtain heq | heq := hrun q <;> rw [heq] at h
    · exact hfirst.located q d s h
    · exact hsecond.located q d s h
  · intro q
    obtain heq | heq := hrun q <;> rw [heq]
    · exact hfirst.reaches q
    · exact hsecond.reaches q
  · intro q
    obtain heq | heq := hrun q <;> rw [heq]
    · exact hfirst.counted q
    · exact hsecond.counted q
  · cases hfirst.uniform with
    | ok b c' h => exact .ok b c' fun q hq => (hopen q hq).trans (h q hq)
    | error d c' h => exact .error d c' fun q hq => (hopen q hq).trans (h q hq)
    | reports h =>
        refine .reports fun q hq => ?_
        rw [hopen q hq]
        exact h q hq

theorem of_run_eq {step step' : ParseStmt γ} (h : Conduct lines step' c least Better)
    (hrun : ∀ q, step ⟨c, q⟩ = step' ⟨c, q⟩) : Conduct lines step c least Better :=
  of_run_eq_or h h (fun q => .inl (hrun q)) fun q _ => hrun q

theorem throw_bind {d : Diagnostic} (hd : d.isError = true) (hcode : d.code.isSyntactic = true)
    (hspan : d.span = some c.here.span) :
    Conduct lines ((MonadExcept.throw d : ParseStmt β) >>= next) c least Better :=
  (Conduct.throw hd hcode hspan).of_run_eq fun _ => rfl

theorem reading {next : TokenKind → ParseStmt γ} (h : Conduct lines (next c.kind) c least Better) :
    Conduct lines (liftM Parse.kind >>= next) c least Better := h.of_run_eq fun _ => rfl

theorem reading_span {next : Span → ParseStmt γ}
    (h : Conduct lines (next c.here.span) c least Better) :
    Conduct lines (liftM Parse.span >>= next) c least Better := h.of_run_eq fun _ => rfl

theorem unexpected (expected : String) :
    Conduct lines (liftM (Parse.unexpected expected : Parse γ)) c least Better :=
  lift (.unexpected expected) nofun

theorem advance (hc : c.Terminated) (hkind : c.kind ≠ .eof) :
    Conduct lines (liftM Parse.advance) c 1 (fun _ => True) := by
  refine lift .advance fun span c' hrun => ⟨trivial, ?_⟩
  rw [Parse.advance_run] at hrun
  cases hrun
  have hlength := (Cursor.passes_advance hc hkind).length
  rw [List.length_singleton] at hlength
  omega

theorem unlessLimited {blamed excused : ParseStmt γ} (hblamed : Conduct lines blamed c least Better)
    (hexcused : Conduct lines excused c least Better) :
    Conduct lines (do if !(← get).queue.limitReached then blamed else excused) c least Better := by
  have hrun : ∀ q, (do if !(← get).queue.limitReached then blamed else excused : ParseStmt γ)
      ⟨c, q⟩ = (if (!q.limitReached) = true then blamed else excused) ⟨c, q⟩ := fun q => rfl
  apply hblamed.of_run_eq_or hexcused
  · intro q
    rw [hrun]
    split
    · exact .inl rfl
    · exact .inr rfl
  · intro q hq
    rw [hrun, hq]
    rfl

end Conduct

/-! ### Lists of statements -/

/-- Statements read one behind the other, each of them accepted. -/
inductive AcceptedRun (stmt : ParseStmt (Stmt Span)) :
    ParserState → List (Stmt Span) → ParserState → Prop
  | nil (state : ParserState) : AcceptedRun stmt state [] state
  | cons {state next final : ParserState} {s : Stmt Span} {rest : List (Stmt Span)}
      (hfirst : stmt state = .ok s next) (hrest : AcceptedRun stmt next rest final) :
      AcceptedRun stmt state (s :: rest) final

section Lists

variable {start : Cursor} {stmt : ParseStmt (Stmt Span)} {ends : TokenKind → Bool}

/-- The conduct of a step that reads a statement of a text. -/
def ConductStmt (lines : LineTable) (start : Cursor) (stmt : ParseStmt (Stmt Span)) : Prop :=
  ∀ c, start.Reaches c → Conduct lines stmt c 1 (Stmt.Everywhere (ReadFrom start))

/-- A round of a list only goes forward and only adds to the queue. -/
theorem afterOne_reported (hstmt : ConductStmt lines start stmt) (hc : start.Reaches c)
    (q : DiagnosticQueue) :
    c.Reaches (afterOne lines stmt ⟨c, q⟩).cursor ∧
      q.Reported lines (afterOne lines stmt ⟨c, q⟩).queue := by
  have hreaches := (hstmt c hc).reaches q
  have hreported := (hstmt c hc).reported q
  rw [afterOne]
  cases hrun : stmt ⟨c, q⟩ with
  | ok s next =>
      rw [hrun] at hreaches hreported
      exact ⟨hreaches, hreported⟩
  | error d failed =>
      rw [hrun] at hreaches hreported
      exact ⟨hreaches.trans (reaches_recover c.position failed.cursor), hreported.report d⟩

theorem list_reported (hstmt : ConductStmt lines start stmt) (ends : TokenKind → Bool)
    (bound : Nat) (q : DiagnosticQueue) (hc : start.Reaches c) :
    c.Reaches (list lines stmt ends bound ⟨c, q⟩).2.cursor ∧
      q.Reported lines (list lines stmt ends bound ⟨c, q⟩).2.queue := by
  induction bound generalizing c q with
  | zero => exact ⟨.refl c, .refl⟩
  | succ bound ih =>
      rw [list_succ]
      split
      · exact ⟨.refl c, .refl⟩
      · obtain ⟨hreaches, hreported⟩ := afterOne_reported hstmt hc q
        obtain ⟨hreaches', hreported'⟩ := ih _ (hc.trans hreaches)
        exact ⟨hreaches.trans hreaches', hreported.trans hreported'⟩

/-- Each round of a list leaves a token behind: of the statement that was read, or one that recovery
passes. -/
theorem afterOne_consumes (hstart : start.Terminated) (hstmt : ConductStmt lines start stmt)
    (hc : start.Reaches c) (hend : c.atEnd = false) (q : DiagnosticQueue) :
    (afterOne lines stmt ⟨c, q⟩).cursor.kinds.length + 1 ≤ c.kinds.length := by
  have hreaches := (hstmt c hc).reaches q
  rw [afterOne]
  cases hrun : stmt ⟨c, q⟩ with
  | ok s next => exact (hstmt c hc).consumes q s next hrun
  | error e failed =>
      rw [hrun] at hreaches
      have hkind : c.kind ≠ .eof := by simpa [Cursor.atEnd] using hend
      exact recover_consumes (hc.terminated hstart) hkind hreaches

/-- The token that a round leaves behind pays for its report. -/
theorem afterOne_counted (hstart : start.Terminated) (hstmt : ConductStmt lines start stmt)
    (hc : start.Reaches c) (hend : c.atEnd = false) (q : DiagnosticQueue) :
    Counted lines c 0 q (afterOne lines stmt ⟨c, q⟩) := by
  have hcounted := (hstmt c hc).counted q
  have hconsumes := afterOne_consumes hstart hstmt hc hend q
  rw [afterOne] at hconsumes ⊢
  cases hrun : stmt ⟨c, q⟩ with
  | ok s next =>
      rw [hrun] at hcounted
      exact hcounted.weaken
  | error d failed =>
      rw [hrun] at hcounted hconsumes
      exact hcounted.report ((hstmt c hc).syntactic q d failed hrun)
        ((hstmt c hc).located q d failed hrun) (reaches_recover c.position failed.cursor) hconsumes

/-- A list reports at most as often as it passes tokens. -/
theorem list_counted (hstart : start.Terminated) (hstmt : ConductStmt lines start stmt)
    (ends : TokenKind → Bool) (bound : Nat) (q : DiagnosticQueue) (hc : start.Reaches c) :
    Counted lines c 0 q (list lines stmt ends bound ⟨c, q⟩).2 := by
  induction bound generalizing c q with
  | zero => exact .refl (.refl c)
  | succ bound ih =>
      rw [list_succ]
      split
      · exact .refl (.refl c)
      · next hgoes =>
        have hcounted := afterOne_counted hstart hstmt hc (atEnd_of_not_stops hgoes) q
        exact hcounted.trans hcounted.reaches.length_le (ih _ (hc.trans hcounted.reaches))

theorem readOne_good (hstmt : ConductStmt lines start stmt) (hc : start.Reaches c)
    (q : DiagnosticQueue) : ∀ s ∈ readOne stmt ⟨c, q⟩, s.Everywhere (ReadFrom start) := by
  rw [readOne]
  cases hrun : stmt ⟨c, q⟩ with
  | ok s next => exact List.forall_mem_singleton.mpr ((hstmt c hc).good q s next hrun)
  | error => exact List.forall_mem_nil _

theorem list_good (hstmt : ConductStmt lines start stmt) (ends : TokenKind → Bool) (bound : Nat)
    (q : DiagnosticQueue) (hc : start.Reaches c) :
    ∀ s ∈ (list lines stmt ends bound ⟨c, q⟩).1, s.Everywhere (ReadFrom start) := by
  induction bound generalizing c q with
  | zero => exact List.forall_mem_nil _
  | succ bound ih =>
      rw [list_succ]
      split
      · exact List.forall_mem_nil _
      · exact List.forall_mem_append.mpr
          ⟨readOne_good hstmt hc q, ih _ (hc.trans (afterOne_reported hstmt hc q).1)⟩

/-- What a round reports is in the queue at the end of the list. -/
theorem list_reported_of_afterOne (hstmt : ConductStmt lines start stmt) (bound : Nat)
    {q q' : DiagnosticQueue} (hc : start.Reaches c) (hgoes : stops ends ⟨c, q⟩ = false)
    (h : q'.Reported lines (afterOne lines stmt ⟨c, q⟩).queue) :
    q'.Reported lines (list lines stmt ends (bound + 1) ⟨c, q⟩).2.queue := by
  rw [list_succ, if_neg (Bool.eq_false_iff.mp hgoes)]
  exact h.trans
    (list_reported hstmt ends bound _ (hc.trans (afterOne_reported hstmt hc q).1)).2

/-- A round either reads a statement without a report, for every queue that has not reached its
limit, or reports something to each of them. -/
theorem afterOne_uniform (hstmt : ConductStmt lines start stmt) (hc : start.Reaches c) :
    (∃ s c', ∀ q : DiagnosticQueue, q.limitReached = false → stmt ⟨c, q⟩ = .ok s ⟨c', q⟩) ∨
      ∀ q : DiagnosticQueue, q.limitReached = false → ∃ d : Diagnostic, d.isError = true ∧
        (q.report lines d).Reported lines (afterOne lines stmt ⟨c, q⟩).queue := by
  have hconduct := hstmt c hc
  cases hconduct.uniform with
  | ok s c' hrun => exact .inl ⟨s, c', hrun⟩
  | error d c' hrun =>
      refine .inr fun q hq => ⟨d, hconduct.isError q d _ (hrun q hq), ?_⟩
      rw [afterOne, hrun q hq]
      exact .refl
  | reports hrun =>
      refine .inr fun q hq => ?_
      obtain ⟨d, hd, hreported⟩ := hrun q hq
      refine ⟨d, hd, ?_⟩
      rw [afterOne]
      cases hstep : stmt ⟨c, q⟩ with
      | ok s next =>
          rw [hstep] at hreported
          exact hreported
      | error d' failed =>
          rw [hstep] at hreported
          exact hreported.report d'

/-- A list of statements is either accepted as it stands, for every queue that has not reached its
limit, or something in it is reported to each of them. -/
theorem list_uniform (hstmt : ConductStmt lines start stmt) (ends : TokenKind → Bool)
    (bound : Nat) (hc : start.Reaches c) :
    (∃ body c', (c.kinds.length ≤ bound → c'.atEnd = true ∨ ends c'.kind = true) ∧
        ∀ q : DiagnosticQueue, q.limitReached = false →
          list lines stmt ends bound ⟨c, q⟩ = (body, ⟨c', q⟩) ∧
            AcceptedRun stmt ⟨c, q⟩ body ⟨c', q⟩) ∨
      ∀ q : DiagnosticQueue, q.limitReached = false → ∃ d : Diagnostic, d.isError = true ∧
        (q.report lines d).Reported lines (list lines stmt ends bound ⟨c, q⟩).2.queue := by
  induction bound generalizing c with
  | zero =>
      exact .inl ⟨[], c, fun hbound => absurd hbound c.not_length_le_zero,
        fun q _ => ⟨rfl, .nil _⟩⟩
  | succ bound ih =>
      by_cases hstop : c.kind = .eof ∨ ends c.kind = true
      · refine .inl ⟨[], c, fun _ => ?_, fun q _ => ⟨list_of_stops (stops_of_kind hstop), .nil _⟩⟩
        simpa [Cursor.atEnd] using hstop
      obtain ⟨s, c', hrun⟩ | hreports := afterOne_uniform hstmt hc
      · have hreaches : c.Reaches c' := by
          have hmoved := (hstmt c hc).reaches (.empty ⟨0, false⟩)
          rwa [hrun _ rfl] at hmoved
        have hconsumes : c'.kinds.length + 1 ≤ c.kinds.length :=
          (hstmt c hc).consumes _ s _ (hrun (.empty ⟨0, false⟩) rfl)
        obtain ⟨body, c'', hend, hlist⟩ | hreports := ih (hc.trans hreaches)
        · refine .inl ⟨s :: body, c'', fun hbound => hend (by omega), fun q hq => ?_⟩
          obtain ⟨hbody, haccepted⟩ := hlist q hq
          refine ⟨?_, .cons (hrun q hq) haccepted⟩
          rw [list_of_ok (stops_eq_false hstop hq) (hrun q hq), hbody]
        · refine .inr fun q hq => ?_
          rw [list_of_ok (stops_eq_false hstop hq) (hrun q hq)]
          exact hreports q hq
      · refine .inr fun q hq => ?_
        obtain ⟨d, hd, hreported⟩ := hreports q hq
        exact ⟨d, hd,
          list_reported_of_afterOne hstmt bound hc (stops_eq_false hstop hq) hreported⟩

theorem statements_conduct (hstart : start.Terminated) (hstmt : ConductStmt lines start stmt)
    (ends : TokenKind → Bool) (bound : Nat) (hc : start.Reaches c) :
    Conduct lines (statements lines stmt ends bound) c 0
      (fun body => ∀ s ∈ body, s.Everywhere (ReadFrom start)) := by
  have hrun : ∀ q, statements lines stmt ends bound ⟨c, q⟩ =
      .ok (list lines stmt ends bound ⟨c, q⟩).1 (list lines stmt ends bound ⟨c, q⟩).2 :=
    fun q => rfl
  refine .of_eq_ok hrun (fun q => list_good hstmt ends bound q hc)
    (fun q => (list_reported hstmt ends bound q hc).1.length_le)
    (fun q => list_counted hstart hstmt ends bound q hc) ?_
  obtain ⟨body, c', -, hlist⟩ | hreports := list_uniform hstmt ends bound hc
  · refine .ok body c' fun q hq => ?_
    rw [hrun, (hlist q hq).1]
  · refine .reports fun q hq => ?_
    rw [hrun]
    exact hreports q hq

end Lists

end ParseStmt

end ArmPseudocode

import ArmPseudocode.Proofs.Parser.ExprExtent
import ArmPseudocode.Proofs.Parser.Recovery

/-!
# The extents of statements

A statement ends where the last token consumed for it ends, whether its parts were all read or some
of them were skipped. So the statements of a list, and those inside a statement, have their places
between the cursors where reading began and ended. The one exception is the arm of a case that
consumes nothing: its span is put together from the tokens on both sides of the place where it
would be, and both of them belong to the case.
-/

namespace ArmPseudocode

open ParseStmt (stmtAt indentedBlock armBody)

def Stmt.blockBody {α : Type} : Stmt α → List (Stmt α)
  | .block _ body => body
  | _ => []

/-- The parser reads the statement between two cursors: as a statement of its own, as a block
between markers, or as the plain run of statements of a case arm. -/
inductive Stmt.ReadBetween (lines : LineTable) (c : Cursor) (s : Stmt Span) (c' : Cursor) : Prop
  | statement (bound : Nat) (q q' : DiagnosticQueue)
      (hrun : stmtAt lines bound ⟨c, q⟩ = .ok s ⟨c', q'⟩)
  | block (bound rounds : Nat) (q q' : DiagnosticQueue)
      (hrun : indentedBlock lines (stmtAt lines bound) rounds ⟨c, q⟩ = .ok s ⟨c', q'⟩)
  | arm (bound rounds : Nat) (q q' : DiagnosticQueue) (hkind : c.kind ≠ .indent)
      (hrun : armBody lines (stmtAt lines bound) rounds ⟨c, q⟩ = .ok s ⟨c', q'⟩)

/-- The span of a statement goes from the first token consumed for it to the last, or the statement
is the arm of a case for which nothing was consumed. -/
inductive Stmt.Extent (lines : LineTable) (start : Cursor) (s : Stmt Span) : Prop
  | consumed (c c' : Cursor) (ts : List Token) (hreaches : start.Reaches c)
      (hconsumes : c.Consumes ts c') (hread : s.ReadBetween lines c c')
      (hdelimits : s.info.Delimits ts)
  | emptyArm (c : Cursor) (bound rounds : Nat) (q q' : DiagnosticQueue)
      (hreaches : start.Reaches c) (hkind : c.kind ≠ .indent)
      (hrun : armBody lines (stmtAt lines bound) rounds ⟨c, q⟩ = .ok (.block s.info []) ⟨c, q'⟩)
      (heq : s = .block s.info [])

/-- The span of a statement that was read in a text of so many bytes covers the spans of all
statements and expressions inside it, which have the right spans themselves, and the statements of a
list do not overlap. -/
structure Stmt.WellSpanned (lines : LineTable) (start : Cursor) (size : Nat) (s : Stmt Span) :
    Prop where
  ordered : s.info.start ≤ s.info.stop
  bounded : s.info.stop ≤ size
  contains : ∀ x ∈ s.walk, s.info.Contains x.info
  exprs : ∀ e ∈ s.exprs, ∀ x ∈ e.walk, x.WellSpanned start size ∧ s.info.Contains x.info
  body : s.blockBody.Pairwise fun a b => a.info.Precedes b.info
  extent : s.Extent lines start

def StmtsIn (lines : LineTable) (start : Cursor) (size : Nat) (c c' : Cursor)
    (ss : List (Stmt Span)) : Prop :=
  ∀ s ∈ ss, s.WellSpanned lines start size ∧ c.Between c' s.info

structure Stmt.Placed (lines : LineTable) (start : Cursor) (size : Nat) (c : Cursor) (s : Stmt Span)
    (c' : Cursor) : Prop where
  advances : c.Advances c'
  info_eq : s.info = c.spanTo c'
  inside : StmtsIn lines start size c c' s.walk

/-- The statement takes up the way from one cursor to the other, and its parts have their places
there. -/
structure Stmt.Shaped (lines : LineTable) (start : Cursor) (size : Nat) (c : Cursor) (s : Stmt Span)
    (c' : Cursor) : Prop where
  advances : c.Advances c'
  info_eq : s.info = c.spanTo c'
  exprs : ∀ e ∈ s.exprs, ExprsIn start size c c' e.walk
  parts : StmtsIn lines start size c c' s.walk.tail
  body : s.blockBody.Pairwise fun a b => a.info.Precedes b.info

variable {lines : LineTable} {start : Cursor} {size : Nat} {a c c' d : Cursor}

theorem Stmt.walk_eq_cons {α : Type} (s : Stmt α) : s.walk = s :: s.walk.tail := by
  cases s <;> rfl

namespace StmtsIn

variable {ss ss' : List (Stmt Span)}

theorem nil : StmtsIn lines start size c c' [] := List.forall_mem_nil _

theorem append (h : StmtsIn lines start size c c' ss) (h' : StmtsIn lines start size c c' ss') :
    StmtsIn lines start size c c' (ss ++ ss') :=
  List.forall_mem_append.mpr ⟨h, h'⟩

theorem widen (h : StmtsIn lines start size c c' ss) (ha : start.Place size a) (hac : a.Reaches c)
    (hcd : c.Reaches c') (hd : c'.Reaches d) : StmtsIn lines start size a d ss :=
  fun s hs => ⟨(h s hs).1, (h s hs).2.widen ha hac hcd hd⟩

theorem onward (h : StmtsIn lines start size a c ss) (ha : start.Place size a) (hac : a.Reaches c)
    (hcd : c.Reaches d) : StmtsIn lines start size a d ss :=
  h.widen ha (.refl a) hac hcd

end StmtsIn

theorem Stmt.Shaped.placed {s : Stmt Span} (h : Stmt.Shaped lines start size c s c')
    (hc : start.Place size c) (hread : s.ReadBetween lines c c') :
    Stmt.Placed lines start size c s c' := by
  obtain ⟨hadvances, hinfo, hexprs, hparts, hbody⟩ := h
  have hwell : s.WellSpanned lines start size := by
    constructor
    · rw [hinfo]
      exact hc.fore_le_rear hadvances
    · rw [hinfo]
      exact (hc.of_reaches hadvances.reaches).rear_le_size
    · rw [s.walk_eq_cons, hinfo]
      exact List.forall_mem_cons.mpr
        ⟨hinfo ▸ Span.contains_refl _, fun x hx => (hparts x hx).2⟩
    · rw [hinfo]
      exact hexprs
    · exact hbody
    · obtain ⟨ts, hts, hconsumes⟩ := hadvances
      exact .consumed c c' ts hc.reaches hconsumes hread (hinfo ▸ hconsumes.delimits hts)
  refine ⟨hadvances, hinfo, ?_⟩
  rw [s.walk_eq_cons]
  exact List.forall_mem_cons.mpr ⟨⟨hwell, hinfo ▸ Cursor.between_spanTo c c'⟩, hparts⟩

namespace ParseStmt

variable {β γ : Type}

def Arrives (step : ParseStmt β) (c : Cursor) (Q : β → Cursor → Prop) : Prop :=
  ∀ q b s, step ⟨c, q⟩ = .ok b s → c.Reaches s.cursor ∧ Q b s.cursor

namespace Arrives

variable {step : ParseStmt β} {next : β → ParseStmt γ} {Q : β → Cursor → Prop}
  {R : γ → Cursor → Prop}

theorem pure {b : β} (h : Q b c) : Arrives (Pure.pure b) c Q := by
  intro q b' s hrun
  obtain ⟨rfl, rfl⟩ := of_pure_eq_ok hrun
  exact ⟨.refl c, h⟩

theorem throw (d : Diagnostic) : Arrives (MonadExcept.throw d) c Q := by
  intro q b s hrun
  cases hrun

theorem throw_bind (d : Diagnostic) :
    Arrives ((MonadExcept.throw d : ParseStmt β) >>= next) c R := by
  intro q b s hrun
  cases hrun

theorem bind (h : Arrives step c Q)
    (hnext : ∀ b c', c.Reaches c' → Q b c' → Arrives (next b) c' R) :
    Arrives (step >>= next) c R := by
  intro q x s hrun
  obtain ⟨b, mid, hstep, hrun⟩ := of_bind_eq_ok hrun
  obtain ⟨hreaches, hb⟩ := h q b mid hstep
  obtain ⟨hreaches', hx⟩ := hnext b mid.cursor hreaches hb mid.queue x s hrun
  exact ⟨hreaches.trans hreaches', hx⟩

theorem lift {p : Parse β} (h : Parse.Arrives p c Q) : Arrives (liftM p) c Q := by
  intro q b s hrun
  cases hp : p c with
  | ok b' c' =>
      rw [lift_of_eq_ok hp] at hrun
      cases hrun
      exact h b c' hp
  | error e c' =>
      rw [lift_of_eq_error hp] at hrun
      cases hrun

theorem forward {p : Parse β} (h : Parse.Forward p) : Arrives (liftM p) c fun _ _ => True :=
  lift (.forward h)

theorem imp {Q' : β → Cursor → Prop} (h : Arrives step c Q)
    (himp : ∀ b c', c.Reaches c' → Q b c' → Q' b c') : Arrives step c Q' :=
  fun q b s hrun => ⟨(h q b s hrun).1, himp b s.cursor (h q b s hrun).1 (h q b s hrun).2⟩

theorem reading {next : TokenKind → ParseStmt γ} (h : Arrives (next c.kind) c R) :
    Arrives (liftM Parse.kind >>= next) c R := h

theorem reading_span {next : Span → ParseStmt γ} (h : Arrives (next c.here.span) c R) :
    Arrives (liftM Parse.span >>= next) c R := h

theorem reading_spanFrom {span : Span} {next : Span → ParseStmt γ}
    (h : Arrives (next (span.merge c.lastSpan)) c R) : Arrives (spanFrom span >>= next) c R := h

theorem advancing {next : Span → ParseStmt γ} (hc : c.Terminated) (hkind : c.kind ≠ .eof)
    (h : c.Advances c.advance → Arrives (next c.here.span) c.advance R) :
    Arrives (liftM Parse.advance >>= next) c R := by
  have hadvances : c.Advances c.advance := .of_passes (Cursor.passes_advance hc hkind) (by simp)
  intro q x s hrun
  obtain ⟨hreaches, hx⟩ := h hadvances q x s hrun
  exact ⟨hadvances.reaches.trans hreaches, hx⟩

theorem unlessLimited {blamed excused : ParseStmt γ} (hblamed : Arrives blamed c R)
    (hexcused : Arrives excused c R) :
    Arrives (do if !(← get).queue.limitReached then blamed else excused) c R := by
  intro q x s hrun
  have heq : (do if !(← get).queue.limitReached then blamed else excused : ParseStmt γ) ⟨c, q⟩ =
      (if (!q.limitReached) = true then blamed else excused) ⟨c, q⟩ := rfl
  rw [heq] at hrun
  split at hrun
  · exact hblamed q x s hrun
  · exact hexcused q x s hrun

end Arrives

/-- Within a bound on the tokens left, the step that reads statements places them. -/
def Places (lines : LineTable) (start : Cursor) (size bound : Nat) : Prop :=
  ∀ c, start.Place size c → c.kinds.length ≤ bound →
    Arrives (stmtAt lines bound) c (Stmt.Placed lines start size c)

/-! ### Lists of statements -/

/-- Statements read one behind the other on the way between two cursors, which goes over a token at
least unless nothing happens. -/
structure Listed (lines : LineTable) (start : Cursor) (size : Nat) (c : Cursor)
    (body : List (Stmt Span)) (c' : Cursor) : Prop where
  inside : ∀ s ∈ body, StmtsIn lines start size c c' s.walk
  ascending : body.Pairwise fun a b => a.info.Precedes b.info
  advances : c' = c ∧ body = [] ∨ c.Advances c'

theorem between_of_inside {s : Stmt Span} (h : StmtsIn lines start size c c' s.walk) :
    c.Between c' s.info :=
  (h s (by rw [s.walk_eq_cons]; exact List.mem_cons_self)).2

namespace Listed

variable {body rest : List (Stmt Span)}

theorem nil : Listed lines start size c [] c := ⟨List.forall_mem_nil _, .nil, .inl ⟨rfl, rfl⟩⟩

theorem append (hc : start.Place size c) (h : Listed lines start size c body c')
    (hadvances : c.Advances c') (h' : Listed lines start size c' rest d) (hd : c'.Reaches d) :
    Listed lines start size c (body ++ rest) d := by
  have hc' := hc.of_reaches hadvances.reaches
  constructor
  · refine List.forall_mem_append.mpr ⟨fun s hs => ?_, fun s hs => ?_⟩
    · exact (h.inside s hs).onward hc hadvances.reaches hd
    · exact (h'.inside s hs).widen hc hadvances.reaches hd (.refl d)
  · refine List.pairwise_append.mpr ⟨h.ascending, h'.ascending, fun s hs s' hs' => ?_⟩
    have hstop := (between_of_inside (h.inside s hs)).2
    have hstart := (between_of_inside (h'.inside s' hs')).1
    exact Nat.le_trans hstop (Nat.le_trans hc'.rear_le_fore hstart)
  · exact .inr (hadvances.trans_reaches hd)

end Listed

section Lists

variable {bound : Nat} (hstmt : Places lines start size bound)

include hstmt

theorem round_listed (hc : start.Place size c) (hbound : c.kinds.length ≤ bound)
    (hend : c.atEnd = false) (q : DiagnosticQueue) :
    Listed lines start size c (readOne (stmtAt lines bound) ⟨c, q⟩)
        (afterOne lines (stmtAt lines bound) ⟨c, q⟩).cursor ∧
      c.Advances (afterOne lines (stmtAt lines bound) ⟨c, q⟩).cursor := by
  have hconduct := stmtAt_conduct lines hc.terminated bound
  have hreaches := (afterOne_reported hconduct (.refl c) q).1
  have hadvances := hreaches.advances (afterOne_consumes hc.terminated hconduct (.refl c) hend q)
  refine ⟨?_, hadvances⟩
  rw [readOne]
  rw [afterOne] at hadvances ⊢
  cases hrun : stmtAt lines bound ⟨c, q⟩ with
  | ok s next =>
      have hs := (hstmt c hc hbound q s next hrun).2
      exact ⟨List.forall_mem_singleton.mpr hs.inside, List.pairwise_singleton _ _,
        .inr hs.advances⟩
  | error e failed =>
      rw [hrun] at hadvances
      exact ⟨List.forall_mem_nil _, .nil, .inr hadvances⟩

/-- A list keeps its statements in order, those that it drops leaving gaps between the others. -/
theorem list_listed (hc : start.Place size c) (hbound : c.kinds.length ≤ bound)
    (ends : TokenKind → Bool) (rounds : Nat) (q : DiagnosticQueue) :
    c.Reaches (list lines (stmtAt lines bound) ends rounds ⟨c, q⟩).2.cursor ∧
      Listed lines start size c (list lines (stmtAt lines bound) ends rounds ⟨c, q⟩).1
        (list lines (stmtAt lines bound) ends rounds ⟨c, q⟩).2.cursor := by
  induction rounds generalizing c q with
  | zero => exact ⟨.refl c, .nil⟩
  | succ rounds ih =>
      rw [list_succ]
      split
      · exact ⟨.refl c, .nil⟩
      · next hgoes =>
          obtain ⟨hround, hadvances⟩ :=
            round_listed hstmt hc hbound (atEnd_of_not_stops hgoes) q
          have hlength := hadvances.length
          obtain ⟨hreaches, hrest⟩ := ih (hc.of_reaches hadvances.reaches) (by omega)
            (afterOne lines (stmtAt lines bound) ⟨c, q⟩).queue
          exact ⟨hadvances.reaches.trans hreaches, hround.append hc hadvances hrest hreaches⟩

theorem statements_arrives (hc : start.Place size c) (hbound : c.kinds.length ≤ bound)
    (ends : TokenKind → Bool) (rounds : Nat) :
    Arrives (statements lines (stmtAt lines bound) ends rounds) c (Listed lines start size c) := by
  intro q body s hrun
  have hlisted := list_listed hstmt hc hbound ends rounds q
  cases hrun
  exact hlisted

end Lists

end ParseStmt

end ArmPseudocode

import ArmPseudocode.Proofs.Parser.StmtExtent

/-!
# The extents of the forms of statements

Each form of statement takes up the way from its first token to the last one consumed for it, with
its tests and bodies in between. The places of the arms of a case need the marker that closes it:
an arm without a token reaches over the token behind it, and the case goes on at least to there.
-/

namespace ArmPseudocode.ParseStmt

variable {lines : LineTable} {start : Cursor} {size bound : Nat} {a c c' z : Cursor}

/-! ### Expressions -/

theorem expr_arrives (rounds : Nat) (ha : start.Place size a) (hac : a.Advances c) :
    Arrives (liftM (Parse.expr rounds)) c fun e d => ExprsIn start size a d e.walk :=
  .lift ((Parse.expr_places rounds).gathers a c ha hac.reaches)

theorem exprs_arrives (rounds rounds' : Nat) (ha : start.Place size a) (hac : a.Advances c) :
    Arrives (liftM (Parse.commaSeparated (Parse.expr rounds) rounds')) c fun es d =>
      ∀ e ∈ es, ExprsIn start size a d e.walk :=
  (Arrives.lift (Parse.commaSeparated_gathers (Parse.expr_places rounds).gathers rounds' a c ha
    hac.reaches)).imp fun _ _ _ => ExprsIn.forall_flatMap.mp

theorem patterns_arrives (rounds : Nat) (ha : start.Place size a) (hac : a.Advances c) :
    Arrives (liftM (Parse.patterns rounds)) c fun es d =>
      ∀ e ∈ es, ExprsIn start size a d e.walk :=
  (Arrives.lift (Parse.patterns_gathers rounds a c ha hac.reaches)).imp
    fun _ _ _ => ExprsIn.forall_flatMap.mp

/-- A form that, with the span from its first token to its last, takes up the way from one cursor to
the other. -/
def FormIn (lines : LineTable) (start : Cursor) (size : Nat) (c : Cursor) (form : Span → Stmt Span)
    (c' : Cursor) : Prop :=
  Stmt.Shaped lines start size c (form (c.spanTo c')) c'

/-! ### Forms without a body -/

section Leaves

variable (hc : start.Place size c)

include hc

theorem terminal_arrives {form : Span → Stmt Span} (hkind : c.kind ≠ .eof)
    (hform : ∀ span, (form span).info = span ∧ (form span).exprs = [] ∧
      (form span).walk.tail = [] ∧ (form span).blockBody = []) :
    Arrives (terminal form) c (FormIn lines start size c) := by
  rw [terminal]
  refine .advancing hc.terminated hkind fun h₁ => ?_
  refine (Arrives.forward (.expect _)).bind fun _ d hd _ => .pure ?_
  obtain ⟨hinfo, hexprs, hparts, hbody⟩ := hform (c.spanTo d)
  refine ⟨h₁.trans_reaches hd, hinfo, ?_, ?_, ?_⟩
  · rw [hexprs]
    exact List.forall_mem_nil _
  · rw [hparts]
    exact .nil
  · rw [hbody]
    exact .nil

theorem simple_arrives (rounds : Nat) : Arrives (simple rounds) c (FormIn lines start size c) := by
  rw [simple]
  refine (Arrives.lift (Parse.expr_places rounds c hc)).bind fun target c₁ _ htarget => ?_
  have h₁ := htarget.advances
  refine (Arrives.forward (.eat _)).bind fun found c₂ h₁₂ _ => ?_
  have h₂ := h₁.trans_reaches h₁₂
  have htarget₂ := htarget.inside.onward hc h₁.reaches h₁₂
  split
  · refine (expr_arrives rounds hc h₂).bind fun value c₃ h₂₃ hvalue => ?_
    have h₃ := h₂.trans_reaches h₂₃
    refine (Arrives.forward (.expect _)).bind fun _ c₄ h₃₄ _ => .pure ?_
    refine ⟨h₃.trans_reaches h₃₄, rfl, ?_, .nil, .nil⟩
    refine List.forall_mem_cons.mpr ⟨htarget₂.onward hc h₂.reaches (h₂₃.trans h₃₄), ?_⟩
    exact List.forall_mem_singleton.mpr (hvalue.onward hc h₃.reaches h₃₄)
  · refine (Arrives.forward (.expect _)).bind fun _ c₃ h₂₃ _ => .pure ?_
    have htarget₃ := htarget₂.onward hc h₂.reaches h₂₃
    split
    · exact ⟨h₂.trans_reaches h₂₃, rfl, List.forall_mem_singleton.mpr htarget₃, .nil, .nil⟩
    · exact ⟨h₂.trans_reaches h₂₃, rfl, List.forall_mem_singleton.mpr htarget₃, .nil, .nil⟩

theorem giveBack_arrives (rounds : Nat) (hkind : c.kind ≠ .eof) :
    Arrives (giveBack rounds) c (FormIn lines start size c) := by
  rw [giveBack]
  refine .advancing hc.terminated hkind fun h₁ => ?_
  refine (Arrives.forward (.isAt _)).bind fun found c₂ h₁₂ _ => ?_
  have h₂ := h₁.trans_reaches h₁₂
  have hend : ∀ {values : List (Expr Span)} {d : Cursor}, c.Advances d →
      (∀ e ∈ values, ExprsIn start size c d e.walk) → Arrives (do
        let _ ← Parse.expect .semicolon
        return (.giveBack · values) : ParseStmt (Span → Stmt Span)) d
        (FormIn lines start size c) := by
    intro values d hd hvalues
    refine (Arrives.forward (.expect _)).bind fun _ d' hd' _ => .pure ?_
    exact ⟨hd.trans_reaches hd', rfl, fun e he => (hvalues e he).onward hc hd.reaches hd', .nil,
      .nil⟩
  split
  · exact hend h₂ (List.forall_mem_nil _)
  · exact (exprs_arrives rounds rounds hc h₂).bind fun values c₃ h₂₃ hvalues =>
      hend (h₂.trans_reaches h₂₃) hvalues

theorem assertion_arrives (rounds : Nat) (hkind : c.kind ≠ .eof) :
    Arrives (assertion rounds) c (FormIn lines start size c) := by
  rw [assertion]
  refine .advancing hc.terminated hkind fun h₁ => ?_
  refine (expr_arrives rounds hc h₁).bind fun e c₂ h₁₂ he => ?_
  have h₂ := h₁.trans_reaches h₁₂
  refine (Arrives.forward (.expect _)).bind fun _ c₃ h₂₃ _ => .pure ?_
  exact ⟨h₂.trans_reaches h₂₃, rfl,
    List.forall_mem_singleton.mpr (he.onward hc h₂.reaches h₂₃), .nil, .nil⟩

theorem enumeration_arrives (rounds : Nat) (hkind : c.kind ≠ .eof) :
    Arrives (enumeration rounds) c (FormIn lines start size c) := by
  rw [enumeration]
  refine .advancing hc.terminated hkind fun h₁ => ?_
  refine (Arrives.forward .expectName).bind fun id c₂ h₁₂ _ => ?_
  refine (Arrives.forward (.expect _)).bind fun opened c₃ h₂₃ _ => ?_
  refine (Arrives.forward (.isAt _)).bind fun found c₄ h₃₄ _ => ?_
  have h₄ := h₁.trans_reaches (h₁₂.trans (h₂₃.trans h₃₄))
  have hend : ∀ {values : List String} {d : Cursor}, c.Advances d → Arrives (do
      Parse.close opened '\x7b' .closeBrace
      let _ ← Parse.eat .semicolon
      return (.enumeration · id values) : ParseStmt (Span → Stmt Span)) d
      (FormIn lines start size c) := by
    intro values d hd
    refine (Arrives.forward (.close _ _ _)).bind fun _ d₁ hd₁ _ => ?_
    refine (Arrives.forward (.eat _)).bind fun _ d₂ hd₂ _ => .pure ?_
    exact ⟨hd.trans_reaches (hd₁.trans hd₂), rfl, List.forall_mem_nil _, .nil, .nil⟩
  split
  · exact hend h₄
  · exact (Arrives.forward (Parse.Forward.expectName.commaSeparated rounds)).bind
      fun _ _ h₄₅ _ => hend (h₄.trans_reaches h₄₅)

end Leaves

/-! ### Bodies -/

/-- The body of an arm has its place between any token in front of it and any token behind it. -/
def ArmIn (lines : LineTable) (start : Cursor) (size : Nat) (c : Cursor) (s : Stmt Span)
    (c' : Cursor) : Prop :=
  ∀ a z, start.Place size a → a.Advances c → c'.Advances z → StmtsIn lines start size a z s.walk

theorem emptyArm_inside {rounds : Nat} {q q' : DiagnosticQueue} (ha : start.Place size a)
    (hac : a.Advances c) (hcz : c.Advances z) (hkind : c.kind ≠ .indent)
    (hrun : armBody lines (stmtAt lines bound) rounds ⟨c, q⟩ =
      .ok (.block (c.here.span.merge c.lastSpan) []) ⟨c, q'⟩) :
    StmtsIn lines start size a z (Stmt.block (c.here.span.merge c.lastSpan) []).walk := by
  have hc := ha.of_reaches hac.reaches
  have hlast := ha.last_bounds hac
  have hbehind := hc.rear_le_fore
  have hhere := hc.bounds List.mem_cons_self
  have hnext := hc.last_bounds hcz
  have hmerge : c.here.span.merge c.lastSpan = ⟨c.lastSpan.start, c.here.span.stop⟩ := by
    rw [Cursor.rear, Cursor.fore] at *
    rw [Span.merge, Nat.min_eq_right (by omega), Nat.max_eq_left (by omega)]
  rw [hmerge] at hrun ⊢
  refine List.forall_mem_singleton.mpr ⟨⟨?_, ?_, ?_, List.forall_mem_nil _, .nil, ?_⟩,
    hlast.1, hnext.2.1⟩
  · rw [Cursor.rear, Cursor.fore] at *
    dsimp only [Stmt.info]
    omega
  · exact hhere.2
  · exact List.forall_mem_singleton.mpr (Span.contains_refl _)
  · exact .emptyArm c bound rounds q q' hc.reaches hkind hrun rfl

section Bodies

variable (hstmt : Places lines start size bound)

include hstmt

theorem indentedBlock_arrives (rounds : Nat) (hc : start.Place size c)
    (hbound : c.kinds.length ≤ bound + 1) :
    Arrives (indentedBlock lines (stmtAt lines bound) rounds) c
      (Stmt.Placed lines start size c) := by
  have hopen : Parse.Arrives (Parse.expectKind .indent) c
      fun span d => span = c.here.span ∧ c.Advances d := by
    intro span d hrun
    have hpass := Parse.of_expectKind hc.terminated (by simp) hrun
    rw [Parse.expectKind_run] at hrun
    split at hrun
    · cases hrun
      exact ⟨hpass.reaches, rfl, .of_passes hpass (List.cons_ne_nil _ _)⟩
    · cases hrun
  have hshaped : Arrives (indentedBlock lines (stmtAt lines bound) rounds) c
      (Stmt.Shaped lines start size c) := by
    rw [indentedBlock]
    refine (Arrives.lift hopen).bind ?_
    rintro opened c₁ h₁ ⟨hopened, hadvances⟩
    have hlength := hadvances.length
    refine (statements_arrives hstmt (hc.of_reaches h₁) (by omega) endsBlock rounds).bind
      fun body c₂ h₂ hbody => ?_
    have hend : ∀ {d : Cursor}, c₂.Reaches d → Arrives (do
        return .block (← spanFrom opened) body : ParseStmt (Stmt Span)) d
        (Stmt.Shaped lines start size c) := by
      intro d hd
      have hall := hadvances.trans_reaches (h₂.trans hd)
      refine .reading_spanFrom (.pure ⟨hall, ?_, List.forall_mem_nil _, ?_, hbody.ascending⟩)
      · rw [hopened]
        exact hc.merge_here hall
      · exact Stmt.forall_walkAll.mpr fun s hs => (hbody.inside s hs).widen hc h₁ h₂ hd
    apply Arrives.reading
    split
    · exact (Arrives.forward .advance).bind fun _ d hd _ => hend hd
    · exact .unlessLimited (.reading_span (.throw_bind _)) (hend (.refl c₂))
  intro q s state hrun
  obtain ⟨hreaches, hs⟩ := hshaped q s state hrun
  exact ⟨hreaches, hs.placed hc (.block bound rounds q state.queue hrun)⟩

theorem body_arrives (rounds : Nat) (hc : start.Place size c) (hbound : c.kinds.length ≤ bound) :
    Arrives (body lines (stmtAt lines bound) rounds) c (Stmt.Placed lines start size c) := by
  rw [body]
  apply Arrives.reading
  split
  · exact indentedBlock_arrives hstmt rounds hc (by omega)
  · exact hstmt c hc hbound

theorem armBody_arrives (rounds : Nat) (hc : start.Place size c) (hbound : c.kinds.length ≤ bound) :
    Arrives (armBody lines (stmtAt lines bound) rounds) c (ArmIn lines start size c) := by
  by_cases hkind : c.kind = .indent
  · have hblock : Arrives (armBody lines (stmtAt lines bound) rounds) c
        (Stmt.Placed lines start size c) := by
      rw [armBody]
      apply Arrives.reading
      rw [if_pos hkind]
      exact indentedBlock_arrives hstmt rounds hc (by omega)
    refine hblock.imp fun s c' hreaches hs a z ha hac hz => ?_
    exact hs.inside.widen ha hac.reaches hreaches hz.reaches
  · have hlisted : Arrives (armBody lines (stmtAt lines bound) rounds) c fun s c' =>
        ∃ body, s = .block (c.here.span.merge c'.lastSpan) body ∧
          Listed lines start size c body c' := by
      rw [armBody]
      apply Arrives.reading
      rw [if_neg hkind]
      apply Arrives.reading_span
      refine (statements_arrives hstmt hc hbound endsArm rounds).bind fun body d _ hbody => ?_
      exact .reading_spanFrom (.pure ⟨body, rfl, hbody⟩)
    rintro q s ⟨c', q'⟩ hrun
    obtain ⟨hreaches, body, rfl, hbody⟩ := hlisted q s ⟨c', q'⟩ hrun
    refine ⟨hreaches, fun a z ha hac hz => ?_⟩
    obtain ⟨rfl, rfl⟩ | hadvances := hbody.advances
    · exact emptyArm_inside ha hac hz hkind hrun
    · have hshaped : Stmt.Shaped lines start size c (.block (c.here.span.merge c'.lastSpan) body)
          c' :=
        ⟨hadvances, hc.merge_here hadvances, List.forall_mem_nil _,
          Stmt.forall_walkAll.mpr hbody.inside, hbody.ascending⟩
      exact (hshaped.placed hc (.arm bound rounds q q' hkind hrun)).inside.widen ha hac.reaches
        hreaches hz.reaches

theorem nested_arrives (rounds : Nat) (hc : start.Place size c)
    (hbound : c.kinds.length ≤ bound + 1) (hcd : c.Advances c') :
    Arrives (body lines (stmtAt lines bound) rounds) c' fun s d =>
      StmtsIn lines start size c d s.walk := by
  have hlength := hcd.length
  refine (body_arrives hstmt rounds (hc.of_reaches hcd.reaches) (by omega)).imp fun s d hd hs => ?_
  exact hs.inside.widen hc hcd.reaches hd (.refl d)

/-! ### Forms with bodies -/

variable (hc : start.Place size c) (hbound : c.kinds.length ≤ bound + 1)

include hc hbound

theorem repeatUntil_arrives (rounds : Nat) (hkind : c.kind ≠ .eof) :
    Arrives (repeatUntil lines (stmtAt lines bound) rounds) c (FormIn lines start size c) := by
  rw [repeatUntil]
  refine .advancing hc.terminated hkind fun h₁ => ?_
  refine (nested_arrives hstmt rounds hc hbound h₁).bind fun inner c₂ h₁₂ hinner => ?_
  have h₂ := h₁.trans_reaches h₁₂
  refine (Arrives.forward (.expect _)).bind fun _ c₃ h₂₃ _ => ?_
  have h₃ := h₂.trans_reaches h₂₃
  refine (expr_arrives rounds hc h₃).bind fun test c₄ h₃₄ htest => ?_
  have h₄ := h₃.trans_reaches h₃₄
  refine (Arrives.forward (.expect _)).bind fun _ c₅ h₄₅ _ => .pure ?_
  exact ⟨h₄.trans_reaches h₄₅, rfl,
    List.forall_mem_singleton.mpr (htest.onward hc h₄.reaches h₄₅),
    hinner.onward hc h₂.reaches (h₂₃.trans (h₃₄.trans h₄₅)), .nil⟩

theorem whileDo_arrives (rounds : Nat) (hkind : c.kind ≠ .eof) :
    Arrives (whileDo lines (stmtAt lines bound) rounds) c (FormIn lines start size c) := by
  rw [whileDo]
  refine .advancing hc.terminated hkind fun h₁ => ?_
  refine (expr_arrives rounds hc h₁).bind fun test c₂ h₁₂ htest => ?_
  have h₂ := h₁.trans_reaches h₁₂
  refine (Arrives.forward (.expect _)).bind fun _ c₃ h₂₃ _ => ?_
  have h₃ := h₂.trans_reaches h₂₃
  refine (nested_arrives hstmt rounds hc hbound h₃).bind fun inner c₄ h₃₄ hinner => .pure ?_
  exact ⟨h₃.trans_reaches h₃₄, rfl,
    List.forall_mem_singleton.mpr (htest.onward hc h₂.reaches (h₂₃.trans h₃₄)), hinner, .nil⟩

theorem forTo_arrives (rounds : Nat) (hkind : c.kind ≠ .eof) :
    Arrives (forTo lines (stmtAt lines bound) rounds) c (FormIn lines start size c) := by
  rw [forTo]
  refine .advancing hc.terminated hkind fun h₁ => ?_
  refine (Arrives.forward .expectName).bind fun var c₂ h₁₂ _ => ?_
  refine (Arrives.forward (.expect _)).bind fun _ c₃ h₂₃ _ => ?_
  have h₃ := h₁.trans_reaches (h₁₂.trans h₂₃)
  refine (expr_arrives rounds hc h₃).bind fun first c₄ h₃₄ hfirst => ?_
  have h₄ := h₃.trans_reaches h₃₄
  refine (Arrives.forward (.expect _)).bind fun _ c₅ h₄₅ _ => ?_
  have h₅ := h₄.trans_reaches h₄₅
  refine (expr_arrives rounds hc h₅).bind fun last c₆ h₅₆ hlast => ?_
  have h₆ := h₅.trans_reaches h₅₆
  refine (Arrives.forward (.expect _)).bind fun _ c₇ h₆₇ _ => ?_
  have h₇ := h₆.trans_reaches h₆₇
  refine (nested_arrives hstmt rounds hc hbound h₇).bind fun inner c₈ h₇₈ hinner => .pure ?_
  have h₆₈ := h₆₇.trans h₇₈
  refine ⟨h₇.trans_reaches h₇₈, rfl, ?_, hinner, .nil⟩
  refine List.forall_mem_cons.mpr
    ⟨hfirst.onward hc h₄.reaches (h₄₅.trans (h₅₆.trans h₆₈)), ?_⟩
  exact List.forall_mem_singleton.mpr (hlast.onward hc h₆.reaches h₆₈)

theorem elsifs_arrives (limit rounds : Nat) (hcd : c.Advances c') :
    Arrives (elsifs lines (stmtAt lines bound) limit rounds) c' fun arms d =>
      (∀ e ∈ arms.map (·.1), ExprsIn start size c d e.walk) ∧
        StmtsIn lines start size c d (Stmt.walkElsifs arms) := by
  induction rounds generalizing c' with
  | zero => exact .pure ⟨List.forall_mem_nil _, .nil⟩
  | succ rounds ih =>
      rw [elsifs]
      refine (Arrives.forward (.eat _)).bind fun found c₁ h₀₁ _ => ?_
      have h₁ := hcd.trans_reaches h₀₁
      split
      · refine (expr_arrives limit hc h₁).bind fun test c₂ h₁₂ htest => ?_
        have h₂ := h₁.trans_reaches h₁₂
        refine (Arrives.forward (.expect _)).bind fun _ c₃ h₂₃ _ => ?_
        have h₃ := h₂.trans_reaches h₂₃
        refine (nested_arrives hstmt limit hc hbound h₃).bind fun first c₄ h₃₄ hfirst => ?_
        have h₄ := h₃.trans_reaches h₃₄
        refine (ih h₄).bind ?_
        rintro rest c₅ h₄₅ ⟨htests, hrest⟩
        refine .pure ⟨?_, ?_⟩
        · exact List.forall_mem_cons.mpr
            ⟨htest.onward hc h₂.reaches (h₂₃.trans (h₃₄.trans h₄₅)), htests⟩
        · exact (hfirst.onward hc h₄.reaches h₄₅).append hrest
      · exact .pure ⟨List.forall_mem_nil _, .nil⟩

theorem branch_arrives (rounds : Nat) (hkind : c.kind ≠ .eof) :
    Arrives (branch lines (stmtAt lines bound) rounds) c (FormIn lines start size c) := by
  rw [branch]
  refine .advancing hc.terminated hkind fun h₁ => ?_
  refine (expr_arrives rounds hc h₁).bind fun test c₂ h₁₂ htest => ?_
  have h₂ := h₁.trans_reaches h₁₂
  refine (Arrives.forward (.expect _)).bind fun _ c₃ h₂₃ _ => ?_
  have h₃ := h₂.trans_reaches h₂₃
  refine (nested_arrives hstmt rounds hc hbound h₃).bind fun first c₄ h₃₄ hfirst => ?_
  have h₄ := h₃.trans_reaches h₃₄
  refine (elsifs_arrives hstmt hc hbound rounds rounds h₄).bind ?_
  rintro others c₅ h₄₅ ⟨htests, hothers⟩
  have h₅ := h₄.trans_reaches h₄₅
  refine (Arrives.forward (.eat _)).bind fun found c₆ h₅₆ _ => ?_
  have h₆ := h₅.trans_reaches h₅₆
  have hsofar : ∀ {d : Cursor}, c₅.Reaches d →
      (∀ e ∈ test :: others.map (·.1), ExprsIn start size c d e.walk) ∧
        StmtsIn lines start size c d (first.walk ++ Stmt.walkElsifs others) := by
    intro d hd
    refine ⟨List.forall_mem_cons.mpr ⟨?_, fun e he => (htests e he).onward hc h₅.reaches hd⟩, ?_⟩
    · exact htest.onward hc h₂.reaches (h₂₃.trans (h₃₄.trans (h₄₅.trans hd)))
    · exact (hfirst.onward hc h₄.reaches (h₄₅.trans hd)).append (hothers.onward hc h₅.reaches hd)
  split
  · refine (nested_arrives hstmt rounds hc hbound h₆).bind fun last c₇ h₆₇ hlast => .pure ?_
    obtain ⟨hexprs, hparts⟩ := hsofar (h₅₆.trans h₆₇)
    exact ⟨h₆.trans_reaches h₆₇, rfl, hexprs, hparts.append hlast, .nil⟩
  · obtain ⟨hexprs, hparts⟩ := hsofar h₅₆
    exact .pure ⟨h₆, rfl, hexprs, hparts.append .nil, .nil⟩

theorem arms_arrives (opened : Span) (limit rounds : Nat) (otherwise : Option (Stmt Span))
    (hcd : c.Advances c') (hrounds : c'.kinds.length ≤ rounds)
    (hotherwise : ∀ z, c'.Advances z →
      StmtsIn lines start size c z (Stmt.walkElse otherwise)) :
    Arrives (arms lines (stmtAt lines bound) opened limit rounds otherwise) c' fun found d =>
      c'.Advances d ∧ (∀ e ∈ found.1.flatMap (·.1), ExprsIn start size c d e.walk) ∧
        StmtsIn lines start size c d (Stmt.walkArms found.1) ∧
        StmtsIn lines start size c d (Stmt.walkElse found.2) := by
  induction rounds generalizing c' otherwise with
  | zero => exact absurd hrounds c'.not_length_le_zero
  | succ rounds ih =>
      have hc' := hc.of_reaches hcd.reaches
      have hlength := hcd.length
      rw [arms]
      apply Arrives.reading
      generalize hkind : c'.kind = kind
      split
      · refine .advancing hc'.terminated (by simp [hkind]) fun hadvances => ?_
        have h₁ := hcd.trans_reaches hadvances.reaches
        have := hadvances.length
        refine (patterns_arrives limit hc h₁).bind fun patterns c₂ h₁₂ hpatterns => ?_
        have h₂ := h₁.trans_reaches h₁₂
        have := h₁₂.length_le
        refine (armBody_arrives hstmt limit (hc.of_reaches h₂.reaches) (by omega)).bind
          fun first c₃ h₂₃ hfirst => ?_
        have h₃ := h₂.trans_reaches h₂₃
        have := h₂₃.length_le
        have hfront := hadvances.trans_reaches (h₁₂.trans h₂₃)
        refine (ih otherwise h₃ (by omega) fun z hz =>
          hotherwise z (hfront.trans_reaches hz.reaches)).bind ?_
        rintro ⟨rest, last⟩ z h₃z ⟨hz, hexprs, hrest, hlast⟩
        refine .pure ⟨hfront.trans_reaches h₃z, ?_, ?_, hlast⟩
        · refine List.forall_mem_append.mpr ⟨fun e he => ?_, hexprs⟩
          exact (hpatterns e he).onward hc h₂.reaches (h₂₃.trans h₃z)
        · exact (hfirst c z hc h₂ hz).append hrest
      · refine .advancing hc'.terminated (by simp [hkind]) fun hadvances => ?_
        have h₁ := hcd.trans_reaches hadvances.reaches
        have := hadvances.length
        refine (armBody_arrives hstmt limit (hc.of_reaches h₁.reaches) (by omega)).bind
          fun last c₂ h₁₂ hlast => ?_
        have := h₁₂.length_le
        refine (ih (some last) (h₁.trans_reaches h₁₂) (by omega) fun z hz =>
          hlast c z hc h₁ hz).imp ?_
        rintro found z h₂z ⟨hz, hfound⟩
        exact ⟨hadvances.trans_reaches (h₁₂.trans h₂z), hfound⟩
      · refine .advancing hc'.terminated (by simp [hkind]) fun hadvances => .pure ?_
        exact ⟨hadvances, List.forall_mem_nil _, .nil, hotherwise _ hadvances⟩
      · exact .reading_span (.throw _)
      · exact .lift (.unexpected _)

theorem caseOf_arrives (hkind : c.kind ≠ .eof) :
    Arrives (caseOf lines (stmtAt lines bound) (bound + 1)) c (FormIn lines start size c) := by
  rw [caseOf]
  refine .advancing hc.terminated hkind fun h₁ => ?_
  refine (expr_arrives _ hc h₁).bind fun selector c₂ h₁₂ hselector => ?_
  have h₂ := h₁.trans_reaches h₁₂
  refine (Arrives.forward (.expect _)).bind fun _ c₃ h₂₃ _ => ?_
  refine (Arrives.forward (.expectKind _)).bind fun opened c₄ h₃₄ _ => ?_
  have h₂₄ := h₂₃.trans h₃₄
  have h₄ := h₂.trans_reaches h₂₄
  have hlength := h₄.length
  refine (arms_arrives hstmt hc hbound opened (bound + 1) (bound + 1) none h₄ (by omega)
    fun _ _ => .nil).bind ?_
  rintro ⟨found, last⟩ c₅ h₄₅ ⟨-, hexprs, harms, hlast⟩
  refine .pure ⟨h₄.trans_reaches h₄₅, rfl, ?_, harms.append hlast, .nil⟩
  exact List.forall_mem_cons.mpr ⟨hselector.onward hc h₂.reaches (h₂₄.trans h₄₅), hexprs⟩

theorem form_arrives :
    Arrives (form lines (stmtAt lines bound) (bound + 1)) c (FormIn lines start size c) := by
  rw [form]
  apply Arrives.reading
  generalize hkind : c.kind = kind
  have hne : kind ≠ .eof → c.kind ≠ .eof := by
    rw [hkind]
    exact id
  split
  · exact .lift (.unexpected _)
  · exact terminal_arrives hc (hne (by simp)) fun _ => ⟨rfl, rfl, rfl, rfl⟩
  · exact terminal_arrives hc (hne (by simp)) fun _ => ⟨rfl, rfl, rfl, rfl⟩
  · exact terminal_arrives hc (hne (by simp)) fun _ => ⟨rfl, rfl, rfl, rfl⟩
  · exact giveBack_arrives hc _ (hne (by simp))
  · exact branch_arrives hstmt hc hbound _ (hne (by simp))
  · exact repeatUntil_arrives hstmt hc hbound _ (hne (by simp))
  · exact whileDo_arrives hstmt hc hbound _ (hne (by simp))
  · exact forTo_arrives hstmt hc hbound _ (hne (by simp))
  · exact caseOf_arrives hstmt hc hbound (hne (by simp))
  · exact assertion_arrives hc _ (hne (by simp))
  · exact enumeration_arrives hc _ (hne (by simp))
  · exact simple_arrives hc _

end Bodies

theorem stmtAt_places (lines : LineTable) (start : Cursor) (size bound : Nat) :
    Places lines start size bound := by
  induction bound with
  | zero =>
      intro c _ hbound
      exact absurd hbound c.not_length_le_zero
  | succ bound ih =>
      intro c hc hbound
      have hshaped : c.kind ≠ .indent → Arrives (stmtAt lines (bound + 1)) c
          (Stmt.Shaped lines start size c) := by
        intro hkind
        rw [stmtAt]
        apply Arrives.reading
        rw [if_neg hkind]
        apply Arrives.reading_span
        refine (form_arrives ih hc hbound).bind fun form d _ hform => .reading_spanFrom (.pure ?_)
        rw [hc.merge_here hform.advances]
        exact hform
      by_cases hkind : c.kind = .indent
      · rw [stmtAt]
        apply Arrives.reading
        rw [if_pos hkind]
        exact indentedBlock_arrives ih bound hc hbound
      · intro q s state hrun
        obtain ⟨hreaches, hs⟩ := hshaped hkind q s state hrun
        exact ⟨hreaches, hs.placed hc (.statement (bound + 1) q state.queue hrun)⟩

end ArmPseudocode.ParseStmt

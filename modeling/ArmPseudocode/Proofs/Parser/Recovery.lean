import ArmPseudocode.Proofs.Parser.Conduct
import ArmPseudocode.Proofs.Syntax.Walk

/-!
# Every statement is conducted

The conduct of each form of statement, from the conduct of the steps it is made of. A form consumes
a token at least: it begins with its word, or with an expression.
-/

namespace ArmPseudocode.ParseStmt

variable {β : Type} {lines : LineTable} {start c : Cursor} {stmt : ParseStmt (Stmt Span)}
  {least : Nat}

/-- A form of statement all of whose expressions were read in the text. -/
def FormRead (start : Cursor) (form : Span → Stmt Span) : Prop :=
  ∀ span, (form span).Everywhere (ReadFrom start)

/-! ### Expressions -/

section Exprs

variable (hstart : start.Terminated)

include hstart

theorem expr_conduct (bound : Nat) (hc : start.Reaches c) :
    Conduct lines (liftM (Parse.expr bound)) c 1 (ReadFrom start) := by
  refine .lift (.expr bound) fun e c' hrun => ?_
  obtain ⟨hpass, he⟩ := Parse.expr_reads bound _ _ _ (hc.terminated hstart) hrun
  obtain ⟨ks, hpass₀⟩ := hc
  refine ⟨⟨⟨false, he⟩, fun k hk => ?_⟩, ?_⟩
  · rw [hpass₀.kinds_eq, hpass.kinds_eq]
    exact List.mem_append_right _ (List.mem_append_left _ hk)
  · obtain ⟨k, rest, htokens, -⟩ := Expr.tokens_eq_cons he
    rw [hpass.length, htokens, List.length_cons]
    omega

theorem exprs_conduct {item : Parse (Expr Span)} {inPattern : Bool} (bound : Nat)
    (hforward : Parse.Forward item)
    (hitem : Parse.Reads item Expr.tokens (Expr.Grammatical ⟨inPattern, false⟩))
    (hc : start.Reaches c) :
    Conduct lines (liftM (Parse.commaSeparated item bound)) c 0
      (fun es => ∀ e ∈ es, ReadFrom start e) := by
  refine .lift (hforward.commaSeparated bound) fun es c' hrun => ?_
  obtain ⟨hpass, -, hes⟩ :=
    Parse.commaSeparated_reads hitem bound _ _ _ (hc.terminated hstart) hrun
  obtain ⟨ks, hpass₀⟩ := hc
  refine ⟨fun e he => ⟨⟨inPattern, hes e he⟩, fun k hk => ?_⟩, ?_⟩
  · have hpart : e.tokens <:+: commas (es.map Expr.tokens) :=
      infix_commas (List.mem_map_of_mem he)
    rw [hpass₀.kinds_eq, hpass.kinds_eq]
    exact List.mem_append_right _ (List.mem_append_left _ (hpart.subset hk))
  · rw [hpass.length]
    omega

theorem patterns_conduct (bound : Nat) (hc : start.Reaches c) :
    Conduct lines (liftM (Parse.patterns bound)) c 0 (fun es => ∀ e ∈ es, ReadFrom start e) := by
  have hreads : Parse.Reads (Parse.exprAt true bound BinaryOp.loosest) Expr.tokens
      (Expr.Grammatical ⟨true, false⟩) := by
    intro c e c' hterminated hrun
    obtain ⟨hpass, he⟩ := (Parse.exprAt_typeAt_reads true bound).1 _ _ _ _ hterminated hrun
    exact ⟨hpass, he.1⟩
  exact exprs_conduct hstart bound ((Parse.Forward.exprAt_typeAt true bound).1 _) hreads hc

/-! ### Forms without a body -/

theorem terminal_conduct {form : Span → Stmt Span} (hc : start.Reaches c) (hkind : c.kind ≠ .eof)
    (hform : FormRead start form) : Conduct lines (terminal form) c 1 (FormRead start) := by
  rw [terminal]
  refine (Conduct.advance (hc.terminated hstart) hkind).bind fun _ _ _ _ => ?_
  exact (Conduct.forward (.expect _)).bind fun _ _ _ _ => .pure hform

theorem simple_conduct (bound : Nat) (hc : start.Reaches c) :
    Conduct lines (simple bound) c 1 (FormRead start) := by
  rw [simple]
  refine (expr_conduct hstart bound hc).bind fun target c₁ h₁ htarget => ?_
  have hc₁ := hc.trans h₁
  refine (Conduct.forward (.eat _)).bind fun found c₂ h₂ _ => ?_
  have hc₂ := hc₁.trans h₂
  split
  · refine (expr_conduct hstart bound hc₂).weaken.bind fun value _ _ hvalue => ?_
    refine (Conduct.forward (.expect _)).bind fun _ _ _ _ => .pure fun span => ?_
    refine (Stmt.everywhere_of_walk rfl).mpr ⟨rfl, ?_⟩
    exact List.forall_mem_cons.mpr ⟨htarget, List.forall_mem_singleton.mpr hvalue⟩
  · refine (Conduct.forward (.expect _)).bind fun _ _ _ _ => .pure fun span => ?_
    split
    · exact (Stmt.everywhere_of_walk rfl).mpr ⟨rfl, List.forall_mem_singleton.mpr htarget⟩
    · exact (Stmt.everywhere_of_walk rfl).mpr ⟨rfl, List.forall_mem_singleton.mpr htarget⟩

theorem giveBack_conduct (bound : Nat) (hc : start.Reaches c) (hkind : c.kind ≠ .eof) :
    Conduct lines (giveBack bound) c 1 (FormRead start) := by
  rw [giveBack]
  refine (Conduct.advance (hc.terminated hstart) hkind).bind fun _ c₁ h₁ _ => ?_
  have hc₁ := hc.trans h₁
  refine (Conduct.forward (.isAt _)).bind fun found c₂ h₂ _ => ?_
  have hc₂ := hc₁.trans h₂
  have hend : ∀ {values : List (Expr Span)} {c : Cursor}, (∀ e ∈ values, ReadFrom start e) →
      Conduct lines (do
        let _ ← Parse.expect .semicolon
        return (.giveBack · values) : ParseStmt (Span → Stmt Span)) c 0 (FormRead start) := by
    intro values c hvalues
    refine (Conduct.forward (.expect _)).bind fun _ _ _ _ => .pure fun span => ?_
    exact (Stmt.everywhere_of_walk rfl).mpr ⟨rfl, hvalues⟩
  split
  · exact hend (by nofun)
  · refine (exprs_conduct hstart bound (.expr bound) (Parse.expr_reads bound) hc₂).bind ?_
    exact fun values _ _ hvalues => hend hvalues

theorem assertion_conduct (bound : Nat) (hc : start.Reaches c) (hkind : c.kind ≠ .eof) :
    Conduct lines (assertion bound) c 1 (FormRead start) := by
  rw [assertion]
  refine (Conduct.advance (hc.terminated hstart) hkind).bind fun _ c₁ h₁ _ => ?_
  refine (expr_conduct hstart bound (hc.trans h₁)).weaken.bind fun e _ _ he => ?_
  refine (Conduct.forward (.expect _)).bind fun _ _ _ _ => .pure fun span => ?_
  exact (Stmt.everywhere_of_walk rfl).mpr ⟨rfl, List.forall_mem_singleton.mpr he⟩

theorem enumeration_conduct (bound : Nat) (hc : start.Reaches c) (hkind : c.kind ≠ .eof) :
    Conduct lines (enumeration bound) c 1 (FormRead start) := by
  rw [enumeration]
  refine (Conduct.advance (hc.terminated hstart) hkind).bind fun _ _ _ _ => ?_
  refine (Conduct.forward .expectName).bind fun id _ _ _ => ?_
  refine (Conduct.forward (.expect _)).bind fun opened _ _ _ => ?_
  refine (Conduct.forward (.isAt _)).bind fun found _ _ _ => ?_
  have hend : ∀ {values : List String} {c : Cursor}, Conduct lines (do
      Parse.close opened '\x7b' .closeBrace
      let _ ← Parse.eat .semicolon
      return (.enumeration · id values) : ParseStmt (Span → Stmt Span)) c 0 (FormRead start) := by
    intro values c
    refine (Conduct.forward (.close _ _ _)).bind fun _ _ _ _ => ?_
    refine (Conduct.forward (.eat _)).bind fun _ _ _ _ => .pure fun span => ?_
    exact (Stmt.everywhere_of_walk rfl).mpr ⟨rfl, by nofun⟩
  split
  · exact hend
  · exact (Conduct.forward (Parse.Forward.expectName.commaSeparated bound)).bind
      fun _ _ _ _ => hend

end Exprs

/-! ### Bodies -/

section Bodies

variable (hstart : start.Terminated) (hstmt : ConductStmt lines start stmt)

include hstart hstmt

theorem indentedBlock_conduct (bound : Nat) (hc : start.Reaches c) :
    Conduct lines (indentedBlock lines stmt bound) c 1 (Stmt.Everywhere (ReadFrom start)) := by
  have hopen : Conduct lines (liftM (Parse.expectKind .indent)) c 1 (fun _ => True) := by
    refine .lift (.expectKind _) fun span c' hrun => ⟨trivial, ?_⟩
    have hpass := Parse.of_expectKind (hc.terminated hstart) (by nofun) hrun
    rw [hpass.length, List.length_singleton]
    omega
  rw [indentedBlock]
  refine hopen.bind fun opened c₁ h₁ _ => ?_
  have hstatements := statements_conduct hstart hstmt endsBlock bound (hc.trans h₁)
  refine hstatements.bind fun body c₂ h₂ hbody => ?_
  have hend : ∀ {c : Cursor}, Conduct lines (do
      return .block (← spanFrom opened) body : ParseStmt (Stmt Span)) c 0
      (Stmt.Everywhere (ReadFrom start)) :=
    (Conduct.forward (.spanFrom opened)).bind fun _ _ _ _ => .pure (Stmt.everywhere_block.mpr hbody)
  apply Conduct.reading
  split
  · exact (Conduct.forward .advance).bind fun _ _ _ _ => hend
  · refine Conduct.unlessLimited ?_ hend
    exact Conduct.reading_span (.throw_bind rfl rfl rfl)

theorem body_conduct (bound : Nat) (hc : start.Reaches c) :
    Conduct lines (body lines stmt bound) c 1 (Stmt.Everywhere (ReadFrom start)) := by
  rw [body]
  apply Conduct.reading
  split
  · exact indentedBlock_conduct hstart hstmt bound hc
  · exact hstmt c hc

theorem armBody_conduct (bound : Nat) (hc : start.Reaches c) :
    Conduct lines (armBody lines stmt bound) c 0 (Stmt.Everywhere (ReadFrom start)) := by
  rw [armBody]
  apply Conduct.reading
  split
  · exact (indentedBlock_conduct hstart hstmt bound hc).weaken
  · apply Conduct.reading_span
    refine (statements_conduct hstart hstmt endsArm bound hc).bind fun body _ _ hbody => ?_
    exact (Conduct.forward (.spanFrom _)).bind fun _ _ _ _ =>
      .pure (Stmt.everywhere_block.mpr hbody)

theorem repeatUntil_conduct (bound : Nat) (hc : start.Reaches c) (hkind : c.kind ≠ .eof) :
    Conduct lines (repeatUntil lines stmt bound) c 1 (FormRead start) := by
  rw [repeatUntil]
  refine (Conduct.advance (hc.terminated hstart) hkind).bind fun _ c₁ h₁ _ => ?_
  have hc₁ := hc.trans h₁
  refine (body_conduct hstart hstmt bound hc₁).weaken.bind fun b c₂ h₂ hb => ?_
  have hc₂ := hc₁.trans h₂
  refine (Conduct.forward (.expect _)).bind fun _ c₃ h₃ _ => ?_
  refine (expr_conduct hstart bound (hc₂.trans h₃)).weaken.bind fun test _ _ htest => ?_
  refine (Conduct.forward (.expect _)).bind fun _ _ _ _ => .pure fun span => ?_
  exact Stmt.everywhere_repeatUntil.mpr ⟨htest, hb⟩

theorem whileDo_conduct (bound : Nat) (hc : start.Reaches c) (hkind : c.kind ≠ .eof) :
    Conduct lines (whileDo lines stmt bound) c 1 (FormRead start) := by
  rw [whileDo]
  refine (Conduct.advance (hc.terminated hstart) hkind).bind fun _ c₁ h₁ _ => ?_
  have hc₁ := hc.trans h₁
  refine (expr_conduct hstart bound hc₁).weaken.bind fun test c₂ h₂ htest => ?_
  have hc₂ := hc₁.trans h₂
  refine (Conduct.forward (.expect _)).bind fun _ c₃ h₃ _ => ?_
  refine (body_conduct hstart hstmt bound (hc₂.trans h₃)).weaken.bind fun b _ _ hb => ?_
  exact .pure fun span => Stmt.everywhere_whileDo.mpr ⟨htest, hb⟩

theorem forTo_conduct (bound : Nat) (hc : start.Reaches c) (hkind : c.kind ≠ .eof) :
    Conduct lines (forTo lines stmt bound) c 1 (FormRead start) := by
  rw [forTo]
  refine (Conduct.advance (hc.terminated hstart) hkind).bind fun _ c₁ h₁ _ => ?_
  refine (Conduct.forward .expectName).bind fun var c₂ h₂ _ => ?_
  refine (Conduct.forward (.expect _)).bind fun _ c₃ h₃ _ => ?_
  have hc₃ := ((hc.trans h₁).trans h₂).trans h₃
  refine (expr_conduct hstart bound hc₃).weaken.bind fun first c₄ h₄ hfirst => ?_
  refine (Conduct.forward (.expect _)).bind fun _ c₅ h₅ _ => ?_
  have hc₅ := (hc₃.trans h₄).trans h₅
  refine (expr_conduct hstart bound hc₅).weaken.bind fun last c₆ h₆ hlast => ?_
  refine (Conduct.forward (.expect _)).bind fun _ c₇ h₇ _ => ?_
  have hc₇ := (hc₅.trans h₆).trans h₇
  refine (body_conduct hstart hstmt bound hc₇).weaken.bind fun b _ _ hb => ?_
  exact .pure fun span => Stmt.everywhere_forTo.mpr ⟨hfirst, hlast, hb⟩

theorem elsifs_conduct (size bound : Nat) (hc : start.Reaches c) :
    Conduct lines (elsifs lines stmt size bound) c 0
      (fun arms => ∀ arm ∈ arms, ReadFrom start arm.1 ∧ arm.2.Everywhere (ReadFrom start)) := by
  induction bound generalizing c with
  | zero => exact .pure (by nofun)
  | succ bound ih =>
      rw [elsifs]
      refine (Conduct.forward (.eat _)).bind fun found c₁ h₁ _ => ?_
      have hc₁ := hc.trans h₁
      split
      · refine (expr_conduct hstart size hc₁).weaken.bind fun test c₂ h₂ htest => ?_
        refine (Conduct.forward (.expect _)).bind fun _ c₃ h₃ _ => ?_
        have hc₃ := (hc₁.trans h₂).trans h₃
        refine (body_conduct hstart hstmt size hc₃).weaken.bind fun b c₄ h₄ hb => ?_
        refine (ih (hc₃.trans h₄)).bind fun rest _ _ hrest => .pure ?_
        exact List.forall_mem_cons.mpr ⟨⟨htest, hb⟩, hrest⟩
      · exact .pure (by nofun)

theorem branch_conduct (bound : Nat) (hc : start.Reaches c) (hkind : c.kind ≠ .eof) :
    Conduct lines (branch lines stmt bound) c 1 (FormRead start) := by
  rw [branch]
  refine (Conduct.advance (hc.terminated hstart) hkind).bind fun _ c₁ h₁ _ => ?_
  have hc₁ := hc.trans h₁
  refine (expr_conduct hstart bound hc₁).weaken.bind fun test c₂ h₂ htest => ?_
  refine (Conduct.forward (.expect _)).bind fun _ c₃ h₃ _ => ?_
  have hc₃ := (hc₁.trans h₂).trans h₃
  refine (body_conduct hstart hstmt bound hc₃).weaken.bind fun b c₄ h₄ hb => ?_
  have hc₄ := hc₃.trans h₄
  refine (elsifs_conduct hstart hstmt bound bound hc₄).bind fun others c₅ h₅ hothers => ?_
  refine (Conduct.forward (.eat _)).bind fun found c₆ h₆ _ => ?_
  have hc₆ := (hc₄.trans h₅).trans h₆
  split
  · refine (body_conduct hstart hstmt bound hc₆).weaken.bind fun last _ _ hlast =>
      .pure fun span => ?_
    refine Stmt.everywhere_branch.mpr ⟨htest, hb, hothers, ?_⟩
    intro last' hlast'
    rwa [← Option.mem_some.mp hlast']
  · exact .pure fun span => Stmt.everywhere_branch.mpr ⟨htest, hb, hothers, by nofun⟩

theorem arms_conduct (opened : Span) (size bound : Nat) (otherwise : Option (Stmt Span))
    (hotherwise : ∀ last ∈ otherwise, last.Everywhere (ReadFrom start)) (hc : start.Reaches c) :
    Conduct lines (arms lines stmt opened size bound otherwise) c 0
      (fun found => (∀ arm ∈ found.1, (∀ e ∈ arm.1, ReadFrom start e) ∧
          arm.2.Everywhere (ReadFrom start)) ∧
        ∀ last ∈ found.2, last.Everywhere (ReadFrom start)) := by
  induction bound generalizing c otherwise with
  | zero => exact .pure ⟨by nofun, hotherwise⟩
  | succ bound ih =>
      rw [arms]
      apply Conduct.reading
      split
      · refine (Conduct.forward .advance).bind fun _ c₁ h₁ _ => ?_
        have hc₁ := hc.trans h₁
        refine (patterns_conduct hstart size hc₁).bind fun patterns c₂ h₂ hpatterns => ?_
        have hc₂ := hc₁.trans h₂
        refine (armBody_conduct hstart hstmt size hc₂).bind fun b c₃ h₃ hb => ?_
        refine (ih otherwise hotherwise (hc₂.trans h₃)).bind ?_
        rintro ⟨rest, last⟩ _ _ ⟨hrest, hlast⟩
        exact .pure ⟨List.forall_mem_cons.mpr ⟨⟨hpatterns, hb⟩, hrest⟩, hlast⟩
      · refine (Conduct.forward .advance).bind fun _ c₁ h₁ _ => ?_
        have hc₁ := hc.trans h₁
        refine (armBody_conduct hstart hstmt size hc₁).bind fun b c₂ h₂ hb => ?_
        refine ih (some b) ?_ (hc₁.trans h₂)
        intro last hlast
        rwa [← Option.mem_some.mp hlast]
      · exact (Conduct.forward .advance).bind fun _ _ _ _ => .pure ⟨by nofun, hotherwise⟩
      · exact Conduct.reading_span (.throw rfl rfl rfl)
      · exact .unexpected _

theorem caseOf_conduct (bound : Nat) (hc : start.Reaches c) (hkind : c.kind ≠ .eof) :
    Conduct lines (caseOf lines stmt bound) c 1 (FormRead start) := by
  rw [caseOf]
  refine (Conduct.advance (hc.terminated hstart) hkind).bind fun _ c₁ h₁ _ => ?_
  have hc₁ := hc.trans h₁
  refine (expr_conduct hstart bound hc₁).weaken.bind fun selector c₂ h₂ hselector => ?_
  refine (Conduct.forward (.expect _)).bind fun _ c₃ h₃ _ => ?_
  refine (Conduct.forward (.expectKind _)).bind fun opened c₄ h₄ _ => ?_
  have hc₄ := ((hc₁.trans h₂).trans h₃).trans h₄
  refine (arms_conduct hstart hstmt opened bound bound none (by nofun) hc₄).bind ?_
  rintro ⟨as, last⟩ _ _ ⟨has, hlast⟩
  exact .pure fun span => Stmt.everywhere_caseOf.mpr ⟨hselector, has, hlast⟩

theorem form_conduct (bound : Nat) (hc : start.Reaches c) :
    Conduct lines (form lines stmt bound) c 1 (FormRead start) := by
  have hleaf : ∀ {form : Span → Stmt Span}, (∀ span, (form span).walk = [form span]) →
      (∀ span, (form span).isMalformed = false) → (∀ span, (form span).exprs = []) →
      FormRead start form := by
    intro form hwalk hread hexprs span
    refine (Stmt.everywhere_of_walk (hwalk span)).mpr ⟨hread span, ?_⟩
    rw [hexprs span]
    nofun
  rw [form]
  apply Conduct.reading
  generalize hkind : c.kind = kind
  have hne : kind ≠ .eof → c.kind ≠ .eof := by
    rw [hkind]
    exact id
  split
  · exact .unexpected _
  · exact terminal_conduct hstart hc (hne (by nofun))
      (hleaf (fun _ => rfl) (fun _ => rfl) fun _ => rfl)
  · exact terminal_conduct hstart hc (hne (by nofun))
      (hleaf (fun _ => rfl) (fun _ => rfl) fun _ => rfl)
  · exact terminal_conduct hstart hc (hne (by nofun))
      (hleaf (fun _ => rfl) (fun _ => rfl) fun _ => rfl)
  · exact giveBack_conduct hstart bound hc (hne (by nofun))
  · exact branch_conduct hstart hstmt bound hc (hne (by nofun))
  · exact repeatUntil_conduct hstart hstmt bound hc (hne (by nofun))
  · exact whileDo_conduct hstart hstmt bound hc (hne (by nofun))
  · exact forTo_conduct hstart hstmt bound hc (hne (by nofun))
  · exact caseOf_conduct hstart hstmt bound hc (hne (by nofun))
  · exact assertion_conduct hstart bound hc (hne (by nofun))
  · exact enumeration_conduct hstart bound hc (hne (by nofun))
  · exact simple_conduct hstart bound hc

end Bodies

theorem stmtAt_conduct (lines : LineTable) (hstart : start.Terminated) (bound : Nat) :
    ConductStmt lines start (stmtAt lines bound) := by
  induction bound with
  | zero =>
      intro c _
      exact .unexpected _
  | succ bound ih =>
      intro c hc
      rw [stmtAt]
      apply Conduct.reading
      split
      · exact indentedBlock_conduct hstart ih bound hc
      · apply Conduct.reading_span
        refine (form_conduct hstart ih (bound + 1) hc).bind fun form _ _ hform => ?_
        exact (Conduct.forward (.spanFrom _)).bind fun _ _ _ _ => .pure (hform _)

end ArmPseudocode.ParseStmt

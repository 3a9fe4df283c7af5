import ArmPseudocode.Proofs.Parser.Extent
import ArmPseudocode.Proofs.Parser.Forward
import ArmPseudocode.Proofs.Parser.Lossless
import ArmPseudocode.Proofs.Syntax.Walk

/-!
# The extents of expressions

The span of an expression is put together in different ways: from its operands, from an operator and
its operand, from a base and the last token consumed, or from the token where a form began. Each of
them comes to the same, from the first token of the expression to the last, because a step that
reads an expression carries the cursor from the one to behind the other.
-/

namespace ArmPseudocode

def Expr.operands {α : Type} : Expr α → List (Expr α)
  | .binary _ _ left right => [left, right]
  | _ => []

/-- The span of an expression that was read in a text of so many bytes is that of its tokens. It
covers the spans of everything inside it, and those of two operands do not overlap. -/
structure Expr.WellSpanned (start : Cursor) (size : Nat) (e : Expr Span) : Prop where
  ordered : e.info.start ≤ e.info.stop
  bounded : e.info.stop ≤ size
  contains : ∀ x ∈ e.walk, e.info.Contains x.info
  operands : e.operands.Pairwise fun a b => a.info.Precedes b.info
  extent : ∃ c ts c', start.Reaches c ∧ c.Consumes ts c' ∧ ts.map (·.kind) = e.tokens ∧
    e.info.Delimits ts

/-- Expressions with the right extents, all of them between two cursors. -/
def ExprsIn (start : Cursor) (size : Nat) (c c' : Cursor) (es : List (Expr Span)) : Prop :=
  ∀ e ∈ es, e.WellSpanned start size ∧ c.Between c' e.info

/-- The expression was read from one cursor to the other. -/
structure Expr.Placed (start : Cursor) (size : Nat) (c : Cursor) (e : Expr Span) (c' : Cursor) :
    Prop where
  passes : c.Passes e.tokens c'
  info_eq : e.info = c.spanTo c'
  inside : ExprsIn start size c c' e.walk

variable {start : Cursor} {size : Nat} {a c c' d : Cursor}

theorem Expr.tokens_ne_nil {α : Type} (e : Expr α) : e.tokens ≠ [] := by
  cases e with
  | unknown info type => cases type <;> simp
  | _ => simp

theorem Cursor.between_spanTo (c c' : Cursor) : c.Between c' (c.spanTo c') :=
  ⟨Nat.le_refl _, Nat.le_refl _⟩

theorem Cursor.Between.widen {span : Span} (h : c.Between c' span) (ha : start.Place size a)
    (hac : a.Reaches c) (hcd : c.Reaches c') (hd : c'.Reaches d) : a.Between d span := by
  have hfore := ha.fore_le hac
  have hrear := ((ha.of_reaches hac).of_reaches hcd).rear_le hd
  exact ⟨Nat.le_trans hfore h.1, Nat.le_trans h.2 hrear⟩

namespace ExprsIn

variable {es es' : List (Expr Span)}

theorem nil : ExprsIn start size c c' [] := List.forall_mem_nil _

theorem append (h : ExprsIn start size c c' es) (h' : ExprsIn start size c c' es') :
    ExprsIn start size c c' (es ++ es') :=
  List.forall_mem_append.mpr ⟨h, h'⟩

theorem widen (h : ExprsIn start size c c' es) (ha : start.Place size a) (hac : a.Reaches c)
    (hcd : c.Reaches c') (hd : c'.Reaches d) : ExprsIn start size a d es :=
  fun e he => ⟨(h e he).1, (h e he).2.widen ha hac hcd hd⟩

theorem onward (h : ExprsIn start size a c es) (ha : start.Place size a) (hac : a.Reaches c)
    (hcd : c.Reaches d) : ExprsIn start size a d es :=
  h.widen ha (.refl a) hac hcd

theorem forall_flatMap {es : List (Expr Span)} :
    ExprsIn start size c c' (es.flatMap Expr.walk) ↔ ∀ e ∈ es, ExprsIn start size c c' e.walk :=
  List.forall_mem_flatMap

end ExprsIn

namespace Expr.Placed

variable {e left right : Expr Span}

theorem reaches (h : Expr.Placed start size c e c') : c.Reaches c' := h.passes.reaches

theorem advances (h : Expr.Placed start size c e c') : c.Advances c' :=
  .of_passes h.passes e.tokens_ne_nil

/-- An expression is placed if its parts are, and its span goes from the first token to the last. -/
theorem of_parts (hc : start.Place size c) (hpasses : c.Passes e.tokens c')
    (hinfo : e.info = c.spanTo c') (hparts : ExprsIn start size c c' e.walk.tail)
    (hoperands : e.operands.Pairwise fun a b => a.info.Precedes b.info) :
    Expr.Placed start size c e c' := by
  have hadvances : c.Advances c' := .of_passes hpasses e.tokens_ne_nil
  have hwell : e.WellSpanned start size := by
    constructor
    · rw [hinfo]
      exact hc.fore_le_rear hadvances
    · rw [hinfo]
      exact (hc.of_reaches hadvances.reaches).rear_le_size
    · rw [e.walk_eq_cons, hinfo]
      exact List.forall_mem_cons.mpr
        ⟨hinfo ▸ Span.contains_refl _, fun x hx => (hparts x hx).2⟩
    · exact hoperands
    · obtain ⟨ts, hkinds, hconsumes⟩ := hpasses
      have hts : ts ≠ [] := by
        rintro rfl
        exact e.tokens_ne_nil hkinds.symm
      have hdelimits := Cursor.Consumes.delimits hconsumes hts
      exact ⟨c, ts, c', hc.reaches, hconsumes, hkinds, hinfo ▸ hdelimits⟩
  refine ⟨hpasses, hinfo, ?_⟩
  rw [e.walk_eq_cons]
  exact List.forall_mem_cons.mpr ⟨⟨hwell, hinfo ▸ Cursor.between_spanTo c c'⟩, hparts⟩

theorem binary {op : BinaryOp} (hc : start.Place size c) (hleft : Expr.Placed start size c left a)
    (hop : a.Passes [.fixed op.token] d) (hright : Expr.Placed start size d right c') :
    Expr.Placed start size c (.binary (left.info.merge right.info) op left right) c' := by
  have ha := hc.of_reaches hleft.reaches
  have hcd := hleft.reaches.trans hop.reaches
  have hbehind : a.rear ≤ d.fore := Nat.le_trans ha.rear_le_fore (ha.fore_le hop.reaches)
  refine of_parts hc (hleft.passes.trans (hop.trans hright.passes)) ?_ ?_ ?_
  · rw [Expr.info, hleft.info_eq, hright.info_eq]
    exact Span.merge_eq (hc.fore_le hcd) (ha.rear_le (hop.reaches.trans hright.reaches))
  · refine .append ?_ ?_
    · exact hleft.inside.onward hc hleft.reaches (hop.reaches.trans hright.reaches)
    · exact hright.inside.widen hc hcd hright.reaches (.refl c')
  · refine List.pairwise_pair.mpr ?_
    rw [hleft.info_eq, hright.info_eq]
    exact hbehind

theorem unary {op : UnaryOp} (hc : start.Place size c) (hop : c.Passes [.fixed op.token] d)
    (hinner : Expr.Placed start size d e c') :
    Expr.Placed start size c (.unary (c.here.span.merge e.info) op e) c' := by
  have hadvances : c.Advances c' :=
    (Cursor.Advances.of_passes hop (List.cons_ne_nil _ _)).trans_reaches hinner.reaches
  refine of_parts hc (hop.trans hinner.passes) ?_ ?_ .nil
  · rw [Expr.info, hinner.info_eq]
    exact Span.merge_eq (hc.fore_le hop.reaches) (hc.last_bounds hadvances).2.1
  · exact hinner.inside.widen hc hop.reaches hinner.reaches (.refl c')

theorem merge_lastSpan (hc : start.Place size c) (h : Expr.Placed start size c e c')
    (hd : c'.Reaches d) : e.info.merge d.lastSpan = c.spanTo d := by
  refine hc.merge_lastSpan (h.advances.trans_reaches hd) (by rw [h.info_eq]; rfl) ?_
  rw [h.info_eq]
  exact (hc.of_reaches h.reaches).rear_le hd

/-- A base with a suffix behind it, whose span goes on to the last token consumed. -/
theorem suffix {ks : List TokenKind} (form : Span → Expr Span) (hc : start.Place size c)
    (hbase : Expr.Placed start size c e a) (hsuffix : a.Passes ks c')
    (hinfo : ∀ span, (form span).info = span)
    (htokens : ∀ span, (form span).tokens = e.tokens ++ ks)
    (hparts : ∀ span, ExprsIn start size c c' (form span).walk.tail)
    (hoperands : ∀ span, (form span).operands = []) :
    Expr.Placed start size c (form (e.info.merge c'.lastSpan)) c' := by
  refine of_parts hc ?_ ?_ (hparts _) ?_
  · rw [htokens]
    exact hbase.passes.trans hsuffix
  · rw [hinfo]
    exact hbase.merge_lastSpan hc hsuffix.reaches
  · rw [hoperands]
    exact .nil

end Expr.Placed

namespace Parse

variable {β γ : Type}

/-- A step that succeeds here ends here or further on, and the property holds of the result. -/
def Arrives (step : Parse β) (c : Cursor) (Q : β → Cursor → Prop) : Prop :=
  ∀ b c', step c = .ok b c' → c.Reaches c' ∧ Q b c'

namespace Arrives

variable {step : Parse β} {next : β → Parse γ} {Q Q' : β → Cursor → Prop}
  {R : γ → Cursor → Prop}

theorem pure {b : β} (h : Q b c) : Arrives (Pure.pure b) c Q := by
  intro b' c' hrun
  obtain ⟨rfl, rfl⟩ := of_pure_eq_ok hrun
  exact ⟨.refl c, h⟩

theorem throw (d : Diagnostic) : Arrives (MonadExcept.throw d) c Q := by
  intro b c' hrun
  cases hrun

theorem bind (h : Arrives step c Q)
    (hnext : ∀ b c', c.Reaches c' → Q b c' → Arrives (next b) c' R) :
    Arrives (step >>= next) c R := by
  intro x d hrun
  obtain ⟨b, mid, hstep, hrun⟩ := of_bind_eq_ok hrun
  obtain ⟨hreaches, hb⟩ := h b mid hstep
  obtain ⟨hreaches', hx⟩ := hnext b mid hreaches hb x d hrun
  exact ⟨hreaches.trans hreaches', hx⟩

theorem imp (h : Arrives step c Q) (himp : ∀ b c', c.Reaches c' → Q b c' → Q' b c') :
    Arrives step c Q' :=
  fun b c' hrun => ⟨(h b c' hrun).1, himp b c' (h b c' hrun).1 (h b c' hrun).2⟩

theorem and (h : Arrives step c Q) (h' : Arrives step c Q') :
    Arrives step c fun b c' => Q b c' ∧ Q' b c' :=
  fun b c' hrun => ⟨(h b c' hrun).1, (h b c' hrun).2, (h' b c' hrun).2⟩

theorem forward (h : Forward step) : Arrives step c fun _ _ => True := by
  intro b c' hrun
  have hreaches := h.reaches c
  rw [hrun] at hreaches
  exact ⟨hreaches, trivial⟩

theorem of_reads {tokens : β → List TokenKind} {Good : β → Prop} (h : Reads step tokens Good)
    (hc : c.Terminated) : Arrives step c fun b c' => c.Passes (tokens b) c' := by
  intro b c' hrun
  have hpass := (h c b c' hc hrun).1
  exact ⟨hpass.reaches, hpass⟩

theorem unexpected (expected : String) : Arrives (Parse.unexpected expected : Parse β) c Q := by
  intro b c' hrun
  cases hrun

theorem reading {next : TokenKind → Parse γ} (h : Arrives (next c.kind) c R) :
    Arrives (Parse.kind >>= next) c R := h

theorem reading_span {next : Span → Parse γ} (h : Arrives (next c.here.span) c R) :
    Arrives (Parse.span >>= next) c R := h

theorem reading_nextKind {next : TokenKind → Parse γ} (h : Arrives (next c.nextKind) c R) :
    Arrives (Parse.nextKind >>= next) c R := h

theorem reading_isAt {token : FixedToken} {next : Bool → Parse γ}
    (h : Arrives (next (decide (c.kind = .fixed token))) c R) :
    Arrives (Parse.isAt token >>= next) c R := h

theorem reading_spanFrom {span : Span} {next : Span → Parse γ}
    (h : Arrives (next (span.merge c.lastSpan)) c R) :
    Arrives (Parse.spanFrom span >>= next) c R := h

theorem advancing {next : Span → Parse γ} (hc : c.Terminated) (hkind : c.kind ≠ .eof)
    (h : c.Passes [c.kind] c.advance → Arrives (next c.here.span) c.advance R) :
    Arrives (Parse.advance >>= next) c R :=
  bind (Q := fun span d => span = c.here.span ∧ d = c.advance)
    (fun span d hrun => by cases hrun; exact ⟨c.reaches_advance, rfl, rfl⟩)
    fun span d _ hd => by
      obtain ⟨rfl, rfl⟩ := hd
      exact h (Cursor.passes_advance hc hkind)

end Arrives

/-- A step that reads an expression and places it. -/
def Places (start : Cursor) (size : Nat) (step : Parse (Expr Span)) : Prop :=
  ∀ c, start.Place size c → Arrives step c (Expr.Placed start size c)

/-- A step whose result has expressions inside, all of them read behind an earlier place. -/
def Gathers (start : Cursor) (size : Nat) (step : Parse β) (inner : β → List (Expr Span)) : Prop :=
  ∀ a c, start.Place size a → a.Reaches c →
    Arrives step c fun b c' => ExprsIn start size a c' (inner b)

theorem Places.gathers {step : Parse (Expr Span)} (h : Places start size step) :
    Gathers start size step Expr.walk := by
  intro a c ha hac
  refine (h c (ha.of_reaches hac)).imp fun e c' hreaches he => ?_
  exact he.inside.widen ha hac hreaches (.refl c')

/-! ### Lists -/

section Lists

variable {item : Parse β} {inner : β → List (Expr Span)}

theorem moreItems_gathers (hitem : Gathers start size item inner) (bound : Nat) :
    Gathers start size (moreItems item bound) (·.flatMap inner) := by
  induction bound with
  | zero => exact fun a c _ _ => .pure .nil
  | succ bound ih =>
      intro a c ha hac
      rw [moreItems]
      refine (Arrives.forward (.eat .comma)).bind fun found c₁ h₁ _ => ?_
      have hac₁ := hac.trans h₁
      split
      · refine (hitem a c₁ ha hac₁).bind fun first c₂ h₂ hfirst => ?_
        have hac₂ := hac₁.trans h₂
        refine (ih a c₂ ha hac₂).bind fun rest c₃ h₃ hrest => .pure ?_
        exact (hfirst.onward ha hac₂ h₃).append hrest
      · exact .pure .nil

theorem commaSeparated_gathers (hitem : Gathers start size item inner) (bound : Nat) :
    Gathers start size (commaSeparated item bound) (·.flatMap inner) := by
  intro a c ha hac
  refine (hitem a c ha hac).bind fun first c₁ h₁ hfirst => ?_
  have hac₁ := hac.trans h₁
  refine (moreItems_gathers hitem bound a c₁ ha hac₁).bind fun rest c₂ h₂ hrest => .pure ?_
  exact (hfirst.onward ha hac₁ h₂).append hrest

end Lists

/-! ### Operators -/

section Operators

variable {operand : Parse (Expr Span)} {left base : Expr Span}

theorem operatorsBehind_arrives (hoperand : Places start size operand) (level bound : Nat)
    (ha : start.Place size a) (hleft : Expr.Placed start size a left c) :
    Arrives (operatorsBehind operand level bound left) c (Expr.Placed start size a) := by
  induction bound generalizing left c with
  | zero => exact .pure hleft
  | succ bound ih =>
      have hc := ha.of_reaches hleft.reaches
      rw [operatorsBehind]
      apply Arrives.reading
      split
      · exact .pure hleft
      · next op hop =>
          have hkind := BinaryOp.eq_token_of_binaryOp? hop
          split
          · refine .advancing hc.terminated (by simp [hkind]) fun hpass => ?_
            rw [hkind] at hpass
            refine (hoperand _ (hc.of_reaches hpass.reaches)).bind fun right d _ hright => ?_
            exact ih (hleft.binary ha hpass hright)
          · exact .pure hleft

theorem binary_places (hoperand : Places start size operand) (bound level : Nat) :
    Places start size (binary operand bound level) := by
  induction level with
  | zero => exact hoperand
  | succ level ih =>
      intro c hc
      exact (ih c hc).bind fun left d _ hleft =>
        operatorsBehind_arrives ih (level + 1) bound hc hleft

theorem unary_places (hoperand : Places start size operand) (bound : Nat) :
    Places start size (unary operand bound) := by
  induction bound with
  | zero => exact hoperand
  | succ bound ih =>
      intro c hc
      rw [unary]
      apply Arrives.reading
      split
      · exact hoperand c hc
      · next op hop =>
          have hkind := UnaryOp.eq_token_of_unaryOp? hop
          refine .advancing hc.terminated (by simp [hkind]) fun hpass => ?_
          rw [hkind] at hpass
          refine (ih _ (hc.of_reaches hpass.reaches)).bind fun inner d _ hinner => .pure ?_
          exact hinner.unary hc hpass

/-! ### Suffixes -/

theorem sliceTerm_gathers (hoperand : Places start size operand) :
    Gathers start size (sliceTerm operand) (·.bounds.flatMap Expr.walk) := by
  intro a c ha hac
  rw [sliceTerm]
  refine (hoperand.gathers a c ha hac).bind fun high c₁ h₁ hhigh => ?_
  have hac₁ := hac.trans h₁
  refine (Arrives.forward (.eat .colon)).bind fun found c₂ h₂ _ => ?_
  have hac₂ := hac₁.trans h₂
  have hhigh₂ := hhigh.onward ha hac₁ h₂
  split
  · refine (hoperand.gathers a c₂ ha hac₂).bind fun low c₃ h₃ hlow => .pure ?_
    simpa [SliceTerm.bounds] using (hhigh₂.onward ha hac₂ h₃).append hlow
  · refine .pure ?_
    simpa [SliceTerm.bounds] using hhigh₂

theorem sliceTerms_gathers (hoperand : Places start size operand) (bound : Nat) (delimiter : Char)
    (closing : FixedToken) :
    Gathers start size (sliceTerms operand bound delimiter closing) Expr.walkTerms := by
  intro a c ha hac
  refine (Arrives.forward .advance).bind fun opened c₁ h₁ _ => ?_
  have hac₁ := hac.trans h₁
  refine (commaSeparated_gathers (sliceTerm_gathers hoperand) bound a c₁ ha hac₁).bind
    fun terms c₂ h₂ hterms => ?_
  refine (Arrives.forward (.close _ _ _)).bind fun _ c₃ h₃ _ => .pure ?_
  rw [Expr.walkTerms_eq_flatMap]
  exact hterms.onward ha (hac₁.trans h₂) h₃

theorem suffixes_arrives {inner : Parse (Expr Span)} {style : Style}
    (hreads : Reads inner Expr.tokens (OfLevel style BinaryOp.boundLevel))
    (hinner : Places start size inner) (bounds bound : Nat) (ha : start.Place size a)
    (hbase : Expr.Placed start size a base c) :
    Arrives (suffixes inner bounds bound base) c (Expr.Placed start size a) := by
  induction bound generalizing base c with
  | zero => exact .pure hbase
  | succ bound ih =>
      have hc := ha.of_reaches hbase.reaches
      have hterms : ∀ {delimiter : Char} {opening closing : FixedToken}, c.kind = .fixed opening →
          Arrives (sliceTerms inner bounds delimiter closing) c fun terms c' =>
            c.Passes (.fixed opening :: (commas (Expr.tokensTerms terms) ++ [.fixed closing])) c' ∧
              ExprsIn start size a c' (base.walk ++ Expr.walkTerms terms) := by
        intro delimiter opening closing hkind terms c' hrun
        obtain ⟨hpass, -⟩ := sliceTerms_reads bounds hreads hc.terminated hkind hrun
        obtain ⟨hreaches, hparts⟩ :=
          sliceTerms_gathers hinner bounds delimiter closing a c ha hbase.reaches terms c' hrun
        exact ⟨hreaches, hpass, (hbase.inside.onward ha hbase.reaches hreaches).append hparts⟩
      rw [suffixes]
      apply Arrives.reading
      generalize hkind : c.kind = kind
      split
      · refine (hterms hkind).bind ?_
        rintro terms d - ⟨hpass, hparts⟩
        refine .reading_spanFrom (ih ?_)
        exact hbase.suffix (.slice · base terms) ha hpass (fun _ => rfl) (fun _ => rfl)
          (fun _ => hparts) fun _ => rfl
      · refine (hterms hkind).bind ?_
        rintro terms d - ⟨hpass, hparts⟩
        refine .reading_spanFrom (ih ?_)
        exact hbase.suffix (.index · base terms) ha hpass (fun _ => rfl) (fun _ => rfl)
          (fun _ => hparts) fun _ => rfl
      · refine .advancing hc.terminated (by simp [hkind]) fun hpass => ?_
        rw [hkind] at hpass
        refine (Arrives.of_reads expectName_reads (hpass.terminated hc.terminated)).bind
          fun field d _ hfield => .reading_spanFrom (ih ?_)
        have hsuffix := hpass.trans hfield
        have hparts := hbase.inside.onward ha hbase.reaches hsuffix.reaches
        exact hbase.suffix (.member · base field) ha hsuffix (fun _ => rfl) (fun _ => rfl)
          (fun _ => hparts) fun _ => rfl
      · exact .pure hbase

end Operators

/-! ### Types -/

section Forms

variable {expr : Parse (Expr Span)} {type : Parse (TypeExpr Span)} {inPattern : Bool}

theorem typeForm_gathers (bound : Nat) (hexpr : Gathers start size expr Expr.walk)
    (htype : Gathers start size type TypeExpr.walk) :
    Gathers start size (typeForm bound expr type) TypeExpr.walk := by
  intro a c ha hac
  rw [typeForm]
  apply Arrives.reading_span
  apply Arrives.reading
  split
  · refine (Arrives.forward .advance).bind fun _ c₁ h₁ _ => ?_
    have hac₁ := hac.trans h₁
    refine (hexpr a c₁ ha hac₁).bind fun width c₂ h₂ hwidth => ?_
    refine (Arrives.forward (.close _ _ _)).bind fun _ c₃ h₃ _ => .pure ?_
    exact hwidth.onward ha (hac₁.trans h₂) h₃
  · exact (Arrives.forward .advance).bind fun _ _ _ _ => .pure .nil
  · exact (Arrives.forward .advance).bind fun _ _ _ _ => .pure .nil
  · exact (Arrives.forward .advance).bind fun _ _ _ _ => .pure .nil
  · exact (Arrives.forward .advance).bind fun _ _ _ _ => .pure .nil
  · refine (Arrives.forward .advance).bind fun _ c₁ h₁ _ => ?_
    have hac₁ := hac.trans h₁
    refine (commaSeparated_gathers htype bound a c₁ ha hac₁).bind fun items c₂ h₂ hitems => ?_
    refine (Arrives.forward (.close _ _ _)).bind fun _ c₃ h₃ _ => .pure ?_
    rw [TypeExpr.walk, TypeExpr.walkEach_eq_flatMap]
    exact hitems.onward ha (hac₁.trans h₂) h₃
  · exact .throw _

/-! ### Primary forms -/

theorem tupleItem_places (hexpr : Places start size expr) :
    Places start size (tupleItem expr) := by
  intro c hc
  rw [tupleItem]
  refine Arrives.reading_nextKind (Arrives.reading_isAt ?_)
  split
  · next hblank =>
      have hkind : c.kind = .fixed .minus := by
        simp only [Bool.and_eq_true, decide_eq_true_eq] at hblank
        exact hblank.1
      refine .advancing hc.terminated (by simp [hkind]) fun hpass => .pure ?_
      rw [hkind] at hpass
      exact .of_parts hc hpass hpass.spanTo_eq.symm .nil .nil
  · exact hexpr c hc

/-- A form that takes whatever span it is given, with its parts between two cursors. -/
def FormIn (start : Cursor) (size : Nat) (c : Cursor) (form : Span → Expr Span) (c' : Cursor) :
    Prop :=
  ∀ span, (form span).info = span ∧ ExprsIn start size c c' (form span).walk.tail

theorem typedPrimary_arrives (htype : Gathers start size type TypeExpr.walk)
    (hc : start.Place size c) :
    Arrives (typedPrimary type) c (FormIn start size c) := by
  rw [typedPrimary]
  refine (htype c c hc (.refl c)).bind fun type c₁ h₁ htype => ?_
  refine (Arrives.forward (.eat .kwUnknown)).bind fun found c₂ h₂ _ => ?_
  have htype₂ := htype.onward hc h₁ h₂
  split
  · exact .pure fun _ => ⟨rfl, htype₂⟩
  · refine (Arrives.forward .expectName).bind fun id c₃ h₃ _ => .pure fun _ => ⟨rfl, ?_⟩
    exact htype₂.onward hc (h₁.trans h₂) h₃

theorem primaryForm_arrives (bound : Nat) (hexpr : Places start size expr)
    (htype : Gathers start size type TypeExpr.walk) (hc : start.Place size c) :
    Arrives (primaryForm inPattern bound expr type) c (FormIn start size c) := by
  have htyped := typedPrimary_arrives htype hc
  rw [primaryForm]
  apply Arrives.reading_span
  apply Arrives.reading
  cases c.kind with
  | int | real | bitString | error =>
      exact (Arrives.forward .advance).bind fun _ _ _ _ => .pure fun _ => ⟨rfl, .nil⟩
  | name id =>
      refine (Arrives.forward .advance).bind fun _ _ _ _ => Arrives.reading ?_
      split
      · split
        · exact .pure fun _ => ⟨rfl, .nil⟩
        · exact (Arrives.forward .advance).bind fun _ _ _ _ => .pure fun _ => ⟨rfl, .nil⟩
      · exact .pure fun _ => ⟨rfl, .nil⟩
  | call callee =>
      refine (Arrives.forward .advance).bind fun _ c₁ h₁ _ => Arrives.reading_isAt ?_
      have hclose : ∀ {args : List (Expr Span)} {d : Cursor}, c.Reaches d →
          ExprsIn start size c d (args.flatMap Expr.walk) →
          Arrives (do
            close c.here.span '(' .closeParen
            return (Expr.call · callee args) : Parse (Span → Expr Span)) d
            (FormIn start size c) := by
        intro args d hd hargs
        refine (Arrives.forward (.close _ _ _)).bind fun _ c₃ h₃ _ => .pure fun _ => ⟨rfl, ?_⟩
        rw [Expr.walk, List.tail_cons, Expr.walkEach_eq_flatMap]
        exact hargs.onward hc hd h₃
      split
      · exact hclose h₁ .nil
      · exact (commaSeparated_gathers hexpr.gathers bound c c₁ hc h₁).bind
          fun args c₂ h₂ hargs => hclose (h₁.trans h₂) hargs
  | fixed word =>
      cases word with
      | openParen =>
          apply Arrives.reading_nextKind
          split
          · exact htyped
          · refine (Arrives.forward .advance).bind fun _ c₁ h₁ _ => ?_
            have hitem := (tupleItem_places hexpr).gathers
            refine (commaSeparated_gathers hitem bound c c₁ hc h₁).bind fun items c₂ h₂ hitems => ?_
            refine (Arrives.forward (.close _ _ _)).bind fun _ c₃ h₃ _ => .pure fun _ => ⟨rfl, ?_⟩
            rw [Expr.walk, List.tail_cons, Expr.walkEach_eq_flatMap]
            exact hitems.onward hc (h₁.trans h₂) h₃
      | kwBits | kwBit | kwInteger | kwBoolean => exact htyped
      | kwUnknown => exact (Arrives.forward .advance).bind fun _ _ _ _ => .pure fun _ => ⟨rfl, .nil⟩
      | kwIf =>
          refine (Arrives.forward .advance).bind fun _ c₁ h₁ _ => ?_
          refine (hexpr.gathers c c₁ hc h₁).bind fun test c₂ h₂ htest => ?_
          have hc₂ := h₁.trans h₂
          refine (Arrives.forward (.expect _)).bind fun _ c₃ h₃ _ => ?_
          have hc₃ := hc₂.trans h₃
          refine (hexpr.gathers c c₃ hc hc₃).bind fun yes c₄ h₄ hyes => ?_
          have hc₄ := hc₃.trans h₄
          refine (Arrives.forward (.expect _)).bind fun _ c₅ h₅ _ => ?_
          have hc₅ := hc₄.trans h₅
          refine (hexpr.gathers c c₅ hc hc₅).bind fun no c₆ h₆ hno => .pure fun _ => ⟨rfl, ?_⟩
          have htest₆ := htest.onward hc hc₂ (h₃.trans (h₄.trans (h₅.trans h₆)))
          exact (htest₆.append (hyes.onward hc hc₄ (h₅.trans h₆))).append hno
      | _ => exact .throw _
  | _ => exact .throw _

theorem operands_of_isBase {α : Type} {e : Expr α} (h : e.isBase = true) : e.operands = [] := by
  cases e with
  | binary => nomatch h
  | _ => rfl

theorem primary_places {style : Style} (bound : Nat) (hplace : style.inPattern = inPattern)
    (hexprReads : Reads expr Expr.tokens (Expr.Grammatical style))
    (htypeReads : Reads type TypeExpr.tokens (TypeExpr.Grammatical style))
    (hexpr : Places start size expr) (htype : Gathers start size type TypeExpr.walk) :
    Places start size (primary inPattern bound expr type) := by
  intro c hc
  rw [primary]
  apply Arrives.reading_span
  have hpasses : Arrives (primaryForm inPattern bound expr type) c fun form c' =>
      ∀ span, c.Passes (form span).tokens c' ∧ OfBase style (form span) := by
    intro form c' hrun
    have hform := primaryForm_reads hplace hexprReads htypeReads hc.terminated hrun
    exact ⟨(hform .none).1.reaches, hform⟩
  refine (hpasses.and (primaryForm_arrives bound hexpr htype hc)).bind ?_
  rintro form d - ⟨hpasses, hform⟩
  refine .reading_spanFrom (.pure ?_)
  obtain ⟨hpass, hbase⟩ := hpasses (c.here.span.merge d.lastSpan)
  obtain ⟨hinfo, hparts⟩ := hform (c.here.span.merge d.lastSpan)
  have hadvances : c.Advances d := .of_passes hpass (Expr.tokens_ne_nil _)
  refine .of_parts hc hpass ?_ hparts ?_
  · rw [hinfo]
    exact hc.merge_here hadvances
  · rw [operands_of_isBase hbase.2]
    exact .nil

end Forms

/-! ### Expressions -/

theorem exprAt_typeAt_places (inPattern : Bool) (bound : Nat) :
    (∀ level, Places start size (exprAt inPattern bound level)) ∧
      Gathers start size (typeAt inPattern bound) TypeExpr.walk := by
  induction bound with
  | zero => exact ⟨fun _ _ _ => nofun, fun _ _ _ _ => nofun⟩
  | succ bound ih =>
      obtain ⟨hexpr, htype⟩ := ih
      obtain ⟨hexprReads, htypeReads⟩ := exprAt_typeAt_reads inPattern bound
      have hloosest : Reads (exprAt inPattern bound BinaryOp.loosest) Expr.tokens
          (Expr.Grammatical ⟨inPattern, false⟩) := by
        intro c e c' hc hrun
        obtain ⟨hpass, he⟩ := hexprReads _ _ _ _ hc hrun
        exact ⟨hpass, he.1⟩
      have hform := typeForm_gathers bound (hexpr BinaryOp.loosest).gathers htype
      refine ⟨fun level => ?_, hform⟩
      rw [exprAt]
      refine binary_places (unary_places (fun c hc => ?_) bound) bound level
      refine (primary_places bound rfl hloosest (typeForm_reads bound hloosest htypeReads)
        (hexpr BinaryOp.loosest) hform c hc).bind fun base d _ hbase => ?_
      exact suffixes_arrives (hexprReads BinaryOp.boundLevel) (hexpr BinaryOp.boundLevel) bound
        bound hc hbase

theorem expr_places (bound : Nat) : Places start size (expr bound) :=
  (exprAt_typeAt_places false bound).1 _

theorem patterns_gathers (bound : Nat) :
    Gathers start size (patterns bound) (·.flatMap Expr.walk) :=
  commaSeparated_gathers ((exprAt_typeAt_places true bound).1 _).gathers bound

end Parse

end ArmPseudocode

import ArmPseudocode.Proofs.Parser.Steps
import ArmPseudocode.Proofs.Syntax.Tokens

/-!
# Reading loses nothing

An expression that was read consists of the tokens that were read, in their order, and its
operators group by their levels: a left operand is no looser than its operator, a right operand is
tighter. This holds of every place where an expression is read, and under every bound.
-/

namespace ArmPseudocode.Parse

variable {β : Type} {c c' : Cursor} {style : Style}

/-- A step that succeeds only with something that has a property, and then has read the tokens
of it. -/
def Reads (step : Parse β) (tokens : β → List TokenKind) (Good : β → Prop) : Prop :=
  ∀ c b c', c.Terminated → step c = .ok b c' → c.Passes (tokens b) c' ∧ Good b

def OfLevel (style : Style) (level : Nat) (e : Expr Span) : Prop :=
  e.Grammatical style ∧ e.level ≤ level

def OfBase (style : Style) (e : Expr Span) : Prop :=
  e.Grammatical style ∧ e.isBase = true

theorem level_of_isBase {α : Type} {e : Expr α} (h : e.isBase = true) : e.level = 0 := by
  cases e with
  | binary _ _ _ _ => nomatch h
  | _ => rfl

theorem isOperand_of_level_le {α : Type} {e : Expr α} {level : Nat}
    (hopen : style.closedConditionals = false) (h : e.level ≤ level) : e.IsOperand style level :=
  ⟨h, fun hclosed => by simp [hopen] at hclosed⟩

theorem canTakeSuffix_of_isBase {α : Type} {e : Expr α}
    (hopen : style.closedConditionals = false) (h : e.isBase = true) : e.CanTakeSuffix style :=
  ⟨h, fun hclosed => by simp [hopen] at hclosed⟩

/-! ### Lists -/

section Lists

variable {item : Parse β} {tokens : β → List TokenKind} {Good : β → Prop}

theorem moreItems_reads (hitem : Reads item tokens Good) (bound : Nat) :
    Reads (moreItems item bound) (·.flatMap fun b => .fixed .comma :: tokens b)
      (fun bs => ∀ b ∈ bs, Good b) := by
  induction bound with
  | zero =>
      intro c bs c' hc h
      obtain ⟨rfl, rfl⟩ := of_pure_eq_ok h
      exact ⟨.refl _, by simp⟩
  | succ bound ih =>
      intro c bs c' hc h
      rw [moreItems] at h
      obtain ⟨found, c₁, hcomma, h⟩ := of_bind_eq_ok h
      cases found with
      | false =>
          obtain ⟨rfl, -⟩ := of_eat_false hcomma
          simp only [Bool.false_eq_true, if_false] at h
          obtain ⟨rfl, rfl⟩ := of_pure_eq_ok h
          exact ⟨.refl _, by simp⟩
      | true =>
          have hpass := of_eat_true hc hcomma
          simp only [if_true] at h
          obtain ⟨first, c₂, hfirst, h⟩ := of_bind_eq_ok h
          obtain ⟨rest, c₃, hrest, h⟩ := of_bind_eq_ok h
          obtain ⟨rfl, rfl⟩ := of_pure_eq_ok h
          have hc₁ := hpass.terminated hc
          obtain ⟨hpass₁, hgood⟩ := hitem _ _ _ hc₁ hfirst
          obtain ⟨hpass₂, hgoods⟩ := ih _ _ _ (hpass₁.terminated hc₁) hrest
          refine ⟨?_, List.forall_mem_cons.mpr ⟨hgood, hgoods⟩⟩
          dsimp only
          rw [List.flatMap_cons]
          exact (hpass.trans hpass₁).trans hpass₂

theorem commaSeparated_reads (hitem : Reads item tokens Good) (bound : Nat) :
    Reads (commaSeparated item bound) (fun bs => commas (bs.map tokens))
      (fun bs => bs ≠ [] ∧ ∀ b ∈ bs, Good b) := by
  intro c bs c' hc h
  rw [commaSeparated] at h
  obtain ⟨first, c₁, hfirst, h⟩ := of_bind_eq_ok h
  obtain ⟨rest, c₂, hrest, h⟩ := of_bind_eq_ok h
  obtain ⟨rfl, rfl⟩ := of_pure_eq_ok h
  obtain ⟨hpass, hgood⟩ := hitem _ _ _ hc hfirst
  obtain ⟨hpass₁, hgoods⟩ := moreItems_reads hitem bound _ _ _ (hpass.terminated hc) hrest
  refine ⟨?_, List.cons_ne_nil _ _, List.forall_mem_cons.mpr ⟨hgood, hgoods⟩⟩
  dsimp only
  rw [List.map_cons, commas_cons, List.flatMap_map]
  exact hpass.trans hpass₁

theorem expectName_reads : Reads expectName (fun id => [.name id]) (fun _ => True) :=
  fun _ _ _ hc h => ⟨of_expectName hc h, trivial⟩

end Lists

/-! ### Operators -/

theorem operatorsBehind_reads {operand : Parse (Expr Span)} {level : Nat}
    (hopen : style.closedConditionals = false)
    (hoperand : Reads operand Expr.tokens (OfLevel style level)) (bound : Nat) {left e : Expr Span}
    (hleft : OfLevel style (level + 1) left) (hc : c.Terminated)
    (h : operatorsBehind operand (level + 1) bound left c = .ok e c') :
    (∃ ks, c.Passes ks c' ∧ e.tokens = left.tokens ++ ks) ∧ OfLevel style (level + 1) e := by
  induction bound generalizing left c with
  | zero =>
      obtain ⟨rfl, rfl⟩ := of_pure_eq_ok h
      exact ⟨⟨[], .refl _, (List.append_nil _).symm⟩, hleft⟩
  | succ bound ih =>
      rw [operatorsBehind, bind_of_eq_ok (kind_run c)] at h
      cases hop : binaryOp? c.kind with
      | none =>
          rw [hop] at h
          obtain ⟨rfl, rfl⟩ := of_pure_eq_ok h
          exact ⟨⟨[], .refl _, (List.append_nil _).symm⟩, hleft⟩
      | some op =>
          rw [hop] at h
          have hkind := BinaryOp.eq_token_of_binaryOp? hop
          by_cases hlevel : op.precedence = level + 1
          · simp only [if_pos hlevel] at h
            rw [bind_of_eq_ok (advance_run c)] at h
            obtain ⟨right, c₁, hright, h⟩ := of_bind_eq_ok h
            have hpass := Cursor.passes_of_kind hc hkind nofun
            have hc₁ := hpass.terminated hc
            obtain ⟨hpass₁, hread⟩ := hoperand _ _ _ hc₁ hright
            have hjoined : OfLevel style (level + 1)
                (.binary (left.info.merge right.info) op left right) := by
              refine ⟨.binary _ op (isOperand_of_level_le hopen ?_)
                (isOperand_of_level_le hopen ?_) hleft.1 hread.1, Nat.le_of_eq hlevel⟩
              · rw [hlevel]
                exact hleft.2
              · rw [hlevel, Nat.add_sub_cancel]
                exact hread.2
            obtain ⟨⟨ks, hpass₂, htokens⟩, he⟩ := ih hjoined (hpass₁.terminated hc₁) h
            refine ⟨⟨_, (hpass.trans hpass₁).trans hpass₂, ?_⟩, he⟩
            rw [htokens, Expr.tokens]
            simp
          · simp only [if_neg hlevel] at h
            obtain ⟨rfl, rfl⟩ := of_pure_eq_ok h
            exact ⟨⟨[], .refl _, (List.append_nil _).symm⟩, hleft⟩

theorem binary_reads {operand : Parse (Expr Span)} (hopen : style.closedConditionals = false)
    (hoperand : Reads operand Expr.tokens (OfLevel style 0)) (bound level : Nat) :
    Reads (binary operand bound level) Expr.tokens (OfLevel style level) := by
  induction level with
  | zero => exact hoperand
  | succ level ih =>
      intro c e c' hc h
      rw [binary] at h
      obtain ⟨left, c₁, hleft, h⟩ := of_bind_eq_ok h
      obtain ⟨hpass, hread⟩ := ih _ _ _ hc hleft
      obtain ⟨⟨ks, hpass₁, htokens⟩, he⟩ := operatorsBehind_reads hopen ih bound
        ⟨hread.1, Nat.le_succ_of_le hread.2⟩ (hpass.terminated hc) h
      rw [htokens]
      exact ⟨hpass.trans hpass₁, he⟩

theorem unary_reads {operand : Parse (Expr Span)} (hopen : style.closedConditionals = false)
    (hoperand : Reads operand Expr.tokens (OfBase style)) (bound : Nat) :
    Reads (unary operand bound) Expr.tokens (OfLevel style 0) := by
  have hbase : Reads operand Expr.tokens (OfLevel style 0) := by
    intro c e c' hc h
    obtain ⟨hpass, he⟩ := hoperand _ _ _ hc h
    exact ⟨hpass, he.1, Nat.le_of_eq (level_of_isBase he.2)⟩
  induction bound with
  | zero => exact hbase
  | succ bound ih =>
      intro c e c' hc h
      rw [unary, bind_of_eq_ok (kind_run c)] at h
      cases hop : unaryOp? c.kind with
      | none =>
          rw [hop] at h
          exact hbase _ _ _ hc h
      | some op =>
          simp only [hop] at h
          have hkind := UnaryOp.eq_token_of_unaryOp? hop
          rw [bind_of_eq_ok (advance_run c)] at h
          obtain ⟨inner, c₁, hinner, h⟩ := of_bind_eq_ok h
          obtain ⟨rfl, rfl⟩ := of_pure_eq_ok h
          have hpass := Cursor.passes_of_kind hc hkind nofun
          obtain ⟨hpass₁, hread⟩ := ih _ _ _ (hpass.terminated hc) hinner
          refine ⟨hpass.trans hpass₁, ?_, Nat.le_refl 0⟩
          exact .unary _ op (isOperand_of_level_le hopen hread.2) hread.1

/-! ### Suffixes -/

def OfBounds (style : Style) (term : SliceTerm (Expr Span)) : Prop :=
  ∀ e ∈ term.bounds, OfLevel style BinaryOp.boundLevel e

theorem sliceTerm_reads {bound : Parse (Expr Span)}
    (hbound : Reads bound Expr.tokens (OfLevel style BinaryOp.boundLevel)) :
    Reads (sliceTerm bound) SliceTerm.tokens (OfBounds style) := by
  intro c term c' hc h
  rw [sliceTerm] at h
  obtain ⟨high, c₁, hhigh, h⟩ := of_bind_eq_ok h
  obtain ⟨found, c₂, hcolon, h⟩ := of_bind_eq_ok h
  obtain ⟨hpass, hread⟩ := hbound _ _ _ hc hhigh
  have hc₁ := hpass.terminated hc
  cases found with
  | true =>
      have hpass₁ := of_eat_true hc₁ hcolon
      simp only [if_true] at h
      obtain ⟨low, c₃, hlow, h⟩ := of_bind_eq_ok h
      obtain ⟨rfl, rfl⟩ := of_pure_eq_ok h
      obtain ⟨hpass₂, hread₂⟩ := hbound _ _ _ (hpass₁.terminated hc₁) hlow
      refine ⟨hpass.trans (hpass₁.trans hpass₂), ?_⟩
      simpa [OfBounds, SliceTerm.bounds] using ⟨hread, hread₂⟩
  | false =>
      obtain ⟨rfl, -⟩ := of_eat_false hcolon
      simp only [Bool.false_eq_true, if_false] at h
      obtain ⟨rfl, rfl⟩ := of_pure_eq_ok h
      refine ⟨hpass, ?_⟩
      simpa [OfBounds, SliceTerm.bounds] using hread

theorem sliceTerms_reads {bound : Parse (Expr Span)} {delimiter : Char}
    {opening closing : FixedToken} {terms : List (SliceTerm (Expr Span))} (size : Nat)
    (hbound : Reads bound Expr.tokens (OfLevel style BinaryOp.boundLevel)) (hc : c.Terminated)
    (hkind : c.kind = .fixed opening)
    (h : sliceTerms bound size delimiter closing c = .ok terms c') :
    c.Passes (.fixed opening :: (commas (Expr.tokensTerms terms) ++ [.fixed closing])) c' ∧
      terms ≠ [] ∧ ∀ term ∈ terms, OfBounds style term := by
  rw [sliceTerms, bind_of_eq_ok (advance_run c)] at h
  obtain ⟨found, c₁, hterms, h⟩ := of_bind_eq_ok h
  obtain ⟨_, c₂, hclose, h⟩ := of_bind_eq_ok h
  obtain ⟨rfl, rfl⟩ := of_pure_eq_ok h
  have hpass := Cursor.passes_of_kind hc hkind nofun
  have hc₁ := hpass.terminated hc
  obtain ⟨hpass₁, hgood⟩ := commaSeparated_reads (sliceTerm_reads hbound) size _ _ _ hc₁ hterms
  have hpass₂ := of_close (hpass₁.terminated hc₁) hclose
  rw [Expr.tokensTerms_eq_map]
  exact ⟨hpass.trans (hpass₁.trans hpass₂), hgood⟩

theorem suffixes_reads {inner : Parse (Expr Span)} (hopen : style.closedConditionals = false)
    (hinner : Reads inner Expr.tokens (OfLevel style BinaryOp.boundLevel)) (size bound : Nat)
    {base e : Expr Span} (hbase : OfBase style base) (hc : c.Terminated)
    (h : suffixes inner size bound base c = .ok e c') :
    (∃ ks, c.Passes ks c' ∧ e.tokens = base.tokens ++ ks) ∧ OfBase style e := by
  induction bound generalizing base c with
  | zero =>
      obtain ⟨rfl, rfl⟩ := of_pure_eq_ok h
      exact ⟨⟨[], .refl _, (List.append_nil _).symm⟩, hbase⟩
  | succ bound ih =>
      have hcan := canTakeSuffix_of_isBase hopen hbase.2
      rw [suffixes, bind_of_eq_ok (kind_run c)] at h
      generalize hkind : c.kind = kind at h
      split at h
      · obtain ⟨terms, c₁, hterms, h⟩ := of_bind_eq_ok h
        rw [bind_of_eq_ok (spanFrom_run _ c₁)] at h
        obtain ⟨hpass, hsome, hgood⟩ := sliceTerms_reads size hinner hc hkind hterms
        have hslice : OfBase style (.slice (base.info.merge c₁.lastSpan) base terms) :=
          ⟨.slice _ hcan hbase.1 hsome
            (fun term hmem e he => isOperand_of_level_le hopen (hgood term hmem e he).2)
            (fun term hmem e he => (hgood term hmem e he).1), rfl⟩
        obtain ⟨⟨ks, hpass₁, htokens⟩, he⟩ := ih hslice (hpass.terminated hc) h
        exact ⟨⟨_, hpass.trans hpass₁, by rw [htokens, Expr.tokens]; simp⟩, he⟩
      · obtain ⟨terms, c₁, hterms, h⟩ := of_bind_eq_ok h
        rw [bind_of_eq_ok (spanFrom_run _ c₁)] at h
        obtain ⟨hpass, hsome, hgood⟩ := sliceTerms_reads size hinner hc hkind hterms
        have hindex : OfBase style (.index (base.info.merge c₁.lastSpan) base terms) :=
          ⟨.index _ hcan hbase.1 hsome
            (fun term hmem e he => isOperand_of_level_le hopen (hgood term hmem e he).2)
            (fun term hmem e he => (hgood term hmem e he).1), rfl⟩
        obtain ⟨⟨ks, hpass₁, htokens⟩, he⟩ := ih hindex (hpass.terminated hc) h
        exact ⟨⟨_, hpass.trans hpass₁, by rw [htokens, Expr.tokens]; simp⟩, he⟩
      · rw [bind_of_eq_ok (advance_run c)] at h
        obtain ⟨field, c₁, hfield, h⟩ := of_bind_eq_ok h
        rw [bind_of_eq_ok (spanFrom_run _ c₁)] at h
        have hpass := Cursor.passes_of_kind hc hkind nofun
        have hpass₁ := of_expectName (hpass.terminated hc) hfield
        have hmember : OfBase style (.member (base.info.merge c₁.lastSpan) base field) :=
          ⟨.member _ field hcan hbase.1, rfl⟩
        obtain ⟨⟨ks, hpass₂, htokens⟩, he⟩ := ih hmember ((hpass.trans hpass₁).terminated hc) h
        exact ⟨⟨_, (hpass.trans hpass₁).trans hpass₂, by rw [htokens, Expr.tokens]; simp⟩, he⟩
      · obtain ⟨rfl, rfl⟩ := of_pure_eq_ok h
        exact ⟨⟨[], .refl _, (List.append_nil _).symm⟩, hbase⟩

/-! ### Types -/

theorem typeForm_reads {expr : Parse (Expr Span)} {type : Parse (TypeExpr Span)} (bound : Nat)
    (hexpr : Reads expr Expr.tokens (Expr.Grammatical style))
    (htype : Reads type TypeExpr.tokens (TypeExpr.Grammatical style)) :
    Reads (typeForm bound expr type) TypeExpr.tokens (TypeExpr.Grammatical style) := by
  intro c t c' hc h
  rw [typeForm, bind_of_eq_ok (span_run c), bind_of_eq_ok (kind_run c)] at h
  have hstep := Cursor.passes_advance hc
  generalize hkind : c.kind = kind at h hstep
  split at h
  · rw [bind_of_eq_ok (advance_run c)] at h
    obtain ⟨width, c₁, hwidth, h⟩ := of_bind_eq_ok h
    obtain ⟨_, c₂, hclose, h⟩ := of_bind_eq_ok h
    obtain ⟨rfl, rfl⟩ := of_pure_eq_ok h
    have hpass := hstep (by nofun)
    have hc₁ := hpass.terminated hc
    obtain ⟨hpass₁, hread⟩ := hexpr _ _ _ hc₁ hwidth
    have hpass₂ := of_close (hpass₁.terminated hc₁) hclose
    exact ⟨hpass.trans (hpass₁.trans hpass₂), .bits hread⟩
  · rw [bind_of_eq_ok (advance_run c)] at h
    obtain ⟨rfl, rfl⟩ := of_pure_eq_ok h
    exact ⟨hstep (by nofun), .bit⟩
  · rw [bind_of_eq_ok (advance_run c)] at h
    obtain ⟨rfl, rfl⟩ := of_pure_eq_ok h
    exact ⟨hstep (by nofun), .integer⟩
  · rw [bind_of_eq_ok (advance_run c)] at h
    obtain ⟨rfl, rfl⟩ := of_pure_eq_ok h
    exact ⟨hstep (by nofun), .boolean⟩
  · rw [bind_of_eq_ok (advance_run c)] at h
    obtain ⟨rfl, rfl⟩ := of_pure_eq_ok h
    exact ⟨hstep (by nofun), .named _⟩
  · rw [bind_of_eq_ok (advance_run c)] at h
    obtain ⟨items, c₁, hitems, h⟩ := of_bind_eq_ok h
    obtain ⟨_, c₂, hclose, h⟩ := of_bind_eq_ok h
    obtain ⟨rfl, rfl⟩ := of_pure_eq_ok h
    have hpass := hstep (by nofun)
    have hc₁ := hpass.terminated hc
    obtain ⟨hpass₁, hsome, hgood⟩ := commaSeparated_reads htype bound _ _ _ hc₁ hitems
    have hpass₂ := of_close (hpass₁.terminated hc₁) hclose
    refine ⟨?_, .tuple hsome hgood⟩
    rw [TypeExpr.tokens, TypeExpr.tokensEach_eq_map]
    exact hpass.trans (hpass₁.trans hpass₂)
  · nomatch h

theorem canLead_of_word {α : Type} {type : TypeExpr α} {k : TokenKind}
    {rest behind : List TokenKind} (htokens : type.tokens ++ behind = k :: rest)
    (hk : beginsType k = true) :
    type.canLead = true := by
  cases type with
  | named | tuple =>
      rw [TypeExpr.tokens, List.cons_append] at htokens
      rw [← (List.cons.inj htokens).1] at hk
      nomatch hk
  | _ => rfl

theorem isWord_of_tokens {α : Type} {type : TypeExpr α} {k : TokenKind}
    {rest behind : List TokenKind} (htokens : type.tokens ++ behind = k :: rest)
    (hk : beginsType k = true) : type.isWord = true := by
  have hlead := canLead_of_word htokens hk
  cases type with
  | tuple items =>
      rw [TypeExpr.tokens, List.cons_append] at htokens
      rw [← (List.cons.inj htokens).1] at hk
      nomatch hk
  | _ => exact hlead

theorem canLead_of_paren {α : Type} {type : TypeExpr α} {k : TokenKind}
    {rest behind : List TokenKind} (htype : type.Grammatical style)
    (htokens : type.tokens ++ behind = .fixed .openParen :: k :: rest)
    (hk : beginsType k = true) : type.canLead = true := by
  cases htype with
  | tuple hsome hitems =>
      next items =>
      cases items with
      | nil => exact absurd rfl hsome
      | cons first items =>
          rw [TypeExpr.tokens, TypeExpr.tokensEach_eq_map, List.map_cons, commas_cons,
            List.cons_append, List.append_assoc, List.append_assoc] at htokens
          exact isWord_of_tokens (List.cons.inj htokens).2 hk
  | named id => nomatch htokens
  | _ => rfl

/-! ### Primary forms -/

theorem tupleItem_reads {expr : Parse (Expr Span)}
    (hexpr : Reads expr Expr.tokens (Expr.Grammatical style)) :
    Reads (tupleItem expr) Expr.tokens (fun e => e.isBlank = false → e.Grammatical style) := by
  intro c e c' hc h
  rw [tupleItem, bind_of_eq_ok (nextKind_run c), bind_of_eq_ok (isAt_run .minus c)] at h
  split at h
  · next hblank =>
      have hkind : c.kind = .fixed .minus := by
        simp only [Bool.and_eq_true, decide_eq_true_eq] at hblank
        exact hblank.1
      rw [bind_of_eq_ok (advance_run c)] at h
      obtain ⟨rfl, rfl⟩ := of_pure_eq_ok h
      have hpass := Cursor.passes_of_kind hc hkind nofun
      exact ⟨hpass, nofun⟩
  · obtain ⟨hpass, hread⟩ := hexpr _ _ _ hc h
    exact ⟨hpass, fun _ => hread⟩

theorem typedPrimary_reads {type : Parse (TypeExpr Span)} {form : Span → Expr Span}
    (htype : Reads type TypeExpr.tokens (TypeExpr.Grammatical style)) (hc : c.Terminated)
    (hlead : ∀ t : TypeExpr Span, t.Grammatical style →
      (∃ behind, t.tokens ++ behind = c.kinds) → t.canLead = true)
    (h : typedPrimary type c = .ok form c') (s : Span) :
    c.Passes (form s).tokens c' ∧ OfBase style (form s) := by
  rw [typedPrimary] at h
  obtain ⟨t, c₁, ht, h⟩ := of_bind_eq_ok h
  obtain ⟨found, c₂, hfound, h⟩ := of_bind_eq_ok h
  obtain ⟨hpass, hread⟩ := htype _ _ _ hc ht
  have hc₁ := hpass.terminated hc
  have hcan := hlead t hread ⟨c₁.kinds, hpass.kinds_eq.symm⟩
  cases found with
  | true =>
      simp only [if_true] at h
      obtain ⟨rfl, rfl⟩ := of_pure_eq_ok h
      exact ⟨hpass.trans (of_eat_true hc₁ hfound), .unknownOf s hcan hread, rfl⟩
  | false =>
      obtain ⟨rfl, -⟩ := of_eat_false hfound
      simp only [Bool.false_eq_true, if_false] at h
      obtain ⟨id, c₃, hid, h⟩ := of_bind_eq_ok h
      obtain ⟨rfl, rfl⟩ := of_pure_eq_ok h
      exact ⟨hpass.trans (of_expectName hc₁ hid), .declare s id hcan hread, rfl⟩

/-- The first item of a list in parentheses begins as what stands behind the parenthesis. -/
theorem beginsNoType_of_nextKind {items : List (Expr Span)} {behind : List TokenKind}
    (hnext : beginsType c.kind = false)
    (htokens : c.kinds = commas (items.map Expr.tokens) ++ behind) :
    ∀ e ∈ items.head?, e.BeginsNoType := by
  intro e he k hk
  cases items with
  | nil => nomatch he
  | cons first items =>
      obtain rfl : first = e := by simpa using he
      obtain ⟨tokens, htail⟩ := List.head?_eq_some_iff.mp hk
      rw [List.map_cons, commas_cons, htail, List.cons_append, List.cons_append] at htokens
      rwa [Cursor.kind_eq_of_kinds htokens] at hnext

section Forms

variable {inPattern : Bool} {bound : Nat} {expr : Parse (Expr Span)}
  {type : Parse (TypeExpr Span)} {form : Span → Expr Span}

theorem of_tokenForm {form' : Span → Expr Span} (hc : c.Terminated) (hkind : c.kind ≠ .eof)
    (h : (do let _ ← advance; return form' : Parse (Span → Expr Span)) c = .ok form c') :
    form' = form ∧ c.Passes [c.kind] c' := by
  rw [bind_of_eq_ok (advance_run c)] at h
  obtain ⟨rfl, rfl⟩ := of_pure_eq_ok h
  exact ⟨rfl, Cursor.passes_advance hc hkind⟩

/-- A name, with the name that it types behind it where that is not a pattern of its own. -/
theorem nameForm_reads {id : String} (hplace : style.inPattern = inPattern) (hc : c.Terminated)
    (hkind : c.kind = .name id) (h : primaryForm inPattern bound expr type c = .ok form c')
    (s : Span) : c.Passes (form s).tokens c' ∧ OfBase style (form s) := by
  rw [primaryForm, bind_of_eq_ok (span_run c), bind_of_eq_ok (kind_run c), hkind] at h
  dsimp only at h
  have hpass := Cursor.passes_of_kind hc hkind nofun
  have hstep := Cursor.passes_advance (hpass.terminated hc)
  rw [bind_of_eq_ok (advance_run c), bind_of_eq_ok (kind_run c.advance)] at h
  generalize c.advance.kind = next at h hstep
  split at h
  · next var =>
      split at h
      · obtain ⟨rfl, rfl⟩ := of_pure_eq_ok h
        exact ⟨hpass, .name s id, rfl⟩
      · next houtside =>
          rw [bind_of_eq_ok (advance_run _)] at h
          obtain ⟨rfl, rfl⟩ := of_pure_eq_ok h
          refine ⟨hpass.trans (hstep (by nofun)), .declareNamed s id var ?_, rfl⟩
          rw [hplace]
          exact Bool.eq_false_iff.mpr houtside
  · obtain ⟨rfl, rfl⟩ := of_pure_eq_ok h
    exact ⟨hpass, .name s id, rfl⟩

theorem callForm_reads {callee : String}
    (hexpr : Reads expr Expr.tokens (Expr.Grammatical style)) (hc : c.Terminated)
    (hkind : c.kind = .call callee) (h : primaryForm inPattern bound expr type c = .ok form c')
    (s : Span) : c.Passes (form s).tokens c' ∧ OfBase style (form s) := by
  rw [primaryForm, bind_of_eq_ok (span_run c), bind_of_eq_ok (kind_run c), hkind] at h
  dsimp only at h
  have hpass := Cursor.passes_of_kind hc hkind nofun
  have hc₁ := hpass.terminated hc
  rw [bind_of_eq_ok (advance_run c), bind_of_eq_ok (isAt_run _ c.advance)] at h
  have hread : ∃ (args : List (Expr Span)) (c₁ : Cursor),
      (c.advance.Passes (commas (args.map Expr.tokens)) c₁ ∧ ∀ e ∈ args, e.Grammatical style) ∧
      (do
        close c.here.span '(' .closeParen
        return (Expr.call · callee args) : Parse (Span → Expr Span)) c₁ = .ok form c' := by
    split at h
    · exact ⟨[], c.advance, ⟨.refl _, by simp⟩, h⟩
    · obtain ⟨args, c₁, hargs, h⟩ := of_bind_eq_ok h
      obtain ⟨hpass₁, -, hgood⟩ := commaSeparated_reads hexpr bound _ _ _ hc₁ hargs
      exact ⟨args, c₁, ⟨hpass₁, hgood⟩, h⟩
  obtain ⟨args, c₁, ⟨hpass₁, hgood⟩, h⟩ := hread
  obtain ⟨_, c₂, hclose, h⟩ := of_bind_eq_ok h
  obtain ⟨rfl, rfl⟩ := of_pure_eq_ok h
  have hpass₂ := of_close (hpass₁.terminated hc₁) hclose
  refine ⟨?_, .call s callee hgood, rfl⟩
  rw [Expr.tokens, Expr.tokensEach_eq_map]
  exact hpass.trans (hpass₁.trans hpass₂)

/-- What is in parentheses is a type if the first token inside can only begin one. -/
theorem parenForm_reads (hexpr : Reads expr Expr.tokens (Expr.Grammatical style))
    (htype : Reads type TypeExpr.tokens (TypeExpr.Grammatical style)) (hc : c.Terminated)
    (hkind : c.kind = .fixed .openParen) (h : primaryForm inPattern bound expr type c = .ok form c')
    (s : Span) : c.Passes (form s).tokens c' ∧ OfBase style (form s) := by
  rw [primaryForm, bind_of_eq_ok (span_run c), bind_of_eq_ok (kind_run c), hkind] at h
  dsimp only at h
  have hne : c.kind ≠ .eof := by rw [hkind]; nofun
  have hnext : c.advance.kind = c.nextKind := Cursor.kind_advance hc hne
  have hpass := Cursor.passes_of_kind hc hkind nofun
  rw [bind_of_eq_ok (nextKind_run c)] at h
  split at h
  · next hbegins =>
      refine typedPrimary_reads htype hc ?_ h s
      rintro t ht ⟨behind, htokens⟩
      rw [hpass.kinds_eq, Cursor.kinds_eq, hnext] at htokens
      exact canLead_of_paren ht htokens hbegins
  · next hbegins =>
      have hc₁ := hpass.terminated hc
      rw [bind_of_eq_ok (advance_run c)] at h
      obtain ⟨items, c₁, hitems, h⟩ := of_bind_eq_ok h
      obtain ⟨_, c₂, hclose, h⟩ := of_bind_eq_ok h
      obtain ⟨rfl, rfl⟩ := of_pure_eq_ok h
      obtain ⟨hpass₁, hsome, hgood⟩ :=
        commaSeparated_reads (tupleItem_reads hexpr) bound _ _ _ hc₁ hitems
      have hpass₂ := of_close (hpass₁.terminated hc₁) hclose
      have hfirst : ∀ e ∈ items.head?, e.BeginsNoType := by
        refine beginsNoType_of_nextKind ?_ hpass₁.kinds_eq
        rw [hnext]
        exact Bool.eq_false_iff.mpr hbegins
      refine ⟨?_, .tuple s hsome hfirst hgood, rfl⟩
      rw [Expr.tokens, Expr.tokensEach_eq_map]
      exact hpass.trans (hpass₁.trans hpass₂)

theorem conditionalForm_reads (hexpr : Reads expr Expr.tokens (Expr.Grammatical style))
    (hc : c.Terminated) (hkind : c.kind = .fixed .kwIf)
    (h : primaryForm inPattern bound expr type c = .ok form c') (s : Span) :
    c.Passes (form s).tokens c' ∧ OfBase style (form s) := by
  rw [primaryForm, bind_of_eq_ok (span_run c), bind_of_eq_ok (kind_run c), hkind] at h
  dsimp only at h
  rw [bind_of_eq_ok (advance_run c)] at h
  obtain ⟨test, c₁, htest, h⟩ := of_bind_eq_ok h
  obtain ⟨_, c₂, hthen, h⟩ := of_bind_eq_ok h
  obtain ⟨yes, c₃, hyes, h⟩ := of_bind_eq_ok h
  obtain ⟨_, c₄, helse, h⟩ := of_bind_eq_ok h
  obtain ⟨no, c₅, hno, h⟩ := of_bind_eq_ok h
  obtain ⟨rfl, rfl⟩ := of_pure_eq_ok h
  have hpass := Cursor.passes_of_kind hc hkind nofun
  have hc₀ := hpass.terminated hc
  obtain ⟨hpass₁, htest⟩ := hexpr _ _ _ hc₀ htest
  have hc₁ := hpass₁.terminated hc₀
  have hpass₂ := of_expect hc₁ hthen
  have hc₂ := hpass₂.terminated hc₁
  obtain ⟨hpass₃, hyes⟩ := hexpr _ _ _ hc₂ hyes
  have hc₃ := hpass₃.terminated hc₂
  have hpass₄ := of_expect hc₃ helse
  have hc₄ := hpass₄.terminated hc₃
  obtain ⟨hpass₅, hno⟩ := hexpr _ _ _ hc₄ hno
  refine ⟨?_, .conditional s htest hyes hno, rfl⟩
  exact hpass.trans (hpass₁.trans (hpass₂.trans (hpass₃.trans (hpass₄.trans hpass₅))))

theorem primaryForm_reads (hplace : style.inPattern = inPattern)
    (hexpr : Reads expr Expr.tokens (Expr.Grammatical style))
    (htype : Reads type TypeExpr.tokens (TypeExpr.Grammatical style)) (hc : c.Terminated)
    (h : primaryForm inPattern bound expr type c = .ok form c') (s : Span) :
    c.Passes (form s).tokens c' ∧ OfBase style (form s) := by
  have hform := h
  rw [primaryForm, bind_of_eq_ok (span_run c), bind_of_eq_ok (kind_run c)] at hform
  cases hkind : c.kind with
  | name id => exact nameForm_reads hplace hc hkind h s
  | call callee => exact callForm_reads hexpr hc hkind h s
  | int | real | bitString | error =>
      rw [hkind] at hform
      obtain ⟨rfl, hpass⟩ := of_tokenForm hc (by rw [hkind]; nofun) hform
      rw [hkind] at hpass
      exact ⟨hpass, by constructor, rfl⟩
  | fixed word =>
      cases word with
      | openParen => exact parenForm_reads hexpr htype hc hkind h s
      | kwIf => exact conditionalForm_reads hexpr hc hkind h s
      | kwBits | kwBit | kwInteger | kwBoolean =>
          rw [hkind] at hform
          refine typedPrimary_reads htype hc ?_ hform s
          rintro t - ⟨behind, htokens⟩
          rw [Cursor.kinds_eq, hkind] at htokens
          exact canLead_of_word htokens rfl
      | kwUnknown =>
          rw [hkind] at hform
          obtain ⟨rfl, hpass⟩ := of_tokenForm hc (by rw [hkind]; nofun) hform
          rw [hkind] at hpass
          exact ⟨hpass, .unknown s, rfl⟩
      | _ =>
          rw [hkind] at hform
          nomatch hform
  | _ =>
      rw [hkind] at hform
      nomatch hform

end Forms

theorem primary_reads {inPattern : Bool} {expr : Parse (Expr Span)}
    {type : Parse (TypeExpr Span)} (bound : Nat) (hplace : style.inPattern = inPattern)
    (hexpr : Reads expr Expr.tokens (Expr.Grammatical style))
    (htype : Reads type TypeExpr.tokens (TypeExpr.Grammatical style)) :
    Reads (primary inPattern bound expr type) Expr.tokens (OfBase style) := by
  intro c e c' hc h
  rw [primary, bind_of_eq_ok (span_run c)] at h
  obtain ⟨form, c₁, hform, h⟩ := of_bind_eq_ok h
  rw [bind_of_eq_ok (spanFrom_run _ c₁)] at h
  obtain ⟨rfl, rfl⟩ := of_pure_eq_ok h
  exact primaryForm_reads hplace hexpr htype hc hform _

/-! ### Expressions -/

/-- What is read as an expression or as a type is made of the tokens read. -/
theorem exprAt_typeAt_reads (inPattern : Bool) (bound : Nat) :
    (∀ level, Reads (exprAt inPattern bound level) Expr.tokens
        (OfLevel ⟨inPattern, false⟩ level)) ∧
      Reads (typeAt inPattern bound) TypeExpr.tokens
        (TypeExpr.Grammatical ⟨inPattern, false⟩) := by
  induction bound with
  | zero =>
      refine ⟨fun level c e c' _ h => ?_, fun c t c' _ h => ?_⟩
      · nomatch h
      · nomatch h
  | succ bound ih =>
      obtain ⟨hexprAt, htypeAt⟩ := ih
      have hexpr : Reads (exprAt inPattern bound BinaryOp.loosest) Expr.tokens
          (Expr.Grammatical ⟨inPattern, false⟩) := by
        intro c e c' hc h
        obtain ⟨hpass, he⟩ := hexprAt _ _ _ _ hc h
        exact ⟨hpass, he.1⟩
      have htype := typeForm_reads bound hexpr htypeAt
      refine ⟨fun level => ?_, htype⟩
      rw [exprAt]
      refine binary_reads rfl (unary_reads rfl ?_ bound) bound level
      intro c e c' hc h
      obtain ⟨base, c₁, hbase, h⟩ := of_bind_eq_ok h
      obtain ⟨hpass, hread⟩ := primary_reads bound rfl hexpr htype _ _ _ hc hbase
      obtain ⟨⟨ks, hpass₁, htokens⟩, he⟩ :=
        suffixes_reads rfl (hexprAt BinaryOp.boundLevel) bound bound hread (hpass.terminated hc) h
      rw [htokens]
      exact ⟨hpass.trans hpass₁, he⟩

theorem expr_reads (bound : Nat) :
    Reads (expr bound) Expr.tokens (Expr.Grammatical ⟨false, false⟩) := by
  intro c e c' hc h
  obtain ⟨hpass, he⟩ := (exprAt_typeAt_reads false bound).1 _ _ _ _ hc h
  exact ⟨hpass, he.1⟩

theorem patterns_reads (bound : Nat) :
    Reads (patterns bound) (fun es => commas (es.map Expr.tokens))
      (fun es => es ≠ [] ∧ ∀ e ∈ es, e.Grammatical ⟨true, false⟩) := by
  refine commaSeparated_reads ?_ bound
  intro c e c' hc h
  obtain ⟨hpass, he⟩ := (exprAt_typeAt_reads true bound).1 _ _ _ _ hc h
  exact ⟨hpass, he.1⟩

end ArmPseudocode.Parse

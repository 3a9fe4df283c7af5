import ArmPseudocode.Proofs.Parser.Forms
import ArmPseudocode.Proofs.Syntax.Walk

/-!
# Grammatical trees are read back

A grammatical tree whose conditionals are in parentheses where they are operands is what its tokens
are read as. Suffixes and operators of one level are read from the innermost one outwards, so for
both there is a statement about the point where the next one is looked for, and an induction along
the left spine of the tree that leads there.
-/

namespace ArmPseudocode.Parse

variable {c : Cursor} {k : TokenKind} {rest : List TokenKind}

/-! ### Suffixes -/

section Suffixes

variable {inner : Parse (Expr Span)} {size : Nat} {style : Style}

/-- Every operand that fits between the brackets of a slice is read back. -/
def AcceptsBounds (style : Style) (inner : Parse (Expr Span)) (bound : Nat) : Prop :=
  ∀ e : Expr Unit, e.Grammatical style → e.IsOperand style BinaryOp.boundLevel →
    Accepts inner Expr.erase bound (Stops BinaryOp.boundLevel) e.tokens e

theorem sliceTerm_accepts (hinner : AcceptsBounds style inner size)
    {term : SliceTerm (Expr Unit)}
    (hbounds : ∀ e ∈ term.bounds, e.IsOperand style BinaryOp.boundLevel)
    (hgrammatical : ∀ e ∈ term.bounds, e.Grammatical style) :
    Accepts (sliceTerm inner) SliceTerm.erase size (Stops BinaryOp.loosest) term.tokens term := by
  intro c k rest hkinds hk hbound
  cases term with
  | single position =>
      have hmem : position ∈ (SliceTerm.single position).bounds := List.mem_singleton_self position
      obtain ⟨e, c₁, hread, herase, hc₁⟩ := hinner position (hgrammatical _ hmem) (hbounds _ hmem)
        _ _ _ hkinds (hk.of_le (by decide)) hbound
      have hcolon : c₁.kind ≠ .fixed .colon := by
        rw [Cursor.kind_eq_of_kinds hc₁]
        rintro rfl
        cases hk.binaryOp?_eq_none
      refine ⟨.single e, c₁, ?_, by rw [SliceTerm.erase, herase], hc₁⟩
      rw [sliceTerm, bind_of_eq_ok hread, bind_of_eq_ok (eat_of_kind_ne hcolon),
        if_neg Bool.false_ne_true]
      rfl
  | range high low =>
      have hhigh : high ∈ (SliceTerm.range high low).bounds := List.mem_cons_self
      have hlow : low ∈ (SliceTerm.range high low).bounds :=
        List.mem_cons_of_mem _ (List.mem_singleton_self low)
      rw [SliceTerm.tokens, List.append_assoc, List.cons_append] at hkinds
      have hlength := congrArg List.length hkinds
      simp only [List.length_append, List.length_cons] at hlength
      obtain ⟨e, c₁, hread₁, herase₁, hc₁⟩ := hinner high (hgrammatical _ hhigh) (hbounds _ hhigh)
        _ _ _ hkinds (stops_token .concat (by decide)) hbound
      have hadvance := Cursor.kinds_advance hc₁ (by simp) (by simp)
      obtain ⟨e', c₂, hread₂, herase₂, hc₂⟩ := hinner low (hgrammatical _ hlow) (hbounds _ hlow)
        _ _ _ hadvance (hk.of_le (by decide))
          (by rw [hadvance]; simp only [List.length_append, List.length_cons]; omega)
      refine ⟨.range e e', c₂, ?_, by rw [SliceTerm.erase, herase₁, herase₂], hc₂⟩
      rw [sliceTerm, bind_of_eq_ok hread₁,
        bind_of_eq_ok (eat_of_kind (Cursor.kind_eq_of_kinds hc₁)), if_pos rfl, bind_of_eq_ok hread₂]
      rfl

theorem sliceTerms_accepts (hinner : AcceptsBounds style inner size)
    {terms : List (SliceTerm (Expr Unit))} {opening closing : FixedToken}
    (delimiter : Char) (hsome : terms ≠ [])
    (hbounds : ∀ term ∈ terms, ∀ e ∈ term.bounds, e.IsOperand style BinaryOp.boundLevel)
    (hgrammatical : ∀ term ∈ terms, ∀ e ∈ term.bounds, e.Grammatical style)
    (hclosing : Stops BinaryOp.loosest (.fixed closing) ∧ closing ≠ .comma)
    (hkinds : c.kinds =
      .fixed opening :: (commas (Expr.tokensTerms terms) ++ .fixed closing :: k :: rest))
    (hbound : c.kinds.length ≤ size + 1) :
    ∃ terms' c', sliceTerms inner size delimiter closing c = .ok terms' c' ∧
      terms'.map SliceTerm.erase = terms ∧ c'.kinds = k :: rest := by
  rw [Expr.tokensTerms_eq_map] at hkinds
  have hadvance := Cursor.kinds_advance hkinds (by nofun) (by simp)
  obtain ⟨terms', c₁, hread, herase, hc₁⟩ :=
    commaSeparated_accepts hsome (stops_comma _)
      (fun term hmem => sliceTerm_accepts hinner (hbounds term hmem) (hgrammatical term hmem))
      _ _ _ hadvance ⟨hclosing.1, fun h => hclosing.2 (by simpa using h)⟩
      (length_advance_le hkinds hadvance hbound)
  refine ⟨terms', c₁.advance, ?_, herase, Cursor.kinds_advance hc₁ (by nofun) (by simp)⟩
  rw [sliceTerms, bind_of_eq_ok (advance_run c), bind_of_eq_ok hread,
    bind_of_eq_ok (close_of_kind (Cursor.kind_eq_of_kinds hc₁))]
  rfl

theorem suffixes_stop {e : Expr Span} (hk : continuesOperand c.kind = false) (bound : Nat) :
    suffixes inner size bound e c = .ok e c := by
  cases bound with
  | zero => rfl
  | succ bound =>
      rw [suffixes, bind_of_eq_ok (kind_run c)]
      generalize c.kind = kind at hk
      split <;> first | rfl | cases hk

/-- What stands at the cursor has been read as `e`, and suffixes are looked for in front of `k`. -/
def SuffixesFrom (inner : Parse (Expr Span)) (size : Nat) (operand : Parse (Expr Span))
    (c : Cursor) (e : Expr Unit) (k : TokenKind) (rest : List TokenKind) : Prop :=
  ∃ left e' c', operand c = suffixes inner size left e' c' ∧ e'.erase = e ∧ c'.kinds = k :: rest ∧
    rest.length ≤ left

variable {operand : Parse (Expr Span)}

theorem suffixesFrom_brackets (hinner : AcceptsBounds style inner size)
    {terms : List (SliceTerm (Expr Unit))} {base : Expr Unit} {opening closing : FixedToken}
    (delimiter : Char) (form : {α : Type} → α → Expr α → List (SliceTerm (Expr α)) → Expr α)
    (hform : ∀ left base c, c.kind = .fixed opening →
      suffixes inner size (left + 1) base c = (do
        let terms ← sliceTerms inner size delimiter closing
        suffixes inner size left (form (← spanFrom base.info) base terms)) c)
    (herased : ∀ s base terms, (form s base terms).erase =
      form () (base : Expr Span).erase (terms.map SliceTerm.erase))
    (hsome : terms ≠ [])
    (hbounds : ∀ term ∈ terms, ∀ e ∈ term.bounds, e.IsOperand style BinaryOp.boundLevel)
    (hgrammatical : ∀ term ∈ terms, ∀ e ∈ term.bounds, e.Grammatical style)
    (hclosing : Stops BinaryOp.loosest (.fixed closing) ∧ closing ≠ .comma)
    (hbase : SuffixesFrom inner size operand c base (.fixed opening)
      (commas (Expr.tokensTerms terms) ++ .fixed closing :: k :: rest))
    (hbound : (commas (Expr.tokensTerms terms) ++ .fixed closing :: k :: rest).length ≤ size) :
    SuffixesFrom inner size operand c (form () base terms) k rest := by
  obtain ⟨left, base', c₁, hread, herase, hc₁, hleft⟩ := hbase
  obtain ⟨terms', c₂, hterms, herase', hc₂⟩ := sliceTerms_accepts hinner delimiter hsome hbounds
    hgrammatical hclosing hc₁ (by rw [hc₁]; exact Nat.succ_le_succ hbound)
  rw [List.length_append, List.length_cons, List.length_cons] at hleft
  obtain ⟨left, rfl⟩ : ∃ fewer, left = fewer + 1 := ⟨left - 1, by omega⟩
  refine ⟨left, form (base'.info.merge c₂.lastSpan) base' terms', c₂, ?_, ?_, hc₂, by omega⟩
  · rw [hread, hform _ _ _ (Cursor.kind_eq_of_kinds hc₁), bind_of_eq_ok hterms,
      bind_of_eq_ok (spanFrom_run _ c₂)]
  · rw [herased, herase, herase']

theorem suffixesFrom_member {base : Expr Unit} {field : String}
    (hbase : SuffixesFrom inner size operand c base (.fixed .dot) (.name field :: k :: rest)) :
    SuffixesFrom inner size operand c (.member () base field) k rest := by
  obtain ⟨left, base', c₁, hread, herase, hc₁, hleft⟩ := hbase
  have hadvance := Cursor.kinds_advance hc₁ (by nofun) (by simp)
  rw [List.length_cons, List.length_cons] at hleft
  obtain ⟨left, rfl⟩ : ∃ fewer, left = fewer + 1 := ⟨left - 1, by omega⟩
  refine ⟨left, .member (base'.info.merge c₁.advance.advance.lastSpan) base' field,
    c₁.advance.advance, ?_, ?_, Cursor.kinds_advance hadvance (by nofun) (by simp), by omega⟩
  · rw [hread, suffixes, bind_of_eq_ok (kind_run c₁), Cursor.kind_eq_of_kinds hc₁]
    dsimp only
    rw [bind_of_eq_ok (advance_run c₁),
      bind_of_eq_ok (expectName_of_kind (Cursor.kind_eq_of_kinds hadvance)),
      bind_of_eq_ok (spanFrom_run _ _)]
  · rw [Expr.erase, herase]

/-- Reading what a suffix can follow comes to the point where the next suffix is looked for: by
recursion on the base, since the suffixes are read from the innermost one outwards. -/
theorem suffixesFrom_of_isBase {head : Parse (Expr Span)} {k : TokenKind} {rest : List TokenKind}
    (hinner : AcceptsBounds style inner size) (hclosed : style.closedConditionals = true)
    (hhead : ∀ e : Expr Unit, e.Grammatical style → isPrimary e = true →
      Accepts head Expr.erase (size + 1)
        (fun k => (∀ id, k ≠ .name id) ∧ (e.isConditional = true → Stops BinaryOp.loosest k))
        e.tokens e)
    {e : Expr Unit} (he : e.Grammatical style) (hbase : e.isBase = true)
    (hkinds : c.kinds = e.tokens ++ k :: rest) (hname : ∀ id, k ≠ .name id)
    (hopen : e.isConditional = true → Stops BinaryOp.loosest k)
    (hbound : c.kinds.length ≤ size + 1) :
    SuffixesFrom inner size (head >>= suffixes inner size size) c e k rest := by
  have hfirst : isPrimary e = true →
      SuffixesFrom inner size (head >>= suffixes inner size size) c e k rest := by
    intro hprimary
    obtain ⟨e', c', hread, herase, hc'⟩ := hhead e he hprimary c k rest hkinds ⟨hname, hopen⟩ hbound
    rw [hkinds, List.length_append, List.length_cons] at hbound
    exact ⟨size, e', c', bind_of_eq_ok hread, herase, hc', by omega⟩
  have hnotOpen : ∀ (base : Expr Unit) (k' : TokenKind), base.CanTakeSuffix style →
      base.isConditional = true → Stops BinaryOp.loosest k' := by
    intro base k' hcan hconditional
    rw [hcan.closed hclosed] at hconditional
    cases hconditional
  have hshort : ∀ {front behind : List TokenKind} {k' : TokenKind},
      c.kinds = front ++ k' :: behind → behind.length ≤ size := by
    intro front behind k' h
    rw [h, List.length_append, List.length_cons] at hbound
    omega
  cases he with
  | slice _ hcan hgrammatical hsome hbounds hbounds' =>
      rw [Expr.tokens, List.append_assoc, List.cons_append, List.append_assoc] at hkinds
      refine suffixesFrom_brackets hinner '<' .slice ?_ ?_ hsome hbounds hbounds'
        ⟨stops_of_none _ rfl rfl, by simp⟩
        (suffixesFrom_of_isBase hinner hclosed hhead hgrammatical hcan.isBase hkinds
          (by rintro _ ⟨⟩) (hnotOpen _ _ hcan) hbound) (hshort hkinds)
      · intro left base c hkind
        rw [suffixes, bind_of_eq_ok (kind_run c), hkind]
      · intro s base terms
        rw [Expr.erase, Expr.eraseTerms_eq_map]
  | index _ hcan hgrammatical hsome hbounds hbounds' =>
      rw [Expr.tokens, List.append_assoc, List.cons_append, List.append_assoc] at hkinds
      refine suffixesFrom_brackets hinner '[' .index ?_ ?_ hsome hbounds hbounds'
        ⟨stops_of_none _ rfl rfl, by simp⟩
        (suffixesFrom_of_isBase hinner hclosed hhead hgrammatical hcan.isBase hkinds
          (by rintro _ ⟨⟩) (hnotOpen _ _ hcan) hbound) (hshort hkinds)
      · intro left base c hkind
        rw [suffixes, bind_of_eq_ok (kind_run c), hkind]
      · intro s base terms
        rw [Expr.erase, Expr.eraseTerms_eq_map]
  | member _ field hcan hgrammatical =>
      rw [Expr.tokens, List.append_assoc] at hkinds
      exact suffixesFrom_member (suffixesFrom_of_isBase hinner hclosed hhead hgrammatical
        hcan.isBase hkinds (by rintro _ ⟨⟩) (hnotOpen _ _ hcan) hbound)
  | binary => cases hbase
  | unary => cases hbase
  | _ => exact hfirst rfl

end Suffixes

/-! ### Operators -/

section Operators

variable {operand : Parse (Expr Span)} {size : Nat} {style : Style}

/-- What a suffix can follow is read back with all of its suffixes. -/
def AcceptsBases (style : Style) (operand : Parse (Expr Span)) (size : Nat) : Prop :=
  ∀ e : Expr Unit, e.Grammatical style → e.isBase = true →
    Accepts operand Expr.erase size (Stops (extent 0 e)) e.tokens e

/-- Operands of at most a level are read back. -/
def AcceptsLevel (style : Style) (operand : Parse (Expr Span)) (size level : Nat) : Prop :=
  ∀ e : Expr Unit, e.Grammatical style → e.level ≤ level →
    Accepts operand Expr.erase size (Stops (extent level e)) e.tokens e

theorem unary_accepts {c : Cursor} (hclosed : style.closedConditionals = true)
    (hoperand : AcceptsBases style operand size) {e : Expr Unit} (he : e.Grammatical style)
    (hlevel : e.level = 0) (bound : Nat) (hkinds : c.kinds = e.tokens ++ k :: rest)
    (hk : Stops (extent 0 e) k) (hbound : c.kinds.length ≤ bound + 1)
    (hsize : c.kinds.length ≤ size) :
    ∃ e' c', unary operand bound c = .ok e' c' ∧ e'.erase = e ∧ c'.kinds = k :: rest := by
  cases hbase : e.isBase with
  | true =>
      have hread := hoperand e he hbase c k rest hkinds hk hsize
      cases bound with
      | zero => exact hread
      | succ bound =>
          have hop : unaryOp? c.kind = none := by
            rw [Cursor.kinds_eq] at hkinds
            exact unaryOp?_eq_none_of_isBase he hbase hkinds.symm
          rw [unary, bind_of_eq_ok (kind_run c), hop]
          exact hread
  | false =>
      cases he with
      | unary _ op hinner hgrammatical =>
          next inner =>
          rw [Expr.tokens, List.cons_append] at hkinds
          have hadvance := Cursor.kinds_advance hkinds (by simp) (by simp)
          have hlength := congrArg List.length hkinds
          rw [List.length_cons, ← hadvance] at hlength
          cases bound with
          | zero =>
              rw [hadvance, List.length_append, List.length_cons] at hlength
              omega
          | succ bound =>
              have hstops : Stops (extent 0 inner) k := by
                rw [extent_of_closed (hinner.closed hclosed)]
                rwa [extent_of_closed rfl] at hk
              obtain ⟨inner', c', hread, herase, hc'⟩ := unary_accepts hclosed hoperand hgrammatical
                (Nat.le_zero.mp hinner.level_le) bound hadvance hstops (by omega) (by omega)
              refine ⟨.unary (c.here.span.merge inner'.info) op inner', c', ?_, ?_, hc'⟩
              · rw [unary, bind_of_eq_ok (kind_run c), Cursor.kind_eq_of_kinds hkinds,
                  UnaryOp.unaryOp?_token]
                dsimp only
                rw [bind_of_eq_ok (advance_run c), bind_of_eq_ok hread]
                rfl
              · rw [Expr.erase, herase]
      | binary _ op => exact absurd hlevel (Nat.ne_of_gt op.precedence_pos)
      | _ => cases hbase

/-- What stands at the cursor has been read as `e`, and operators of a level are looked for in front
of `k`. -/
def OperatorsFrom (operand : Parse (Expr Span)) (bound level : Nat) (c : Cursor) (e : Expr Unit)
    (k : TokenKind) (rest : List TokenKind) : Prop :=
  ∃ left e' c', binary operand bound (level + 1) c =
      operatorsBehind (binary operand bound level) (level + 1) left e' c' ∧
    e'.erase = e ∧ c'.kinds = k :: rest ∧ rest.length ≤ left

/-- Reading operands comes to the point where the next operator is looked for: by recursion on the
left operand, since operators of one level group from the left. -/
theorem operatorsFrom_of_level_le {bound level : Nat} {k : TokenKind} {rest : List TokenKind}
    (hclosed : style.closedConditionals = true)
    (hlower : AcceptsLevel style (binary operand bound level) (bound + 1) level) {e : Expr Unit}
    (he : e.Grammatical style) (hlevel : e.level ≤ level + 1)
    (hkinds : c.kinds = e.tokens ++ k :: rest) (hk : Stops (extent level e) k)
    (hbound : c.kinds.length ≤ bound + 1) : OperatorsFrom operand bound level c e k rest := by
  by_cases hlow : e.level ≤ level
  · obtain ⟨e', c', hread, herase, hc'⟩ := hlower e he hlow c k rest hkinds hk hbound
    rw [hkinds, List.length_append, List.length_cons] at hbound
    refine ⟨bound, e', c', ?_, herase, hc', by omega⟩
    rw [binary, bind_of_eq_ok hread]
  · cases he with
    | binary _ op hleft hright left_grammatical right_grammatical =>
        next left right =>
        have hprecedence : op.precedence = level + 1 :=
          Nat.le_antisymm hlevel (Nat.lt_of_not_le hlow)
        rw [hprecedence] at hleft hright
        rw [Nat.add_sub_cancel] at hright
        rw [extent_of_closed rfl] at hk
        rw [Expr.tokens, List.append_assoc, List.cons_append] at hkinds
        have hstops : Stops (extent level left) (.fixed op.token) := by
          rw [extent_of_closed (hleft.closed hclosed)]
          exact stops_token op (by omega)
        obtain ⟨more, left', c₁, hread, herase, hc₁, hmore⟩ := operatorsFrom_of_level_le hclosed
          hlower left_grammatical hleft.level_le hkinds hstops hbound
        have hadvance := Cursor.kinds_advance hc₁ (by simp) (by simp)
        rw [hkinds, List.length_append, List.length_cons, ← hadvance] at hbound
        rw [List.length_append, List.length_cons] at hmore
        obtain ⟨more, rfl⟩ : ∃ fewer, more = fewer + 1 := ⟨more - 1, by omega⟩
        obtain ⟨right', c₂, hread', herase', hc₂⟩ := hlower right right_grammatical hright.level_le
          _ _ _ hadvance (by rwa [extent_of_closed (hright.closed hclosed)]) (by omega)
        refine ⟨more, .binary (left'.info.merge right'.info) op left' right', c₂, ?_, ?_, hc₂,
          by omega⟩
        · rw [hread, operatorsBehind, bind_of_eq_ok (kind_run c₁), Cursor.kind_eq_of_kinds hc₁,
            BinaryOp.binaryOp?_token]
          simp only [if_pos hprecedence]
          rw [bind_of_eq_ok (advance_run c₁), bind_of_eq_ok hread']
        · rw [Expr.erase, herase, herase']
    | _ => exact absurd (Nat.zero_le level) hlow

theorem operatorsBehind_stop {level : Nat} {e : Expr Span} (hk : Stops level c.kind) (bound : Nat) :
    operatorsBehind operand level bound e c = .ok e c := by
  cases bound with
  | zero => rfl
  | succ bound =>
      rw [operatorsBehind, bind_of_eq_ok (kind_run c)]
      cases hop : binaryOp? c.kind with
      | none => rfl
      | some op =>
          have hne : op.precedence ≠ level := Nat.ne_of_gt (hk.operator op hop)
          simp only [if_neg hne]
          rfl

/-- An operand is a whole expression if no operator goes on with it. -/
theorem binary_stop {level : Nat} {e : Expr Span} {d : Cursor} (hoperand : operand c = .ok e d)
    (hstop : Stops level d.kind) (bound : Nat) : binary operand bound level c = .ok e d := by
  induction level with
  | zero => exact hoperand
  | succ level ih =>
      rw [binary, bind_of_eq_ok (ih (hstop.of_le (Nat.le_succ level)))]
      exact operatorsBehind_stop hstop bound

theorem binary_accepts {bound : Nat} (hclosed : style.closedConditionals = true)
    (hoperand : AcceptsLevel style operand (bound + 1) 0) {level : Nat}
    (hloosest : level ≤ BinaryOp.loosest) :
    AcceptsLevel style (binary operand bound level) (bound + 1) level := by
  induction level with
  | zero => exact hoperand
  | succ level ih =>
      have ih := ih (Nat.le_of_succ_le hloosest)
      intro e he hlevel c k rest hkinds hk hbound
      have hstops : Stops (extent level e) k :=
        hk.of_le (extent_le_extent e (Nat.le_succ level))
      obtain ⟨left, e', c', hread, herase, hc', -⟩ :=
        operatorsFrom_of_level_le hclosed ih he hlevel hkinds hstops hbound
      refine ⟨e', c', ?_, herase, hc'⟩
      have hstops' : Stops (level + 1) c'.kind := by
        rw [Cursor.kind_eq_of_kinds hc']
        exact hk.of_le (le_extent e hloosest)
      rw [hread, operatorsBehind_stop hstops']

end Operators

/-! ### Expressions -/

theorem expr_of_primary {bound : Nat} {e : Expr Span} {d : Cursor} (hop : unaryOp? c.kind = none)
    (hprimary : primary false bound (expr bound) (typeAt false (bound + 1)) c = .ok e d)
    (hstop : Stops BinaryOp.loosest d.kind) : expr (bound + 1) c = .ok e d := by
  refine binary_stop ?_ hstop bound
  have hoperand : (primary false bound (expr bound) (typeAt false (bound + 1)) >>=
      suffixes (exprAt false bound BinaryOp.boundLevel) bound bound) c = .ok e d := by
    rw [bind_of_eq_ok hprimary]
    exact suffixes_stop hstop.operand bound
  cases bound with
  | zero => exact hoperand
  | succ bound =>
      rw [unary, bind_of_eq_ok (kind_run c), hop]
      exact hoperand

theorem level_le_loosest {α : Type} (e : Expr α) : e.level ≤ BinaryOp.loosest := by
  cases e with
  | binary _ op => exact op.precedence_le_loosest
  | _ => exact Nat.zero_le _

/-- What is read is what was written: the bound shrinks with the tokens, because a nested expression
stands behind a token of its own. -/
theorem exprAt_typeAt_accepts (inPattern : Bool) (bound : Nat) :
    (∀ level, level ≤ BinaryOp.loosest →
        AcceptsLevel ⟨inPattern, true⟩ (exprAt inPattern bound level) bound level) ∧
      AcceptsTypes ⟨inPattern, true⟩ (typeAt inPattern bound) bound := by
  induction bound with
  | zero =>
      have hempty : ∀ {tokens rest : List TokenKind} {k : TokenKind} {c : Cursor},
          c.kinds = tokens ++ k :: rest → ¬c.kinds.length ≤ 0 := by
        intro tokens rest k c hkinds hbound
        rw [hkinds, List.length_append, List.length_cons] at hbound
        omega
      refine ⟨fun level _ e _ _ c k rest hkinds _ hbound => ?_,
        fun t _ c k rest hkinds _ hbound => ?_⟩
      · exact absurd hbound (hempty hkinds)
      · exact absurd hbound (hempty hkinds)
  | succ bound ih =>
      obtain ⟨hexprAt, htypeAt⟩ := ih
      have hexpr : AcceptsExprs ⟨inPattern, true⟩ (exprAt inPattern bound BinaryOp.loosest)
          bound := by
        intro e he
        refine (hexprAt _ (Nat.le_refl _) e he (level_le_loosest e)).mono fun k hk => ?_
        rwa [extent_loosest]
      have hinner : AcceptsBounds ⟨inPattern, true⟩ (exprAt inPattern bound BinaryOp.boundLevel)
          bound := by
        intro e he hoperand
        refine (hexprAt _ (by decide) e he hoperand.level_le).mono fun k hk => ?_
        rwa [extent_of_closed (hoperand.closed rfl)]
      have htype := typeForm_accepts hexpr htypeAt
      refine ⟨fun level hlevel => ?_, htype⟩
      rw [exprAt]
      refine binary_accepts rfl ?_ hlevel
      intro e he hlevel c k rest hkinds hk hbound
      refine unary_accepts rfl ?_ he (Nat.le_zero.mp hlevel) bound hkinds hk hbound hbound
      intro e he hbase c k rest hkinds hk hbound
      have hopen : e.isConditional = true → Stops BinaryOp.loosest k := by
        intro hconditional
        rwa [extent, if_pos hconditional] at hk
      obtain ⟨left, e', c', hread, herase, hc', -⟩ := suffixesFrom_of_isBase hinner rfl
        (fun e he hprimary => primary_accepts rfl hexpr htype he hprimary) he hbase hkinds
        hk.ne_name hopen hbound
      refine ⟨e', c', ?_, herase, hc'⟩
      have hoperand : continuesOperand c'.kind = false := by
        rw [Cursor.kind_eq_of_kinds hc']
        exact hk.operand
      exact hread.trans (suffixes_stop hoperand left)

theorem expr_accepts (bound : Nat) : AcceptsExprs ⟨false, true⟩ (expr bound) bound := by
  intro e he
  refine ((exprAt_typeAt_accepts false bound).1 _ (Nat.le_refl _) e he (level_le_loosest e)).mono
    fun k hk => ?_
  rwa [extent_loosest]

theorem patterns_accepts {es : List (Expr Unit)} (bound : Nat) (hsome : es ≠ [])
    (hes : ∀ e ∈ es, e.Grammatical ⟨true, true⟩) :
    Accepts (patterns bound) (·.map Expr.erase) bound
      (fun k => Stops BinaryOp.loosest k ∧ k ≠ .fixed .comma) (commas (es.map Expr.tokens)) es := by
  refine commaSeparated_accepts hsome (stops_comma _) fun e he => ?_
  refine ((exprAt_typeAt_accepts true bound).1 _ (Nat.le_refl _) e (hes e he)
    (level_le_loosest e)).mono fun k hk => ?_
  rwa [extent_loosest]

/-- An expression that was read is made of exactly the tokens consumed, and its operators group by
their levels. A grammatical tree is what its tokens are read as, in front of a token that cannot
continue it. -/
theorem expr_lossless_and_unambiguous (hc : c.Terminated) (bound : Nat) :
    (∀ e c', expr bound c = .ok e c' → c.Passes e.tokens c' ∧
        ∀ info op left right, .binary info op left right ∈ e.walk →
          left.level ≤ op.precedence ∧ right.level < op.precedence) ∧
      (∀ (e : Expr Unit) k rest, e.Grammatical ⟨false, true⟩ → c.kinds = e.tokens ++ k :: rest →
        Stops BinaryOp.loosest k → c.kinds.length ≤ bound →
        ∃ e' c', expr bound c = .ok e' c' ∧ e'.erase = e ∧ c.Passes e.tokens c') := by
  refine ⟨fun e c' h => ?_, fun e k rest he hkinds hk hbound => ?_⟩
  · obtain ⟨hpass, he⟩ := expr_reads bound _ _ _ hc h
    exact ⟨hpass, fun info op left right hmem => he.levels_of_mem_walk hmem⟩
  · obtain ⟨e', c', hread, herase, hc'⟩ := expr_accepts bound e he c k rest hkinds hk hbound
    obtain ⟨hpass, -⟩ := expr_reads bound _ _ _ hc hread
    have htokens : e'.tokens = e.tokens := by
      rw [hpass.kinds_eq, hc'] at hkinds
      exact List.append_cancel_right hkinds
    rw [htokens] at hpass
    exact ⟨e', c', hread, herase, hpass⟩

def beforeStatement (e : Expr Unit) : Cursor :=
  .atStart ⟨(e.tokens ++ [TokenKind.fixed .semicolon]).map fun kind => ⟨kind, .none⟩, 0⟩

def joinedSum : Expr Unit :=
  .binary () .concat
    (.binary () .add (.unary () .neg (.index () (.name () "a") [.range (.int () 3) (.int () 0)]))
      (.tuple () [.conditional () (.name () "b") (.name () "c") (.name () "d")]))
    (.call () "UInt" [.name () "x"])

theorem grammatical_joinedSum : joinedSum.Grammatical ⟨false, true⟩ := by
  have hbounds : ∀ term ∈ [SliceTerm.range (Expr.int () 3) (Expr.int () 0)],
      ∀ e ∈ term.bounds, ∃ n, e = .int () n := by
    intro term hterm e he
    rw [List.mem_singleton.mp hterm] at he
    obtain rfl | rfl : e = .int () 3 ∨ e = .int () 0 := by simpa [SliceTerm.bounds] using he
    · exact ⟨3, rfl⟩
    · exact ⟨0, rfl⟩
  have hindex : (Expr.index () (Expr.name () "a") [.range (.int () 3) (.int () 0)]).Grammatical
      ⟨false, true⟩ := by
    refine .index _ ⟨rfl, fun _ => rfl⟩ (.name _ _) (by simp) ?_ ?_
    · intro term hterm e he
      obtain ⟨n, rfl⟩ := hbounds term hterm e he
      exact ⟨Nat.zero_le _, fun _ => rfl⟩
    · intro term hterm e he
      obtain ⟨n, rfl⟩ := hbounds term hterm e he
      exact .int _ n
  have hchoice : (Expr.tuple () [.conditional () (.name () "b") (.name () "c")
      (.name () "d")]).Grammatical ⟨false, true⟩ := by
    refine .tuple _ (by simp) ?_ ?_
    · rintro e he k hk
      obtain rfl := Option.mem_some.mp he
      obtain rfl := Option.mem_some.mp hk
      rfl
    · intro e he _
      rw [List.mem_singleton.mp he]
      exact .conditional _ (.name _ _) (.name _ _) (.name _ _)
  refine .binary _ _ ⟨by decide, fun _ => rfl⟩ ⟨by decide, fun _ => rfl⟩
    (.binary _ _ ⟨by decide, fun _ => rfl⟩ ⟨by decide, fun _ => rfl⟩
      (.unary _ _ ⟨by decide, fun _ => rfl⟩ hindex) hchoice) (.call _ _ ?_)
  intro e he
  rw [List.mem_singleton.mp he]
  exact .name _ _

theorem joinedSum_lossless_and_unambiguous :
    ∃ e' c', expr 30 (beforeStatement joinedSum) = .ok e' c' ∧ e'.erase = joinedSum ∧
      (beforeStatement joinedSum).Passes joinedSum.tokens c' :=
  (expr_lossless_and_unambiguous (Cursor.terminated_atStart _) 30).2 joinedSum (.fixed .semicolon)
    [.eof] grammatical_joinedSum (Cursor.kinds_atStart _) (stops_of_none _ rfl rfl) (by decide)

/-- A slice that selects nothing is not read back, although neither its base nor, as there are none,
its bounds stand in the way: between the brackets an expression is expected. -/
theorem emptySlice_not_read_back :
    (Expr.name () "x").Grammatical ⟨false, true⟩ ∧
      (Expr.name () "x").CanTakeSuffix ⟨false, true⟩ ∧
      ¬ ∃ e' c', expr 6 (beforeStatement (.slice () (.name () "x") [])) = .ok e' c' := by
  refine ⟨.name _ _, ⟨rfl, fun _ => rfl⟩, ?_⟩
  rintro ⟨e', c', h⟩
  nomatch h

end ArmPseudocode.Parse

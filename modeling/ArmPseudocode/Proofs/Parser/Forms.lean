import ArmPseudocode.Proofs.Parser.Lossless
import ArmPseudocode.Proofs.Syntax.Erase

/-!
# Primary forms are read back

What is written in front of a token that cannot continue it is read as what it was. Which tokens
cannot depends on the level: behind an operand of some level an operator of a looser level, or no
operator at all, must follow.

The bound on the nesting is met whenever it is no less than the number of tokens from here on: a
nested expression stands behind at least one token, so both shrink together.
-/

namespace ArmPseudocode.Parse

variable {β γ : Type} {c : Cursor} {k : TokenKind} {rest : List TokenKind}

/-- The step reads the tokens as `b` in front of a token that `Follow` admits. -/
def Accepts (step : Parse β) (view : β → γ) (bound : Nat) (Follow : TokenKind → Prop)
    (tokens : List TokenKind) (b : γ) : Prop :=
  ∀ c k rest, c.kinds = tokens ++ k :: rest → Follow k → c.kinds.length ≤ bound →
    ∃ b' c', step c = .ok b' c' ∧ view b' = b ∧ c'.kinds = k :: rest

theorem Accepts.mono {step : Parse β} {view : β → γ} {bound : Nat}
    {Follow Follow' : TokenKind → Prop} {tokens : List TokenKind} {b : γ}
    (h : Accepts step view bound Follow tokens b)
    (hfollow : ∀ k, Follow' k → Follow k) : Accepts step view bound Follow' tokens b :=
  fun c k rest hkinds hk hbound => h c k rest hkinds (hfollow k hk) hbound

/-! ### Lists -/

section Lists

variable {item : Parse β} {view : β → γ} {tokens : γ → List TokenKind} {Follow : TokenKind → Prop}
  {size : Nat}

theorem moreItems_accepts {bs : List γ} (hcomma : Follow (.fixed .comma))
    (hitems : ∀ b ∈ bs, Accepts item view size Follow (tokens b) b) (bound : Nat)
    (hkinds : c.kinds = bs.flatMap (.fixed .comma :: tokens ·) ++ k :: rest) (hk : Follow k)
    (hne : k ≠ .fixed .comma) (hsize : c.kinds.length ≤ size)
    (hbound : c.kinds.length ≤ bound + 1) :
    ∃ bs' c', moreItems item bound c = .ok bs' c' ∧ bs'.map view = bs ∧ c'.kinds = k :: rest := by
  induction bs generalizing bound c with
  | nil =>
      cases bound with
      | zero => exact ⟨[], c, rfl, rfl, hkinds⟩
      | succ bound =>
          have hkind : c.kind ≠ .fixed .comma := by rwa [Cursor.kind_eq_of_kinds hkinds]
          rw [moreItems, bind_of_eq_ok (eat_of_kind_ne hkind)]
          exact ⟨[], c, rfl, rfl, hkinds⟩
  | cons b bs ih =>
      obtain ⟨hitem, hitems⟩ := List.forall_mem_cons.mp hitems
      rw [List.flatMap_cons, List.cons_append, List.cons_append, List.append_assoc] at hkinds
      have hlength := congrArg List.length hkinds
      simp only [List.length_cons, List.length_append] at hlength
      cases bound with
      | zero => omega
      | succ bound =>
          have hadvance := Cursor.kinds_advance hkinds (by simp) (by simp)
          have hlength' := congrArg List.length hadvance
          simp only [List.length_append, List.length_cons] at hlength'
          obtain ⟨k₁, rest₁, hbehind, hk₁⟩ : ∃ k₁ rest₁,
              bs.flatMap (.fixed .comma :: tokens ·) ++ k :: rest = k₁ :: rest₁ ∧ Follow k₁ := by
            cases bs with
            | nil => exact ⟨k, rest, rfl, hk⟩
            | cons next bs => exact ⟨_, _, rfl, hcomma⟩
          rw [hbehind] at hadvance
          obtain ⟨b', c₁, hread, hb, hc₁⟩ := hitem _ _ _ hadvance hk₁ (by omega)
          rw [← hbehind] at hc₁
          have hlength₁ := congrArg List.length hc₁
          simp only [List.length_append, List.length_cons] at hlength₁
          obtain ⟨bs', c₂, hmore, hbs, hc₂⟩ := ih hitems bound hc₁ (by omega) (by omega)
          refine ⟨b' :: bs', c₂, ?_, by rw [List.map_cons, hb, hbs], hc₂⟩
          rw [moreItems, bind_of_eq_ok (eat_of_kind (Cursor.kind_eq_of_kinds hkinds)), if_pos rfl,
            bind_of_eq_ok hread, bind_of_eq_ok hmore]
          rfl

theorem commaSeparated_accepts {bs : List γ} {bound : Nat} (hsome : bs ≠ [])
    (hcomma : Follow (.fixed .comma))
    (hitems : ∀ b ∈ bs, Accepts item view bound Follow (tokens b) b) :
    Accepts (commaSeparated item bound) (·.map view) bound
      (fun k => Follow k ∧ k ≠ .fixed .comma) (commas (bs.map tokens)) bs := by
  rintro c k rest hkinds ⟨hk, hne⟩ hbound
  cases bs with
  | nil => exact absurd rfl hsome
  | cons b bs =>
      obtain ⟨hitem, hitems⟩ := List.forall_mem_cons.mp hitems
      rw [List.map_cons, commas_cons, List.flatMap_map, List.append_assoc] at hkinds
      obtain ⟨k₁, rest₁, hbehind, hk₁⟩ : ∃ k₁ rest₁,
          bs.flatMap (.fixed .comma :: tokens ·) ++ k :: rest = k₁ :: rest₁ ∧ Follow k₁ := by
        cases bs with
        | nil => exact ⟨k, rest, rfl, hk⟩
        | cons next bs => exact ⟨_, _, rfl, hcomma⟩
      have hlength := congrArg List.length hkinds
      rw [List.length_append] at hlength
      rw [hbehind] at hkinds
      obtain ⟨b', c₁, hread, hb, hc₁⟩ := hitem _ _ _ hkinds hk₁ hbound
      rw [← hbehind] at hc₁
      rw [← hc₁] at hlength
      obtain ⟨bs', c₂, hmore, hbs, hc₂⟩ :=
        moreItems_accepts hcomma hitems bound hc₁ hk hne (by omega) (by omega)
      refine ⟨b' :: bs', c₂, ?_, ?_, hc₂⟩
      · rw [commaSeparated, bind_of_eq_ok hread, bind_of_eq_ok hmore]
        rfl
      · dsimp only
        rw [List.map_cons, hb, hbs]

end Lists

/-! ### Tokens that cannot continue an expression -/

/-- Whether a token behind a complete operand can belong to it: it begins a suffix, or it is an
identifier, which a single identifier declares. -/
def continuesOperand : TokenKind → Bool
  | .fixed .openAngle | .fixed .openBracket | .fixed .dot | .name _ => true
  | _ => false

/-- A token that cannot continue an expression of at most a level. -/
structure Stops (level : Nat) (k : TokenKind) : Prop where
  operator : ∀ op, binaryOp? k = some op → level < op.precedence
  operand : continuesOperand k = false

theorem Stops.of_le {level level' : Nat} (h : Stops level k) (hle : level' ≤ level) :
    Stops level' k :=
  ⟨fun op hop => Nat.lt_of_le_of_lt hle (h.operator op hop), h.operand⟩

theorem stops_of_none (level : Nat) (hoperator : binaryOp? k = none)
    (hoperand : continuesOperand k = false) : Stops level k := by
  refine ⟨fun op hop => ?_, hoperand⟩
  rw [hoperator] at hop
  nomatch hop

theorem stops_token {level : Nat} (op : BinaryOp) (h : level < op.precedence) :
    Stops level (.fixed op.token) := by
  refine ⟨fun op' hop => ?_, by cases op <;> rfl⟩
  rw [BinaryOp.binaryOp?_token, Option.some.injEq] at hop
  rwa [← hop]

theorem Stops.ne_name {level : Nat} (h : Stops level k) (id : String) : k ≠ .name id := by
  rintro rfl
  nomatch h.operand

/-- No operator at all may stand behind the whole of an expression. -/
theorem Stops.binaryOp?_eq_none (h : Stops BinaryOp.loosest k) : binaryOp? k = none := by
  cases hop : binaryOp? k with
  | none => rfl
  | some op => exact absurd (h.operator op hop) (Nat.not_lt.mpr op.precedence_le_loosest)

/-- The level up to which the reading of an expression of some level goes on behind it. The last
part of a conditional takes in whatever it can. -/
def extent {α : Type} (level : Nat) (e : Expr α) : Nat :=
  if e.isConditional then BinaryOp.loosest else level

theorem extent_of_closed {α : Type} {level : Nat} {e : Expr α} (h : e.isConditional = false) :
    extent level e = level := by
  rw [extent, h]
  rfl

theorem extent_loosest {α : Type} (e : Expr α) :
    extent BinaryOp.loosest e = BinaryOp.loosest := by
  rw [extent]
  split <;> rfl

theorem le_extent {α : Type} {level : Nat} (e : Expr α) (h : level ≤ BinaryOp.loosest) :
    level ≤ extent level e := by
  unfold extent
  split
  · exact h
  · exact Nat.le_refl _

theorem extent_le_extent {α : Type} {level level' : Nat} (e : Expr α) (h : level ≤ level') :
    extent level e ≤ extent level' e := by
  unfold extent
  split
  · exact Nat.le_refl _
  · exact h

/-! ### First tokens of operands -/

theorem unaryOp?_eq_none_of_canLead {α : Type} {type : TypeExpr α} {behind : List TokenKind}
    (hlead : type.canLead = true) (htokens : type.tokens ++ behind = k :: rest) :
    unaryOp? k = none := by
  obtain ⟨k', rest', hfirst, hk'⟩ := TypeExpr.tokens_of_canLead hlead
  rw [hfirst] at htokens
  obtain ⟨rfl, -⟩ := List.cons.inj htokens
  obtain hbegins | ⟨rfl, -⟩ := hk'
  · cases hop : unaryOp? k' with
    | none => rfl
    | some op =>
        rw [UnaryOp.eq_token_of_unaryOp? hop] at hbegins
        cases op <;> nomatch hbegins
  · rfl

theorem unaryOp?_eq_none_of_isBase {α : Type} {style : Style} {e : Expr α}
    {behind : List TokenKind} (he : e.Grammatical style) (hbase : e.isBase = true)
    (htokens : e.tokens ++ behind = k :: rest) : unaryOp? k = none := by
  cases he with
  | binary => nomatch hbase
  | unary => nomatch hbase
  | slice _ hcan hinner | index _ hcan hinner | member _ _ hcan hinner =>
      rw [Expr.tokens, List.append_assoc] at htokens
      exact unaryOp?_eq_none_of_isBase hinner hcan.isBase htokens
  | declare _ _ hlead | unknownOf _ hlead =>
      rw [Expr.tokens, List.append_assoc] at htokens
      exact unaryOp?_eq_none_of_canLead hlead htokens
  | _ =>
      rw [← (List.cons.inj htokens).1]
      rfl

/-- Behind a minus that an expression begins with stands an expression again, so the minus is not
taken for a blank. -/
theorem beginsExpr_behind_minus {α : Type} {style : Style} {e : Expr α}
    {behind : List TokenKind} (he : e.Grammatical style)
    (htokens : e.tokens ++ behind = .fixed .minus :: k :: rest) : k.beginsExpr = true := by
  cases hbase : e.isBase with
  | true => nomatch unaryOp?_eq_none_of_isBase he hbase htokens
  | false =>
      cases he with
      | binary _ op _ _ hleft =>
          rw [Expr.tokens, List.append_assoc] at htokens
          exact beginsExpr_behind_minus hleft htokens
      | unary _ op _ hinner =>
          obtain ⟨k', rest', hfirst, hk'⟩ := Expr.tokens_eq_cons hinner
          rw [Expr.tokens, hfirst] at htokens
          obtain ⟨-, htail⟩ := List.cons.inj htokens
          rwa [← (List.cons.inj htail).1]
      | _ => nomatch hbase

/-! ### Types and primary forms -/

section Forms

variable {inPattern : Bool} {expr : Parse (Expr Span)} {type : Parse (TypeExpr Span)} {bound : Nat}

theorem nextKind_of_kinds {k' : TokenKind} (h : c.kinds = k :: k' :: rest) : c.nextKind = k' := by
  rw [Cursor.kinds_eq] at h
  obtain ⟨-, hafter⟩ := List.cons.inj h
  cases hc : c.after with
  | nil =>
      rw [hc] at hafter
      nomatch hafter
  | cons token tokens =>
      rw [hc, List.map_cons] at hafter
      rw [Cursor.nextKind, hc]
      exact (List.cons.inj hafter).1

theorem length_advance_le (h : c.kinds = k :: rest) (hadvance : c.advance.kinds = rest)
    (hbound : c.kinds.length ≤ bound + 1) : c.advance.kinds.length ≤ bound := by
  rw [h, List.length_cons] at hbound
  rw [hadvance]
  omega

theorem stops_comma (level : Nat) : Stops level (.fixed .comma) := stops_of_none level rfl rfl

theorem stops_closeParen (level : Nat) : Stops level (.fixed .closeParen) :=
  stops_of_none level rfl rfl

def AcceptsExprs (style : Style) (expr : Parse (Expr Span)) (bound : Nat) : Prop :=
  ∀ e : Expr Unit, e.Grammatical style →
    Accepts expr Expr.erase bound (Stops BinaryOp.loosest) e.tokens e

def AcceptsTypes (style : Style) (type : Parse (TypeExpr Span)) (bound : Nat) : Prop :=
  ∀ t : TypeExpr Unit, t.Grammatical style →
    Accepts type TypeExpr.erase bound (fun _ => True) t.tokens t

variable {style : Style}

theorem typeForm_accepts (hexpr : AcceptsExprs style expr bound)
    (htype : AcceptsTypes style type bound) :
    AcceptsTypes style (typeForm bound expr type) (bound + 1) := by
  intro t ht c k rest hkinds _ hbound
  rw [typeForm, bind_of_eq_ok (span_run c), bind_of_eq_ok (kind_run c)]
  cases ht with
  | boolean =>
      rw [Cursor.kind_eq_of_kinds hkinds]
      exact ⟨.boolean, c.advance, rfl, rfl, Cursor.kinds_advance hkinds (by simp) (by simp)⟩
  | bit =>
      rw [Cursor.kind_eq_of_kinds hkinds]
      exact ⟨.bit, c.advance, rfl, rfl, Cursor.kinds_advance hkinds (by simp) (by simp)⟩
  | integer =>
      rw [Cursor.kind_eq_of_kinds hkinds]
      exact ⟨.integer, c.advance, rfl, rfl, Cursor.kinds_advance hkinds (by simp) (by simp)⟩
  | named id =>
      rw [Cursor.kind_eq_of_kinds hkinds]
      exact ⟨.named id, c.advance, rfl, rfl, Cursor.kinds_advance hkinds (by simp) (by simp)⟩
  | bits hwidth =>
      rw [TypeExpr.tokens, List.cons_append, List.append_assoc] at hkinds
      have hadvance := Cursor.kinds_advance hkinds (by simp) (by simp)
      obtain ⟨width, c₁, hread, herase, hc₁⟩ := hexpr _ hwidth _ _ _ hadvance (stops_closeParen _)
        (length_advance_le hkinds hadvance hbound)
      rw [Cursor.kind_eq_of_kinds hkinds]
      refine ⟨.bits width, c₁.advance, ?_, ?_, Cursor.kinds_advance hc₁ (by simp) (by simp)⟩
      · dsimp only
        rw [bind_of_eq_ok (advance_run c), bind_of_eq_ok hread,
          bind_of_eq_ok (close_of_kind (Cursor.kind_eq_of_kinds hc₁))]
        rfl
      · rw [TypeExpr.erase, herase]
  | tuple hsome hitems =>
      rw [TypeExpr.tokens, TypeExpr.tokensEach_eq_map, List.cons_append,
        List.append_assoc] at hkinds
      have hadvance := Cursor.kinds_advance hkinds (by simp) (by simp)
      obtain ⟨items, c₁, hread, herase, hc₁⟩ :=
        commaSeparated_accepts hsome trivial (fun t ht => htype t (hitems t ht)) _ _ _ hadvance
          ⟨trivial, by simp⟩ (length_advance_le hkinds hadvance hbound)
      rw [Cursor.kind_eq_of_kinds hkinds]
      refine ⟨.tuple items, c₁.advance, ?_, ?_, Cursor.kinds_advance hc₁ (by simp) (by simp)⟩
      · dsimp only
        rw [bind_of_eq_ok (advance_run c), bind_of_eq_ok hread,
          bind_of_eq_ok (close_of_kind (Cursor.kind_eq_of_kinds hc₁))]
        rfl
      · rw [TypeExpr.erase, TypeExpr.eraseAll_eq_map]
        exact congrArg TypeExpr.tuple herase

theorem tupleItem_accepts (hexpr : AcceptsExprs style expr bound) {e : Expr Unit}
    (he : e.isBlank = false → e.Grammatical style) :
    Accepts (tupleItem expr) Expr.erase bound
      (fun k => k = .fixed .comma ∨ k = .fixed .closeParen) e.tokens e := by
  intro c k rest hkinds hk hbound
  rw [tupleItem, bind_of_eq_ok (nextKind_run c), bind_of_eq_ok (isAt_run .minus c)]
  cases hblank : e.isBlank with
  | true =>
      cases e with
      | blank =>
          rw [Cursor.kind_eq_of_kinds hkinds, nextKind_of_kinds hkinds, if_pos (by simpa using hk)]
          exact ⟨.blank _, c.advance, rfl, rfl,
            Cursor.kinds_advance hkinds (by simp) (by simp)⟩
      | _ => cases hblank
  | false =>
      have hgrammatical := he hblank
      have hstops : Stops BinaryOp.loosest k := by
        obtain rfl | rfl := hk
        · exact stops_comma _
        · exact stops_closeParen _
      rw [if_neg ?_]
      · exact hexpr e hgrammatical c k rest hkinds hstops hbound
      intro hslot
      simp only [Bool.and_eq_true, Bool.or_eq_true, decide_eq_true_eq] at hslot
      obtain ⟨hminus, hnext⟩ := hslot
      obtain ⟨first, more, hfirst, -⟩ := Expr.tokens_eq_cons hgrammatical
      obtain ⟨k₁, rest₁, hsecond⟩ : ∃ k₁ rest₁, c.kinds = c.kind :: k₁ :: rest₁ := by
        rw [Cursor.kinds_eq, hfirst] at hkinds
        obtain ⟨-, hafter⟩ := List.cons.inj hkinds
        cases more with
        | nil => exact ⟨k, rest, by rw [Cursor.kinds_eq, hafter]; rfl⟩
        | cons k₁ more => exact ⟨k₁, _, by rw [Cursor.kinds_eq, hafter]; rfl⟩
      rw [nextKind_of_kinds hsecond] at hnext
      rw [hsecond, hminus] at hkinds
      have hbegins := beginsExpr_behind_minus hgrammatical hkinds.symm
      obtain rfl | rfl := hnext <;> cases hbegins

theorem primaryForm_of_beginsType (h : beginsType c.kind = true) :
    primaryForm inPattern bound expr type c = typedPrimary type c := by
  rw [primaryForm, bind_of_eq_ok (span_run c), bind_of_eq_ok (kind_run c)]
  generalize c.kind = kind at h
  unfold beginsType at h
  split at h <;> first | rfl | cases h

theorem primaryForm_of_canLead {t : TypeExpr Unit} {behind : List TokenKind}
    (hlead : t.canLead = true) (hkinds : c.kinds = t.tokens ++ behind) :
    primaryForm inPattern bound expr type c = typedPrimary type c := by
  obtain ⟨k, rest, hfirst, hk⟩ := TypeExpr.tokens_of_canLead hlead
  rw [hfirst, List.cons_append] at hkinds
  have hkind := Cursor.kind_eq_of_kinds hkinds
  obtain hbegins | ⟨rfl, k', rest', rfl, hbegins⟩ := hk
  · exact primaryForm_of_beginsType (by rwa [hkind])
  · rw [primaryForm, bind_of_eq_ok (span_run c), bind_of_eq_ok (kind_run c), hkind]
    dsimp only
    rw [bind_of_eq_ok (nextKind_run c), nextKind_of_kinds hkinds, if_pos hbegins]

/-- The form of an expression is read, whatever span it is given then, up to a token behind it. -/
def AcceptsForm (step : Parse (Span → Expr Span)) (c : Cursor) (e : Expr Unit) (k : TokenKind)
    (rest : List TokenKind) : Prop :=
  ∃ form c', step c = .ok form c' ∧ (∀ s, (form s).erase = e) ∧ c'.kinds = k :: rest

theorem typedPrimary_accepts_declare (htype : AcceptsTypes style type bound) {t : TypeExpr Unit}
    {id : String} (ht : t.Grammatical style) (hkinds : c.kinds = t.tokens ++ .name id :: k :: rest)
    (hbound : c.kinds.length ≤ bound) :
    AcceptsForm (typedPrimary type) c (.declare () t id) k rest := by
  obtain ⟨t', c₁, hread, herase, hc₁⟩ := htype t ht _ _ _ hkinds trivial hbound
  have hkind := Cursor.kind_eq_of_kinds hc₁
  have hunknown : c₁.kind ≠ .fixed .kwUnknown := by
    rw [hkind]
    nofun
  refine ⟨(.declare · t' id), c₁.advance, ?_, fun s => ?_,
    Cursor.kinds_advance hc₁ (by nofun) (by simp)⟩
  · rw [typedPrimary, bind_of_eq_ok hread, bind_of_eq_ok (eat_of_kind_ne hunknown),
      if_neg Bool.false_ne_true, bind_of_eq_ok (expectName_of_kind hkind)]
    rfl
  · rw [Expr.erase, herase]

theorem typedPrimary_accepts_unknown (htype : AcceptsTypes style type bound) {t : TypeExpr Unit}
    (ht : t.Grammatical style) (hkinds : c.kinds = t.tokens ++ .fixed .kwUnknown :: k :: rest)
    (hbound : c.kinds.length ≤ bound) :
    AcceptsForm (typedPrimary type) c (.unknown () (some t)) k rest := by
  obtain ⟨t', c₁, hread, herase, hc₁⟩ := htype t ht _ _ _ hkinds trivial hbound
  refine ⟨(.unknown · (some t')), c₁.advance, ?_, fun s => ?_,
    Cursor.kinds_advance hc₁ (by nofun) (by simp)⟩
  · rw [typedPrimary, bind_of_eq_ok hread,
      bind_of_eq_ok (eat_of_kind (Cursor.kind_eq_of_kinds hc₁)), if_pos rfl]
    rfl
  · rw [Expr.erase, herase]

def isPrimary {α : Type} : Expr α → Bool
  | .binary _ _ _ _ | .unary _ _ _ | .slice _ _ _ | .index _ _ _ | .member _ _ _ => false
  | _ => true

theorem nameForm_accepts {id : String} (hkinds : c.kinds = .name id :: k :: rest)
    (hname : ∀ other, k ≠ .name other) :
    AcceptsForm (primaryForm inPattern bound expr type) c (.name () id) k rest := by
  have hadvance := Cursor.kinds_advance hkinds (by nofun) (by simp)
  rw [AcceptsForm, primaryForm, bind_of_eq_ok (span_run c), bind_of_eq_ok (kind_run c),
    Cursor.kind_eq_of_kinds hkinds]
  refine ⟨(.name · id), c.advance, ?_, fun _ => rfl, hadvance⟩
  dsimp only
  rw [bind_of_eq_ok (advance_run c), bind_of_eq_ok (kind_run c.advance),
    Cursor.kind_eq_of_kinds hadvance]
  split
  · next var => exact absurd rfl (hname var)
  · rfl

theorem declareForm_accepts {named id : String} (houtside : inPattern = false)
    (hkinds : c.kinds = .name named :: .name id :: k :: rest) :
    AcceptsForm (primaryForm inPattern bound expr type) c (.declare () (.named named) id) k
      rest := by
  have hadvance := Cursor.kinds_advance hkinds (by nofun) (by simp)
  rw [AcceptsForm, primaryForm, bind_of_eq_ok (span_run c), bind_of_eq_ok (kind_run c),
    Cursor.kind_eq_of_kinds hkinds]
  refine ⟨(.declare · (.named named) id), c.advance.advance, ?_, fun _ => rfl,
    Cursor.kinds_advance hadvance (by nofun) (by simp)⟩
  dsimp only
  rw [bind_of_eq_ok (advance_run c), bind_of_eq_ok (kind_run c.advance),
    Cursor.kind_eq_of_kinds hadvance, houtside]
  rfl

theorem callForm_accepts (hexpr : AcceptsExprs style expr bound) {callee : String}
    {args : List (Expr Unit)} (hargs : ∀ e ∈ args, e.Grammatical style)
    (hkinds : c.kinds = (Expr.call () callee args).tokens ++ k :: rest)
    (hbound : c.kinds.length ≤ bound + 1) :
    AcceptsForm (primaryForm inPattern bound expr type) c (.call () callee args) k rest := by
  rw [Expr.tokens, Expr.tokensEach_eq_map, List.cons_append, List.append_assoc] at hkinds
  have hadvance := Cursor.kinds_advance hkinds (by simp) (by simp)
  have hshort := length_advance_le hkinds hadvance hbound
  rw [AcceptsForm, primaryForm, bind_of_eq_ok (span_run c), bind_of_eq_ok (kind_run c),
    Cursor.kind_eq_of_kinds hkinds]
  dsimp only
  rw [bind_of_eq_ok (advance_run c), bind_of_eq_ok (isAt_run .closeParen c.advance)]
  cases args with
  | nil =>
      have hclose : c.advance.kind = .fixed .closeParen := Cursor.kind_eq_of_kinds hadvance
      rw [if_pos (by simpa using hclose)]
      refine ⟨(.call · callee []), c.advance.advance, ?_, fun _ => rfl,
        Cursor.kinds_advance hadvance (by simp) (by simp)⟩
      exact bind_of_eq_ok (close_of_kind hclose)
  | cons first args =>
      obtain ⟨args', c₁, hread, herase, hc₁⟩ :=
        commaSeparated_accepts (List.cons_ne_nil first args) (stops_comma _)
          (fun e he => hexpr e (hargs e he)) _ _ _ hadvance ⟨stops_closeParen _, by simp⟩
          hshort
      have hopened : c.advance.kind ≠ .fixed .closeParen := by
        obtain ⟨k₁, rest₁, hfirst, hbegins⟩ := Expr.tokens_eq_cons (hargs first List.mem_cons_self)
        rw [List.map_cons, commas_cons, hfirst] at hadvance
        rw [Cursor.kind_eq_of_kinds hadvance]
        rintro rfl
        cases hbegins
      rw [if_neg (by simpa using hopened)]
      refine ⟨(.call · callee args'), c₁.advance, ?_, fun s => ?_,
        Cursor.kinds_advance hc₁ (by simp) (by simp)⟩
      · rw [bind_of_eq_ok hread, bind_of_eq_ok (close_of_kind (Cursor.kind_eq_of_kinds hc₁))]
        rfl
      · rw [Expr.erase, Expr.eraseAll_eq_map]
        exact congrArg (Expr.call () callee) herase

/-- The first item, a blank or an expression that begins with no type, keeps the list from being
taken for a type. -/
theorem beginsNoType_nextKind {items : List (Expr Unit)} (hsome : items ≠ [])
    (hfirst : ∀ e ∈ items.head?, e.BeginsNoType)
    (hitems : ∀ e ∈ items, e.isBlank = false → e.Grammatical style)
    (hkinds : c.kinds = .fixed .openParen :: (commas (items.map Expr.tokens) ++ rest)) :
    beginsType c.nextKind = false := by
  cases items with
  | nil => exact absurd rfl hsome
  | cons first items =>
      obtain ⟨k₁, rest₁, htokens⟩ : ∃ k₁ rest₁, first.tokens = k₁ :: rest₁ := by
        cases hblank : first.isBlank with
        | true =>
            cases first with
            | blank => exact ⟨_, _, rfl⟩
            | _ => nomatch hblank
        | false =>
            obtain ⟨k₁, rest₁, htokens, -⟩ :=
              Expr.tokens_eq_cons (hitems first List.mem_cons_self hblank)
            exact ⟨k₁, rest₁, htokens⟩
      have hbegins := hfirst first rfl k₁ (by rw [htokens]; rfl)
      rw [List.map_cons, commas_cons, htokens] at hkinds
      rwa [nextKind_of_kinds hkinds]

theorem tupleForm_accepts (hexpr : AcceptsExprs style expr bound) {items : List (Expr Unit)}
    (hsome : items ≠ []) (hfirst : ∀ e ∈ items.head?, e.BeginsNoType)
    (hitems : ∀ e ∈ items, e.isBlank = false → e.Grammatical style)
    (hkinds : c.kinds = (Expr.tuple () items).tokens ++ k :: rest)
    (hbound : c.kinds.length ≤ bound + 1) :
    AcceptsForm (primaryForm inPattern bound expr type) c (.tuple () items) k rest := by
  rw [Expr.tokens, Expr.tokensEach_eq_map, List.cons_append, List.append_assoc] at hkinds
  have hadvance := Cursor.kinds_advance hkinds (by simp) (by simp)
  have hshort := length_advance_le hkinds hadvance hbound
  obtain ⟨items', c₁, hread, herase, hc₁⟩ :=
    commaSeparated_accepts hsome (Or.inl rfl) (fun e he => tupleItem_accepts hexpr (hitems e he))
      _ _ _ hadvance ⟨.inr rfl, by simp⟩ hshort
  have hnext := beginsNoType_nextKind hsome hfirst hitems hkinds
  rw [AcceptsForm, primaryForm, bind_of_eq_ok (span_run c), bind_of_eq_ok (kind_run c),
    Cursor.kind_eq_of_kinds hkinds]
  dsimp only
  rw [bind_of_eq_ok (nextKind_run c), if_neg (by rw [hnext]; exact Bool.false_ne_true)]
  refine ⟨(.tuple · items'), c₁.advance, ?_, fun s => ?_,
    Cursor.kinds_advance hc₁ (by simp) (by simp)⟩
  · rw [bind_of_eq_ok (advance_run c), bind_of_eq_ok hread,
      bind_of_eq_ok (close_of_kind (Cursor.kind_eq_of_kinds hc₁))]
    rfl
  · rw [Expr.erase, Expr.eraseAll_eq_map]
    exact congrArg (Expr.tuple ()) herase

theorem conditionalForm_accepts (hexpr : AcceptsExprs style expr bound) {test yes no : Expr Unit}
    (htest : test.Grammatical style) (hyes : yes.Grammatical style) (hno : no.Grammatical style)
    (hkinds : c.kinds = (Expr.conditional () test yes no).tokens ++ k :: rest)
    (hopen : Stops BinaryOp.loosest k) (hbound : c.kinds.length ≤ bound + 1) :
    AcceptsForm (primaryForm inPattern bound expr type) c (.conditional () test yes no) k rest := by
  rw [Expr.tokens, List.cons_append, List.append_assoc, List.cons_append, List.append_assoc,
    List.cons_append] at hkinds
  have hadvance := Cursor.kinds_advance hkinds (by nofun) (by simp)
  have hshort := length_advance_le hkinds hadvance hbound
  obtain ⟨test', c₁, hread₁, herase₁, hc₁⟩ :=
    hexpr _ htest _ _ _ hadvance (stops_of_none _ rfl rfl) hshort
  have hthen := Cursor.kinds_advance hc₁ (by nofun) (by simp)
  have hlength₁ := congrArg List.length hadvance
  simp only [List.length_append, List.length_cons] at hlength₁
  obtain ⟨yes', c₂, hread₂, herase₂, hc₂⟩ :=
    hexpr _ hyes _ _ _ hthen (stops_of_none _ rfl rfl)
      (by rw [hthen]; simp only [List.length_append, List.length_cons]; omega)
  have helse := Cursor.kinds_advance hc₂ (by nofun) (by simp)
  obtain ⟨no', c₃, hread₃, herase₃, hc₃⟩ :=
    hexpr _ hno _ _ _ helse hopen
      (by rw [helse]; simp only [List.length_append, List.length_cons]; omega)
  rw [AcceptsForm, primaryForm, bind_of_eq_ok (span_run c), bind_of_eq_ok (kind_run c),
    Cursor.kind_eq_of_kinds hkinds]
  refine ⟨(.conditional · test' yes' no'), c₃, ?_, fun s => ?_, hc₃⟩
  · dsimp only
    rw [bind_of_eq_ok (advance_run c), bind_of_eq_ok hread₁,
      bind_of_eq_ok (expect_of_kind (Cursor.kind_eq_of_kinds hc₁)), bind_of_eq_ok hread₂,
      bind_of_eq_ok (expect_of_kind (Cursor.kind_eq_of_kinds hc₂)), bind_of_eq_ok hread₃]
    rfl
  · rw [Expr.erase, herase₁, herase₂, herase₃]

theorem primaryForm_accepts (hplace : style.inPattern = inPattern)
    (hexpr : AcceptsExprs style expr bound) (htype : AcceptsTypes style type (bound + 1))
    {e : Expr Unit} (he : e.Grammatical style) (hprimary : isPrimary e = true)
    (hkinds : c.kinds = e.tokens ++ k :: rest) (hname : ∀ id, k ≠ .name id)
    (hopen : e.isConditional = true → Stops BinaryOp.loosest k)
    (hbound : c.kinds.length ≤ bound + 1) :
    AcceptsForm (primaryForm inPattern bound expr type) c e k rest := by
  cases he with
  | declare _ id hlead ht =>
      rw [Expr.tokens, List.append_assoc] at hkinds
      rw [AcceptsForm, primaryForm_of_canLead hlead hkinds]
      exact typedPrimary_accepts_declare htype ht hkinds hbound
  | unknownOf _ hlead ht =>
      rw [Expr.tokens, List.append_assoc] at hkinds
      rw [AcceptsForm, primaryForm_of_canLead hlead hkinds]
      exact typedPrimary_accepts_unknown htype ht hkinds hbound
  | int | real | bitString | unknown | malformed =>
      rw [AcceptsForm, primaryForm, bind_of_eq_ok (span_run c), bind_of_eq_ok (kind_run c),
        Cursor.kind_eq_of_kinds hkinds]
      exact ⟨_, c.advance, rfl, fun _ => rfl, Cursor.kinds_advance hkinds (by simp) (by simp)⟩
  | name _ id => exact nameForm_accepts hkinds hname
  | declareNamed _ named id houtside =>
      exact declareForm_accepts (hplace.symm.trans houtside) hkinds
  | call _ callee hargs => exact callForm_accepts hexpr hargs hkinds hbound
  | tuple _ hsome hfirst hitems => exact tupleForm_accepts hexpr hsome hfirst hitems hkinds hbound
  | conditional _ htest hyes hno =>
      exact conditionalForm_accepts hexpr htest hyes hno hkinds (hopen rfl) hbound
  | _ => cases hprimary

theorem primary_accepts (hplace : style.inPattern = inPattern)
    (hexpr : AcceptsExprs style expr bound) (htype : AcceptsTypes style type (bound + 1))
    {e : Expr Unit} (he : e.Grammatical style) (hprimary : isPrimary e = true) :
    Accepts (primary inPattern bound expr type) Expr.erase (bound + 1)
      (fun k => (∀ id, k ≠ .name id) ∧ (e.isConditional = true → Stops BinaryOp.loosest k))
      e.tokens e := by
  rintro c k rest hkinds ⟨hname, hopen⟩ hbound
  obtain ⟨form, c', hform, herase, hc'⟩ :=
    primaryForm_accepts hplace hexpr htype he hprimary hkinds hname hopen hbound
  refine ⟨form (c.here.span.merge c'.lastSpan), c', ?_, herase _, hc'⟩
  rw [primary, bind_of_eq_ok (span_run c), bind_of_eq_ok hform, bind_of_eq_ok (spanFrom_run _ c')]
  rfl

end Forms

end ArmPseudocode.Parse

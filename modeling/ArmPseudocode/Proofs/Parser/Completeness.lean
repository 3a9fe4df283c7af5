import ArmPseudocode.Proofs.Parser.Clean
import ArmPseudocode.Proofs.Parser.Programs
import ArmPseudocode.Proofs.Parser.Spelling

/-!
# What is spelled is accepted

In front of tokens that spell a statement the parser reads that statement and nothing else, without
a report. The proof follows the rules of the grammar: the parts of a rule are read one behind the
other, and what stands in front of the cursor is known at every step.
-/

namespace ArmPseudocode

namespace Cursor

/-- At most `size` tokens stand in front of the cursor, first the given ones and `k` behind
them. -/
structure Faces (c : Cursor) (ks : List TokenKind) (k : TokenKind) (size : Nat) : Prop where
  terminated : c.Terminated
  length : c.kinds.length ≤ size
  kinds : ∃ rest, c.kinds = ks ++ k :: rest

namespace Faces

variable {c d : Cursor} {ks ks' : List TokenKind} {k k' : TokenKind} {size size' : Nat}

theorem mono (h : c.Faces ks k size) (hsize : size ≤ size') : c.Faces ks k size' :=
  { h with length := Nat.le_trans h.length hsize }

theorem pos (h : c.Faces ks k size) : 0 < size := Nat.lt_of_lt_of_le c.length_kinds_pos h.length

theorem kind_eq (h : c.Faces ks k size) : c.kind = ks.headD k := by
  obtain ⟨rest, hkinds⟩ := h.kinds
  cases ks with
  | nil => exact kind_eq_of_kinds hkinds
  | cons k₀ ks => exact kind_eq_of_kinds hkinds

theorem front (h : c.Faces (ks ++ ks') k size) : c.Faces ks (ks'.headD k) size := by
  obtain ⟨rest, hkinds⟩ := h.kinds
  refine { h with kinds := ?_ }
  cases ks' with
  | nil => exact ⟨rest, by rw [hkinds, List.append_nil]; rfl⟩
  | cons k' ks' => exact ⟨ks' ++ k :: rest, by rw [hkinds, List.append_assoc]; rfl⟩

theorem behind (h : c.Faces (ks ++ ks') k size) (hpass : c.Passes ks d) : d.Faces ks' k size := by
  obtain ⟨rest, hkinds⟩ := h.kinds
  refine ⟨hpass.terminated h.terminated, ?_, rest, ?_⟩
  · have hlength := hpass.length
    have hle := h.length
    omega
  · rw [hpass.kinds_eq, List.append_assoc] at hkinds
    exact List.append_cancel_left hkinds

theorem shorter (h : c.Faces (ks ++ ks') k size) (hpass : c.Passes ks d) (hks : ks ≠ []) :
    d.Faces ks' k (size - 1) := by
  refine { h.behind hpass with length := ?_ }
  have hlength := hpass.length
  have hle := h.length
  have hpos := List.length_pos_iff.mpr hks
  omega

theorem passes (h : c.Faces (k' :: ks) k size) (hk' : k' ≠ .eof) : c.Passes [k'] c.advance := by
  have hkind : c.kind = k' := h.kind_eq
  have hpass := passes_advance h.terminated (by rwa [hkind])
  rwa [hkind] at hpass

end Faces

end Cursor

namespace ParseStmt

open Cursor (Faces)

variable {β γ : Type} {lines : LineTable} {c d : Cursor} {ks ks' : List TokenKind}
  {k k' : TokenKind} {size bound : Nat}

/-- The step reads the tokens as something of the kind, without a report. -/
def Yields (step : ParseStmt β) (c : Cursor) (ks : List TokenKind) (Good : β → Prop) : Prop :=
  ∃ b d, Clean step c b d ∧ c.Passes ks d ∧ Good b

namespace Yields

variable {step : ParseStmt β} {next : β → ParseStmt γ} {Good : β → Prop} {Better : γ → Prop}

theorem pure {b : β} (h : Good b) : Yields (Pure.pure b) c [] Good := ⟨b, c, .pure b c, .refl c, h⟩

theorem bind (hc : c.Faces (ks ++ ks') k size) (h : Yields step c ks Good)
    (hnext : ∀ b d, Good b → d.Faces ks' k size → Yields (next b) d ks' Better) :
    Yields (step >>= next) c (ks ++ ks') Better := by
  obtain ⟨b, mid, hrun, hpass, hb⟩ := h
  obtain ⟨b', d, hrun', hpass', hb'⟩ := hnext b mid hb (hc.behind hpass)
  exact ⟨b', d, hrun.bind hrun', hpass.trans hpass', hb'⟩

/-- The last tokens are read by the first step. -/
theorem bind_last (h : Yields step c ks Good)
    (hnext : ∀ b d, Good b → Yields (next b) d [] Better) :
    Yields (step >>= next) c ks Better := by
  obtain ⟨b, mid, hrun, hpass, hb⟩ := h
  obtain ⟨b', d, hrun', hpass', hb'⟩ := hnext b mid hb
  have hpasses := hpass.trans hpass'
  rw [List.append_nil] at hpasses
  exact ⟨b', d, hrun.bind hrun', hpasses, hb'⟩

theorem reading {next : TokenKind → ParseStmt γ} (h : Yields (next c.kind) c ks Better) :
    Yields (liftM Parse.kind >>= next) c ks Better := h

theorem reading_span {next : Span → ParseStmt γ} (h : Yields (next c.here.span) c ks Better) :
    Yields (liftM Parse.span >>= next) c ks Better := h

theorem reading_spanFrom {next : Span → ParseStmt γ} {start : Span}
    (h : ∀ span, Yields (next span) c ks Better) :
    Yields (spanFrom start >>= next) c ks Better := h (start.merge c.lastSpan)

theorem lift_bind {p : Parse β} {next : β → ParseStmt γ} {b : β}
    (hc : c.Faces (ks ++ ks') k size) (hrun : p c = .ok b d) (hpass : c.Passes ks d)
    (hnext : d.Faces ks' k size → Yields (next b) d ks' Better) :
    Yields (liftM p >>= next) c (ks ++ ks') Better := by
  obtain ⟨b', d', hrun', hpass', hb'⟩ := hnext (hc.behind hpass)
  exact ⟨b', d', .lift_bind hrun hrun', hpass.trans hpass', hb'⟩

theorem token_bind {p : Parse β} {next : β → ParseStmt γ} {b : β} (hc : c.Faces (k' :: ks) k size)
    (hk' : k' ≠ .eof) (hrun : p c = .ok b c.advance)
    (hnext : ∀ d, d.Faces ks k (size - 1) → Yields (next b) d ks Better) :
    Yields (liftM p >>= next) c (k' :: ks) Better := by
  have hc' : c.Faces ([k'] ++ ks) k size := hc
  have hpass := hc.passes hk'
  exact lift_bind hc' hrun hpass fun _ => hnext _ (hc'.shorter hpass (List.cons_ne_nil _ _))

theorem advance_bind {next : Span → ParseStmt γ} (hc : c.Faces (k' :: ks) k size) (hk' : k' ≠ .eof)
    (hnext : ∀ span d, d.Faces ks k (size - 1) → Yields (next span) d ks Better) :
    Yields (liftM Parse.advance >>= next) c (k' :: ks) Better :=
  token_bind hc hk' (Parse.advance_run c) (hnext _)

theorem expectKind_bind {next : Span → ParseStmt γ} (hc : c.Faces (k' :: ks) k size)
    (hk' : k' ≠ .eof) (hnext : ∀ span d, d.Faces ks k (size - 1) → Yields (next span) d ks Better) :
    Yields (liftM (Parse.expectKind k') >>= next) c (k' :: ks) Better :=
  token_bind hc hk' (Parse.expectKind_of_kind hc.kind_eq) (hnext _)

theorem expect_bind {token : FixedToken} {next : Span → ParseStmt γ}
    (hc : c.Faces (.fixed token :: ks) k size)
    (hnext : ∀ span d, d.Faces ks k (size - 1) → Yields (next span) d ks Better) :
    Yields (liftM (Parse.expect token) >>= next) c (.fixed token :: ks) Better :=
  expectKind_bind hc (by nofun) hnext

theorem expectName_bind {id : String} {next : String → ParseStmt γ}
    (hc : c.Faces (.name id :: ks) k size)
    (hnext : ∀ d, d.Faces ks k (size - 1) → Yields (next id) d ks Better) :
    Yields (liftM Parse.expectName >>= next) c (.name id :: ks) Better :=
  token_bind hc (by nofun) (Parse.expectName_of_kind hc.kind_eq) hnext

theorem close_bind {token : FixedToken} {opened : Span} {delimiter : Char}
    {next : Unit → ParseStmt γ} (hc : c.Faces (.fixed token :: ks) k size)
    (hnext : ∀ d, d.Faces ks k (size - 1) → Yields (next ()) d ks Better) :
    Yields (liftM (Parse.close opened delimiter token) >>= next) c (.fixed token :: ks) Better :=
  token_bind hc (by nofun) (Parse.close_of_kind hc.kind_eq) hnext

theorem eat_bind {token : FixedToken} {next : Bool → ParseStmt γ}
    (hc : c.Faces (.fixed token :: ks) k size)
    (hnext : ∀ d, d.Faces ks k (size - 1) → Yields (next true) d ks Better) :
    Yields (liftM (Parse.eat token) >>= next) c (.fixed token :: ks) Better :=
  token_bind hc (by nofun) (Parse.eat_of_kind hc.kind_eq) hnext

theorem not_eat_bind {token : FixedToken} {next : Bool → ParseStmt γ}
    (hkind : c.kind ≠ .fixed token) (h : Yields (next false) c ks Better) :
    Yields (liftM (Parse.eat token) >>= next) c ks Better := by
  obtain ⟨b, d, hrun, hpass, hb⟩ := h
  exact ⟨b, d, .lift_bind (Parse.eat_of_kind_ne hkind) hrun, hpass, hb⟩

theorem isAt_bind {token : FixedToken} {next : Bool → ParseStmt γ}
    (h : Yields (next (decide (c.kind = .fixed token))) c ks Better) :
    Yields (liftM (Parse.isAt token) >>= next) c ks Better := h

/-- What stands before the token is read as it was spelled. -/
theorem readAs_bind {δ : Type} {p : Nat → Parse β} {view : β → δ} {x : δ} {next : β → ParseStmt γ}
    (h : Parse.ReadAs p view ks (ks'.headD k) x) (hc : c.Faces (ks ++ ks') k size)
    (hbound : size ≤ bound)
    (hnext : ∀ b d, view b = x → d.Faces ks' k size → Yields (next b) d ks' Better) :
    Yields (liftM (p bound) >>= next) c (ks ++ ks') Better := by
  have hfront := hc.front
  obtain ⟨rest, hkinds⟩ := hfront.kinds
  obtain ⟨b, d, hrun, hview, hpass⟩ :=
    h bound c rest hc.terminated hkinds (Nat.le_trans hc.length hbound)
  exact lift_bind hc hrun hpass (hnext b d hview)

end Yields

/-! ### First tokens -/

theorem tokens_eq_cons_of_standsBefore {e : Expr Unit} (he : e.StandsBefore k) :
    ∃ k₀ rest, e.tokens = k₀ :: rest ∧ k₀.beginsExpr = true := by
  obtain ⟨c, hc, hkinds⟩ : ∃ c : Cursor, c.Terminated ∧ c.kinds = e.tokens ++ [k, .eof] :=
    Parse.exists_cursor (by simp)
  obtain ⟨e', d, hrun, rfl, -⟩ := he _ c [.eof] hc hkinds (Nat.le_refl _)
  obtain ⟨-, hgrammatical⟩ := Parse.expr_reads _ c e' d hc hrun
  rw [Expr.tokens_erase]
  exact Expr.tokens_eq_cons hgrammatical

theorem commas_eq_cons_of_standBefore {e : Expr Unit} {es : List (Expr Unit)}
    (h : Expr.StandBefore (e :: es) k) :
    ∃ k₀ rest, commas ((e :: es).map Expr.tokens) = k₀ :: rest ∧ k₀.beginsExpr = true := by
  obtain ⟨c, hc, hkinds⟩ : ∃ c : Cursor, c.Terminated ∧
      c.kinds = commas ((e :: es).map Expr.tokens) ++ [k, .eof] := Parse.exists_cursor (by simp)
  obtain ⟨es', d, hrun, hview, -⟩ := h _ c [.eof] hc hkinds (Nat.le_refl _)
  obtain ⟨-, -, hgrammatical⟩ :=
    Parse.commaSeparated_reads (Parse.expr_reads _) _ c es' d hc hrun
  obtain ⟨e', rest, rfl⟩ : ∃ e' rest, es' = e' :: rest := by
    cases es' with
    | nil => nomatch hview
    | cons e' rest => exact ⟨e', rest, rfl⟩
  obtain ⟨rfl, -⟩ := List.cons.inj hview
  obtain ⟨k₀, rest', htokens, hk₀⟩ :=
    Expr.tokens_eq_cons (hgrammatical e' List.mem_cons_self)
  refine ⟨k₀, rest' ++ (es.map Expr.tokens).flatMap (.fixed .comma :: ·), ?_, hk₀⟩
  rw [List.map_cons, commas_cons, Expr.tokens_erase, htokens, List.cons_append]

/-- A statement is spelled by at least one token, and its first token begins statements. -/
theorem spells_eq_cons {s : Stmt Unit} (h : Spells ks k (.stmt s)) :
    ∃ k₀ rest, ks = k₀ :: rest ∧ beginsStmt k₀ = true := by
  have hexpr : ∀ {e : Expr Unit} {k : TokenKind} (behind : List TokenKind), e.StandsBefore k →
      ∃ k₀ rest, e.tokens ++ behind = k₀ :: rest ∧ beginsStmt k₀ = true := by
    intro e k behind he
    obtain ⟨k₀, rest, htokens, hk₀⟩ := tokens_eq_cons_of_standsBefore he
    exact ⟨k₀, rest ++ behind, by rw [htokens, List.cons_append], by rw [beginsStmt, hk₀]; rfl⟩
  cases h with
  | plain hs =>
      cases hs with
      | assign he | expr he | declaration he => exact hexpr _ he
      | _ => exact ⟨_, _, rfl, rfl⟩
  | _ => exact ⟨_, _, rfl, rfl⟩

/-! ### Statements without a body -/

def FormOf (s : Stmt Unit) (form : Span → Stmt Span) : Prop :=
  ∀ span, (form span).erase = s

theorem simple_yields_assign {target value : Expr Unit}
    (htarget : target.StandsBefore (.fixed .assign))
    (hvalue : value.StandsBefore (.fixed .semicolon))
    (hc : c.Faces (Stmt.assign () target value).tokens k size) (hbound : size ≤ bound) :
    Yields (simple bound) c (Stmt.assign () target value).tokens
      (FormOf (.assign () target value)) := by
  rw [simple]
  refine .readAs_bind htarget hc (by omega) fun target' d htarget' hc => ?_
  refine .eat_bind hc fun d hc => ?_
  refine .readAs_bind hvalue hc (by omega) fun value' d hvalue' hc => ?_
  refine .expect_bind hc fun _ d _ => .pure fun span => ?_
  rw [Stmt.erase, htarget', hvalue']

theorem simple_yields {e : Expr Unit} (he : e.StandsBefore (.fixed .semicolon))
    (hc : c.Faces (e.tokens ++ [.fixed .semicolon]) k size) (hbound : size ≤ bound) :
    Yields (simple bound) c (e.tokens ++ [.fixed .semicolon])
      (FormOf (if e.isDeclaration then .declaration () e else .expr () e)) := by
  rw [simple]
  refine .readAs_bind he hc (by omega) fun e' d he' hc => ?_
  refine .not_eat_bind (by simp [hc.kind_eq]) ?_
  refine .expect_bind hc fun _ d _ => .pure fun span => ?_
  rw [← he', Expr.isDeclaration_erase]
  split <;> rw [Stmt.erase]

theorem terminal_yields {form : Span → Stmt Span} {s : Stmt Unit} (hform : FormOf s form)
    (hk' : k' ≠ .eof) (hc : c.Faces [k', .fixed .semicolon] k size) :
    Yields (terminal form) c [k', .fixed .semicolon] (FormOf s) := by
  rw [terminal]
  refine .advance_bind hc hk' fun _ d hc => ?_
  exact .expect_bind hc fun _ d _ => .pure hform

theorem giveBack_yields {values : List (Expr Unit)}
    (hvalues : values ≠ [] → Expr.StandBefore values (.fixed .semicolon))
    (hc : c.Faces (Stmt.giveBack () values).tokens k size) (hbound : size ≤ bound) :
    Yields (giveBack bound) c (Stmt.giveBack () values).tokens (FormOf (.giveBack () values)) := by
  rw [giveBack]
  refine .advance_bind hc (by simp) fun _ d hc => .isAt_bind ?_
  cases values with
  | nil =>
      have hkind : d.kind = .fixed .semicolon := hc.kind_eq
      rw [if_pos (decide_eq_true hkind)]
      exact .expect_bind hc fun _ d _ => .pure fun _ => rfl
  | cons e es =>
      have hbefore := hvalues (List.cons_ne_nil e es)
      obtain ⟨k₀, rest, htokens, hk₀⟩ := commas_eq_cons_of_standBefore hbefore
      have hkind : d.kind ≠ .fixed .semicolon := by
        have hfront := hc
        rw [htokens] at hfront
        rw [hfront.kind_eq]
        rintro rfl
        cases hk₀
      rw [if_neg (by simpa using hkind)]
      refine .readAs_bind (p := fun bound => Parse.commaSeparated (Parse.expr bound) bound) hbefore
        hc (by omega) fun values' d hvalues' hc => ?_
      refine .expect_bind hc fun _ d _ => .pure fun span => ?_
      rw [Stmt.erase, hvalues']

theorem names_readAs {value : String} {values : List String} (hk : k ≠ .fixed .comma) :
    Parse.ReadAs (fun bound => Parse.commaSeparated Parse.expectName bound) (List.map id)
      (commas ((value :: values).map fun id => [.name id])) k (value :: values) := by
  have haccepts : ∀ bound, Parse.Accepts (Parse.commaSeparated Parse.expectName bound)
      (List.map id) bound (fun k => True ∧ k ≠ .fixed .comma)
      (commas ((value :: values).map fun id => [.name id])) (value :: values) := by
    intro bound
    refine Parse.commaSeparated_accepts (List.cons_ne_nil _ _) trivial fun id _ => ?_
    intro c k rest hkinds _ _
    exact ⟨id, c.advance, Parse.expectName_of_kind (Cursor.kind_eq_of_kinds hkinds), rfl,
      Cursor.kinds_advance hkinds (by nofun) (List.cons_ne_nil k rest)⟩
  refine Parse.readAs_of_accepts haccepts
    (fun bound => Parse.commaSeparated_reads Parse.expectName_reads bound) ?_ ⟨trivial, hk⟩
  intro ids hids
  rw [← hids, List.map_id]

/-- The semicolon behind an enumeration may be missing, if none stands there. -/
theorem enumeration_yields {id : String} {values : List String} {tail : List TokenKind}
    (htail : tail = [.fixed .semicolon] ∨ tail = [] ∧ k ≠ .fixed .semicolon)
    (hc : c.Faces (.fixed .kwEnumeration :: .name id :: .fixed .openBrace ::
      (commas (values.map fun value => [.name value]) ++ .fixed .closeBrace :: tail)) k size)
    (hbound : size ≤ bound) :
    Yields (enumeration bound) c (.fixed .kwEnumeration :: .name id :: .fixed .openBrace ::
      (commas (values.map fun value => [.name value]) ++ .fixed .closeBrace :: tail))
      (FormOf (.enumeration () id values)) := by
  have hend : ∀ {d : Cursor} {opened : Span} {values : List String} {size : Nat},
      d.Faces (.fixed .closeBrace :: tail) k size →
      Yields (do
        Parse.close opened '\x7b' .closeBrace
        let _ ← Parse.eat .semicolon
        return (.enumeration · id values)) d (.fixed .closeBrace :: tail)
        (FormOf (.enumeration () id values)) := by
    intro d opened values size hc
    refine .close_bind hc fun d hc => ?_
    obtain rfl | ⟨rfl, hk⟩ := htail
    · exact .eat_bind hc fun d _ => .pure fun _ => rfl
    · exact .not_eat_bind (by rwa [hc.kind_eq]) (.pure fun _ => rfl)
  rw [enumeration]
  refine .advance_bind hc (by simp) fun _ d hc => ?_
  refine .expectName_bind hc fun d hc => ?_
  refine .expect_bind hc fun opened d hc => .isAt_bind ?_
  cases values with
  | nil =>
      have hkind : d.kind = .fixed .closeBrace := hc.kind_eq
      rw [if_pos (decide_eq_true hkind)]
      exact hend hc
  | cons value values =>
      have hkind : d.kind ≠ .fixed .closeBrace := by
        have hfront := hc
        rw [List.map_cons, commas_cons] at hfront
        simp [hfront.kind_eq]
      rw [if_neg (by simpa using hkind)]
      refine .readAs_bind (p := fun bound => Parse.commaSeparated Parse.expectName bound)
        (names_readAs (by simp)) hc (by omega) fun values' d hvalues' hc => ?_
      rw [← hvalues', List.map_id]
      exact hend hc

theorem assertion_yields {e : Expr Unit} (he : e.StandsBefore (.fixed .semicolon))
    (hc : c.Faces (Stmt.assertion () e).tokens k size) (hbound : size ≤ bound) :
    Yields (assertion bound) c (Stmt.assertion () e).tokens (FormOf (.assertion () e)) := by
  rw [assertion]
  refine .advance_bind hc (by simp) fun _ d hc => ?_
  refine .readAs_bind he hc (by omega) fun e' d he' hc => ?_
  refine .expect_bind hc fun _ d _ => .pure fun span => ?_
  rw [Stmt.erase, he']

/-! ### Statements with bodies -/

/-- In front of the tokens, with `k` behind them, each part of the parser reads the phrase it is
there for. The bounds are met if they are as large as the number of tokens left. -/
def Accepted (lines : LineTable) (ks : List TokenKind) (k : TokenKind) : Phrase → Prop
  | .stmt s => ∀ n c, c.Faces ks k n →
      Yields (stmtAt lines n) c ks (·.erase = s) ∧
        ∀ bound, n ≤ bound → Yields (body lines (stmtAt lines n) bound) c ks (·.erase = s)
  | .list ss => ∀ n ends bound size c, size ≤ n → size ≤ bound →
      (∀ k, beginsStmt k = true → ends k = false) → (k = .eof ∨ ends k = true) →
      c.Faces ks k size →
      Yields (statements lines (stmtAt lines n) ends bound) c ks (Stmt.eraseAll · = ss)
  | .elsifs others => ∀ n big bound size c, size ≤ n → n ≤ big → size ≤ bound →
      c.Faces ks k size →
      Yields (elsifs lines (stmtAt lines n) big bound) c ks (Stmt.eraseElsifs · = others)
  | .last otherwise => ∀ n bound c, n ≤ bound → c.Faces ks k n →
      ∀ (test : Expr Span) (b : Stmt Span) (others : List (Expr Span × Stmt Span)),
        Yields (do
          if ← Parse.eat .kwElse then
            let last ← body lines (stmtAt lines n) bound
            return (.branch · test b others (some last))
          else
            return (.branch · test b others none)) c ks
          (FormOf (.branch () test.erase b.erase (Stmt.eraseElsifs others) otherwise))
  | .armBody b => ∀ n bound c, n ≤ bound → c.Faces ks k n →
      Yields (armBody lines (stmtAt lines n) bound) c ks (·.erase = b)
  | .arms met as otherwise => ∀ n big bound size opened met' c, size ≤ n → n ≤ big →
      size ≤ bound → Stmt.eraseElse met' = met → c.Faces ks k size →
      Yields (arms lines (stmtAt lines n) opened big bound met') c ks
        (fun found => Stmt.eraseArms found.1 = as ∧ Stmt.eraseElse found.2 = otherwise)

/-- A statement is read by its form, unless it is a block. -/
theorem accepted_of_form {s : Stmt Unit} (hstart : ks.headD k ≠ .indent)
    (h : ∀ n c, c.Faces ks k (n + 1) →
      Yields (form lines (stmtAt lines n) (n + 1)) c ks (FormOf s)) :
    Accepted lines ks k (.stmt s) := by
  intro n c hc
  obtain ⟨n, rfl⟩ : ∃ fewer, n = fewer + 1 := ⟨n - 1, by have := hc.pos; omega⟩
  have hkind : c.kind ≠ .indent := by rwa [hc.kind_eq]
  have hstmt : Yields (stmtAt lines (n + 1)) c ks (·.erase = s) := by
    rw [stmtAt]
    refine .reading ?_
    rw [if_neg hkind]
    refine .reading_span (.bind_last (h n c hc) fun form d hform =>
      .reading_spanFrom fun span => ?_)
    exact .pure (hform span)
  refine ⟨hstmt, fun bound _ => ?_⟩
  rw [body]
  refine .reading ?_
  rwa [if_neg hkind]

theorem indentedBlock_yields {ss : List (Stmt Unit)} {n : Nat}
    (hbody : Accepted lines ks .unindent (.list ss))
    (hc : c.Faces (.indent :: (ks ++ [.unindent])) k size) (hn : size ≤ n + 1)
    (hbound : size ≤ bound + 1) :
    Yields (indentedBlock lines (stmtAt lines n) bound) c (.indent :: (ks ++ [.unindent]))
      (·.erase = .block () ss) := by
  have hends : ∀ k, beginsStmt k = true → endsBlock k = false := by
    intro k hk
    refine decide_eq_false ?_
    rintro rfl
    cases hk
  rw [indentedBlock]
  refine .expectKind_bind hc (by simp) fun opened d hc => ?_
  refine .bind hc (hbody n endsBlock bound _ d (by omega) (by omega) hends (.inr rfl) hc.front)
    fun body d hbody hc => .reading ?_
  have hkind : d.kind = .unindent := hc.kind_eq
  rw [if_pos hkind]
  refine .advance_bind hc (by simp) fun _ d _ => .reading_spanFrom fun span => .pure ?_
  rw [Stmt.erase, hbody]

theorem block_accepted {ss : List (Stmt Unit)} (hbody : Accepted lines ks .unindent (.list ss)) :
    Accepted lines (.indent :: (ks ++ [.unindent])) k (.stmt (.block () ss)) := by
  intro n c hc
  obtain ⟨n, rfl⟩ : ∃ fewer, n = fewer + 1 := ⟨n - 1, by have := hc.pos; omega⟩
  have hkind : c.kind = .indent := hc.kind_eq
  constructor
  · rw [stmtAt]
    refine .reading ?_
    rw [if_pos hkind]
    exact indentedBlock_yields hbody hc (Nat.le_refl _) (Nat.le_refl _)
  · intro bound hbound
    rw [body]
    refine .reading ?_
    rw [if_pos hkind]
    exact indentedBlock_yields hbody hc (Nat.le_succ _) (by omega)

theorem nil_accepted : Accepted lines [] k (.list []) := by
  intro n ends bound size c _ hbound _ hstop hc
  have hkind : c.kind = k := hc.kind_eq
  rw [← hkind] at hstop
  refine ⟨[], c, fun q _ => ?_, .refl c, rfl⟩
  rw [statements, list_of_stops (stops_of_kind hstop)]

theorem cons_accepted {s : Stmt Unit} {ss : List (Stmt Unit)}
    (hspells : Spells ks (ks'.headD k) (.stmt s))
    (hs : Accepted lines ks (ks'.headD k) (.stmt s)) (hss : Accepted lines ks' k (.list ss)) :
    Accepted lines (ks ++ ks') k (.list (s :: ss)) := by
  intro n ends bound size c hn hbound hends hstop hc
  obtain ⟨bound, rfl⟩ : ∃ fewer, bound = fewer + 1 := ⟨bound - 1, by have := hc.pos; omega⟩
  obtain ⟨k₀, rest, hks, hk₀⟩ := spells_eq_cons hspells
  obtain ⟨s', mid, hrun, hpass, hs'⟩ := (hs n c (hc.front.mono hn)).1
  obtain ⟨ss', d, hrun', hpass', hss'⟩ :=
    hss n ends bound (size - 1) mid (by omega) (by omega) hends
    hstop (hc.shorter hpass (by rw [hks]; exact List.cons_ne_nil _ _))
  have hkind : c.kind = k₀ := by
    have hfront := hc
    rw [hks] at hfront
    exact hfront.kind_eq
  have herase : Stmt.eraseAll (s' :: ss') = s :: ss := by rw [Stmt.eraseAll, hs', hss']
  refine ⟨s' :: ss', d, fun q hq => ?_, hpass.trans hpass', herase⟩
  have hmore := hrun' q hq
  rw [statements] at hmore
  dsimp only at hmore
  rw [← hkind] at hk₀
  rw [statements, list_of_ok (stops_of_beginsStmt hk₀ hends hq) (hrun q hq)]
  dsimp only
  obtain ⟨hbody, hstate⟩ := EStateM.Result.ok.inj hmore
  rw [hbody, hstate]

theorem repeatUntil_accepted {b : Stmt Unit} {test : Expr Unit}
    (hbody : Accepted lines ks (.fixed .kwUntil) (.stmt b))
    (htest : test.StandsBefore (.fixed .semicolon)) :
    Accepted lines (.fixed .kwRepeat :: (ks ++ .fixed .kwUntil ::
      (test.tokens ++ [.fixed .semicolon]))) k (.stmt (.repeatUntil () b test)) := by
  refine accepted_of_form (by simp) fun n c hc => ?_
  rw [form]
  refine .reading ?_
  rw [hc.kind_eq]
  change Yields (repeatUntil lines (stmtAt lines n) (n + 1)) c _ _
  rw [repeatUntil]
  refine .advance_bind hc (by simp) fun _ d hc => ?_
  refine .bind hc ((hbody n d hc.front).2 _ (Nat.le_succ n)) fun b' d hb' hc => ?_
  refine .expect_bind hc fun _ d hc => ?_
  refine .readAs_bind htest hc (by omega) fun test' d htest' hc => ?_
  refine .expect_bind hc fun _ d _ => .pure fun span => ?_
  rw [Stmt.erase, hb', htest']

theorem whileDo_accepted {test : Expr Unit} {b : Stmt Unit}
    (htest : test.StandsBefore (.fixed .kwDo))
    (hbody : Accepted lines ks k (.stmt b)) :
    Accepted lines (.fixed .kwWhile :: (test.tokens ++ .fixed .kwDo :: ks)) k
      (.stmt (.whileDo () test b)) := by
  refine accepted_of_form (by simp) fun n c hc => ?_
  rw [form]
  refine .reading ?_
  rw [hc.kind_eq]
  change Yields (whileDo lines (stmtAt lines n) (n + 1)) c _ _
  rw [whileDo]
  refine .advance_bind hc (by simp) fun _ d hc => ?_
  refine .readAs_bind htest hc (by omega) fun test' d htest' hc => ?_
  refine .expect_bind hc fun _ d hc => ?_
  refine .bind_last ((hbody n d (hc.mono (by omega))).2 _ (Nat.le_succ n)) fun b' d hb' =>
    .pure fun span => ?_
  rw [Stmt.erase, hb', htest']

theorem forTo_accepted {var : String} {first last : Expr Unit} {b : Stmt Unit}
    (hfirst : first.StandsBefore (.fixed .kwTo)) (hlast : last.StandsBefore (.fixed .kwDo))
    (hbody : Accepted lines ks k (.stmt b)) :
    Accepted lines (.fixed .kwFor :: .name var :: .fixed .assign ::
      (first.tokens ++ .fixed .kwTo :: (last.tokens ++ .fixed .kwDo :: ks))) k
      (.stmt (.forTo () var first last b)) := by
  refine accepted_of_form (by simp) fun n c hc => ?_
  rw [form]
  refine .reading ?_
  rw [hc.kind_eq]
  change Yields (forTo lines (stmtAt lines n) (n + 1)) c _ _
  rw [forTo]
  refine .advance_bind hc (by simp) fun _ d hc => ?_
  refine .expectName_bind hc fun d hc => ?_
  refine .expect_bind hc fun _ d hc => ?_
  refine .readAs_bind hfirst hc (by omega) fun first' d hfirst' hc => ?_
  refine .expect_bind hc fun _ d hc => ?_
  refine .readAs_bind hlast hc (by omega) fun last' d hlast' hc => ?_
  refine .expect_bind hc fun _ d hc => ?_
  refine .bind_last ((hbody n d (hc.mono (by omega))).2 _ (Nat.le_succ n)) fun b' d hb' =>
    .pure fun span => ?_
  rw [Stmt.erase, hfirst', hlast', hb']

/-! ### Branches -/

theorem noElsif_accepted (hk : k ≠ .fixed .kwElsif) : Accepted lines [] k (.elsifs []) := by
  intro n big bound size c _ _ _ hc
  cases bound with
  | zero => exact .pure rfl
  | succ bound =>
      rw [elsifs]
      exact .not_eat_bind (by rwa [hc.kind_eq]) (.pure rfl)

theorem elsif_accepted {test : Expr Unit} {b : Stmt Unit} {others : List (Expr Unit × Stmt Unit)}
    (htest : test.StandsBefore (.fixed .kwThen))
    (hbody : Accepted lines ks (ks'.headD k) (.stmt b))
    (hothers : Accepted lines ks' k (.elsifs others)) :
    Accepted lines (.fixed .kwElsif :: (test.tokens ++ .fixed .kwThen :: (ks ++ ks'))) k
      (.elsifs ((test, b) :: others)) := by
  intro n big bound size c hn hbig hbound hc
  obtain ⟨bound, rfl⟩ : ∃ fewer, bound = fewer + 1 := ⟨bound - 1, by have := hc.pos; omega⟩
  rw [elsifs]
  refine .eat_bind hc fun d hc => ?_
  rw [if_pos rfl]
  refine .readAs_bind htest hc (by omega) fun test' d htest' hc => ?_
  refine .expect_bind hc fun _ d hc => ?_
  refine .bind hc ((hbody n d (hc.front.mono (by omega))).2 big hbig) fun b' d hb' hc => ?_
  refine .bind_last (hothers n big bound _ d (by omega) hbig (by omega) hc)
    fun others' d hothers' => .pure ?_
  rw [Stmt.eraseElsifs, htest', hb', hothers']

theorem noLast_accepted (hk : k ≠ .fixed .kwElse) : Accepted lines [] k (.last none) := by
  intro n bound c _ hc test b others
  exact .not_eat_bind (by rwa [hc.kind_eq]) (.pure fun _ => rfl)

theorem lastBody_accepted {b : Stmt Unit} (hbody : Accepted lines ks k (.stmt b)) :
    Accepted lines (.fixed .kwElse :: ks) k (.last (some b)) := by
  intro n bound c hbound hc test first others
  refine .eat_bind hc fun d hc => ?_
  rw [if_pos rfl]
  refine .bind_last ((hbody n d (hc.mono (by omega))).2 bound hbound) fun b' d hb' =>
    .pure fun span => ?_
  rw [Stmt.erase, Stmt.eraseElse, hb']

theorem branch_accepted {test : Expr Unit} {b : Stmt Unit} {others : List (Expr Unit × Stmt Unit)}
    {otherwise : Option (Stmt Unit)} {ls : List TokenKind}
    (htest : test.StandsBefore (.fixed .kwThen))
    (hbody : Accepted lines ks ((ks' ++ ls).headD k) (.stmt b))
    (hothers : Accepted lines ks' (ls.headD k) (.elsifs others))
    (hlast : Accepted lines ls k (.last otherwise)) :
    Accepted lines (.fixed .kwIf :: (test.tokens ++ .fixed .kwThen :: (ks ++ (ks' ++ ls)))) k
      (.stmt (.branch () test b others otherwise)) := by
  refine accepted_of_form (by simp) fun n c hc => ?_
  rw [form]
  refine .reading ?_
  rw [hc.kind_eq]
  change Yields (branch lines (stmtAt lines n) (n + 1)) c _ _
  rw [branch]
  refine .advance_bind hc (by simp) fun _ d hc => ?_
  refine .readAs_bind htest hc (by omega) fun test' d htest' hc => ?_
  refine .expect_bind hc fun _ d hc => ?_
  refine .bind hc ((hbody n d (hc.front.mono (by omega))).2 _ (Nat.le_succ n)) fun b' d hb' hc => ?_
  refine .bind hc (hothers n _ _ _ d (by omega) (Nat.le_succ n) (by omega) hc.front)
    fun others' d hothers' hc => ?_
  rw [← htest', ← hb', ← hothers']
  exact hlast n _ d (Nat.le_succ n) (hc.mono (by omega)) test' b' others'

/-! ### Cases -/

theorem armBlock_accepted {ss : List (Stmt Unit)}
    (hbody : Accepted lines ks .unindent (.list ss)) :
    Accepted lines (.indent :: (ks ++ [.unindent])) k (.armBody (.block () ss)) := by
  intro n bound c hbound hc
  have hkind : c.kind = .indent := hc.kind_eq
  rw [armBody]
  refine .reading ?_
  rw [if_pos hkind]
  exact indentedBlock_yields hbody hc (Nat.le_succ _) (by omega)

theorem armList_accepted {ss : List (Stmt Unit)} (hbody : Accepted lines ks k (.list ss))
    (hstart : ks.head? ≠ some .indent) (hk : endsArm k = true) :
    Accepted lines ks k (.armBody (.block () ss)) := by
  intro n bound c hbound hc
  have hkind : c.kind ≠ .indent := by
    rw [hc.kind_eq]
    cases ks with
    | nil =>
        rintro rfl
        nomatch hk
    | cons k₀ ks => exact fun heq => hstart (congrArg some heq)
  have hends : ∀ k, beginsStmt k = true → endsArm k = false := by
    intro k hk
    cases k with
    | unindent => nomatch hk
    | fixed token => cases token <;> first | rfl | nomatch hk
    | _ => rfl
  rw [armBody]
  refine .reading ?_
  rw [if_neg hkind]
  refine .reading_span (.bind_last
    (hbody n endsArm bound n c (Nat.le_refl n) hbound hends (.inr hk) hc) fun body d hbody => ?_)
  refine .reading_spanFrom fun span => .pure ?_
  rw [Stmt.erase, hbody]

theorem endOfCase_accepted (met : Option (Stmt Unit)) :
    Accepted lines [.unindent] k (.arms met [] met) := by
  intro n big bound size opened met' c _ _ hbound hmet hc
  obtain ⟨bound, rfl⟩ : ∃ fewer, bound = fewer + 1 := ⟨bound - 1, by have := hc.pos; omega⟩
  rw [arms]
  refine .reading ?_
  rw [hc.kind_eq]
  exact .advance_bind hc (by simp) fun _ d _ => .pure ⟨rfl, hmet⟩

theorem arm_accepted {met otherwise : Option (Stmt Unit)} {patterns : List (Expr Unit)}
    {b : Stmt Unit} {as : List (List (Expr Unit) × Stmt Unit)}
    (hpatterns : Expr.StandAsPatterns patterns ((ks ++ ks').headD k))
    (hbody : Accepted lines ks (ks'.headD k) (.armBody b))
    (harms : Accepted lines ks' k (.arms met as otherwise)) :
    Accepted lines (.fixed .kwWhen :: (commas (patterns.map Expr.tokens) ++ (ks ++ ks'))) k
      (.arms met ((patterns, b) :: as) otherwise) := by
  intro n big bound size opened met' c hn hbig hbound hmet hc
  obtain ⟨bound, rfl⟩ : ∃ fewer, bound = fewer + 1 := ⟨bound - 1, by have := hc.pos; omega⟩
  rw [arms]
  refine .reading ?_
  rw [hc.kind_eq]
  refine .advance_bind hc (by simp) fun _ d hc => ?_
  refine .readAs_bind hpatterns hc (by omega) fun patterns' d hpatterns' hc => ?_
  refine .bind hc (hbody n big d hbig (hc.front.mono (by omega))) fun b' d hb' hc => ?_
  refine .bind_last (harms n big bound _ opened met' d (by omega) hbig (by omega) hmet hc)
    fun found d hfound => ?_
  obtain ⟨rest, last⟩ := found
  refine .pure ⟨?_, hfound.2⟩
  rw [Stmt.eraseArms, hpatterns', hb', hfound.1]

theorem lastArm_accepted {met otherwise : Option (Stmt Unit)} {b : Stmt Unit}
    {as : List (List (Expr Unit) × Stmt Unit)}
    (hbody : Accepted lines ks (ks'.headD k) (.armBody b))
    (harms : Accepted lines ks' k (.arms (some b) as otherwise)) :
    Accepted lines (.fixed .kwOtherwise :: (ks ++ ks')) k (.arms met as otherwise) := by
  intro n big bound size opened met' c hn hbig hbound _ hc
  obtain ⟨bound, rfl⟩ : ∃ fewer, bound = fewer + 1 := ⟨bound - 1, by have := hc.pos; omega⟩
  rw [arms]
  refine .reading ?_
  rw [hc.kind_eq]
  refine .advance_bind hc (by simp) fun _ d hc => ?_
  refine .bind hc (hbody n big d hbig (hc.front.mono (by omega))) fun b' d hb' hc => ?_
  exact harms n big bound _ opened (some b') d (by omega) hbig (by omega) (by rw [← hb']; rfl) hc

theorem caseOf_accepted {selector : Expr Unit} {as : List (List (Expr Unit) × Stmt Unit)}
    {otherwise : Option (Stmt Unit)} (hselector : selector.StandsBefore (.fixed .kwOf))
    (harms : Accepted lines ks k (.arms none as otherwise)) :
    Accepted lines (.fixed .kwCase :: (selector.tokens ++ .fixed .kwOf :: .indent :: ks)) k
      (.stmt (.caseOf () selector as otherwise)) := by
  refine accepted_of_form (by simp) fun n c hc => ?_
  rw [form]
  refine .reading ?_
  rw [hc.kind_eq]
  change Yields (caseOf lines (stmtAt lines n) (n + 1)) c _ _
  rw [caseOf]
  refine .advance_bind hc (by simp) fun _ d hc => ?_
  refine .readAs_bind hselector hc (by omega) fun selector' d hselector' hc => ?_
  refine .expect_bind hc fun _ d hc => ?_
  refine .expectKind_bind hc (by simp) fun opened d hc => ?_
  refine .bind_last (harms n _ _ _ opened none d (by omega) (Nat.le_succ n) (by omega) rfl hc)
    fun found d hfound => ?_
  obtain ⟨as', last⟩ := found
  refine .pure fun span => ?_
  rw [Stmt.erase, hselector', hfound.1, hfound.2]

/-! ### The grammar -/

/-- An expression, where it does not begin with the word that begins a branch, begins a statement of
its own. -/
theorem accepted_of_simple {e : Expr Unit} {s : Stmt Unit} {behind : List TokenKind}
    (he : e.StandsBefore k') (hstart : e.tokens.head? ≠ some (.fixed .kwIf))
    (h : ∀ n c, c.Faces (e.tokens ++ behind) k (n + 1) →
      Yields (simple (n + 1)) c (e.tokens ++ behind) (FormOf s)) :
    Accepted lines (e.tokens ++ behind) k (.stmt s) := by
  obtain ⟨k₀, rest, htokens, hk₀⟩ := tokens_eq_cons_of_standsBefore he
  rw [htokens] at hstart h ⊢
  refine accepted_of_form (by rintro rfl; cases hk₀) fun n c hc => ?_
  have hsimple := h n c hc
  rw [form]
  refine .reading ?_
  rw [hc.kind_eq]
  cases k₀ with
  | fixed token =>
      cases token with
      | kwIf => exact absurd rfl hstart
      | kwUndefined | kwUnpredictable | kwReturn | kwRepeat | kwWhile | kwFor | kwCase | kwAssert
      | kwEnumeration => cases hk₀
      | _ => exact hsimple
  | unindent | prose => cases hk₀
  | _ => exact hsimple

theorem plain_accepted {s : Stmt Unit} (hs : s.Plain) : Accepted lines s.tokens k (.stmt s) := by
  cases hs with
  | assign htarget hstart hvalue =>
      exact accepted_of_simple htarget hstart fun n c hc =>
        simple_yields_assign htarget hvalue hc (Nat.le_refl _)
  | expr he hstart hplain =>
      refine accepted_of_simple he hstart fun n c hc => ?_
      have hyields := simple_yields he hc (Nat.le_refl _)
      rwa [hplain] at hyields
  | declaration he hstart hdeclaration =>
      refine accepted_of_simple he hstart fun n c hc => ?_
      have hyields := simple_yields he hc (Nat.le_refl _)
      rwa [hdeclaration] at hyields
  | giveBack hvalues =>
      refine accepted_of_form (by simp) fun n c hc => ?_
      rw [form]
      refine .reading ?_
      rw [hc.kind_eq]
      exact giveBack_yields hvalues hc (Nat.le_refl _)
  | undefined | unpredictable | prose =>
      refine accepted_of_form (by simp) fun n c hc => ?_
      rw [form]
      refine .reading ?_
      rw [hc.kind_eq]
      exact terminal_yields (fun _ => rfl) (by simp) hc
  | assertion he =>
      refine accepted_of_form (by simp) fun n c hc => ?_
      rw [form]
      refine .reading ?_
      rw [hc.kind_eq]
      exact assertion_yields he hc (Nat.le_refl _)
  | enumeration id values =>
      refine accepted_of_form (by simp) fun n c hc => ?_
      rw [form]
      refine .reading ?_
      rw [hc.kind_eq]
      exact enumeration_yields (.inl rfl) hc (Nat.le_refl _)

/-- What the tokens spell is what they are read as. -/
theorem accepted_of_spells (lines : LineTable) {phrase : Phrase} (h : Spells ks k phrase) :
    Accepted lines ks k phrase := by
  induction h with
  | plain hs => exact plain_accepted hs
  | enumeration id values hk =>
      refine accepted_of_form (by nofun) fun n c hc => ?_
      rw [form]
      refine .reading ?_
      rw [hc.kind_eq]
      exact enumeration_yields (.inr ⟨rfl, hk⟩) hc (Nat.le_refl _)
  | branch htest _ _ _ ihb ihe ihl => exact branch_accepted htest ihb ihe ihl
  | repeatUntil _ htest ih => exact repeatUntil_accepted ih htest
  | whileDo htest _ ih => exact whileDo_accepted htest ih
  | forTo _ hfirst hlast _ ih => exact forTo_accepted hfirst hlast ih
  | caseOf hselector _ ih => exact caseOf_accepted hselector ih
  | block _ ih => exact block_accepted ih
  | nil => exact nil_accepted
  | cons hs _ ih ih' => exact cons_accepted hs ih ih'
  | noElsif hk => exact noElsif_accepted hk
  | elsif htest _ _ ih ih' => exact elsif_accepted htest ih ih'
  | noLast hk => exact noLast_accepted hk
  | lastBody _ ih => exact lastBody_accepted ih
  | armBlock _ ih => exact armBlock_accepted ih
  | armList _ hstart hk ih => exact armList_accepted ih hstart hk
  | endOfCase met => exact endOfCase_accepted met
  | arm hpatterns _ _ ih ih' => exact arm_accepted hpatterns ih ih'
  | lastArm _ _ ih ih' => exact lastArm_accepted ih ih'

end ParseStmt

end ArmPseudocode

import ArmPseudocode.Proofs.Parser.Forms

/-!
# Expressions are replayed

What an expression is read as depends only on its own tokens and on the one behind them. The spans
of the tokens, the tokens further on and the bound on the nesting decide nothing, as long as the
bound is no less than the number of tokens. So a step that succeeded once succeeds wherever the same
tokens stand in front of the same token, and reads the same tree up to spans.

Every function of the parser is compared with itself under two bounds. Both shrink along the tokens
of the first run, so it is enough that both are met there.
-/

namespace ArmPseudocode.Parse

variable {β γ : Type} {c : Cursor} {size least : Nat} {k : TokenKind}

/-- What the step reads at the cursor, at least so many tokens, the other step reads as the same
thing wherever these tokens stand in front of the same token. -/
def Replays (same : β → β → Prop) (least : Nat) (step step' : Parse β) (c : Cursor) : Prop :=
  ∀ b d, step c = .ok b d → same b b ∧ ∃ ks, c.Passes ks d ∧ least ≤ ks.length ∧
    ∀ c' rest, c'.Terminated → c'.kinds = ks ++ d.kind :: rest →
      ∃ b' d', step' c' = .ok b' d' ∧ same b b' ∧ c'.Passes ks d'

/-- The step is replayed at every cursor that is no further from the end of the text. -/
def ReplaysWithin (size : Nat) (same : β → β → Prop) (least : Nat) (step step' : Parse β) : Prop :=
  ∀ c, c.Terminated → c.kinds.length ≤ size → Replays same least step step' c

def Any (_ _ : β) : Prop := True

/-- Equal in what can be seen of them, for trees all but the spans. -/
def Alike {δ : Type} (view : β → δ) (b b' : β) : Prop := view b = view b'

/-- The forms make the same trees, whatever the spans. -/
def SameForm (form form' : Span → Expr Span) : Prop :=
  ∀ span span', (form span).erase = (form' span').erase

namespace Replays

variable {same : β → β → Prop} {same' : γ → γ → Prop} {step step' : Parse β}
  {next next' : β → Parse γ}

/-- Where the same tokens stand in front of the same token, the same token stands first. -/
theorem kind_eq {d c' : Cursor} {ks rest : List TokenKind} (hpass : c.Passes ks d)
    (hkinds : c'.kinds = ks ++ d.kind :: rest) : c'.kind = c.kind := by
  have hc := hpass.kinds_eq
  cases ks with
  | nil =>
      rw [List.nil_append] at hc hkinds
      rw [Cursor.kind_eq_of_kinds hkinds, Cursor.kind_eq_of_kinds (hc.trans d.kinds_eq)]
  | cons k ks => rw [Cursor.kind_eq_of_kinds hkinds, Cursor.kind_eq_of_kinds hc]

theorem weaken (h : Replays same least step step' c) : Replays same 0 step step' c := by
  intro b d hrun
  obtain ⟨hself, ks, hpass, -, hreplay⟩ := h b d hrun
  exact ⟨hself, ks, hpass, Nat.zero_le _, hreplay⟩

theorem congr {step₁ step₁' : Parse β} (h : Replays same least step step' c)
    (hleft : step₁ c = step c) (hright : ∀ c', c'.kind = c.kind → step₁' c' = step' c') :
    Replays same least step₁ step₁' c := by
  intro b d hrun
  rw [hleft] at hrun
  obtain ⟨hself, ks, hpass, hleast, hreplay⟩ := h b d hrun
  refine ⟨hself, ks, hpass, hleast, fun c' rest hc' hkinds => ?_⟩
  rw [hright c' (kind_eq hpass hkinds)]
  exact hreplay c' rest hc' hkinds

theorem pure {b b' : β} (hself : same b b) (h : same b b') :
    Replays same 0 (Pure.pure b) (Pure.pure b') c := by
  intro x d hrun
  obtain ⟨rfl, rfl⟩ := of_pure_eq_ok hrun
  exact ⟨hself, [], .refl c, Nat.le_refl 0, fun c' _ _ _ => ⟨b', c', rfl, h, .refl c'⟩⟩

theorem of_fails (h : ∀ b d, step c ≠ .ok b d) : Replays same least step step' c :=
  fun b d hrun => absurd hrun (h b d)

theorem bind (h : Replays same least step step' c)
    (hnext : ∀ b b' ks d, same b b' → c.Passes ks d → least ≤ ks.length →
      Replays same' 0 (next b) (next' b') d) :
    Replays same' least (step >>= next) (step' >>= next') c := by
  intro x e hrun
  obtain ⟨b, d, hstep, hrest⟩ := of_bind_eq_ok hrun
  obtain ⟨hself, ks, hpass, hleast, hreplay⟩ := h b d hstep
  obtain ⟨hself', ks', hpass', -, -⟩ := hnext b b ks d hself hpass hleast x e hrest
  refine ⟨hself', ks ++ ks', hpass.trans hpass', ?_, fun c' rest hc' hkinds => ?_⟩
  · rw [List.length_append]
    exact Nat.le_add_right_of_le hleast
  rw [List.append_assoc] at hkinds
  obtain ⟨rest', hmiddle⟩ : ∃ rest', ks' ++ e.kind :: rest = d.kind :: rest' := by
    have hd := hpass'.kinds_eq
    cases ks' with
    | nil =>
        rw [List.nil_append, e.kinds_eq] at hd
        exact ⟨rest, by rw [Cursor.kind_eq_of_kinds hd, List.nil_append]⟩
    | cons k ks' =>
        rw [Cursor.kind_eq_of_kinds hd]
        exact ⟨ks' ++ e.kind :: rest, rfl⟩
  obtain ⟨b', d', hstep', hb, hfirst⟩ := hreplay c' rest' hc' (by rw [hkinds, hmiddle])
  have hd' : d'.kinds = ks' ++ e.kind :: rest :=
    List.append_cancel_left (hfirst.kinds_eq.symm.trans hkinds)
  obtain ⟨-, ks₂, hpass₂, -, hreplay'⟩ := hnext b b' ks d hb hpass hleast x e hrest
  have hks₂ : ks₂ = ks' :=
    List.append_cancel_right (hpass₂.kinds_eq.symm.trans hpass'.kinds_eq)
  rw [hks₂] at hreplay'
  obtain ⟨x', e', hrest', hx, hsecond⟩ := hreplay' d' rest (hfirst.terminated hc') hd'
  exact ⟨x', e', (bind_of_eq_ok hstep').trans hrest', hx, hfirst.trans hsecond⟩

/-! ### Single tokens -/

theorem reading {next next' : TokenKind → Parse γ}
    (h : Replays same' least (next c.kind) (next' c.kind) c) :
    Replays same' least (Parse.kind >>= next) (Parse.kind >>= next') c := by
  refine h.congr rfl fun c' hkind => ?_
  rw [← hkind]
  rfl

theorem reading_isAt {token : FixedToken} {next next' : Bool → Parse γ}
    (h : Replays same' least (next (c.kind = .fixed token)) (next' (c.kind = .fixed token)) c) :
    Replays same' least (Parse.isAt token >>= next) (Parse.isAt token >>= next') c := by
  refine h.congr rfl fun c' hkind => ?_
  rw [← hkind]
  rfl

/-- What a step yields without moving may differ, where it makes no difference later on. -/
theorem reading_any {step step' : Parse β} (value value' : Cursor → β)
    (hleft : ∀ c, step c = .ok (value c) c) (hright : ∀ c, step' c = .ok (value' c) c)
    (h : ∀ b b', Replays same' least (next b) (next' b') c) :
    Replays same' least (step >>= next) (step' >>= next') c := by
  intro x e hrun
  rw [bind_of_eq_ok (hleft c)] at hrun
  obtain ⟨hself, ks, hpass, hleast, -⟩ := h (value c) (value' c) x e hrun
  refine ⟨hself, ks, hpass, hleast, fun c' rest hc' hkinds => ?_⟩
  obtain ⟨-, ks', hpass', -, hreplay⟩ := h (value c) (value' c') x e hrun
  have hks : ks' = ks := List.append_cancel_right (hpass'.kinds_eq.symm.trans hpass.kinds_eq)
  rw [hks] at hreplay
  rw [bind_of_eq_ok (hright c')]
  exact hreplay c' rest hc' hkinds

theorem reading_span {next next' : Span → Parse γ}
    (h : ∀ span span', Replays same' least (next span) (next' span') c) :
    Replays same' least (Parse.span >>= next) (Parse.span >>= next') c :=
  reading_any _ _ span_run span_run h

theorem reading_spanFrom {start start' : Span} {next next' : Span → Parse γ}
    (h : ∀ span span', Replays same' least (next span) (next' span') c) :
    Replays same' least (Parse.spanFrom start >>= next) (Parse.spanFrom start' >>= next') c :=
  reading_any _ _ (spanFrom_run start) (spanFrom_run start') h

theorem of_advance {b : β} (hc : c.Terminated) (hkind : c.kind ≠ .eof)
    (hleft : step c = .ok b c.advance) (hself : same b b)
    (hright : ∀ c', c'.kind = c.kind → ∃ b', step' c' = .ok b' c'.advance ∧ same b b') :
    Replays same 1 step step' c := by
  intro x d hrun
  rw [hleft] at hrun
  cases hrun
  refine ⟨hself, [c.kind], Cursor.passes_advance hc hkind, Nat.le_refl 1,
    fun c' rest hc' hkinds => ?_⟩
  have hkind' := Cursor.kind_eq_of_kinds hkinds
  obtain ⟨b', hrun', hb⟩ := hright c' hkind'
  refine ⟨b', c'.advance, hrun', hb, ?_⟩
  rw [← hkind'] at hkind ⊢
  exact Cursor.passes_advance hc' hkind

theorem advance (hc : c.Terminated) (hkind : c.kind ≠ .eof) :
    Replays Any 1 Parse.advance Parse.advance c :=
  of_advance hc hkind (advance_run c) trivial fun c' _ => ⟨_, advance_run c', trivial⟩

theorem expectKind {wanted : TokenKind} (hc : c.Terminated) (hwanted : wanted ≠ .eof) :
    Replays Any 1 (Parse.expectKind wanted) (Parse.expectKind wanted) c := by
  by_cases hkind : c.kind = wanted
  · refine of_advance hc (by rwa [hkind]) (expectKind_of_kind hkind) trivial fun c' hkind' => ?_
    exact ⟨_, expectKind_of_kind (hkind'.trans hkind), trivial⟩
  · refine of_fails fun b d hrun => ?_
    rw [expectKind_run, if_neg hkind] at hrun
    nomatch hrun

theorem expect {token : FixedToken} (hc : c.Terminated) :
    Replays Any 1 (Parse.expect token) (Parse.expect token) c := expectKind hc (by nofun)

theorem expectName (hc : c.Terminated) :
    Replays (Alike id) 1 Parse.expectName Parse.expectName c := by
  intro id d hrun
  have hpass := of_expectName hc hrun
  refine ⟨rfl, _, hpass, Nat.le_refl 1, fun c' rest hc' hkinds => ?_⟩
  have hkind := Cursor.kind_eq_of_kinds hkinds
  refine ⟨id, c'.advance, expectName_of_kind hkind, rfl, ?_⟩
  rw [← hkind]
  exact Cursor.passes_advance hc' (by rw [hkind]; nofun)

theorem close {opened opened' : Span} {delimiter : Char} {token : FixedToken} (hc : c.Terminated) :
    Replays Any 1 (Parse.close opened delimiter token) (Parse.close opened' delimiter token) c := by
  intro b d hrun
  have hpass := of_close hc hrun
  refine ⟨trivial, _, hpass, Nat.le_refl 1, fun c' rest hc' hkinds => ?_⟩
  have hkind := Cursor.kind_eq_of_kinds hkinds
  refine ⟨(), c'.advance, close_of_kind hkind, trivial, ?_⟩
  rw [← hkind]
  exact Cursor.passes_advance hc' (by rw [hkind]; nofun)

theorem eating {token : FixedToken} {next next' : Bool → Parse γ} (hc : c.Terminated)
    (hfound : c.kind = .fixed token → c.Passes [.fixed token] c.advance →
      Replays same' least (next true) (next' true) c.advance)
    (hmissing : c.kind ≠ .fixed token → Replays same' least (next false) (next' false) c) :
    Replays same' least (Parse.eat token >>= next) (Parse.eat token >>= next') c := by
  by_cases hkind : c.kind = .fixed token
  · have hne : c.kind ≠ .eof := by
      rw [hkind]
      nofun
    have hpass := Cursor.passes_advance hc hne
    intro x e hrun
    rw [bind_of_eq_ok (eat_of_kind hkind)] at hrun
    obtain ⟨hself, ks, hrest, hleast, hreplay⟩ := hfound hkind (hkind ▸ hpass) x e hrun
    refine ⟨hself, c.kind :: ks, hpass.trans hrest, Nat.le_succ_of_le hleast,
      fun c' rest hc' hkinds => ?_⟩
    have hkind' := Cursor.kind_eq_of_kinds hkinds
    have hpass' := Cursor.passes_advance hc' (by rwa [hkind'])
    have hbehind : c'.advance.kinds = ks ++ e.kind :: rest :=
      (List.cons.inj (hpass'.kinds_eq.symm.trans hkinds)).2
    obtain ⟨x', e', hrun', hx, hrest'⟩ := hreplay c'.advance rest (hpass'.terminated hc') hbehind
    refine ⟨x', e', (bind_of_eq_ok (eat_of_kind (hkind'.trans hkind))).trans hrun', hx, ?_⟩
    rw [← hkind']
    exact hpass'.trans hrest'
  · refine (hmissing hkind).congr (bind_of_eq_ok (eat_of_kind_ne hkind)) fun c' hkind' => ?_
    exact bind_of_eq_ok (eat_of_kind_ne (by rwa [hkind']))

/-! ### Lists -/

section Lists

variable {δ : Type} {view : β → δ} {item item' : Parse β} {bound bound' : Nat}

theorem moreItems (hitem : ReplaysWithin size (Alike view) least item item')
    (hc : c.Terminated) (hsize : c.kinds.length ≤ size) (hbound : c.kinds.length ≤ bound)
    (hbound' : c.kinds.length ≤ bound') :
    Replays (Alike (List.map view)) 0 (Parse.moreItems item bound)
      (Parse.moreItems item' bound') c := by
  induction bound generalizing c bound' with
  | zero => exact absurd hbound c.not_length_le_zero
  | succ bound ih =>
      obtain ⟨bound', rfl⟩ := Cursor.exists_eq_succ hbound'
      rw [Parse.moreItems, Parse.moreItems]
      refine eating hc (fun _ hpass => ?_) fun _ => .pure rfl rfl
      have hlength := hpass.length
      rw [List.length_singleton] at hlength
      refine bind (hitem _ (hpass.terminated hc) (by omega)).weaken fun b b' ks d hb hpass₁ _ => ?_
      have hlength₁ := hpass₁.length
      refine bind (ih ((hpass.trans hpass₁).terminated hc) (by omega) (by omega) (by omega)) ?_
      intro bs bs' _ _ hbs _ _
      exact .pure rfl (by rw [Alike, List.map_cons, List.map_cons, hb, hbs])

theorem commaSeparated (hitem : ReplaysWithin size (Alike view) least item item')
    (hc : c.Terminated) (hsize : c.kinds.length ≤ size) (hbound : size ≤ bound)
    (hbound' : size ≤ bound') :
    Replays (Alike (List.map view)) least (Parse.commaSeparated item bound)
      (Parse.commaSeparated item' bound') c := by
  refine bind (hitem c hc hsize) fun b b' ks d hb hpass _ => ?_
  have hlength := hpass.length
  refine bind (moreItems hitem (hpass.terminated hc) (by omega) (by omega) (by omega)) ?_
  intro bs bs' _ _ hbs _ _
  exact .pure rfl (by rw [Alike, List.map_cons, List.map_cons, hb, hbs])

end Lists

/-! ### Operators -/

section Operators

variable {operand operand' : Parse (Expr Span)} {bound bound' : Nat}

theorem operatorsBehind {left left' : Expr Span} {level : Nat}
    (hoperand : ReplaysWithin size (Alike Expr.erase) 1 operand operand') (hc : c.Terminated)
    (hsize : c.kinds.length ≤ size) (hbound : c.kinds.length ≤ bound)
    (hbound' : c.kinds.length ≤ bound') (hleft : left.erase = left'.erase) :
    Replays (Alike Expr.erase) 0 (Parse.operatorsBehind operand level bound left)
      (Parse.operatorsBehind operand' level bound' left') c := by
  induction bound generalizing c bound' left left' with
  | zero => exact absurd hbound c.not_length_le_zero
  | succ bound ih =>
      obtain ⟨bound', rfl⟩ := Cursor.exists_eq_succ hbound'
      rw [Parse.operatorsBehind, Parse.operatorsBehind]
      apply reading
      cases hop : binaryOp? c.kind with
      | none => exact .pure rfl hleft
      | some op =>
          dsimp only
          split
          · have hkind : c.kind ≠ .eof := by simp [BinaryOp.eq_token_of_binaryOp? hop]
            refine (bind (advance hc hkind) fun _ _ ks d _ hpass hleast => ?_).weaken
            have hlength := hpass.length
            have hd := hpass.terminated hc
            refine bind (hoperand d hd (by omega)).weaken
              fun right right' ks₁ d₁ hright hpass₁ _ => ?_
            have hlength₁ := hpass₁.length
            refine ih (hpass₁.terminated hd) (by omega) (by omega) (by omega) ?_
            rw [Expr.erase, Expr.erase, hleft, hright]
          · exact .pure rfl hleft

theorem binary (hoperand : ReplaysWithin (size + 1) (Alike Expr.erase) 1 operand operand')
    (hbound : size ≤ bound) (hbound' : size ≤ bound') (level : Nat) :
    ReplaysWithin (size + 1) (Alike Expr.erase) 1 (Parse.binary operand bound level)
      (Parse.binary operand' bound' level) := by
  induction level with
  | zero => exact hoperand
  | succ level ih =>
      intro c hc hsize
      refine bind (ih c hc hsize) fun left left' ks d hleft hpass hleast => ?_
      have hlength := hpass.length
      have hshorter : ∀ {n}, size ≤ n → d.kinds.length ≤ n := by omega
      exact operatorsBehind (fun c hc hsize' => ih c hc (by omega)) (hpass.terminated hc)
        (hshorter (Nat.le_refl size)) (hshorter hbound) (hshorter hbound') hleft

theorem unary (hoperand : ReplaysWithin size (Alike Expr.erase) 1 operand operand')
    (hc : c.Terminated) (hsize : c.kinds.length ≤ size) (hbound : c.kinds.length ≤ bound + 1)
    (hbound' : c.kinds.length ≤ bound' + 1) :
    Replays (Alike Expr.erase) 1 (Parse.unary operand bound) (Parse.unary operand' bound') c := by
  induction bound generalizing c bound' with
  | zero =>
      have hkind : c.kind = .eof := hc.kind_eq_eof (Cursor.after_eq_nil hbound)
      refine (hoperand c hc hsize).congr rfl fun c' hkind' => ?_
      cases bound' with
      | zero => rfl
      | succ bound' =>
          rw [Parse.unary, bind_of_eq_ok (kind_run c'), hkind', hkind]
          rfl
  | succ bound ih =>
      cases hop : unaryOp? c.kind with
      | none =>
          refine (hoperand c hc hsize).congr ?_ fun c' hkind' => ?_
          · rw [Parse.unary, bind_of_eq_ok (kind_run c), hop]
          · cases bound' with
            | zero => rfl
            | succ bound' => rw [Parse.unary, bind_of_eq_ok (kind_run c'), hkind', hop]
      | some op =>
          have hkind : c.kind ≠ .eof := by simp [UnaryOp.eq_token_of_unaryOp? hop]
          have hlength := (Cursor.passes_advance hc hkind).length
          rw [List.length_singleton] at hlength
          obtain ⟨bound', rfl⟩ :=
            Cursor.exists_eq_succ (show c.advance.kinds.length ≤ bound' by omega)
          rw [Parse.unary, Parse.unary]
          apply reading
          rw [hop]
          refine bind (advance hc hkind) fun _ _ ks d _ hpass hleast => ?_
          have hlength := hpass.length
          refine bind (ih (hpass.terminated hc) (by omega) (by omega) (by omega)).weaken ?_
          intro inner inner' _ _ hinner _ _
          exact .pure rfl (by rw [Alike, Expr.erase, Expr.erase, hinner])

theorem sliceTerm (hoperand : ReplaysWithin size (Alike Expr.erase) 1 operand operand') :
    ReplaysWithin size (Alike SliceTerm.erase) 1 (Parse.sliceTerm operand)
      (Parse.sliceTerm operand') := by
  intro c hc hsize
  refine bind (hoperand c hc hsize) fun high high' ks d hhigh hpass _ => ?_
  have hlength := hpass.length
  have hd := hpass.terminated hc
  refine eating hd (fun _ hpass₁ => ?_) fun _ => .pure rfl ?_
  · have hlength₁ := hpass₁.length
    refine bind (hoperand _ (hpass₁.terminated hd) (by omega)).weaken ?_
    intro low low' _ _ hlow _ _
    exact .pure rfl (by rw [Alike, SliceTerm.erase, SliceTerm.erase, hhigh, hlow])
  · rw [Alike, SliceTerm.erase, SliceTerm.erase, hhigh]

theorem sliceTerms {delimiter : Char} {closing : FixedToken}
    (hoperand : ReplaysWithin size (Alike Expr.erase) 1 operand operand') (hc : c.Terminated)
    (hkind : c.kind ≠ .eof) (hsize : c.kinds.length ≤ size) (hbound : size ≤ bound)
    (hbound' : size ≤ bound') :
    Replays (Alike (List.map SliceTerm.erase)) 1
      (Parse.sliceTerms operand bound delimiter closing)
      (Parse.sliceTerms operand' bound' delimiter closing) c := by
  refine bind (advance hc hkind) fun _ _ ks d _ hpass _ => ?_
  have hlength := hpass.length
  have hd := hpass.terminated hc
  refine bind (commaSeparated (sliceTerm hoperand) hd (by omega) hbound hbound').weaken ?_
  intro terms terms' ks₁ d₁ hterms hpass₁ _
  refine bind (close (hpass₁.terminated hd)).weaken fun _ _ _ _ _ _ _ => ?_
  exact .pure rfl hterms

theorem suffixes {base base' : Expr Span} {big big' : Nat}
    (hoperand : ReplaysWithin size (Alike Expr.erase) 1 operand operand') (hc : c.Terminated)
    (hsize : c.kinds.length ≤ size) (hbig : size ≤ big) (hbig' : size ≤ big')
    (hbound : c.kinds.length ≤ bound) (hbound' : c.kinds.length ≤ bound')
    (hbase : base.erase = base'.erase) :
    Replays (Alike Expr.erase) 0 (Parse.suffixes operand big bound base)
      (Parse.suffixes operand' big' bound' base') c := by
  induction bound generalizing c bound' base base' with
  | zero => exact absurd hbound c.not_length_le_zero
  | succ bound ih =>
      obtain ⟨bound', rfl⟩ := Cursor.exists_eq_succ hbound'
      rw [Parse.suffixes, Parse.suffixes]
      apply reading
      have hend : Replays (Alike Expr.erase) 0 (Pure.pure base) (Pure.pure base') c :=
        .pure rfl hbase
      have hslice : ∀ (delimiter : Char) (closing : FixedToken)
          (form : Span → Expr Span → List (SliceTerm (Expr Span)) → Expr Span),
          (∀ span span' terms terms', Alike (List.map SliceTerm.erase) terms terms' →
            (form span base terms).erase = (form span' base' terms').erase) →
          c.kind ≠ .eof → Replays (Alike Expr.erase) 0
            (do
              let terms ← Parse.sliceTerms operand big delimiter closing
              Parse.suffixes operand big bound (form (← Parse.spanFrom base.info) base terms))
            (do
              let terms ← Parse.sliceTerms operand' big' delimiter closing
              Parse.suffixes operand' big' bound'
                (form (← Parse.spanFrom base'.info) base' terms)) c := by
        intro delimiter closing form hform hkind
        refine (bind (sliceTerms hoperand hc hkind hsize hbig hbig') ?_).weaken
        intro terms terms' ks d hterms hpass hleast
        have hlength := hpass.length
        refine reading_spanFrom fun span span' => ?_
        exact ih (hpass.terminated hc) (by omega) (by omega) (by omega) (hform _ _ _ _ hterms)
      generalize hkind : c.kind = kind
      cases kind with
      | fixed word =>
          cases word with
          | openAngle =>
              refine hslice _ _ (fun span base terms => .slice span base terms) ?_ ?_
              · intro _ _ _ _ hterms
                rw [Expr.erase, Expr.erase, Expr.eraseTerms_eq_map, Expr.eraseTerms_eq_map, hbase,
                  hterms]
              · simp [hkind]
          | openBracket =>
              refine hslice _ _ (fun span base terms => .index span base terms) ?_ ?_
              · intro _ _ _ _ hterms
                rw [Expr.erase, Expr.erase, Expr.eraseTerms_eq_map, Expr.eraseTerms_eq_map, hbase,
                  hterms]
              · simp [hkind]
          | dot =>
              have hne : c.kind ≠ .eof := by simp [hkind]
              refine (bind (advance hc hne) fun _ _ ks d _ hpass hleast => ?_).weaken
              have hlength := hpass.length
              have hd := hpass.terminated hc
              refine bind (expectName hd).weaken fun field field' ks₁ d₁ hfield hpass₁ _ => ?_
              have hlength₁ := hpass₁.length
              refine reading_spanFrom fun span span' => ?_
              refine ih (hpass₁.terminated hd) (by omega) (by omega) (by omega) ?_
              have hsame : field = field' := hfield
              rw [Expr.erase, Expr.erase, hbase, hsame]
          | _ => exact hend
      | _ => exact hend

end Operators

/-! ### Forms -/

/-- The token behind the first one is the same too, if the step consumes anything. -/
theorem reading_next {next next' : TokenKind → Parse γ}
    (h : Replays same' 1 (next c.nextKind) (next' c.nextKind) c) :
    Replays same' 1 (Parse.nextKind >>= next) (Parse.nextKind >>= next') c := by
  intro x e hrun
  rw [bind_of_eq_ok (nextKind_run c)] at hrun
  obtain ⟨hself, ks, hpass, hleast, hreplay⟩ := h x e hrun
  refine ⟨hself, ks, hpass, hleast, fun c' rest hc' hkinds => ?_⟩
  have hnext : c'.nextKind = c.nextKind := by
    have hc := hpass.kinds_eq
    rw [e.kinds_eq] at hc
    match ks, hleast with
    | [_], _ => rw [nextKind_of_kinds hkinds, nextKind_of_kinds hc]
    | _ :: _ :: _, _ => rw [nextKind_of_kinds hkinds, nextKind_of_kinds hc]
  rw [bind_of_eq_ok (nextKind_run c'), hnext]
  exact hreplay c' rest hc' hkinds

section Forms

variable {expr expr' : Parse (Expr Span)} {type type' : Parse (TypeExpr Span)}
  {bound bound' : Nat}

theorem tupleItem (hexpr : ReplaysWithin size (Alike Expr.erase) 1 expr expr') :
    ReplaysWithin size (Alike Expr.erase) 1 (Parse.tupleItem expr) (Parse.tupleItem expr') := by
  intro c hc hsize
  refine reading_next (reading_isAt ?_)
  split
  · next hblank =>
      have hkind : c.kind ≠ .eof := by
        simp only [Bool.and_eq_true, decide_eq_true_eq] at hblank
        rw [hblank.1]
        nofun
      exact bind (advance hc hkind) fun _ _ _ _ _ _ _ => .pure rfl rfl
  · exact hexpr c hc hsize

theorem typedPrimary (htype : ReplaysWithin size (Alike TypeExpr.erase) 1 type type')
    (hc : c.Terminated) (hsize : c.kinds.length ≤ size) :
    Replays SameForm 1 (Parse.typedPrimary type) (Parse.typedPrimary type') c := by
  refine bind (htype c hc hsize) fun t t' ks d ht hpass _ => ?_
  have hd := hpass.terminated hc
  have hunknown : (Expr.unknown () (some t.erase)) = .unknown () (some t'.erase) := by rw [ht]
  refine eating hd (fun _ _ => .pure (fun _ _ => rfl) fun _ _ => hunknown) fun _ => ?_
  refine bind (expectName hd).weaken fun id id' _ _ hid _ _ => .pure (fun _ _ => rfl) ?_
  intro span span'
  have hsame : id = id' := hid
  rw [Expr.erase, Expr.erase, ht, hsame]

theorem tokenForm {form : Span → Expr Span} (hc : c.Terminated) (hkind : c.kind ≠ .eof)
    (hform : SameForm form form) :
    Replays SameForm 1 (do let _ ← Parse.advance; return form)
      (do let _ ← Parse.advance; return form) c :=
  bind (advance hc hkind) fun _ _ _ _ _ _ _ => .pure hform hform

theorem closed {start start' : Span} {form form' : Span → Expr Span} (hc : c.Terminated)
    (hself : SameForm form form) (hform : SameForm form form') :
    Replays SameForm 0 (do Parse.close start '(' .closeParen; return form)
      (do Parse.close start' '(' .closeParen; return form') c :=
  bind (close hc).weaken fun _ _ _ _ _ _ _ => .pure hself hform

variable {start start' : Span}

theorem callForm {callee : String} (hexpr : ReplaysWithin size (Alike Expr.erase) 1 expr expr')
    (hc : c.Terminated) (hkind : c.kind ≠ .eof) (hsize : c.kinds.length ≤ size + 1)
    (hbound : size ≤ bound) (hbound' : size ≤ bound') :
    Replays SameForm 1
      (do
        let _ ← Parse.advance
        let args ← if ← Parse.isAt .closeParen then Pure.pure [] else
          Parse.commaSeparated expr bound
        Parse.close start '(' .closeParen
        return (.call · callee args))
      (do
        let _ ← Parse.advance
        let args ← if ← Parse.isAt .closeParen then Pure.pure [] else
          Parse.commaSeparated expr' bound'
        Parse.close start' '(' .closeParen
        return (.call · callee args)) c := by
  refine bind (advance hc hkind) fun _ _ ks d _ hpass hleast => ?_
  have hlength := hpass.length
  have hd := hpass.terminated hc
  refine reading_isAt ?_
  split
  · exact closed hd (fun _ _ => rfl) fun _ _ => rfl
  · refine bind (commaSeparated hexpr hd (by omega) hbound hbound').weaken ?_
    intro args args' _ _ hargs hpass₁ _
    refine closed (hpass₁.terminated hd) (fun _ _ => rfl) fun _ _ => ?_
    rw [Expr.erase, Expr.erase, Expr.eraseAll_eq_map, Expr.eraseAll_eq_map, hargs]

theorem tupleForm (hexpr : ReplaysWithin size (Alike Expr.erase) 1 expr expr')
    (hc : c.Terminated) (hkind : c.kind ≠ .eof) (hsize : c.kinds.length ≤ size + 1)
    (hbound : size ≤ bound) (hbound' : size ≤ bound') :
    Replays SameForm 1
      (do
        let _ ← Parse.advance
        let items ← Parse.commaSeparated (Parse.tupleItem expr) bound
        Parse.close start '(' .closeParen
        return (.tuple · items))
      (do
        let _ ← Parse.advance
        let items ← Parse.commaSeparated (Parse.tupleItem expr') bound'
        Parse.close start' '(' .closeParen
        return (.tuple · items)) c := by
  refine bind (advance hc hkind) fun _ _ ks d _ hpass hleast => ?_
  have hlength := hpass.length
  have hd := hpass.terminated hc
  refine bind (commaSeparated (tupleItem hexpr) hd (by omega) hbound hbound').weaken ?_
  intro items items' _ _ hitems hpass₁ _
  refine closed (hpass₁.terminated hd) (fun _ _ => rfl) fun _ _ => ?_
  rw [Expr.erase, Expr.erase, Expr.eraseAll_eq_map, Expr.eraseAll_eq_map, hitems]

theorem conditionalForm (hexpr : ReplaysWithin size (Alike Expr.erase) 1 expr expr')
    (hc : c.Terminated) (hkind : c.kind ≠ .eof) (hsize : c.kinds.length ≤ size + 1) :
    Replays SameForm 1
      (do
        let _ ← Parse.advance
        let test ← expr
        let _ ← Parse.expect .kwThen
        let yes ← expr
        let _ ← Parse.expect .kwElse
        let no ← expr
        return (.conditional · test yes no))
      (do
        let _ ← Parse.advance
        let test ← expr'
        let _ ← Parse.expect .kwThen
        let yes ← expr'
        let _ ← Parse.expect .kwElse
        let no ← expr'
        return (.conditional · test yes no)) c := by
  refine bind (advance hc hkind) fun _ _ ks d _ hpass hleast => ?_
  have hlength := hpass.length
  have hd := hpass.terminated hc
  refine bind (hexpr d hd (by omega)).weaken fun test test' _ d₁ htest hpass₁ _ => ?_
  have hlength₁ := hpass₁.length
  have hd₁ := hpass₁.terminated hd
  refine bind (expect hd₁).weaken fun _ _ _ d₂ _ hpass₂ _ => ?_
  have hlength₂ := hpass₂.length
  have hd₂ := hpass₂.terminated hd₁
  refine bind (hexpr d₂ hd₂ (by omega)).weaken fun yes yes' _ d₃ hyes hpass₃ _ => ?_
  have hlength₃ := hpass₃.length
  have hd₃ := hpass₃.terminated hd₂
  refine bind (expect hd₃).weaken fun _ _ _ d₄ _ hpass₄ _ => ?_
  have hlength₄ := hpass₄.length
  refine bind (hexpr d₄ (hpass₄.terminated hd₃) (by omega)).weaken ?_
  intro no no' _ _ hno _ _
  refine .pure (fun _ _ => rfl) fun _ _ => ?_
  rw [Expr.erase, Expr.erase, htest, hyes, hno]

theorem nameForm {id : String} (inPattern : Bool) (hc : c.Terminated) (hkind : c.kind = .name id) :
    Replays SameForm 1 (Parse.primaryForm inPattern bound expr type)
      (Parse.primaryForm inPattern bound' expr' type') c := by
  have hne : c.kind ≠ .eof := by
    rw [hkind]
    nofun
  rw [Parse.primaryForm, Parse.primaryForm]
  refine reading_span fun _ _ => reading ?_
  rw [hkind]
  refine bind (advance hc hne) fun _ _ ks d _ hpass _ => reading ?_
  have hname : Replays SameForm 0 (Pure.pure (Expr.name · id)) (Pure.pure (Expr.name · id)) d :=
    .pure (fun _ _ => rfl) fun _ _ => rfl
  cases hnext : d.kind with
  | name var =>
      cases inPattern with
      | true => exact hname
      | false =>
          have hd : d.kind ≠ .eof := by
            rw [hnext]
            nofun
          exact (tokenForm (hpass.terminated hc) hd fun _ _ => rfl).weaken
  | _ => exact hname

theorem primaryForm (inPattern : Bool)
    (hexpr : ReplaysWithin size (Alike Expr.erase) 1 expr expr')
    (htype : ReplaysWithin (size + 1) (Alike TypeExpr.erase) 1 type type') (hc : c.Terminated)
    (hsize : c.kinds.length ≤ size + 1) (hbound : size ≤ bound) (hbound' : size ≤ bound') :
    Replays SameForm 1 (Parse.primaryForm inPattern bound expr type)
      (Parse.primaryForm inPattern bound' expr' type') c := by
  have hne : ∀ kind, c.kind = kind → kind ≠ .eof → c.kind ≠ .eof := by
    rintro kind rfl
    exact id
  cases hkind : c.kind with
  | name id => exact nameForm inPattern hc hkind
  | int | real | bitString | error =>
      rw [Parse.primaryForm, Parse.primaryForm]
      refine reading_span fun _ _ => reading ?_
      rw [hkind]
      exact tokenForm hc (hne _ hkind (by simp)) fun _ _ => rfl
  | call callee =>
      rw [Parse.primaryForm, Parse.primaryForm]
      refine reading_span fun _ _ => reading ?_
      rw [hkind]
      exact callForm hexpr hc (hne _ hkind (by simp)) hsize hbound hbound'
  | fixed word =>
      rw [Parse.primaryForm, Parse.primaryForm]
      refine reading_span fun _ _ => reading ?_
      rw [hkind]
      cases word with
      | openParen =>
          refine reading_next ?_
          split
          · exact typedPrimary htype hc hsize
          · exact tupleForm hexpr hc (hne _ hkind (by simp)) hsize hbound hbound'
      | kwBits | kwBit | kwInteger | kwBoolean => exact typedPrimary htype hc hsize
      | kwUnknown => exact tokenForm hc (hne _ hkind (by simp)) fun _ _ => rfl
      | kwIf => exact conditionalForm hexpr hc (hne _ hkind (by simp)) hsize
      | _ => exact of_fails fun _ _ hrun => by cases hrun
  | _ =>
      refine of_fails fun b d hrun => ?_
      rw [Parse.primaryForm, bind_of_eq_ok (span_run c), bind_of_eq_ok (kind_run c), hkind] at hrun
      cases hrun

theorem primary (inPattern : Bool)
    (hexpr : ReplaysWithin size (Alike Expr.erase) 1 expr expr')
    (htype : ReplaysWithin (size + 1) (Alike TypeExpr.erase) 1 type type') (hbound : size ≤ bound)
    (hbound' : size ≤ bound') :
    ReplaysWithin (size + 1) (Alike Expr.erase) 1 (Parse.primary inPattern bound expr type)
      (Parse.primary inPattern bound' expr' type') := by
  intro c hc hsize
  refine reading_span fun _ _ => ?_
  refine bind (primaryForm inPattern hexpr htype hc hsize hbound hbound') ?_
  intro form form' _ _ hform _ _
  exact reading_spanFrom fun span span' => .pure rfl (hform span span')

theorem typeForm (hexpr : ReplaysWithin size (Alike Expr.erase) 1 expr expr')
    (htype : ReplaysWithin size (Alike TypeExpr.erase) 1 type type') (hbound : size ≤ bound)
    (hbound' : size ≤ bound') :
    ReplaysWithin (size + 1) (Alike TypeExpr.erase) 1 (Parse.typeForm bound expr type)
      (Parse.typeForm bound' expr' type') := by
  intro c hc hsize
  have hne : ∀ kind, c.kind = kind → kind ≠ .eof → c.kind ≠ .eof := by
    rintro kind rfl
    exact id
  have hword : ∀ t : TypeExpr Span, c.kind ≠ .eof → Replays (Alike TypeExpr.erase) 1
      (do let _ ← Parse.advance; return t) (do let _ ← Parse.advance; return t) c :=
    fun t hkind => bind (advance hc hkind) fun _ _ _ _ _ _ _ => .pure rfl rfl
  rw [Parse.typeForm, Parse.typeForm]
  refine reading_span fun _ _ => reading ?_
  cases hkind : c.kind with
  | name id => exact hword _ (hne _ hkind (by simp))
  | fixed word =>
      cases word with
      | kwBit | kwInteger | kwBoolean => exact hword _ (hne _ hkind (by simp))
      | kwBits =>
          refine bind (advance hc (hne _ hkind (by simp))) fun _ _ ks d _ hpass hleast => ?_
          have hlength := hpass.length
          have hd := hpass.terminated hc
          refine bind (hexpr d hd (by omega)).weaken fun width width' _ _ hwidth hpass₁ _ => ?_
          refine bind (close (hpass₁.terminated hd)).weaken fun _ _ _ _ _ _ _ => .pure rfl ?_
          rw [Alike, TypeExpr.erase, TypeExpr.erase, hwidth]
      | openParen =>
          refine bind (advance hc (hne _ hkind (by simp))) fun _ _ ks d _ hpass hleast => ?_
          have hlength := hpass.length
          have hd := hpass.terminated hc
          refine bind (commaSeparated htype hd (by omega) hbound hbound').weaken ?_
          intro items items' _ _ hitems hpass₁ _
          refine bind (close (hpass₁.terminated hd)).weaken fun _ _ _ _ _ _ _ => .pure rfl ?_
          rw [Alike, TypeExpr.erase, TypeExpr.erase, TypeExpr.eraseAll_eq_map,
            TypeExpr.eraseAll_eq_map, hitems]
      | _ => exact of_fails fun _ _ hrun => by cases hrun
  | _ => exact of_fails fun _ _ hrun => by cases hrun

end Forms

end Replays

/-! ### Expressions -/

theorem exprAt_typeAt_replays (inPattern : Bool) (size bound bound' : Nat) (hbound : size ≤ bound)
    (hbound' : size ≤ bound') :
    (∀ level, ReplaysWithin size (Alike Expr.erase) 1 (exprAt inPattern bound level)
        (exprAt inPattern bound' level)) ∧
      ReplaysWithin size (Alike TypeExpr.erase) 1 (typeAt inPattern bound)
        (typeAt inPattern bound') := by
  induction size generalizing bound bound' with
  | zero =>
      exact ⟨fun level c _ hsize => absurd hsize c.not_length_le_zero,
        fun c _ hsize => absurd hsize c.not_length_le_zero⟩
  | succ size ih =>
      obtain ⟨bound, rfl⟩ : ∃ fewer, bound = fewer + 1 := ⟨bound - 1, by omega⟩
      obtain ⟨bound', rfl⟩ : ∃ fewer, bound' = fewer + 1 := ⟨bound' - 1, by omega⟩
      have hbound := Nat.le_of_succ_le_succ hbound
      have hbound' := Nat.le_of_succ_le_succ hbound'
      obtain ⟨hexpr, htype⟩ := ih bound bound' hbound hbound'
      have hform := Replays.typeForm (hexpr BinaryOp.loosest) htype hbound hbound'
      refine ⟨fun level => ?_, hform⟩
      rw [exprAt, exprAt]
      refine Replays.binary (fun c hc hsize => ?_) hbound hbound' level
      refine Replays.unary (fun c hc (hsize : c.kinds.length ≤ size + 1) => ?_) hc hsize
        (by omega) (by omega)
      refine Replays.bind
        (Replays.primary inPattern (hexpr BinaryOp.loosest) hform hbound hbound' c hc hsize) ?_
      intro base base' ks d hbase hpass hleast
      have hlength := hpass.length
      exact Replays.suffixes (hexpr BinaryOp.boundLevel) (hpass.terminated hc) (by omega) hbound
        hbound' (by omega) (by omega) hbase

/-! ### Wherever the tokens stand -/

/-- A step with a bound on the nesting, which decides nothing if it is met. -/
def Steady {δ : Type} (step : Nat → Parse β) (view : β → δ) : Prop :=
  ∀ size bound bound', size ≤ bound → size ≤ bound' →
    ReplaysWithin size (Alike view) 0 (step bound) (step bound')

theorem steady_expr : Steady expr Expr.erase := fun size bound bound' hbound hbound' c hc hsize =>
  ((exprAt_typeAt_replays false size bound bound' hbound hbound').1 _ c hc hsize).weaken

theorem steady_exprs :
    Steady (fun bound => commaSeparated (expr bound) bound) (List.map Expr.erase) :=
  fun size bound bound' hbound hbound' _ hc hsize =>
    .commaSeparated (steady_expr size bound bound' hbound hbound') hc hsize hbound hbound'

theorem steady_patterns : Steady patterns (List.map Expr.erase) :=
  fun size bound bound' hbound hbound' _ hc hsize =>
    (Replays.commaSeparated ((exprAt_typeAt_replays true size bound bound' hbound hbound').1 _) hc
      hsize hbound hbound').weaken

/-- The tokens are read as `b` wherever they stand in front of `k`. -/
def ReadAs {δ : Type} (step : Nat → Parse β) (view : β → δ) (tokens : List TokenKind)
    (k : TokenKind) (b : δ) : Prop :=
  ∀ bound c rest, c.Terminated → c.kinds = tokens ++ k :: rest → c.kinds.length ≤ bound →
    ∃ b' d, step bound c = .ok b' d ∧ view b' = b ∧ c.Passes tokens d

/-- What is read back in front of some tokens, and read without losing a token, stands before
them. -/
theorem readAs_of_accepts {δ : Type} {step : Nat → Parse β} {view : β → δ}
    {spell : β → List TokenKind} {Good : β → Prop} {Follow : TokenKind → Prop}
    {tokens : List TokenKind} {k : TokenKind} {x : δ}
    (haccepts : ∀ bound, Accepts (step bound) view bound Follow tokens x)
    (hreads : ∀ bound, Reads (step bound) spell Good)
    (hspell : ∀ b, view b = x → spell b = tokens) (hk : Follow k) :
    ReadAs step view tokens k x := by
  intro bound c rest hc hkinds hbound
  obtain ⟨b, d, hrun, hview, -⟩ := haccepts bound c k rest hkinds hk hbound
  obtain ⟨hpass, -⟩ := hreads bound c b d hc hrun
  rw [hspell b hview] at hpass
  exact ⟨b, d, hrun, hview, hpass⟩

theorem exists_cursor {ks : List TokenKind} (hlast : ks.getLast? = some .eof) :
    ∃ c : Cursor, c.Terminated ∧ c.kinds = ks := by
  cases ks with
  | nil => nomatch hlast
  | cons k ks =>
      have hkinds : Cursor.kinds ⟨[], ⟨k, .none⟩, ks.map (⟨·, .none⟩)⟩ = k :: ks := by
        rw [Cursor.kinds, Cursor.remaining, List.map_cons, List.map_map]
        exact congrArg (k :: ·) (List.map_id ks)
      exact ⟨_, by rw [Cursor.Terminated, hkinds, hlast], hkinds⟩

/-- What has been read once is read wherever it stands. -/
theorem Steady.readAs {δ : Type} {step : Nat → Parse β} {view : β → δ} (hstep : Steady step view)
    {bound : Nat} {b : β} {d : Cursor} (hc : c.Terminated) (hbound : c.kinds.length ≤ bound)
    (hrun : step bound c = .ok b d) :
    ∃ ks, c.Passes ks d ∧ ReadAs step view ks d.kind (view b) := by
  obtain ⟨-, ks, hpass, -, -⟩ := hstep _ bound bound hbound hbound c hc (Nat.le_refl _) b d hrun
  refine ⟨ks, hpass, fun bound' c' rest hc' hkinds hbound' => ?_⟩
  obtain ⟨tail, htail, hlast⟩ : ∃ tail, tail.length ≤ rest.length ∧
      (ks ++ d.kind :: tail).getLast? = some .eof := by
    cases rest with
    | nil => exact ⟨[], Nat.le_refl 0, by rw [← hkinds, hc']⟩
    | cons k rest => exact ⟨[.eof], by simp, by simp⟩
  obtain ⟨c₁, hc₁, hkinds₁⟩ := exists_cursor hlast
  obtain ⟨-, ks₁, hpass₁, -, hreplay₁⟩ :=
    hstep c.kinds.length bound (max bound c₁.kinds.length) hbound (by omega) c hc
      (Nat.le_refl _) b d hrun
  have hks₁ : ks₁ = ks := List.append_cancel_right (hpass₁.kinds_eq.symm.trans hpass.kinds_eq)
  rw [hks₁] at hreplay₁
  obtain ⟨b₁, d₁, hrun₁, hb₁, hpass₁⟩ := hreplay₁ c₁ tail hc₁ hkinds₁
  have hkind₁ : d₁.kinds = d.kind :: tail :=
    List.append_cancel_left (hpass₁.kinds_eq.symm.trans hkinds₁)
  have hshort : c₁.kinds.length ≤ bound' := by
    rw [hkinds₁]
    rw [hkinds] at hbound'
    simp only [List.length_append, List.length_cons] at hbound' ⊢
    omega
  obtain ⟨-, ks₂, hpass₂, -, hreplay₂⟩ :=
    hstep c₁.kinds.length (max bound c₁.kinds.length) bound' (by omega) hshort c₁ hc₁
      (Nat.le_refl _) b₁ d₁ hrun₁
  have hks₂ : ks₂ = ks := List.append_cancel_right (hpass₂.kinds_eq.symm.trans hpass₁.kinds_eq)
  rw [hks₂, Cursor.kind_eq_of_kinds hkind₁] at hreplay₂
  obtain ⟨b₂, d₂, hrun₂, hb₂, hpass₂⟩ := hreplay₂ c' rest hc' hkinds
  exact ⟨b₂, d₂, hrun₂, (hb₁.trans hb₂).symm, hpass₂⟩

end ArmPseudocode.Parse

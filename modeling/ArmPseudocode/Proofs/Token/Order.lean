import ArmPseudocode.Proofs.Token.Cover

/-!
# Tokens in order

However long a text is, no token begins before the one in front of it ends, and all of them lie in
the text. Cutting offsets at the largest one keeps that; only in a text whose offsets are all below
it are the spans of the tokens those of their bytes.
-/

namespace ArmPseudocode

namespace Lexeme

variable {offset : Nat} {ps : List Piece} {l : Lexeme} {t : Token}

theorem span_of_token? (h : l.token? = some t) : t.span = l.span := by
  obtain ⟨reading, span⟩ := l
  cases reading <;> cases h <;> rfl

theorem bounds_of_mem_locate (h : l ∈ locate offset ps) :
    l.span.start ≤ l.span.stop ∧
      l.span.stop ≤ min (offset + byteLength (joined ps)) Span.maxOffset := by
  induction ps generalizing offset with
  | nil => nomatch h
  | cons piece ps ih =>
      rw [joined_cons, byteLength_append]
      obtain rfl | h := List.mem_cons.mp h
      · dsimp only [Span.ofRange]
        omega
      · have := ih h
        omega

theorem locate_ascending (offset : Nat) (ps : List Piece) :
    (locate offset ps).Pairwise fun l l' => l.span.stop ≤ l'.span.start := by
  induction ps generalizing offset with
  | nil => exact .nil
  | cons piece ps ih => exact .cons (fun _ => le_start_of_mem_locate) (ih _)

end Lexeme

namespace TokenStream

/-- The spans of tokens lie one behind the other in the first bytes of a text. -/
structure InOrder (size : Nat) (ts : List Token) : Prop where
  bounds : ∀ t ∈ ts, t.span.start ≤ t.span.stop ∧ t.span.stop ≤ size
  ascending : ts.Pairwise fun t t' => t.span.stop ≤ t'.span.start

namespace InOrder

variable {size : Nat} {ts ts' : List Token}

theorem sublist (h : InOrder size ts') (hsub : ts.Sublist ts') : InOrder size ts :=
  ⟨fun t ht => h.bounds t (hsub.mem ht), h.ascending.sublist hsub⟩

theorem concat (h : InOrder size ts) (kind : TokenKind) :
    InOrder size (ts ++ [⟨kind, .point size⟩]) where
  bounds := List.forall_mem_append.mpr
    ⟨h.bounds, List.forall_mem_singleton.mpr ⟨Nat.le_refl _, Nat.le_refl _⟩⟩
  ascending := List.pairwise_append.mpr ⟨h.ascending, List.pairwise_singleton _ _,
    fun t ht _ hend => List.mem_singleton.mp hend ▸ (h.bounds t ht).2⟩

theorem starts (h : InOrder size ts) :
    ts.Pairwise fun t t' => t.span.start ≤ t'.span.start :=
  h.ascending.imp_of_mem fun ht _ hle => Nat.le_trans (h.bounds _ ht).1 hle

end InOrder

theorem inOrder_locate (ps : List Piece) :
    InOrder (min (Lexeme.byteLength (Lexeme.joined ps)) Span.maxOffset)
      ((Lexeme.locate 0 ps).filterMap Lexeme.token?) where
  bounds t ht := by
    obtain ⟨l, hl, htoken⟩ := List.mem_filterMap.mp ht
    rw [Lexeme.span_of_token? htoken]
    have := Lexeme.bounds_of_mem_locate hl
    rwa [Nat.zero_add] at this
  ascending := by
    refine List.pairwise_filterMap.mpr ((Lexeme.locate_ascending 0 ps).imp ?_)
    intro l l' hle t ht t' ht'
    rwa [Lexeme.span_of_token? ht, Lexeme.span_of_token? ht']

/-- The tokens of a text are in order, its end included. -/
theorem inOrder_ofText (lines : LineTable) (config : DiagnosticConfig) (s : List Char) :
    InOrder (min (Lexeme.byteLength s) Span.maxOffset)
      (ofText lines (.empty config) s).1.toList := by
  obtain ⟨read, rest, hread, hcollected⟩ := collected_ofText lines config s
  have hall := inOrder_locate (Lexeme.pieces s)
  rw [← Lexeme.ofText_eq_locate, hread, List.filterMap_append, Lexeme.joined_pieces] at hall
  have htokens := hall.sublist (List.sublist_append_left _ _)
  rw [← hcollected.tokens_eq] at htokens
  exact htokens.concat .eof

end TokenStream

end ArmPseudocode

import ArmPseudocode.Proofs.Parser.Completeness

/-!
# Statements one behind the other

A program ends with a token that ends a statement, and no rule of the grammar looks further than one
token behind what it spells, so two programs can stand one behind the other.
-/

namespace ArmPseudocode

open ParseStmt (beginsStmt endsArm spells_eq_cons EndsBranch endsBranch_of_beginsStmt)

def TokenKind.endsStmt (kind : TokenKind) : Bool :=
  kind = .fixed .semicolon || kind = .fixed .closeBrace || kind = .unindent

/-- If there is a last token, it ends a statement. -/
def Ended (ks : List TokenKind) : Prop :=
  ∀ k, ks.getLast? = some k → k.endsStmt = true

variable {ks ks' : List TokenKind} {k k' : TokenKind} {phrase : Phrase}

theorem ended_append_singleton (hk : k.endsStmt = true) : Ended (ks ++ [k]) := by
  intro k' hk'
  rw [List.getLast?_concat] at hk'
  cases hk'
  exact hk

theorem ended_singleton (hk : k.endsStmt = true) : Ended [k] := by
  intro k' hk'
  cases hk'
  exact hk

theorem Ended.append (hks' : Ended ks') (hks : ks' = [] → Ended ks) : Ended (ks ++ ks') := by
  intro k hk
  rw [List.getLast?_append] at hk
  cases hlast : ks'.getLast? with
  | none =>
      rw [hlast, Option.none_or] at hk
      exact hks (List.getLast?_eq_none_iff.mp hlast) k hk
  | some last =>
      rw [hlast, Option.some_or] at hk
      cases hk
      exact hks' k hlast

theorem Ended.append_of_ne_nil (hks' : Ended ks') (hne : ks' ≠ []) : Ended (ks ++ ks') :=
  hks'.append fun hnil => absurd hnil hne

theorem Ended.cons_of_ne_nil (hks : Ended ks) (hne : ks ≠ []) : Ended (k :: ks) := by
  rw [← List.singleton_append]
  exact hks.append_of_ne_nil hne

/-- The last phrase of a rule stands behind a word, and something in front of that. -/
theorem Ended.behind_word {front : List TokenKind} (hks : Ended ks) (hne : ks ≠ []) :
    Ended (front ++ k :: ks) :=
  (hks.cons_of_ne_nil hne).append_of_ne_nil (List.cons_ne_nil _ _)

namespace Spells

theorem stmt_ne_nil {s : Stmt Unit} (h : Spells ks k (.stmt s)) : ks ≠ [] := by
  obtain ⟨k₀, rest, rfl, -⟩ := spells_eq_cons h
  exact List.cons_ne_nil _ _

theorem arms_ne_nil {met otherwise : Option (Stmt Unit)}
    {arms : List (List (Expr Unit) × Stmt Unit)} (h : Spells ks k (.arms met arms otherwise)) :
    ks ≠ [] := by
  cases h <;> exact List.cons_ne_nil _ _

theorem ended_plain {s : Stmt Unit} (hs : s.Plain) : Ended s.tokens := by
  have hsemicolon : (TokenKind.fixed .semicolon).endsStmt = true := rfl
  cases hs with
  | assign =>
      rw [Stmt.tokens, ← List.cons_append, ← List.append_assoc]
      exact ended_append_singleton hsemicolon
  | expr | declaration => exact ended_append_singleton hsemicolon
  | giveBack =>
      rw [Stmt.tokens, ← List.cons_append]
      exact ended_append_singleton hsemicolon
  | undefined | unpredictable | prose =>
      exact (ended_singleton hsemicolon).cons_of_ne_nil (List.cons_ne_nil _ _)
  | assertion =>
      rw [Stmt.tokens, ← List.cons_append]
      exact ended_append_singleton hsemicolon
  | enumeration id values =>
      have hsplit : ∀ front : List TokenKind, front ++ [.fixed .closeBrace, .fixed .semicolon] =
        front ++ [.fixed .closeBrace] ++ [.fixed .semicolon] := by simp
      rw [Stmt.tokens, hsplit]
      simp only [← List.cons_append]
      exact ended_append_singleton hsemicolon

theorem ended (h : Spells ks k phrase) : Ended ks := by
  have hunindent : TokenKind.unindent.endsStmt = true := rfl
  induction h with
  | plain hs => exact ended_plain hs
  | enumeration =>
      simp only [← List.cons_append]
      exact ended_append_singleton rfl
  | branch _ hbody _ _ ihb ihe ihl =>
      have hbodies := (ihl.append fun _ => ihe).append fun _ => ihb
      rw [← List.cons_append]
      exact hbodies.behind_word (List.append_ne_nil_of_left_ne_nil hbody.stmt_ne_nil _)
  | repeatUntil =>
      simp only [← List.cons_append, ← List.append_assoc]
      exact ended_append_singleton rfl
  | whileDo _ hbody ih =>
      rw [← List.cons_append]
      exact ih.behind_word hbody.stmt_ne_nil
  | @forTo _ _ last _ _ _ _ _ hbody ih =>
      have hrest : Ended (last.tokens ++ .fixed .kwDo :: _) := ih.behind_word hbody.stmt_ne_nil
      simp only [← List.cons_append]
      exact hrest.behind_word (by simp)
  | caseOf _ harms ih =>
      rw [← List.cons_append]
      exact (ih.cons_of_ne_nil harms.arms_ne_nil).behind_word (List.cons_ne_nil _ _)
  | block | armBlock =>
      rw [← List.cons_append]
      exact ended_append_singleton hunindent
  | nil | noElsif | noLast => nofun
  | cons hs hss ih ih' => exact ih'.append fun _ => ih
  | elsif _ hbody _ ihb ihe =>
      rw [← List.cons_append]
      exact (ihe.append fun _ => ihb).behind_word
        (List.append_ne_nil_of_left_ne_nil hbody.stmt_ne_nil _)
  | lastBody hbody ih => exact ih.cons_of_ne_nil hbody.stmt_ne_nil
  | armList _ _ _ ih => exact ih
  | endOfCase => exact ended_singleton hunindent
  | arm _ _ harms _ ih =>
      rw [← List.append_assoc]
      exact (ih.append_of_ne_nil harms.arms_ne_nil).cons_of_ne_nil
        (List.append_ne_nil_of_right_ne_nil _ harms.arms_ne_nil)
  | lastArm _ harms _ ih =>
      exact (ih.append_of_ne_nil harms.arms_ne_nil).cons_of_ne_nil
        (List.append_ne_nil_of_right_ne_nil _ harms.arms_ne_nil)

/-! ### Prose -/

end Spells

/-- But for the ends of blocks, the last token is not prose. -/
def Settled (ks : List TokenKind) : Prop :=
  ∀ word about, (ks.filter (· ≠ .unindent)).getLast? ≠ some (.prose word about)

namespace Settled

theorem of_forall (h : ∀ k ∈ ks, ∀ word about, k ≠ .prose word about) : Settled ks :=
  fun word about hlast => h _ (List.mem_filter.mp (List.mem_of_getLast? hlast)).1 word about rfl

theorem nil : Settled [] := of_forall nofun

theorem append (h : Settled ks) (h' : Settled ks') : Settled (ks ++ ks') := by
  intro word about hlast
  rw [List.filter_append, List.getLast?_append, Option.or_eq_some_iff] at hlast
  obtain hlast | ⟨-, hlast⟩ := hlast
  · exact h' word about hlast
  · exact h word about hlast

theorem cons (hk : ∀ word about, k ≠ .prose word about) (h : Settled ks) : Settled (k :: ks) :=
  (of_forall fun _ hmem => List.mem_singleton.mp hmem ▸ hk : Settled [k]).append h

theorem of_insideExpr (h : ∀ k ∈ ks, k.insideExpr = true) : Settled ks := by
  refine of_forall fun k hk word about heq => ?_
  have hinside := h k hk
  rw [heq] at hinside
  nomatch hinside

theorem expr (e : Expr Unit) : Settled e.tokens := of_insideExpr e.insideExpr_of_mem_tokens

theorem exprs (es : List (Expr Unit)) : Settled (commas (es.map Expr.tokens)) :=
  of_insideExpr (Expr.insideExpr_of_mem_commas es)

theorem names (values : List String) :
    Settled (commas (values.map fun value => [.name value])) :=
  of_insideExpr (TokenKind.insideExpr_of_mem_names values)

theorem singleton (hk : ∀ word about, k ≠ .prose word about) : Settled [k] := nil.cons hk

end Settled

namespace Spells

theorem settled_plain {s : Stmt Unit} (hs : s.Plain) : Settled s.tokens := by
  cases hs with
  | assign =>
      exact (Settled.expr _).append
        (((Settled.expr _).append (.singleton (by nofun))).cons (by nofun))
  | expr | declaration => exact (Settled.expr _).append (.singleton (by nofun))
  | giveBack => exact ((Settled.exprs _).append (.singleton (by nofun))).cons (by nofun)
  | undefined | unpredictable => exact (Settled.singleton (by nofun)).cons (by nofun)
  | prose => exact fun _ _ => by nofun
  | assertion => exact ((Settled.expr _).append (.singleton (by nofun))).cons (by nofun)
  | enumeration =>
      exact (((Settled.names _).append ((Settled.singleton (by nofun)).cons (by nofun))).cons
        (by nofun)).cons (by nofun) |>.cons (by nofun)

/-- Prose is followed by more than the ends of blocks. -/
theorem settled (h : Spells ks k phrase) : Settled ks := by
  induction h with
  | plain hs => exact settled_plain hs
  | enumeration =>
      exact (((Settled.names _).append (.singleton (by nofun))).cons (by nofun)).cons (by nofun)
        |>.cons (by nofun)
  | branch _ _ _ _ ihb ihe ihl =>
      exact ((Settled.expr _).append
        ((ihb.append (ihe.append ihl)).cons (by nofun))).cons (by nofun)
  | repeatUntil _ _ ih =>
      exact (ih.append (((Settled.expr _).append (.singleton (by nofun))).cons (by nofun))).cons
        (by nofun)
  | whileDo _ _ ih => exact ((Settled.expr _).append (ih.cons (by nofun))).cons (by nofun)
  | @forTo _ _ last _ _ _ _ _ _ ih =>
      have hlast := (Settled.expr last).append (ih.cons (k := .fixed .kwDo) (by nofun))
      exact (((Settled.expr _).append (hlast.cons (by nofun))).cons (by nofun)).cons (by nofun)
        |>.cons (by nofun)
  | caseOf _ _ ih =>
      exact ((Settled.expr _).append ((ih.cons (by nofun)).cons (by nofun))).cons (by nofun)
  | block _ ih | armBlock _ ih => exact (ih.append (.singleton (by nofun))).cons (by nofun)
  | nil | noElsif | noLast => exact .nil
  | cons _ _ ih ih' => exact ih.append ih'
  | elsif _ _ _ ih ih' =>
      exact ((Settled.expr _).append ((ih.append ih').cons (by nofun))).cons (by nofun)
  | lastBody _ ih => exact ih.cons (by nofun)
  | armList _ _ _ ih => exact ih
  | endOfCase => exact .singleton (by nofun)
  | arm _ _ _ ih ih' => exact ((Settled.exprs _).append (ih.append ih')).cons (by nofun)
  | lastArm _ _ ih ih' => exact (ih.append ih').cons (by nofun)

/-- No prose stands in front of the markers at the end. -/
theorem not_prose_suffix (h : Spells ks k phrase) (word : ProseWord) (about : String) (n : Nat) :
    ¬.prose word about :: List.replicate n .unindent <:+ ks := by
  rintro ⟨front, rfl⟩
  refine h.settled word about ?_
  rw [List.filter_append, List.filter_cons_of_pos (by simp), List.filter_replicate_of_neg (by simp),
    List.getLast?_concat]

/-! ### What may follow -/

/-- The phrases that end where a statement ends. -/
def IsOpen : Phrase → Prop
  | .stmt _ | .elsifs _ | .last _ | .arms _ _ _ => True
  | .list _ | .armBody _ => False

theorem headD_eq_of_ne_nil (h : ks ≠ []) (k k' : TokenKind) : ks.headD k = ks.headD k' := by
  cases ks with
  | nil => exact absurd rfl h
  | cons => rfl

/-- What stands in front of further tokens is spelled the same whatever stands behind those. -/
theorem follow_of_follow (h : Spells ks (ks'.headD k) phrase) (hlast : Spells ks k' phrase) :
    Spells ks (ks'.headD k') phrase := by
  cases ks' with
  | nil => exact hlast
  | cons => exact h

/-- A phrase is spelled the same in front of any token that it does not go on with. -/
theorem follow (h : Spells ks k phrase) (hphrase : IsOpen phrase) (hbranch : EndsBranch k')
    (hsemicolon : k' ≠ .fixed .semicolon) : Spells ks k' phrase := by
  induction h with
  | plain hs => exact .plain hs
  | enumeration id values => exact .enumeration id values hsemicolon
  | branch htest hbody hothers _ ihb ihe ihl =>
      exact .branch htest (follow_of_follow hbody (ihb trivial))
        (follow_of_follow hothers (ihe trivial)) (ihl trivial)
  | repeatUntil hbody htest => exact .repeatUntil hbody htest
  | whileDo htest _ ih => exact .whileDo htest (ih trivial)
  | forTo var hfirst hlast _ ih => exact .forTo var hfirst hlast (ih trivial)
  | caseOf hselector _ ih => exact .caseOf hselector (ih trivial)
  | block hbody => exact .block hbody
  | nil | cons | armBlock | armList => nomatch hphrase
  | noElsif => exact .noElsif hbranch.1
  | noLast => exact .noLast hbranch.2
  | elsif htest hbody _ ihb ihe =>
      exact .elsif htest (follow_of_follow hbody (ihb trivial)) (ihe trivial)
  | lastBody _ ih => exact .lastBody (ih trivial)
  | endOfCase met => exact .endOfCase met
  | arm hpatterns hbody harms _ ih =>
      have hne := harms.arms_ne_nil
      rw [headD_eq_of_ne_nil (List.append_ne_nil_of_right_ne_nil _ hne) _ k'] at hpatterns
      rw [headD_eq_of_ne_nil hne _ k'] at hbody
      exact .arm hpatterns hbody (ih trivial)
  | lastArm hbody harms _ ih =>
      rw [headD_eq_of_ne_nil harms.arms_ne_nil _ k'] at hbody
      exact .lastArm hbody (ih trivial)

theorem begins_of_list {ss : List (Stmt Unit)} (h : Spells ks k (.list ss)) :
    ks = [] ∨ ∃ k₀ rest, ks = k₀ :: rest ∧ beginsStmt k₀ = true := by
  cases h with
  | nil => exact .inl rfl
  | cons hs hss =>
      obtain ⟨k₀, rest, rfl, hk₀⟩ := spells_eq_cons hs
      exact .inr ⟨k₀, _, rfl, hk₀⟩

theorem eq_nil_of_list {ss : List (Stmt Unit)} (h : Spells [] k (.list ss)) : ss = [] := by
  generalize hks : [] = ks at h
  cases h with
  | nil => rfl
  | cons hs => exact absurd (List.append_eq_nil_iff.mp hks.symm).1 hs.stmt_ne_nil

/-- A program is spelled the same in front of any token that its last statement does not go on
with. -/
theorem list_follow {ss : List (Stmt Unit)} (h : Spells ks k (.list ss)) (hbranch : EndsBranch k')
    (hsemicolon : k' ≠ .fixed .semicolon) : Spells ks k' (.list ss) := by
  induction ss generalizing ks with
  | nil =>
      cases h
      exact .nil
  | cons s ss ih =>
      cases h with
      | cons hs hss =>
          exact .cons (follow_of_follow hs (hs.follow trivial hbranch hsemicolon)) (ih hss)

theorem append_list {ss ss' : List (Stmt Unit)} (h : Spells ks (ks'.headD k) (.list ss))
    (h' : Spells ks' k (.list ss')) : Spells (ks ++ ks') k (.list (ss ++ ss')) := by
  induction ss generalizing ks with
  | nil =>
      cases h
      exact h'
  | cons s ss ih =>
      cases h with
      | @cons _ _ ks₁ ks₂ _ hs hss =>
          rw [List.append_assoc]
          refine .cons ?_ (ih hss)
          cases ks₂ with
          | nil => exact hs
          | cons => exact hs

theorem append {ss ss' : List (Stmt Unit)} (h : Spells ks .eof (.list ss))
    (h' : Spells ks' .eof (.list ss')) : Spells (ks ++ ks') .eof (.list (ss ++ ss')) := by
  refine append_list ?_ h'
  obtain rfl | ⟨k₀, rest, rfl, hk₀⟩ := begins_of_list h'
  · exact h
  · refine h.list_follow (endsBranch_of_beginsStmt hk₀) ?_
    rintro rfl
    cases hk₀

end Spells

end ArmPseudocode

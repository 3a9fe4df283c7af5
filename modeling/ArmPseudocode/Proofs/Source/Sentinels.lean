import ArmPseudocode.Proofs.Source.Grammar
import Mathlib.Data.List.Perm.Subperm

/-!
# Sentinels of a text and of its program

The statements that end a run without a value are words of the text, and an accepted text keeps
them: none is invented or doubled, and where every `otherwise` is the last arm of its case none is
lost, and they stand in the program in the order of the text.

The condition is needed. The last body of a case is stored apart from the arms and walked after
them, so arms behind it come first; and of several last bodies only the last one is kept.
-/

namespace ArmPseudocode

/-- A statement that ends a run without a value. -/
inductive Sentinel where
  | undefined
  | unpredictable
  | prose (word : ProseWord) (about : String)
deriving DecidableEq, Repr

namespace Stmt

variable {α : Type}

def sentinel? : Stmt α → Option Sentinel
  | undefined _ => some .undefined
  | unpredictable _ => some .unpredictable
  | prose _ word about => some (.prose word about)
  | _ => none

def sentinels (ss : List (Stmt α)) : List Sentinel :=
  ss.filterMap sentinel?

@[simp] theorem sentinels_nil : sentinels ([] : List (Stmt α)) = [] := rfl

@[simp] theorem sentinels_cons (s : Stmt α) (ss : List (Stmt α)) :
    sentinels (s :: ss) = s.sentinel?.toList ++ sentinels ss := by
  cases hs : s.sentinel? <;> simp [sentinels, hs]

@[simp] theorem sentinels_append (ss ss' : List (Stmt α)) :
    sentinels (ss ++ ss') = sentinels ss ++ sentinels ss' := List.filterMap_append

mutual

theorem sentinels_walk_erase (s : Stmt α) : sentinels s.erase.walk = sentinels s.walk := by
  cases s with
  | branch _ _ body elsifs otherwise =>
      simp [sentinel?, sentinels_walk_erase body, sentinels_walkElsifs_erase elsifs,
        sentinels_walkElse_erase otherwise]
  | repeatUntil _ body | whileDo _ _ body | forTo _ _ _ _ body =>
      simp [sentinel?, sentinels_walk_erase body]
  | caseOf _ _ arms otherwise =>
      simp [sentinel?, sentinels_walkArms_erase arms, sentinels_walkElse_erase otherwise]
  | block _ body => simp [sentinel?, sentinels_walkAll_erase body]
  | _ => rfl
termination_by structural s

theorem sentinels_walkAll_erase (ss : List (Stmt α)) :
    sentinels (walkAll (eraseAll ss)) = sentinels (walkAll ss) := by
  cases ss with
  | nil => rfl
  | cons s ss => simp [sentinels_walk_erase s, sentinels_walkAll_erase ss]
termination_by structural ss

theorem sentinels_walkElse_erase (otherwise : Option (Stmt α)) :
    sentinels (walkElse (eraseElse otherwise)) = sentinels (walkElse otherwise) := by
  cases otherwise with
  | none => rfl
  | some last => exact sentinels_walk_erase last
termination_by structural otherwise

theorem sentinels_walkElsifs_erase (elsifs : List (Expr α × Stmt α)) :
    sentinels (walkElsifs (eraseElsifs elsifs)) = sentinels (walkElsifs elsifs) := by
  cases elsifs with
  | nil => rfl
  | cons arm elsifs =>
      obtain ⟨test, body⟩ := arm
      simp [sentinels_walk_erase body, sentinels_walkElsifs_erase elsifs]
termination_by structural elsifs

theorem sentinels_walkArms_erase (arms : List (List (Expr α) × Stmt α)) :
    sentinels (walkArms (eraseArms arms)) = sentinels (walkArms arms) := by
  cases arms with
  | nil => rfl
  | cons arm arms =>
      obtain ⟨patterns, body⟩ := arm
      simp [sentinels_walk_erase body, sentinels_walkArms_erase arms]
termination_by structural arms

end

end Stmt

def Program.sentinels {α : Type} (p : Program α) : List Sentinel :=
  Stmt.sentinels p.walk

namespace TokenKind

def sentinel? : TokenKind → Option Sentinel
  | fixed .kwUndefined => some .undefined
  | fixed .kwUnpredictable => some .unpredictable
  | prose word about => some (.prose word about)
  | _ => none

def sentinels (ks : List TokenKind) : List Sentinel :=
  ks.filterMap sentinel?

/-- There is a flag for each open block, the innermost first, that tells whether an `otherwise` has
stood directly in it. Behind an `otherwise` no arm may follow, nor another `otherwise`. -/
def flagsBehind (flags : List Bool) : TokenKind → Option (List Bool)
  | indent => some (false :: flags)
  | unindent => some flags.tail
  | fixed .kwWhen => if flags.head? = some true then none else some flags
  | fixed .kwOtherwise => if flags.head? = some true then none else some (true :: flags.tail)
  | _ => some flags

/-- Every `otherwise` is the last arm of its case. -/
def OtherwiseLast (ks : List TokenKind) : Prop :=
  (ks.foldlM flagsBehind []).isSome = true

instance (ks : List TokenKind) : Decidable (OtherwiseLast ks) :=
  inferInstanceAs (Decidable (_ = true))

@[simp] theorem sentinels_nil : sentinels [] = [] := rfl

@[simp] theorem sentinels_cons (k : TokenKind) (ks : List TokenKind) :
    sentinels (k :: ks) = k.sentinel?.toList ++ sentinels ks := by
  cases hk : k.sentinel? <;> simp [sentinels, hk]

@[simp] theorem sentinels_append (ks ks' : List TokenKind) :
    sentinels (ks ++ ks') = sentinels ks ++ sentinels ks' := List.filterMap_append

/-! ### Expressions -/

theorem sentinels_of_insideExpr {ks : List TokenKind} (h : ∀ k ∈ ks, k.insideExpr = true) :
    sentinels ks = [] := by
  refine List.filterMap_eq_nil_iff.mpr fun k hk => ?_
  have hinside := h k hk
  cases k with
  | prose => nomatch hinside
  | fixed token =>
      cases token with
      | kwUndefined | kwUnpredictable => nomatch hinside
      | _ => rfl
  | _ => rfl

theorem foldlM_of_insideExpr {ks : List TokenKind} (h : ∀ k ∈ ks, k.insideExpr = true)
    (flags : List Bool) : ks.foldlM flagsBehind flags = some flags := by
  induction ks with
  | nil => rfl
  | cons k ks ih =>
      obtain ⟨hinside, hks⟩ := List.forall_mem_cons.mp h
      rw [List.foldlM_cons]
      cases k with
      | indent | unindent => nomatch hinside
      | fixed token =>
          cases token with
          | kwWhen | kwOtherwise => nomatch hinside
          | _ => exact ih hks
      | _ => exact ih hks

@[simp] theorem sentinels_expr (e : Expr Unit) : sentinels e.tokens = [] :=
  sentinels_of_insideExpr e.insideExpr_of_mem_tokens

@[simp] theorem sentinels_exprs (es : List (Expr Unit)) :
    sentinels (commas (es.map Expr.tokens)) = [] :=
  sentinels_of_insideExpr (Expr.insideExpr_of_mem_commas es)

@[simp] theorem sentinels_names (values : List String) :
    sentinels (commas (values.map fun value => [name value])) = [] :=
  sentinels_of_insideExpr (insideExpr_of_mem_names values)

variable (flags : List Bool)

@[simp] theorem foldlM_expr (e : Expr Unit) : e.tokens.foldlM flagsBehind flags = some flags :=
  foldlM_of_insideExpr e.insideExpr_of_mem_tokens flags

@[simp] theorem foldlM_exprs (es : List (Expr Unit)) :
    (commas (es.map Expr.tokens)).foldlM flagsBehind flags = some flags :=
  foldlM_of_insideExpr (Expr.insideExpr_of_mem_commas es) flags

@[simp] theorem foldlM_names (values : List String) :
    (commas (values.map fun value => [name value])).foldlM flagsBehind flags = some flags :=
  foldlM_of_insideExpr (insideExpr_of_mem_names values) flags

end TokenKind

/-! ### Phrases -/

namespace Phrase

@[simp] def sentinels : Phrase → List Sentinel
  | stmt s => Stmt.sentinels s.walk
  | list ss => Stmt.sentinels (Stmt.walkAll ss)
  | elsifs others => Stmt.sentinels (Stmt.walkElsifs others)
  | last otherwise => Stmt.sentinels (Stmt.walkElse otherwise)
  | armBody b => Stmt.sentinels b.walk
  | arms _ others otherwise => Stmt.sentinels (Stmt.walkArms others ++ Stmt.walkElse otherwise)

@[simp] def sentinelsMet : Phrase → List Sentinel
  | arms met _ _ => Stmt.sentinels (Stmt.walkElse met)
  | _ => []

theorem sentinelsMet_list (ss : List (Stmt Unit)) : (list ss).sentinelsMet = [] := rfl

/-- The flags in front of the phrase: the rest of a case is inside the block of the case. -/
@[simp] def flags : Phrase → List Bool → List Bool
  | arms met _ _, flags => met.isSome :: flags
  | _, flags => flags

end Phrase

open TokenKind (flagsBehind)

theorem Stmt.Plain.sentinels_tokens {s : Stmt Unit} (hs : s.Plain) :
    TokenKind.sentinels s.tokens = Stmt.sentinels s.walk := by
  cases hs <;> simp [TokenKind.sentinel?, Stmt.sentinel?]

theorem Stmt.Plain.foldlM_tokens {s : Stmt Unit} (hs : s.Plain) (flags : List Bool) :
    s.tokens.foldlM flagsBehind flags = some flags := by
  cases hs <;> simp [flagsBehind]

namespace Spells

variable {ks : List TokenKind} {k : TokenKind} {phrase : Phrase}

/-- Where every `otherwise` is the last arm of its case, the sentinels are those of the tokens, in
their order. -/
theorem sentinels_eq (h : Spells ks k phrase) (flags flags' : List Bool)
    (hlast : ks.foldlM flagsBehind (phrase.flags flags) = some flags') :
    flags' = flags ∧ phrase.sentinelsMet ++ TokenKind.sentinels ks = phrase.sentinels := by
  induction h generalizing flags flags' with
  | plain hs =>
      rw [hs.foldlM_tokens] at hlast
      exact ⟨(Option.some.inj hlast).symm, hs.sentinels_tokens⟩
  | enumeration =>
      refine ⟨?_, ?_⟩
      · simpa [flagsBehind, eq_comm] using hlast
      · simp [TokenKind.sentinel?, Stmt.sentinel?]
  | branch _ _ _ _ ihb ihe ihl =>
      obtain ⟨flags₁, hb, flags₂, he, hl⟩ : ∃ flags₁, _ ∧ ∃ flags₂, _ ∧ _ := by
        simpa [flagsBehind, Option.bind_eq_some_iff] using hlast
      obtain ⟨rfl, hb⟩ := ihb _ _ hb
      obtain ⟨rfl, he⟩ := ihe _ _ he
      obtain ⟨rfl, hl⟩ := ihl _ _ hl
      refine ⟨rfl, ?_⟩
      simp_all [TokenKind.sentinel?, Stmt.sentinel?]
  | repeatUntil _ _ ih | whileDo _ _ ih | forTo _ _ _ _ ih | caseOf _ _ ih | lastBody _ ih =>
      obtain ⟨rfl, hsame⟩ := ih _ _ (by simpa [flagsBehind] using hlast)
      refine ⟨rfl, ?_⟩
      simp_all [TokenKind.sentinel?, Stmt.sentinel?]
  | block _ ih | armBlock _ ih =>
      obtain ⟨flags₁, hb, htail⟩ : ∃ flags₁, _ ∧ _ := by
        simpa [flagsBehind, Option.bind_eq_some_iff] using hlast
      obtain ⟨rfl, hsame⟩ := ih _ _ hb
      refine ⟨htail.symm, ?_⟩
      simp_all [TokenKind.sentinel?, Stmt.sentinel?]
  | nil | noElsif | noLast | endOfCase =>
      refine ⟨by simpa [flagsBehind, eq_comm] using hlast, ?_⟩
      simp [TokenKind.sentinel?]
  | cons _ _ ih ih' | elsif _ _ _ ih ih' =>
      obtain ⟨flags₁, hs, hss⟩ : ∃ flags₁, _ ∧ _ := by
        simpa [flagsBehind, Option.bind_eq_some_iff] using hlast
      obtain ⟨rfl, hs⟩ := ih _ _ hs
      obtain ⟨rfl, hss⟩ := ih' _ _ hss
      refine ⟨rfl, ?_⟩
      simp_all [TokenKind.sentinel?]
  | armList _ _ _ ih =>
      obtain ⟨rfl, hsame⟩ := ih _ _ hlast
      refine ⟨rfl, ?_⟩
      simp_all [Stmt.sentinel?]
  | arm _ _ _ ih ih' | lastArm _ _ ih ih' =>
      -- No last body has been met: otherwise the word in front of the arm leads to no flags.
      obtain ⟨rfl, flags₁, hb, has⟩ : _ = none ∧ ∃ flags₁, _ ∧ _ := by
        simpa [flagsBehind, Option.bind_eq_some_iff] using hlast
      obtain ⟨rfl, hb⟩ := ih _ _ hb
      obtain ⟨rfl, has⟩ := ih' _ _ has
      refine ⟨rfl, ?_⟩
      simp_all [TokenKind.sentinel?]

/-- However the arms of a case stand, no sentinel is in the phrase more often than in the tokens. -/
theorem count_sentinels_le (h : Spells ks k phrase) (x : Sentinel) :
    phrase.sentinels.count x ≤
      phrase.sentinelsMet.count x + (TokenKind.sentinels ks).count x := by
  induction h with
  | plain hs => simp [hs.sentinels_tokens]
  | enumeration | nil | noElsif | noLast | endOfCase => simp [TokenKind.sentinel?, Stmt.sentinel?]
  | repeatUntil _ _ ih | whileDo _ _ ih | forTo _ _ _ _ ih | caseOf _ _ ih | lastBody _ ih
  | block _ ih | armBlock _ ih | armList _ _ _ ih =>
      simpa [TokenKind.sentinel?, Stmt.sentinel?] using ih
  | cons _ _ ih ih' | elsif _ _ _ ih ih' | arm _ _ _ ih ih' | lastArm _ _ ih ih' =>
      simp [TokenKind.sentinel?] at ih ih' ⊢
      omega
  | branch _ _ _ _ ihb ihe ihl =>
      simp [TokenKind.sentinel?, Stmt.sentinel?] at ihb ihe ihl ⊢
      omega

theorem sentinels_subperm {ss : List (Stmt Unit)} (h : Spells ks k (.list ss)) :
    (Stmt.sentinels (Stmt.walkAll ss)).Subperm (TokenKind.sentinels ks) := by
  refine List.subperm_ext_iff.mpr fun x _ => ?_
  have hcount := h.count_sentinels_le x
  rwa [Phrase.sentinelsMet_list, List.count_nil, Nat.zero_add] at hcount

theorem sentinels_of_otherwiseLast {ss : List (Stmt Unit)} (h : Spells ks k (.list ss))
    (hlast : TokenKind.OtherwiseLast ks) :
    Stmt.sentinels (Stmt.walkAll ss) = TokenKind.sentinels ks := by
  obtain ⟨flags, hflags⟩ := Option.isSome_iff_exists.mp hlast
  exact (h.sentinels_eq [] flags hflags).2.symm

end Spells

namespace ParsedSource

/-- An accepted text makes up no sentinel and doubles none. Where every `otherwise` is the last arm
of its case, it loses none either, and keeps them in order. -/
theorem sentinels_of_accepted {config : DiagnosticConfig} {name : String} {text : List Char}
    (h : (ofText config name text).hasErrors = false) :
    (ofText config name text).program.sentinels.Subperm
        (TokenKind.sentinels (kinds config text)) ∧
      (TokenKind.OtherwiseLast (kinds config text) →
        (ofText config name text).program.sentinels =
          TokenKind.sentinels (kinds config text)) := by
  have hspells := spells_of_accepted h
  have herase := Stmt.sentinels_walkAll_erase (ofText config name text).program.body
  rw [Program.sentinels, Program.walk, ← herase, ← Program.body_erase]
  exact ⟨hspells.sentinels_subperm, hspells.sentinels_of_otherwiseLast⟩

def earlyOtherwise : List Char :=
  "case x of\n\totherwise\n\t\tUNDEFINED;\n\twhen 1\n\t\tUNPREDICTABLE;".toList

/-- The sentinel of an early last body comes late in the program. -/
theorem earlyOtherwise_reordered :
    (ofText {} "early" earlyOtherwise).hasErrors = false ∧
      TokenKind.sentinels (kinds {} earlyOtherwise) = [.undefined, .unpredictable] ∧
      (ofText {} "early" earlyOtherwise).program.sentinels = [.unpredictable, .undefined] := by
  decide +kernel

def lateOtherwise : List Char :=
  "case x of\n\twhen 1\n\t\tSEE ADR;\n\totherwise\n\t\tUNDEFINED;\nUNPREDICTABLE;".toList

theorem lateOtherwise_sentinels :
    (ofText {} "late" lateOtherwise).hasErrors = false ∧
      (ofText {} "late" lateOtherwise).program.sentinels =
        [.prose .see "ADR", .undefined, .unpredictable] := by
  have hnone : (ofText {} "late" lateOtherwise).hasErrors = false := by decide +kernel
  have hkinds : TokenKind.OtherwiseLast (kinds {} lateOtherwise) ∧
      TokenKind.sentinels (kinds {} lateOtherwise) =
        [.prose .see "ADR", .undefined, .unpredictable] := by decide +kernel
  exact ⟨hnone, ((sentinels_of_accepted hnone).2 hkinds.1).trans hkinds.2⟩

end ParsedSource

end ArmPseudocode

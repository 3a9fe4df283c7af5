import ArmPseudocode.Syntax.Stmt
import Mathlib.Logic.Basic

/-!
# Expressions of a statement

A property of every expression that stands in a statement or in a statement inside it, none of them
being one that could not be read. For each form it comes down to the parts of the form.
-/

namespace ArmPseudocode.Stmt

variable {α : Type} {P : Expr α → Prop} {info : α}

/-- Whether the statement stands for one that could not be read. -/
def isMalformed : Stmt α → Bool
  | malformed _ => true
  | _ => false

/-- The expressions of the statement itself, those of the statements inside it left out. -/
def exprs : Stmt α → List (Expr α)
  | assign _ target value => [target, value]
  | expr _ e | declaration _ e | assertion _ e | repeatUntil _ _ e | whileDo _ e _ => [e]
  | giveBack _ values => values
  | branch _ test _ elsifs _ => test :: elsifs.map (·.1)
  | forTo _ _ first last _ => [first, last]
  | caseOf _ selector arms _ => selector :: arms.flatMap (·.1)
  | _ => []

/-- The property holds of every expression of the statement, and every part of it was read. -/
def Everywhere (P : Expr α → Prop) (s : Stmt α) : Prop :=
  ∀ x ∈ s.walk, x.isMalformed = false ∧ ∀ e ∈ x.exprs, P e

/-! ### Lists of statements -/

-- A tree is walked form by form wherever its form is known.
attribute [simp] walk walkAll walkElse walkElsifs walkArms

theorem forall_walkAll {Q : Stmt α → Prop} {ss : List (Stmt α)} :
    (∀ x ∈ walkAll ss, Q x) ↔ ∀ s ∈ ss, ∀ x ∈ s.walk, Q x := by
  induction ss with
  | nil => simp
  | cons s ss ih => rw [walkAll, List.forall_mem_append, ih, List.forall_mem_cons]

theorem forall_walkElse {Q : Stmt α → Prop} {otherwise : Option (Stmt α)} :
    (∀ x ∈ walkElse otherwise, Q x) ↔ ∀ last ∈ otherwise, ∀ x ∈ last.walk, Q x := by
  cases otherwise <;> simp

theorem forall_walkElsifs {Q : Stmt α → Prop} {elsifs : List (Expr α × Stmt α)} :
    (∀ x ∈ walkElsifs elsifs, Q x) ↔ ∀ arm ∈ elsifs, ∀ x ∈ arm.2.walk, Q x := by
  induction elsifs with
  | nil => simp
  | cons arm elsifs ih => rw [walkElsifs, List.forall_mem_append, ih, List.forall_mem_cons]

theorem forall_walkArms {Q : Stmt α → Prop} {arms : List (List (Expr α) × Stmt α)} :
    (∀ x ∈ walkArms arms, Q x) ↔ ∀ arm ∈ arms, ∀ x ∈ arm.2.walk, Q x := by
  induction arms with
  | nil => simp
  | cons arm arms ih => rw [walkArms, List.forall_mem_append, ih, List.forall_mem_cons]

/-! ### Forms of statements -/

theorem everywhere_of_walk {s : Stmt α} (hwalk : s.walk = [s]) :
    s.Everywhere P ↔ s.isMalformed = false ∧ ∀ e ∈ s.exprs, P e := by
  rw [Everywhere, hwalk, List.forall_mem_singleton]

theorem Everywhere.of_mem_exprs {s : Stmt α} {e : Expr α} (hs : s.Everywhere P) (he : e ∈ s.exprs) :
    P e := by
  have hmem : s ∈ s.walk := by cases s <;> simp
  exact (hs s hmem).2 e he

theorem everywhere_block {body : List (Stmt α)} :
    (block info body).Everywhere P ↔ ∀ s ∈ body, s.Everywhere P := by
  rw [Everywhere, walk, List.forall_mem_cons, forall_walkAll]
  simp [isMalformed, exprs, Everywhere]

theorem everywhere_repeatUntil {body : Stmt α} {test : Expr α} :
    (repeatUntil info body test).Everywhere P ↔ P test ∧ body.Everywhere P := by
  rw [Everywhere, walk, List.forall_mem_cons]
  simp [isMalformed, exprs, Everywhere]

theorem everywhere_whileDo {body : Stmt α} {test : Expr α} :
    (whileDo info test body).Everywhere P ↔ P test ∧ body.Everywhere P := by
  rw [Everywhere, walk, List.forall_mem_cons]
  simp [isMalformed, exprs, Everywhere]

theorem everywhere_forTo {var : String} {first last : Expr α} {body : Stmt α} :
    (forTo info var first last body).Everywhere P ↔ P first ∧ P last ∧ body.Everywhere P := by
  rw [Everywhere, walk, List.forall_mem_cons]
  simp [isMalformed, exprs, Everywhere, and_assoc]

theorem everywhere_branch {test : Expr α} {body : Stmt α} {elsifs : List (Expr α × Stmt α)}
    {otherwise : Option (Stmt α)} :
    (branch info test body elsifs otherwise).Everywhere P ↔
      P test ∧ body.Everywhere P ∧ (∀ arm ∈ elsifs, P arm.1 ∧ arm.2.Everywhere P) ∧
        ∀ last ∈ otherwise, last.Everywhere P := by
  have harms : (∀ arm ∈ elsifs, P arm.1 ∧ arm.2.Everywhere P) ↔
      (∀ e ∈ elsifs.map (·.1), P e) ∧ ∀ arm ∈ elsifs, arm.2.Everywhere P := by
    rw [List.forall_mem_map]
    exact forall₂_and
  rw [Everywhere, walk, List.forall_mem_append, List.cons_append, List.forall_mem_cons,
    List.forall_mem_append, forall_walkElsifs, forall_walkElse, exprs, List.forall_mem_cons, harms]
  constructor
  · rintro ⟨⟨⟨-, htest, htests⟩, hbody, hbodies⟩, hlast⟩
    exact ⟨htest, hbody, ⟨htests, hbodies⟩, hlast⟩
  · rintro ⟨htest, hbody, ⟨htests, hbodies⟩, hlast⟩
    exact ⟨⟨⟨rfl, htest, htests⟩, hbody, hbodies⟩, hlast⟩

theorem everywhere_caseOf {selector : Expr α} {arms : List (List (Expr α) × Stmt α)}
    {otherwise : Option (Stmt α)} :
    (caseOf info selector arms otherwise).Everywhere P ↔
      P selector ∧ (∀ arm ∈ arms, (∀ e ∈ arm.1, P e) ∧ arm.2.Everywhere P) ∧
        ∀ last ∈ otherwise, last.Everywhere P := by
  have harms : (∀ arm ∈ arms, (∀ e ∈ arm.1, P e) ∧ arm.2.Everywhere P) ↔
      (∀ e ∈ arms.flatMap (·.1), P e) ∧ ∀ arm ∈ arms, arm.2.Everywhere P := by
    rw [List.forall_mem_flatMap]
    exact forall₂_and
  rw [Everywhere, walk, List.forall_mem_append, List.forall_mem_cons, forall_walkArms,
    forall_walkElse, exprs, List.forall_mem_cons, harms]
  constructor
  · rintro ⟨⟨⟨-, hselector, hpatterns⟩, hbodies⟩, hlast⟩
    exact ⟨hselector, ⟨hpatterns, hbodies⟩, hlast⟩
  · rintro ⟨hselector, ⟨hpatterns, hbodies⟩, hlast⟩
    exact ⟨⟨⟨rfl, hselector, hpatterns⟩, hbodies⟩, hlast⟩

end ArmPseudocode.Stmt

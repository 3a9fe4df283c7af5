import ArmPseudocode.Proofs.Syntax.Erase
import ArmPseudocode.Proofs.Syntax.Tokens

/-!
# How statements are written

The tokens of a statement, with markers around every block and a semicolon behind every simple
statement, and the statements that can be written so that they are read back: their bodies are
blocks, so that each has an end of its own.
-/

namespace ArmPseudocode

variable {α : Type}

/-! ### Expressions without their annotations -/

mutual

@[simp] theorem Expr.tokens_erase (e : Expr α) : e.erase.tokens = e.tokens := by
  cases e with
  | declare info type id => rw [Expr.erase, Expr.tokens, Expr.tokens, type.tokens_erase]
  | unknown info type =>
      cases type with
      | none => rfl
      | some type => rw [Expr.erase, Expr.tokens, Expr.tokens, type.tokens_erase]
  | call info callee args => rw [Expr.erase, Expr.tokens, Expr.tokens, Expr.tokensEach_erase]
  | tuple info items => rw [Expr.erase, Expr.tokens, Expr.tokens, Expr.tokensEach_erase]
  | binary info op left right =>
      rw [Expr.erase, Expr.tokens, Expr.tokens, left.tokens_erase, right.tokens_erase]
  | unary info op operand => rw [Expr.erase, Expr.tokens, Expr.tokens, operand.tokens_erase]
  | slice info base terms | index info base terms =>
      rw [Expr.erase, Expr.tokens, Expr.tokens, base.tokens_erase, Expr.tokensTerms_erase]
  | conditional info test yes no =>
      rw [Expr.erase, Expr.tokens, Expr.tokens, test.tokens_erase, yes.tokens_erase,
        no.tokens_erase]
  | member info base field => rw [Expr.erase, Expr.tokens, Expr.tokens, base.tokens_erase]
  | _ => rfl
termination_by structural e

theorem Expr.tokensEach_erase (es : List (Expr α)) :
    Expr.tokensEach (Expr.eraseAll es) = Expr.tokensEach es := by
  cases es with
  | nil => rfl
  | cons e es =>
      rw [Expr.eraseAll, Expr.tokensEach, Expr.tokensEach, e.tokens_erase,
        Expr.tokensEach_erase es]
termination_by structural es

theorem Expr.tokensTerms_erase (terms : List (SliceTerm (Expr α))) :
    Expr.tokensTerms (Expr.eraseTerms terms) = Expr.tokensTerms terms := by
  cases terms with
  | nil => rfl
  | cons term terms =>
      cases term with
      | single position =>
          rw [Expr.eraseTerms, Expr.tokensTerms, Expr.tokensTerms, position.tokens_erase,
            Expr.tokensTerms_erase terms]
      | range high low =>
          rw [Expr.eraseTerms, Expr.tokensTerms, Expr.tokensTerms, high.tokens_erase,
            low.tokens_erase, Expr.tokensTerms_erase terms]
termination_by structural terms

theorem TypeExpr.tokens_erase (type : TypeExpr α) : type.erase.tokens = type.tokens := by
  cases type with
  | bits width => rw [TypeExpr.erase, TypeExpr.tokens, TypeExpr.tokens, width.tokens_erase]
  | tuple items => rw [TypeExpr.erase, TypeExpr.tokens, TypeExpr.tokens, TypeExpr.tokensEach_erase]
  | _ => rfl
termination_by structural type

theorem TypeExpr.tokensEach_erase (types : List (TypeExpr α)) :
    TypeExpr.tokensEach (TypeExpr.eraseAll types) = TypeExpr.tokensEach types := by
  cases types with
  | nil => rfl
  | cons type types =>
      rw [TypeExpr.eraseAll, TypeExpr.tokensEach, TypeExpr.tokensEach, type.tokens_erase,
        TypeExpr.tokensEach_erase types]
termination_by structural types

end

namespace Stmt

/-! ### Tokens -/

mutual

/-- The tokens of a statement. A statement that could not be read has none. -/
@[simp] def tokens : Stmt α → List TokenKind
  | assign _ target value =>
    target.tokens ++ .fixed .assign :: (value.tokens ++ [.fixed .semicolon])
  | expr _ e => e.tokens ++ [.fixed .semicolon]
  | declaration _ e => e.tokens ++ [.fixed .semicolon]
  | giveBack _ values =>
    .fixed .kwReturn :: (commas (values.map Expr.tokens) ++ [.fixed .semicolon])
  | undefined _ => [.fixed .kwUndefined, .fixed .semicolon]
  | unpredictable _ => [.fixed .kwUnpredictable, .fixed .semicolon]
  | prose _ word about => [.prose word about, .fixed .semicolon]
  | branch _ test body elsifs otherwise =>
    .fixed .kwIf :: (test.tokens ++ .fixed .kwThen ::
      (body.tokens ++ (tokensElsifs elsifs ++ tokensElse .kwElse otherwise)))
  | repeatUntil _ body test =>
    .fixed .kwRepeat :: (body.tokens ++ .fixed .kwUntil :: (test.tokens ++ [.fixed .semicolon]))
  | whileDo _ test body => .fixed .kwWhile :: (test.tokens ++ .fixed .kwDo :: body.tokens)
  | forTo _ var first last body =>
    .fixed .kwFor :: .name var :: .fixed .assign ::
      (first.tokens ++ .fixed .kwTo :: (last.tokens ++ .fixed .kwDo :: body.tokens))
  | caseOf _ selector arms otherwise =>
    .fixed .kwCase :: (selector.tokens ++ .fixed .kwOf :: .indent ::
      (tokensArms arms ++ (tokensElse .kwOtherwise otherwise ++ [.unindent])))
  | block _ body => .indent :: (tokensAll body ++ [.unindent])
  | assertion _ e => .fixed .kwAssert :: (e.tokens ++ [.fixed .semicolon])
  | enumeration _ id values =>
    .fixed .kwEnumeration :: .name id :: .fixed .openBrace ::
      (commas (values.map fun value => [.name value]) ++
        [.fixed .closeBrace, .fixed .semicolon])
  | malformed _ => []
termination_by structural s => s

@[simp] def tokensAll : List (Stmt α) → List TokenKind
  | [] => []
  | s :: ss => s.tokens ++ tokensAll ss
termination_by structural ss => ss

@[simp] def tokensElsifs : List (Expr α × Stmt α) → List TokenKind
  | [] => []
  | (test, body) :: elsifs =>
    .fixed .kwElsif :: (test.tokens ++ .fixed .kwThen :: (body.tokens ++ tokensElsifs elsifs))
termination_by structural elsifs => elsifs

@[simp] def tokensArms : List (List (Expr α) × Stmt α) → List TokenKind
  | [] => []
  | (patterns, body) :: arms =>
    .fixed .kwWhen :: (commas (patterns.map Expr.tokens) ++ (body.tokens ++ tokensArms arms))
termination_by structural arms => arms

/-- The tokens of a last body, if there is one, behind the word for it. -/
@[simp] def tokensElse (word : FixedToken) : Option (Stmt α) → List TokenKind
  | none => []
  | some last => .fixed word :: last.tokens
termination_by structural otherwise => otherwise

end

/-! ### Annotations -/

mutual

@[simp] def erase : Stmt α → Stmt Unit
  | assign _ target value => assign () target.erase value.erase
  | expr _ e => expr () e.erase
  | declaration _ e => declaration () e.erase
  | giveBack _ values => giveBack () (values.map Expr.erase)
  | undefined _ => undefined ()
  | unpredictable _ => unpredictable ()
  | prose _ word about => prose () word about
  | branch _ test body elsifs otherwise =>
    branch () test.erase body.erase (eraseElsifs elsifs) (eraseElse otherwise)
  | repeatUntil _ body test => repeatUntil () body.erase test.erase
  | whileDo _ test body => whileDo () test.erase body.erase
  | forTo _ var first last body => forTo () var first.erase last.erase body.erase
  | caseOf _ selector arms otherwise =>
    caseOf () selector.erase (eraseArms arms) (eraseElse otherwise)
  | block _ body => block () (eraseAll body)
  | assertion _ e => assertion () e.erase
  | enumeration _ id values => enumeration () id values
  | malformed _ => malformed ()
termination_by structural s => s

@[simp] def eraseAll : List (Stmt α) → List (Stmt Unit)
  | [] => []
  | s :: ss => s.erase :: eraseAll ss
termination_by structural ss => ss

@[simp] def eraseElsifs : List (Expr α × Stmt α) → List (Expr Unit × Stmt Unit)
  | [] => []
  | (test, body) :: elsifs => (test.erase, body.erase) :: eraseElsifs elsifs
termination_by structural elsifs => elsifs

@[simp] def eraseArms : List (List (Expr α) × Stmt α) → List (List (Expr Unit) × Stmt Unit)
  | [] => []
  | (patterns, body) :: arms => (patterns.map Expr.erase, body.erase) :: eraseArms arms
termination_by structural arms => arms

@[simp] def eraseElse : Option (Stmt α) → Option (Stmt Unit)
  | none => none
  | some last => some last.erase
termination_by structural otherwise => otherwise

end

theorem eraseAll_append (ss ss' : List (Stmt α)) :
    eraseAll (ss ++ ss') = eraseAll ss ++ eraseAll ss' := by
  induction ss with
  | nil => rfl
  | cons s ss ih => rw [List.cons_append, eraseAll, ih, eraseAll, List.cons_append]

/-! ### Statements that can be written -/

def isBlock : Stmt α → Bool
  | block _ _ => true
  | _ => false

/-- Statements that can be written so that they are read back. A statement that begins with an
expression does not begin with a conditional, which would be read as a branch. -/
inductive Grammatical : Stmt α → Prop
  | assign (info : α) {target value : Expr α} (htarget : target.Grammatical ⟨false, true⟩)
      (hstart : target.isConditional = false) (hvalue : value.Grammatical ⟨false, true⟩) :
      Grammatical (.assign info target value)
  | expr (info : α) {e : Expr α} (he : e.Grammatical ⟨false, true⟩)
      (hstart : e.isConditional = false) (hplain : e.isDeclaration = false) :
      Grammatical (.expr info e)
  | declaration (info : α) {e : Expr α} (he : e.Grammatical ⟨false, true⟩)
      (hdeclaration : e.isDeclaration = true) : Grammatical (.declaration info e)
  | giveBack (info : α) {values : List (Expr α)}
      (hvalues : ∀ e ∈ values, e.Grammatical ⟨false, true⟩) : Grammatical (.giveBack info values)
  | undefined (info : α) : Grammatical (.undefined info)
  | unpredictable (info : α) : Grammatical (.unpredictable info)
  | prose (info : α) (word : ProseWord) (about : String) : Grammatical (.prose info word about)
  | branch (info : α) {test : Expr α} {body : Stmt α} {elsifs : List (Expr α × Stmt α)}
      {otherwise : Option (Stmt α)} (htest : test.Grammatical ⟨false, true⟩)
      (hblock : body.isBlock = true) (hbody : body.Grammatical)
      (htests : ∀ arm ∈ elsifs, arm.1.Grammatical ⟨false, true⟩)
      (hblocks : ∀ arm ∈ elsifs, arm.2.isBlock = true)
      (hbodies : ∀ arm ∈ elsifs, arm.2.Grammatical)
      (hlastBlock : ∀ last ∈ otherwise, last.isBlock = true)
      (hlast : ∀ last ∈ otherwise, last.Grammatical) :
      Grammatical (.branch info test body elsifs otherwise)
  | repeatUntil (info : α) {body : Stmt α} {test : Expr α} (hblock : body.isBlock = true)
      (hbody : body.Grammatical) (htest : test.Grammatical ⟨false, true⟩) :
      Grammatical (.repeatUntil info body test)
  | whileDo (info : α) {test : Expr α} {body : Stmt α} (htest : test.Grammatical ⟨false, true⟩)
      (hblock : body.isBlock = true) (hbody : body.Grammatical) :
      Grammatical (.whileDo info test body)
  | forTo (info : α) (var : String) {first last : Expr α} {body : Stmt α}
      (hfirst : first.Grammatical ⟨false, true⟩) (hlast : last.Grammatical ⟨false, true⟩)
      (hblock : body.isBlock = true) (hbody : body.Grammatical) :
      Grammatical (.forTo info var first last body)
  | caseOf (info : α) {selector : Expr α} {arms : List (List (Expr α) × Stmt α)}
      {otherwise : Option (Stmt α)} (hselector : selector.Grammatical ⟨false, true⟩)
      (hsome : ∀ arm ∈ arms, arm.1 ≠ [])
      (hpatterns : ∀ arm ∈ arms, ∀ e ∈ arm.1, e.Grammatical ⟨true, true⟩)
      (hblocks : ∀ arm ∈ arms, arm.2.isBlock = true)
      (hbodies : ∀ arm ∈ arms, arm.2.Grammatical)
      (hlastBlock : ∀ last ∈ otherwise, last.isBlock = true)
      (hlast : ∀ last ∈ otherwise, last.Grammatical) :
      Grammatical (.caseOf info selector arms otherwise)
  | block (info : α) {body : List (Stmt α)} (hbody : ∀ s ∈ body, s.Grammatical) :
      Grammatical (.block info body)
  | assertion (info : α) {e : Expr α} (he : e.Grammatical ⟨false, true⟩) :
      Grammatical (.assertion info e)
  | enumeration (info : α) (id : String) (values : List String) :
      Grammatical (.enumeration info id values)

end Stmt

namespace Program

def tokens (p : Program α) : List TokenKind :=
  Stmt.tokensAll p.body

def erase (p : Program α) : Program Unit :=
  ⟨Stmt.eraseAll p.body⟩

@[simp] theorem body_erase (p : Program α) : p.erase.body = Stmt.eraseAll p.body := rfl

def Grammatical (p : Program α) : Prop :=
  ∀ s ∈ p.body, s.Grammatical

end Program

end ArmPseudocode

import ArmPseudocode.Proofs.Eval.Sequencing
import ArmPseudocode.Proofs.Value.Equality

/-!
# A case as branches

A case can be written as branches: the arm with the patterns `p₁` to `pₙ` becomes the test
`selector == p₁ || … || selector == pₙ`. The case evaluates its selector once and the branches do so
for every pattern, but an expression has one value in one environment, and both stop at the first
pattern that equals it. They part in one place: where the selector and a pattern are of two kinds,
the case reports the two values and `==` their kinds.
-/

namespace ArmPseudocode

variable {α β : Type}

namespace Value

theorem equals_of_kind_ne {v w : Value} (hkind : v.kind ≠ w.kind) :
    v.equals w = .error (.operandsDiffer .equal v.kind w.kind) := by
  have hdiffer : unsupportedOperands .equal v w = .operandsDiffer .equal v.kind w.kind :=
    if_neg hkind
  rw [← hdiffer]
  cases v with
  | bool a =>
      cases w with
      | bool b => exact absurd rfl hkind
      | _ => rfl
  | int a =>
      cases w with
      | int b => exact absurd rfl hkind
      | _ => rfl
  | bits a =>
      cases w with
      | bits b => exact absurd rfl hkind
      | _ => rfl
  | tuple vs =>
      cases w with
      | tuple ws => exact absurd rfl hkind
      | _ => rfl
  | _ => cases w <;> rfl

end Value

namespace Expr

/-- The test that the patterns of an arm become. Like any row of `||` it is grouped from the
left. -/
def disjunction (info : α) (selector : Expr α) : List (Expr α) → Expr α
  | [] => malformed info
  | pattern :: patterns =>
    patterns.foldl (fun test p => binary info .orElse test (binary info .equal selector p))
      (binary info .equal selector pattern)

end Expr

def Stmt.branches (info : α) (selector : Expr α) (otherwise : Option (Stmt α)) :
    List (List (Expr α) × Stmt α) → Stmt α
  | [] => malformed info
  | (patterns, body) :: rest =>
    branch info (selector.disjunction info patterns) body
      (rest.map fun arm => (selector.disjunction info arm.1, arm.2)) otherwise

/-! ### Results that differ in the one defect -/

/-- Two results are the same, or the first is the defect of a case whose selector is `v` and whose
pattern has another kind, and the second the defect of `==` on the two. -/
inductive Restates (v : Value) (given : Value → Prop) {ρ : Type} (raise : EvalError → ρ) :
    ρ → ρ → Prop
  | same (x : ρ) : Restates v given raise x x
  | mistyped {w : Value} (hw : given w) (hkind : v.kind ≠ w.kind) :
      Restates v given raise (raise (.caseMistyped v w))
        (raise (.operandsDiffer .equal v.kind w.kind))

namespace Restates

variable {v : Value} {given : Value → Prop}

theorem bind {γ : Type} {x y : Except EvalError β} {f g : β → Except EvalError γ}
    (h : Restates v given .error x y) (hnext : ∀ b, Restates v given .error (f b) (g b)) :
    Restates v given .error (x >>= f) (y >>= g) := by
  cases h with
  | mistyped hw hkind => exact .mistyped hw hkind
  | same =>
      cases x with
      | ok b => exact hnext b
      | error e => exact .same _

/-- The first of two rows of tests that holds is found alike if each test restates its own. -/
theorem anyM {patterns : List β} {f g : β → Except EvalError Bool}
    (h : ∀ p ∈ patterns, Restates v given .error (f p) (g p)) :
    Restates v given .error (patterns.anyM f) (patterns.anyM g) := by
  induction patterns with
  | nil => exact .same _
  | cons p patterns ih =>
      rw [List.forall_mem_cons] at h
      apply h.1.bind
      intro found
      cases found with
      | true => exact .same _
      | false => exact ih h.2

theorem reading_bind {γ : Type} {f g : Environment → Except EvalError β} {next next' : β → Action γ}
    {env : Environment} (h : Restates v given .error (f env) (g env))
    (hnext : ∀ b, Restates v given (.error · env) (next b env) (next' b env)) :
    Restates v given (.error · env) ((Action.reading f >>= next) env)
      ((Action.reading g >>= next') env) := by
  generalize hx : f env = x at h
  generalize hy : g env = y at h
  cases h with
  | mistyped hw hkind =>
      rw [Action.bind_reading_of_error hx, Action.bind_reading_of_error hy]
      exact .mistyped hw hkind
  | same =>
      cases x with
      | ok b =>
          rw [Action.bind_reading_of_ok hx, Action.bind_reading_of_ok hy]
          exact hnext b
      | error e =>
          rw [Action.bind_reading_of_error hx, Action.bind_reading_of_error hy]
          exact .same _

end Restates

namespace Expr

variable {info : α} {selector : Expr α} {v : Value} {env : Environment}

/-! ### The test of an arm -/

theorem anyM_cons (f : β → Except EvalError Bool) (p : β) (patterns : List β) :
    (p :: patterns).anyM f = f p >>= fun found => if found then pure true else patterns.anyM f := by
  show f p >>= _ = _
  congr 1
  funext found
  cases found <;> rfl

theorem anyEqualTo_eq_anyM (v : Value) (env : Environment) (patterns : List (Expr α)) :
    anyEqualTo v env patterns = patterns.anyM fun p => p.isEqualTo v env := by
  induction patterns with
  | nil => rfl
  | cons p patterns ih =>
      rw [anyM_cons, ← ih]
      rfl

/-- Only the test for the kinds sets a comparison in a case apart from `==`. -/
theorem isEqualTo_restates (p : Expr α) {given : Value → Prop}
    (hp : ∀ w, p.eval env = .ok w → given w) :
    Restates v given .error (p.isEqualTo v env) (p.eval env >>= v.equals) := by
  unfold isEqualTo
  cases hw : p.eval env with
  | error e => exact .same _
  | ok w =>
      show Restates v given .error
        (if v.kind = w.kind then v.equals w else .error (.caseMistyped v w)) (v.equals w)
      by_cases hkind : v.kind = w.kind
      · rw [if_pos hkind]
        exact .same _
      · rw [if_neg hkind, Value.equals_of_kind_ne hkind]
        exact .mistyped (hp w hw) hkind

theorem eval_equal (hselector : selector.eval env = .ok v) (p : Expr α) :
    (binary info .equal selector p).eval env = Value.bool <$> (p.eval env >>= v.equals) := by
  simp only [eval, hselector]
  show (p.eval env >>= fun w => Value.binary .equal v w) = _
  rw [map_bind]
  congr 1
  funext w
  exact Value.binary_equal v w

theorem eval_orElse {test : Expr α} {t : Except EvalError Bool}
    (htest : test.eval env = Value.bool <$> t) (e : Expr α) :
    (binary info .orElse test e).eval env =
      (t >>= fun found => if found then pure (.bool true) else e.eval env) := by
  simp only [eval, htest]
  cases t <;> rfl

/-- A row of comparisons behind a test holds if the test does or else one of them. -/
theorem eval_foldl_orElse (hselector : selector.eval env = .ok v) (patterns : List (Expr α))
    {test : Expr α} {t : Except EvalError Bool} (htest : test.eval env = Value.bool <$> t) :
    (patterns.foldl (fun test p => binary info .orElse test (binary info .equal selector p))
        test).eval env =
      Value.bool <$> (t >>= fun found =>
        if found then pure true else patterns.anyM fun p => p.eval env >>= v.equals) := by
  induction patterns generalizing test t with
  | nil =>
      rw [List.foldl_nil, htest]
      cases t with
      | error e => rfl
      | ok found => cases found <;> rfl
  | cons p patterns ih =>
      have hnext : (binary info .orElse test (binary info .equal selector p)).eval env =
          Value.bool <$> (t >>= fun found =>
            if found then pure true else p.eval env >>= v.equals) := by
        rw [eval_orElse htest, eval_equal hselector]
        cases t with
        | error e => rfl
        | ok found => cases found <;> rfl
      rw [List.foldl_cons, ih hnext, bind_assoc, anyM_cons]
      cases t with
      | error e => rfl
      | ok found => cases found <;> rfl

theorem eval_disjunction (hselector : selector.eval env = .ok v) {patterns : List (Expr α)}
    (hpatterns : patterns ≠ []) :
    (selector.disjunction info patterns).eval env =
      Value.bool <$> patterns.anyM fun p => p.eval env >>= v.equals := by
  cases patterns with
  | nil => exact absurd rfl hpatterns
  | cons p patterns =>
      rw [disjunction, eval_foldl_orElse hselector patterns (eval_equal hselector p), anyM_cons]

theorem eval_foldl_orElse_of_error {e : EvalError} (patterns : List (Expr α)) {test : Expr α}
    (htest : test.eval env = .error e) :
    (patterns.foldl (fun test p => binary info .orElse test (binary info .equal selector p))
        test).eval env = .error e := by
  induction patterns generalizing test with
  | nil => exact htest
  | cons p patterns ih =>
      apply ih
      simp only [eval, htest]
      rfl

/-- Without a value of the selector no comparison has one, and the first one decides. -/
theorem eval_disjunction_of_error {e : EvalError} (hselector : selector.eval env = .error e)
    {patterns : List (Expr α)} (hpatterns : patterns ≠ []) :
    (selector.disjunction info patterns).eval env = .error e := by
  cases patterns with
  | nil => exact absurd rfl hpatterns
  | cons p patterns =>
      apply eval_foldl_orElse_of_error patterns
      simp only [eval, hselector]
      rfl

theorem asBool_disjunction (place : Place) (hselector : selector.eval env = .ok v)
    {patterns : List (Expr α)} (hpatterns : patterns ≠ []) :
    (do (← (selector.disjunction info patterns).eval env).asBool place) =
      patterns.anyM fun p => p.eval env >>= v.equals := by
  rw [eval_disjunction hselector hpatterns]
  cases patterns.anyM fun p => p.eval env >>= v.equals <;> rfl

end Expr

namespace Stmt

variable {info : α} {selector : Expr α} {v : Value} {env : Environment} {given : Value → Prop}

/-! ### Arms and branches -/

/-- One arm and the branch it becomes, in front of what is done without them. -/
theorem arm_restates (place : Place) (hselector : selector.eval env = .ok v)
    {patterns : List (Expr α)} (hpatterns : patterns ≠ [])
    (hgiven : ∀ p ∈ patterns, ∀ w, p.eval env = .ok w → given w) (body : Action Outcome)
    {rest rest' : Action Outcome} (hrest : Restates v given (.error · env) (rest env) (rest' env)) :
    Restates v given (.error · env)
      ((do if ← .reading (Expr.anyEqualTo v · patterns) then body else rest : Action Outcome) env)
      ((do if ← (selector.disjunction info patterns).truth place then body else rest' :
        Action Outcome) env) := by
  apply Restates.reading_bind
  · rw [Expr.asBool_disjunction place hselector hpatterns, Expr.anyEqualTo_eq_anyM]
    exact .anyM fun p hp => p.isEqualTo_restates (hgiven p hp)
  · intro found
    cases found with
    | true => exact .same _
    | false => exact hrest

theorem execArms_restates (limit : Nat) (hselector : selector.eval env = .ok v)
    (otherwise : Action Outcome) (arms : List (List (Expr α) × Stmt α))
    (hpatterns : ∀ arm ∈ arms, arm.1 ≠ [])
    (hgiven : ∀ arm ∈ arms, ∀ p ∈ arm.1, ∀ w, p.eval env = .ok w → given w) :
    Restates v given (.error · env) (execArms limit v otherwise arms env)
      (execElsifs limit otherwise
        (arms.map fun arm => (selector.disjunction info arm.1, arm.2)) env) := by
  induction arms with
  | nil => exact .same _
  | cons arm rest ih =>
      rw [List.forall_mem_cons] at hpatterns hgiven
      exact arm_restates .elsifTest hselector hpatterns.1 hgiven.1 (arm.2.exec limit)
        (ih hpatterns.2 hgiven.2)

/-- Where the selector has no value, the case and the first test have none either. -/
theorem exec_caseOf_of_error (limit : Nat) {e : EvalError}
    (hselector : selector.eval env = .error e) {arms : List (List (Expr α) × Stmt α)}
    (otherwise : Option (Stmt α)) (harms : arms ≠ [])
    (hpatterns : ∀ arm ∈ arms, arm.1 ≠ []) :
    (caseOf info selector arms otherwise).exec limit env =
      (branches info selector otherwise arms).exec limit env := by
  cases arms with
  | nil => exact absurd rfl harms
  | cons arm rest =>
      rw [List.forall_mem_cons] at hpatterns
      have htest : (do (← (selector.disjunction info arm.1).eval env).asBool .ifTest) =
          (.error e : Except EvalError Bool) := by
        rw [Expr.eval_disjunction_of_error hselector hpatterns.1]
        rfl
      simp only [branches, exec]
      rw [Expr.value, Expr.truth, Action.bind_reading_of_error hselector,
        Action.bind_reading_of_error htest]

/-- Where it has one, the case and the branches stay together up to the first pattern that is of
another kind. -/
theorem exec_caseOf_restates (limit : Nat) (info : α) (hselector : selector.eval env = .ok v)
    {arms : List (List (Expr α) × Stmt α)} (otherwise : Option (Stmt α)) (harms : arms ≠ [])
    (hpatterns : ∀ arm ∈ arms, arm.1 ≠ [])
    (hgiven : ∀ arm ∈ arms, ∀ p ∈ arm.1, ∀ w, p.eval env = .ok w → given w) :
    Restates v given (.error · env) ((caseOf info selector arms otherwise).exec limit env)
      ((branches info selector otherwise arms).exec limit env) := by
  cases arms with
  | nil => exact absurd rfl harms
  | cons arm rest =>
      rw [List.forall_mem_cons] at hpatterns hgiven
      simp only [branches, exec]
      rw [Expr.value, Action.bind_reading_of_ok hselector]
      exact arm_restates .ifTest hselector hpatterns.1 hgiven.1 (arm.2.exec limit)
        (execArms_restates limit hselector _ rest hpatterns.2 hgiven.2)

/-- **A case does what its branches do.** It ends in the same outcome, or in the same defect, and
leaves the same environment, whatever its arms hold. The one exception is a pattern that is of
another kind than the selector: then the case ends in the defect that names the two values, and the
branches end in the defect of `==` that names their kinds. -/
theorem exec_caseOf_branches (limit : Nat) (info : α) (selector : Expr α)
    (arms : List (List (Expr α) × Stmt α)) (otherwise : Option (Stmt α)) (env : Environment)
    (harms : arms ≠ []) (hpatterns : ∀ arm ∈ arms, arm.1 ≠ []) :
    (caseOf info selector arms otherwise).exec limit env =
        (branches info selector otherwise arms).exec limit env ∨
    ∃ v w, selector.eval env = .ok v ∧ (∃ arm ∈ arms, ∃ p ∈ arm.1, p.eval env = .ok w) ∧
      v.kind ≠ w.kind ∧
      (caseOf info selector arms otherwise).exec limit env = .error (.caseMistyped v w) env ∧
      (branches info selector otherwise arms).exec limit env =
        .error (.operandsDiffer .equal v.kind w.kind) env := by
  cases hselector : selector.eval env with
  | error e =>
      left
      exact exec_caseOf_of_error limit hselector otherwise harms hpatterns
  | ok v =>
      have h : Restates v (fun w => ∃ arm ∈ arms, ∃ p ∈ arm.1, p.eval env = .ok w) (.error · env)
          ((caseOf info selector arms otherwise).exec limit env)
          ((branches info selector otherwise arms).exec limit env) := by
        apply exec_caseOf_restates limit info hselector otherwise harms hpatterns
        exact fun arm harm p hp w hw => ⟨arm, harm, p, hp, hw⟩
      generalize (caseOf info selector arms otherwise).exec limit env = r at h ⊢
      generalize (branches info selector otherwise arms).exec limit env = r' at h ⊢
      cases h with
      | same => exact .inl rfl
      | mistyped hw hkind => exact .inr ⟨v, _, rfl, hw, hkind, rfl, rfl⟩

def mixedArms : List (List (Expr Unit) × Stmt Unit) :=
  [([.int () 0, .int () 1], .undefined ()), ([.bitString () "11"], .unpredictable ())]

/-- Which of the two sides comes out is up to the selector: `1` is found among the numbers, and `2`
gets to the bit vector. -/
theorem mixedArms_branches :
    (caseOf () (.name () "tag") mixedArms none).exec 8 ⟨[("tag", .int 1)], .strict⟩ =
      (branches () (.name () "tag") none mixedArms).exec 8 ⟨[("tag", .int 1)], .strict⟩ ∧
    (branches () (.name () "tag") none mixedArms).exec 8 ⟨[("tag", .int 2)], .strict⟩ =
      .error (.operandsDiffer .equal .int .bits) ⟨[("tag", .int 2)], .strict⟩ := by
  have harms : mixedArms ≠ [] := by decide
  have hpatterns : ∀ arm ∈ mixedArms, arm.1 ≠ [] := by decide
  constructor
  · obtain hsame | ⟨v, w, -, -, -, h, -⟩ := exec_caseOf_branches 8 () (.name () "tag") mixedArms
      none ⟨[("tag", .int 1)], .strict⟩ harms hpatterns
    · exact hsame
    · cases h
  · obtain h | ⟨v, w, -, -, -, hcase, hbranches⟩ := exec_caseOf_branches 8 () (.name () "tag")
      mixedArms none ⟨[("tag", .int 2)], .strict⟩ harms hpatterns
    · cases h
    · cases hcase
      exact hbranches

end Stmt

end ArmPseudocode

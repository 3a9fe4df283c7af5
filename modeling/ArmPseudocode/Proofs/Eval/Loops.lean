import ArmPseudocode.Proofs.Eval.LoopFree
import ArmPseudocode.Proofs.Eval.Sequencing
import Mathlib.Data.Int.Range

/-!
# Loops

A counted loop is the row of its iterations written out, cut off at the limit. The other two are
iterations that complete, one behind the other, and then one that ends the loop: the test says so,
or has no value, or the body does not proceed, or the limit is reached. The three loops look at the
limit in different places. A loop that counts does so before it binds the variable, one that tests
first does so behind a test that holds, and one that tests last before it runs the body at all.
-/

namespace ArmPseudocode

variable {α : Type}

/-- What a run comes to, with the environment it leaves. -/
abbrev RunResult := EStateM.Result EvalError Environment Outcome

/-! ### Numbers in a row -/

theorem range_of_le {first last : Int} (h : last ≤ first) : Int.range first last = [] := by
  have hlength : (last - first).toNat = 0 := by omega
  rw [Int.range, hlength]
  rfl

theorem range_of_lt {first last : Int} (h : first < last) :
    Int.range first last = first :: Int.range (first + 1) last := by
  have hlength : (last - first).toNat = (last - (first + 1)).toNat + 1 := by omega
  rw [Int.range, hlength, List.range_succ_eq_map, List.map_cons, List.map_map]
  have hshift : (fun n : Nat => first + (n : Int)) ∘ Nat.succ = fun n : Nat => first + 1 + n := by
    funext n
    show first + ((n + 1 : Nat) : Int) = _
    omega
  rw [hshift]
  congr 1
  exact Int.add_zero first

theorem length_range (first last : Int) :
    (Int.range first last).length = (last - first).toNat := by
  rw [Int.range, List.length_map, List.length_range]

/-! ### Iterations -/

/-- A number of rounds, one behind the other, lead from an environment to another. -/
inductive Completes (round : Environment → Environment → Prop) :
    Nat → Environment → Environment → Prop
  | none (env : Environment) : Completes round 0 env env
  | more {n : Nat} {env next last : Environment} (hround : round env next)
      (hrest : Completes round n next last) : Completes round (n + 1) env last

/-- A loop that at each step either ends or has a round behind it goes on for some rounds and then
ends. -/
theorem Completes.run_iff {round : Environment → Environment → Prop}
    {ends : Nat → Environment → RunResult → Prop} {run : Nat → Environment → RunResult}
    (hzero : ∀ env result, run 0 env = result ↔ ends 0 env result)
    (hsucc : ∀ left env result, run (left + 1) env = result ↔
      ends (left + 1) env result ∨ ∃ next, round env next ∧ run left next = result)
    (left : Nat) (env : Environment) (result : RunResult) :
    run left env = result ↔
      ∃ n ≤ left, ∃ last, Completes round n env last ∧ ends (left - n) last result := by
  induction left generalizing env with
  | zero =>
      rw [hzero]
      constructor
      · intro h
        exact ⟨0, le_rfl, env, .none env, h⟩
      · rintro ⟨n, hn, last, hrounds, h⟩
        obtain rfl := Nat.le_zero.mp hn
        cases hrounds
        exact h
  | succ left ih =>
      rw [hsucc]
      constructor
      · rintro (h | ⟨next, hround, h⟩)
        · exact ⟨0, Nat.zero_le _, env, .none env, h⟩
        · obtain ⟨n, hn, last, hrounds, hends⟩ := (ih next).mp h
          refine ⟨n + 1, Nat.succ_le_succ hn, last, .more hround hrounds, ?_⟩
          rw [Nat.add_sub_add_right]
          exact hends
      · rintro ⟨n, hn, last, hrounds, hends⟩
        cases hrounds with
        | none => exact .inl hends
        | more hround hrest =>
            rw [Nat.add_sub_add_right] at hends
            exact .inr ⟨_, hround, (ih _).mpr ⟨_, Nat.le_of_succ_le_succ hn, last, hrest, hends⟩⟩

/-- If the end looks only at whether an iteration is left, it is either the one behind the last
iteration or one in an iteration before. -/
theorem Completes.limit_iff {round : Environment → Environment → Prop}
    {ends : Nat → Environment → Prop} {spent within : Environment → Prop}
    (hends : ∀ left mid, ends left mid ↔ left = 0 ∧ spent mid ∨ 0 < left ∧ within mid)
    (limit : Nat) (env : Environment) :
    (∃ n ≤ limit, ∃ mid, Completes round n env mid ∧ ends (limit - n) mid) ↔
      (∃ mid, Completes round limit env mid ∧ spent mid) ∨
      ∃ n < limit, ∃ mid, Completes round n env mid ∧ within mid := by
  constructor
  · rintro ⟨n, hn, mid, hrounds, h⟩
    rcases (hends _ _).mp h with ⟨hleft, hspent⟩ | ⟨hleft, hwithin⟩
    · obtain rfl : n = limit := by omega
      exact .inl ⟨mid, hrounds, hspent⟩
    · exact .inr ⟨n, by omega, mid, hrounds, hwithin⟩
  · rintro (⟨mid, hrounds, hspent⟩ | ⟨n, hn, mid, hrounds, hwithin⟩)
    · exact ⟨limit, le_rfl, mid, hrounds, (hends _ _).mpr (.inl ⟨Nat.sub_self limit, hspent⟩)⟩
    · exact ⟨n, hn.le, mid, hrounds, (hends _ _).mpr (.inr ⟨Nat.sub_pos_of_lt hn, hwithin⟩)⟩

namespace Expr

theorem eval_of_truth {e : Expr α} {place : Place} {env : Environment} {b : Bool}
    (h : (do (← e.eval env).asBool place) = .ok b) : e.eval env = .ok (.bool b) := by
  cases he : e.eval env with
  | error defect =>
      rw [he] at h
      cases h
  | ok v =>
      rw [he] at h
      cases v with
      | bool b' =>
          cases h
          rfl
      | _ => cases h

theorem truth_cases (e : Expr α) (place : Place) (env : Environment) :
    (∃ b, e.eval env = .ok (.bool b)) ∨ ∃ defect, e.truth place env = .error defect env := by
  cases hx : (do (← e.eval env).asBool place) with
  | ok b => exact .inl ⟨b, eval_of_truth hx⟩
  | error defect => exact .inr ⟨defect, Action.reading_of_error hx⟩

theorem truth_of_bool {e : Expr α} {env : Environment} {b : Bool}
    (he : e.eval env = .ok (.bool b)) (place : Place) : e.truth place env = .ok b env := by
  apply Action.reading_of_ok
  rw [he]
  rfl

/-- A test that has no truth value does not look like a loop that has run out. -/
theorem truth_ne_loopLimit (e : Expr α) (place : Place) (env left : Environment) (limit : Nat) :
    e.truth place env ≠ .error (.loopLimit limit) left := by
  intro h
  rw [truth] at h
  cases hx : (do (← e.eval env).asBool place) with
  | ok b =>
      rw [Action.reading_of_ok hx] at h
      cases h
  | error defect =>
      rw [Action.reading_of_error hx] at h
      cases h
      exact (e.loopFree_truth env place).ne_loopLimit limit hx

end Expr

namespace Stmt

variable (limit : Nat)

/-! ### Loops that count -/

section ForTo

variable (info : α) (var : String) (body : Stmt α)

def unrolled (ks : List Int64) : List (Stmt α) :=
  ks.flatMap fun k => [assign info (.name info var) (.int info k), body]

/-- Each iteration of the loop is one of the row, and the limit is looked at behind the row. -/
theorem forLoop_eq_unrolled (last : Int) (left : Nat) (k : Int) :
    Action.forLoop limit var last (body.exec limit) left k =
      Action.andThen
        (execAll limit (unrolled info var body
          ((Int.range k (min last (k + left - 1) + 1)).map Int64.ofInt)))
        (if left < last - k + 1 then throw (.loopLimit limit) else pure .proceed) := by
  induction left generalizing k with
  | zero =>
      rw [range_of_le (by omega)]
      show _ = ite _ _ _
      rw [Action.forLoop]
      exact if_congr (by omega) rfl rfl
  | succ left ih =>
      by_cases hk : k ≤ last
      · have hrest : k + 1 + (left : Int) - 1 = k + (left + 1 : Nat) - 1 := by omega
        have htest : ((left + 1 : Nat) : Int) < last - k + 1 ↔
            (left : Int) < last - (k + 1) + 1 := by omega
        rw [range_of_lt (by omega), List.map_cons, Action.forLoop, if_pos hk, ih (k + 1), hrest,
          ← Action.andThen_assoc]
        -- The assignment in front of the body is the binding that the loop makes itself.
        funext env
        rw [if_congr htest rfl rfl]
        rfl
      · rw [range_of_le (by omega), Action.forLoop, if_neg hk, if_neg (by omega)]
        rfl

/-- No iteration of a loop between two integers of 64 bits is numbered beyond them. -/
theorem toInt_counts (a b : Int64) :
    ((Int.range a.toInt (min b.toInt (a.toInt + limit - 1) + 1)).map Int64.ofInt).map Int64.toInt =
      Int.range a.toInt (min b.toInt (a.toInt + limit - 1) + 1) := by
  have hexact : ∀ k ∈ Int.range a.toInt (min b.toInt (a.toInt + limit - 1) + 1),
      (Int64.toInt ∘ Int64.ofInt) k = id k := by
    intro k hk
    rw [Int.mem_range_iff] at hk
    have ha := a.le_toInt
    have hb := b.toInt_lt
    exact Int64.toInt_ofInt_of_le (by omega) (by omega)
  rw [List.map_map, List.map_congr_left hexact, List.map_id]

theorem integer_of_int {e : Expr α} {n : Int64} {env : Environment}
    (he : e.eval env = .ok (.int n)) : e.integer .loopBound env = .ok n env := by
  apply Action.reading_of_ok
  rw [he]
  rfl

/-- A loop that counts binds its variable anew in each iteration, to a number that the body has no
part in. -/
theorem exec_forTo {first last : Expr α} {a b : Int64} {env : Environment}
    (hfirst : first.eval env = .ok (.int a)) (hlast : last.eval env = .ok (.int b)) :
    ∃ ks : List Int64,
      ks.map Int64.toInt = Int.range a.toInt (min b.toInt (a.toInt + limit - 1) + 1) ∧
      (limit < b.toInt - a.toInt + 1 → ks.length = limit) ∧
      (forTo info var first last body).exec limit env =
        Action.andThen (execAll limit (unrolled info var body ks))
          (if limit < b.toInt - a.toInt + 1 then throw (.loopLimit limit) else pure .proceed)
          env := by
  refine ⟨_, toInt_counts limit a b, ?_, ?_⟩
  · intro hlimit
    rw [List.length_map, length_range]
    omega
  · simp only [exec]
    rw [Action.bind_of_ok (integer_of_int hfirst), Action.bind_of_ok (integer_of_int hlast),
      forLoop_eq_unrolled limit info var body]

end ForTo

/-! ### Loops that test first -/

section WhileDo

variable (test : Expr α) (body : Stmt α)

/-- The test holds and the body proceeds. -/
def WhileRound (env next : Environment) : Prop :=
  test.eval env = .ok (.bool true) ∧ body.exec limit env = .ok .proceed next

/-- How a loop that tests first ends in an iteration, with some iterations left to it. -/
inductive WhileEnds : Nat → Environment → RunResult → Prop
  | done {left : Nat} {env : Environment} (htest : test.eval env = .ok (.bool false)) :
      WhileEnds left env (.ok .proceed env)
  | untested {left : Nat} {env : Environment} {defect : EvalError}
      (htest : test.truth .whileTest env = .error defect env) :
      WhileEnds left env (.error defect env)
  | ended {left : Nat} {env : Environment} (htest : test.eval env = .ok (.bool true))
      (hbody : ∀ next, body.exec limit env ≠ .ok .proceed next) :
      WhileEnds (left + 1) env (body.exec limit env)
  | spent {env : Environment} (htest : test.eval env = .ok (.bool true)) :
      WhileEnds 0 env (.error (.loopLimit limit) env)

variable {test body} {env : Environment}

theorem whileLoop_of_false (htest : test.eval env = .ok (.bool false)) (left : Nat) :
    Action.whileLoop limit (test.truth .whileTest) (body.exec limit) left env =
      .ok .proceed env := by
  cases left with
  | zero => exact Action.bind_of_ok (test.truth_of_bool htest .whileTest)
  | succ left => exact Action.bind_of_ok (test.truth_of_bool htest .whileTest)

theorem whileLoop_of_error {defect : EvalError}
    (htest : test.truth .whileTest env = .error defect env) (left : Nat) :
    Action.whileLoop limit (test.truth .whileTest) (body.exec limit) left env =
      .error defect env := by
  cases left with
  | zero => exact Action.bind_of_error htest
  | succ left => exact Action.bind_of_error htest

theorem whileLoop_zero_of_true (htest : test.eval env = .ok (.bool true)) :
    Action.whileLoop limit (test.truth .whileTest) (body.exec limit) 0 env =
      .error (.loopLimit limit) env :=
  Action.bind_of_ok (test.truth_of_bool htest .whileTest)

theorem whileLoop_succ_of_true (htest : test.eval env = .ok (.bool true)) (left : Nat) :
    Action.whileLoop limit (test.truth .whileTest) (body.exec limit) (left + 1) env =
      Action.andThen (body.exec limit)
        (Action.whileLoop limit (test.truth .whileTest) (body.exec limit) left) env :=
  Action.bind_of_ok (test.truth_of_bool htest .whileTest)

theorem whileLoop_zero_iff (result : RunResult) :
    Action.whileLoop limit (test.truth .whileTest) (body.exec limit) 0 env = result ↔
      WhileEnds limit test body 0 env result := by
  constructor
  · rintro rfl
    rcases test.truth_cases .whileTest env with ⟨b, htest⟩ | ⟨defect, htest⟩
    · cases b with
      | true =>
          rw [whileLoop_zero_of_true limit htest]
          exact .spent htest
      | false =>
          rw [whileLoop_of_false limit htest]
          exact .done htest
    · rw [whileLoop_of_error limit htest]
      exact .untested htest
  · intro h
    cases h with
    | done htest => exact whileLoop_of_false limit htest 0
    | untested htest => exact whileLoop_of_error limit htest 0
    | spent htest => exact whileLoop_zero_of_true limit htest

theorem whileLoop_succ_iff (left : Nat) (result : RunResult) :
    Action.whileLoop limit (test.truth .whileTest) (body.exec limit) (left + 1) env = result ↔
      WhileEnds limit test body (left + 1) env result ∨
      ∃ next, WhileRound limit test body env next ∧
        Action.whileLoop limit (test.truth .whileTest) (body.exec limit) left next = result := by
  constructor
  · rintro rfl
    rcases test.truth_cases .whileTest env with ⟨b, htest⟩ | ⟨defect, htest⟩
    · cases b with
      | true =>
          rw [whileLoop_succ_of_true limit htest]
          rcases Action.proceeds_or_ends (body.exec limit) env with ⟨next, hnext⟩ | hbody
          · rw [Action.andThen_of_proceed hnext]
            exact .inr ⟨next, ⟨htest, hnext⟩, rfl⟩
          · rw [Action.andThen_of_ends hbody]
            exact .inl (.ended htest hbody)
      | false =>
          rw [whileLoop_of_false limit htest]
          exact .inl (.done htest)
    · rw [whileLoop_of_error limit htest]
      exact .inl (.untested htest)
  · rintro (h | ⟨next, ⟨htest, hnext⟩, h⟩)
    · cases h with
      | done htest => exact whileLoop_of_false limit htest _
      | untested htest => exact whileLoop_of_error limit htest _
      | ended htest hbody =>
          rw [whileLoop_succ_of_true limit htest]
          exact Action.andThen_of_ends hbody
    · rw [whileLoop_succ_of_true limit htest, Action.andThen_of_proceed hnext]
      exact h

variable (info : α) (test body env)

/-- A loop that tests first goes through rounds and ends in the first iteration that is none. -/
theorem exec_whileDo_iff (result : RunResult) :
    (whileDo info test body).exec limit env = result ↔
      ∃ n ≤ limit, ∃ last, Completes (WhileRound limit test body) n env last ∧
        WhileEnds limit test body (limit - n) last result := by
  simp only [exec]
  exact Completes.run_iff (fun env => whileLoop_zero_iff limit)
    (fun left env => whileLoop_succ_iff limit left) limit env result

/-- No defect of the test passes for the limit. -/
theorem whileEnds_limit_iff (left : Nat) (mid last : Environment) :
    WhileEnds limit test body left mid (.error (.loopLimit limit) last) ↔
      left = 0 ∧ mid = last ∧ test.eval mid = .ok (.bool true) ∨
      0 < left ∧ test.eval mid = .ok (.bool true) ∧
        body.exec limit mid = .error (.loopLimit limit) last := by
  constructor
  · generalize hresult : (.error (.loopLimit limit) last : RunResult) = result
    intro h
    cases h with
    | done => cases hresult
    | untested htest =>
        cases hresult
        exact absurd htest (test.truth_ne_loopLimit _ _ _ _)
    | ended htest hbody => exact .inr ⟨Nat.succ_pos _, htest, rfl⟩
    | spent htest =>
        cases hresult
        exact .inl ⟨rfl, rfl, htest⟩
  · rintro (⟨rfl, rfl, htest⟩ | ⟨hleft, htest, hbody⟩)
    · exact .spent htest
    · obtain ⟨left, rfl⟩ := Nat.exists_eq_add_one.mpr hleft
      rw [← hbody]
      apply WhileEnds.ended htest
      intro next h
      rw [hbody] at h
      cases h

theorem exec_whileDo_limit_iff (last : Environment) :
    (whileDo info test body).exec limit env = .error (.loopLimit limit) last ↔
      Completes (WhileRound limit test body) limit env last ∧ test.eval last = .ok (.bool true) ∨
      ∃ n < limit, ∃ mid, Completes (WhileRound limit test body) n env mid ∧
        test.eval mid = .ok (.bool true) ∧
        body.exec limit mid = .error (.loopLimit limit) last := by
  rw [exec_whileDo_iff, Completes.limit_iff fun left mid =>
    whileEnds_limit_iff limit test body left mid last]
  simp only [and_left_comm, exists_eq_left]

end WhileDo

/-! ### Loops that test last -/

section RepeatUntil

variable (body : Stmt α) (test : Expr α)

/-- The body proceeds and the test does not hold behind it. -/
def RepeatRound (env next : Environment) : Prop :=
  body.exec limit env = .ok .proceed next ∧ test.eval next = .ok (.bool false)

/-- How a loop that tests last ends in an iteration, with some iterations left to it. -/
inductive RepeatEnds : Nat → Environment → RunResult → Prop
  | done {left : Nat} {env next : Environment} (hbody : body.exec limit env = .ok .proceed next)
      (htest : test.eval next = .ok (.bool true)) : RepeatEnds (left + 1) env (.ok .proceed next)
  | untested {left : Nat} {env next : Environment} {defect : EvalError}
      (hbody : body.exec limit env = .ok .proceed next)
      (htest : test.truth .untilTest next = .error defect next) :
      RepeatEnds (left + 1) env (.error defect next)
  | ended {left : Nat} {env : Environment}
      (hbody : ∀ next, body.exec limit env ≠ .ok .proceed next) :
      RepeatEnds (left + 1) env (body.exec limit env)
  | spent {env : Environment} : RepeatEnds 0 env (.error (.loopLimit limit) env)

variable {body test} {env : Environment}

theorem repeatLoop_succ_of_ends (hbody : ∀ next, body.exec limit env ≠ .ok .proceed next)
    (left : Nat) :
    Action.repeatLoop limit (body.exec limit) (test.truth .untilTest) (left + 1) env =
      body.exec limit env :=
  Action.andThen_of_ends hbody

theorem repeatLoop_succ_of_bool {next : Environment} {b : Bool}
    (hbody : body.exec limit env = .ok .proceed next) (htest : test.eval next = .ok (.bool b))
    (left : Nat) :
    Action.repeatLoop limit (body.exec limit) (test.truth .untilTest) (left + 1) env =
      if b then .ok .proceed next
      else Action.repeatLoop limit (body.exec limit) (test.truth .untilTest) left next := by
  rw [Action.repeatLoop, Action.andThen_of_proceed hbody,
    Action.bind_of_ok (test.truth_of_bool htest .untilTest)]
  cases b <;> rfl

theorem repeatLoop_succ_of_error {next : Environment} {defect : EvalError}
    (hbody : body.exec limit env = .ok .proceed next)
    (htest : test.truth .untilTest next = .error defect next) (left : Nat) :
    Action.repeatLoop limit (body.exec limit) (test.truth .untilTest) (left + 1) env =
      .error defect next := by
  rw [Action.repeatLoop, Action.andThen_of_proceed hbody]
  exact Action.bind_of_error htest

theorem repeatLoop_zero_iff (result : RunResult) :
    Action.repeatLoop limit (body.exec limit) (test.truth .untilTest) 0 env = result ↔
      RepeatEnds limit body test 0 env result := by
  constructor
  · rintro rfl
    exact .spent
  · intro h
    cases h
    rfl

theorem repeatLoop_succ_iff (left : Nat) (result : RunResult) :
    Action.repeatLoop limit (body.exec limit) (test.truth .untilTest) (left + 1) env = result ↔
      RepeatEnds limit body test (left + 1) env result ∨
      ∃ next, RepeatRound limit body test env next ∧
        Action.repeatLoop limit (body.exec limit) (test.truth .untilTest) left next = result := by
  constructor
  · rintro rfl
    rcases Action.proceeds_or_ends (body.exec limit) env with ⟨next, hnext⟩ | hbody
    · rcases test.truth_cases .untilTest next with ⟨b, htest⟩ | ⟨defect, htest⟩
      · rw [repeatLoop_succ_of_bool limit hnext htest]
        cases b with
        | true => exact .inl (.done hnext htest)
        | false => exact .inr ⟨next, ⟨hnext, htest⟩, rfl⟩
      · rw [repeatLoop_succ_of_error limit hnext htest]
        exact .inl (.untested hnext htest)
    · rw [repeatLoop_succ_of_ends limit hbody]
      exact .inl (.ended hbody)
  · rintro (h | ⟨next, ⟨hnext, htest⟩, h⟩)
    · cases h with
      | done hnext htest => exact repeatLoop_succ_of_bool limit hnext htest left
      | untested hnext htest => exact repeatLoop_succ_of_error limit hnext htest left
      | ended hbody => exact repeatLoop_succ_of_ends limit hbody left
    · rw [repeatLoop_succ_of_bool limit hnext htest]
      exact h

variable (info : α) (body test env)

theorem exec_repeatUntil_iff (result : RunResult) :
    (repeatUntil info body test).exec limit env = result ↔
      ∃ n ≤ limit, ∃ last, Completes (RepeatRound limit body test) n env last ∧
        RepeatEnds limit body test (limit - n) last result := by
  simp only [exec]
  exact Completes.run_iff (fun env => repeatLoop_zero_iff limit)
    (fun left env => repeatLoop_succ_iff limit left) limit env result

theorem repeatEnds_limit_iff (left : Nat) (mid last : Environment) :
    RepeatEnds limit body test left mid (.error (.loopLimit limit) last) ↔
      left = 0 ∧ mid = last ∨ 0 < left ∧ body.exec limit mid = .error (.loopLimit limit) last := by
  constructor
  · generalize hresult : (.error (.loopLimit limit) last : RunResult) = result
    intro h
    cases h with
    | done => cases hresult
    | untested hbody htest =>
        cases hresult
        exact absurd htest (test.truth_ne_loopLimit _ _ _ _)
    | ended hbody => exact .inr ⟨Nat.succ_pos _, rfl⟩
    | spent =>
        cases hresult
        exact .inl ⟨rfl, rfl⟩
  · rintro (⟨rfl, rfl⟩ | ⟨hleft, hbody⟩)
    · exact .spent
    · obtain ⟨left, rfl⟩ := Nat.exists_eq_add_one.mpr hleft
      rw [← hbody]
      apply RepeatEnds.ended
      intro next h
      rw [hbody] at h
      cases h

theorem exec_repeatUntil_limit_iff (last : Environment) :
    (repeatUntil info body test).exec limit env = .error (.loopLimit limit) last ↔
      Completes (RepeatRound limit body test) limit env last ∨
      ∃ n < limit, ∃ mid, Completes (RepeatRound limit body test) n env mid ∧
        body.exec limit mid = .error (.loopLimit limit) last := by
  rw [exec_repeatUntil_iff, Completes.limit_iff fun left mid =>
    repeatEnds_limit_iff limit body test left mid last]
  simp only [exists_eq_right]

end RepeatUntil

/-! ### The three loops -/

/-- **What loops do.** A loop that counts is its iterations written out, from the first number up to
the last one or as many as the limit allows, and then the defect of the limit if numbers are left.
The other loops go through iterations that complete up to one that ends them, and end in the defect
of the limit where the limit's number of iterations has completed and the loop would go on: where
the test holds once more, if it comes first, and always, if it comes last. A loop within the body
may run out as well, and its defect is then that of the body. -/
theorem loops_run (info : α) (body : Stmt α) (env : Environment) :
    (∀ (var : String) (first last : Expr α) (a b : Int64),
      first.eval env = .ok (.int a) → last.eval env = .ok (.int b) →
      ∃ ks : List Int64,
        ks.map Int64.toInt = Int.range a.toInt (min b.toInt (a.toInt + limit - 1) + 1) ∧
        (limit < b.toInt - a.toInt + 1 → ks.length = limit) ∧
        (forTo info var first last body).exec limit env =
          Action.andThen (execAll limit (unrolled info var body ks))
            (if limit < b.toInt - a.toInt + 1 then throw (.loopLimit limit) else pure .proceed)
            env) ∧
    (∀ test : Expr α,
      (∀ result, (whileDo info test body).exec limit env = result ↔
        ∃ n ≤ limit, ∃ last, Completes (WhileRound limit test body) n env last ∧
          WhileEnds limit test body (limit - n) last result) ∧
      ∀ last, (whileDo info test body).exec limit env = .error (.loopLimit limit) last ↔
        Completes (WhileRound limit test body) limit env last ∧
          test.eval last = .ok (.bool true) ∨
        ∃ n < limit, ∃ mid, Completes (WhileRound limit test body) n env mid ∧
          test.eval mid = .ok (.bool true) ∧
          body.exec limit mid = .error (.loopLimit limit) last) ∧
    ∀ test : Expr α,
      (∀ result, (repeatUntil info body test).exec limit env = result ↔
        ∃ n ≤ limit, ∃ last, Completes (RepeatRound limit body test) n env last ∧
          RepeatEnds limit body test (limit - n) last result) ∧
      ∀ last, (repeatUntil info body test).exec limit env = .error (.loopLimit limit) last ↔
        Completes (RepeatRound limit body test) limit env last ∨
        ∃ n < limit, ∃ mid, Completes (RepeatRound limit body test) n env mid ∧
          body.exec limit mid = .error (.loopLimit limit) last :=
  ⟨fun var _ _ _ _ => exec_forTo limit info var body,
    fun test => ⟨exec_whileDo_iff limit test body env info,
      exec_whileDo_limit_iff limit test body env info⟩,
    fun test => ⟨exec_repeatUntil_iff limit body test env info,
      exec_repeatUntil_limit_iff limit body test env info⟩⟩

def resetBody : Stmt Unit :=
  .assign () (.name () "i") (.int () 0)

/-- The count does not follow the variable, and at the greatest integer it has somewhere to stop. A
loop around the same body that tests runs out. -/
theorem resetBody_loops :
    (∃ k : Int64, k.toInt = 2 ^ 63 - 2 ∧
      (forTo () "i" (.int () (Int64.maxValue - 1)) (.int () Int64.maxValue) resetBody).exec 1
          (.empty .strict) =
        Action.andThen (execAll 1 (unrolled () "i" resetBody [k])) (throw (.loopLimit 1))
          (.empty .strict)) ∧
    (whileDo () (.name () "TRUE") resetBody).exec 1 (.empty .strict) =
      .error (.loopLimit 1) ⟨[("i", .int 0)], .strict⟩ ∧
    (repeatUntil () resetBody (.name () "FALSE")).exec 1 (.empty .strict) =
      .error (.loopLimit 1) ⟨[("i", .int 0)], .strict⟩ := by
  obtain ⟨hfor, hwhile, hrepeat⟩ := loops_run 1 () resetBody (.empty .strict)
  refine ⟨?_, ?_, ?_⟩
  · obtain ⟨ks, hks, -, hexec⟩ := hfor "i" (.int () (Int64.maxValue - 1)) (.int () Int64.maxValue)
      (Int64.maxValue - 1) Int64.maxValue rfl rfl
    have hrange : ks.map Int64.toInt = [2 ^ 63 - 2] := hks.trans (by decide)
    obtain ⟨k, rfl, hk⟩ := List.map_eq_singleton_iff.mp hrange
    refine ⟨k, hk, ?_⟩
    rw [hexec, if_pos (by decide)]
  · rw [(hwhile (.name () "TRUE")).2]
    exact .inl ⟨.more ⟨rfl, rfl⟩ (.none _), rfl⟩
  · rw [(hrepeat (.name () "FALSE")).2]
    exact .inl (.more ⟨rfl, rfl⟩ (.none _))

end Stmt

end ArmPseudocode

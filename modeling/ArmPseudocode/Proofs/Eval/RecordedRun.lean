import ArmPseudocode.Proofs.Eval.Recorded

/-!
# Recorded runs

What the statements of a program meet is recorded as well. A loop visits each of its rounds, since
the rounds in front of it complete under watch as they do without it.
-/

namespace ArmPseudocode

open Watched

variable {α : Type} {env mid next : Environment} {e test : Expr α} {b : Bool} {n : Nat}

namespace Watched

theorem andThen_assoc (first second third : Watched Outcome) :
    andThen (andThen first second) third = andThen first (andThen second third) := by
  funext w
  unfold andThen
  cases first w with
  | ok outcome w => cases outcome <;> rfl
  | error e w => rfl

end Watched

namespace Expr

theorem gives_truth (henv : env.WellFormed) (hfilled : e.Filled)
    (he : e.eval env = .ok (.bool b)) (place : Place) :
    Gives (e.watchedTruth place) env b env :=
  (watchedTruth_tracks place hfilled).gives henv (e.truth_of_bool he place)

theorem gives_integer {k : Int64} (henv : env.WellFormed) (hfilled : e.Filled)
    (he : e.eval env = .ok (.int k)) : Gives (e.watchedInteger .loopBound) env k env :=
  (watchedInteger_tracks .loopBound hfilled).gives henv (Stmt.integer_of_int he)

/-- No pattern equals the selector only if the first does not and no other does. -/
theorem anyEqualTo_cons_of_false {pattern : Expr α} {patterns : List (Expr α)} {v : Value}
    (h : anyEqualTo v env (pattern :: patterns) = .ok false) :
    pattern.isEqualTo v env = .ok false ∧ anyEqualTo v env patterns = .ok false := by
  rw [anyEqualTo] at h
  cases hpattern : pattern.isEqualTo v env with
  | error defect =>
      rw [hpattern] at h
      cases h
  | ok holds =>
      rw [hpattern] at h
      cases holds with
      | true => cases h
      | false => exact ⟨rfl, h⟩

/-- The outcome of a comparison is recorded. -/
theorem notes_equalTo {v : Value} (henv : env.WellFormed) (hfilled : e.Filled)
    (h : e.isEqualTo v env = .ok b) : Notes (e.watchedEqualTo v) env (.value (.bool b)) := by
  rw [isEqualTo] at h
  cases he : e.eval env with
  | error defect =>
      rw [he] at h
      cases h
  | ok w =>
      rw [he] at h
      change (if v.kind = w.kind then v.equals w else throw _) = _ at h
      refine (Visits.behind (gives_watched henv hfilled he)).notes ?_
      split at h
      · next hkind =>
          rw [if_pos hkind]
          exact .computedAs h
      · cases h

end Expr

namespace Stmt

variable {limit : Nat} {s body : Stmt α}

theorem watchedAll_append (before after : List (Stmt α)) :
    watchedAll limit (before ++ after) =
      andThen (watchedAll limit before) (watchedAll limit after) := by
  induction before with
  | nil => rfl
  | cons s before ih =>
      rw [List.cons_append, watchedAll, ih, ← andThen_assoc]
      rfl

/-! ### Branches -/

section Branches

variable {otherwise : Watched Outcome} (henv : env.WellFormed)
include henv

/-- The tests that do not hold are passed by. -/
theorem visits_elsifs {before : List (Expr α × Stmt α)} (rest : List (Expr α × Stmt α))
    (hfilled : ∀ arm ∈ before, arm.1.Filled)
    (hbefore : ∀ arm ∈ before, arm.1.eval env = .ok (.bool false)) :
    Visits (watchedElsifs limit otherwise (before ++ rest)) env
      (watchedElsifs limit otherwise rest) env := by
  induction before with
  | nil => exact .refl _ _
  | cons arm before ih =>
      obtain ⟨harm, hfilled⟩ := List.forall_mem_cons.mp hfilled
      obtain ⟨hfalse, hbefore⟩ := List.forall_mem_cons.mp hbefore
      exact (Visits.behind (arm.1.gives_truth henv harm hfalse _)).trans (ih hfilled hbefore)

theorem visits_arms {before : List (List (Expr α) × Stmt α)}
    (rest : List (List (Expr α) × Stmt α)) {v : Value}
    (hfilled : ∀ arm ∈ before, ∀ e ∈ arm.1, e.Filled)
    (hbefore : ∀ arm ∈ before, Expr.anyEqualTo v env arm.1 = .ok false) :
    Visits (watchedArms limit v otherwise (before ++ rest)) env
      (watchedArms limit v otherwise rest) env := by
  induction before with
  | nil => exact .refl _ _
  | cons arm before ih =>
      obtain ⟨harm, hfilled⟩ := List.forall_mem_cons.mp hfilled
      obtain ⟨hfalse, hbefore⟩ := List.forall_mem_cons.mp hbefore
      have hgives := (Expr.watchedAnyEqualTo_mirrors henv v arm.1 harm).gives hfalse
      exact (Visits.behind hgives).trans (ih hfilled hbefore)

theorem visits_pattern {front : List (Expr α)} (pattern : Expr α) (behind : List (Expr α))
    {v : Value} (hfilled : ∀ e ∈ front, e.Filled)
    (hfront : Expr.anyEqualTo v env front = .ok false) :
    Visits (Expr.watchedAnyEqualTo v (front ++ pattern :: behind)) env
      (pattern.watchedEqualTo v) env := by
  induction front with
  | nil =>
      have hrest : ∀ holds : Bool, Appends (if holds then Pure.pure true
          else Expr.watchedAnyEqualTo v behind) :=
        fun _ => .ite (.pure true) (Expr.watchedAnyEqualTo_appends v behind)
      exact .head hrest
  | cons first front ih =>
      obtain ⟨hfirst, hfilled⟩ := List.forall_mem_cons.mp hfilled
      obtain ⟨hfalse, hfront⟩ := Expr.anyEqualTo_cons_of_false hfront
      have hgives := (Expr.watchedEqualTo_mirrors henv first v hfirst).gives hfalse
      exact (Visits.behind hgives).trans (ih hfilled hfront)

end Branches

/-! ### Loops -/

section Rounds

variable (htest : test.Filled) (hbody : body.Everywhere Expr.Filled)
include htest hbody

theorem visits_whileLoop (hrounds : Completes (WhileRound limit test body) n env mid)
    (henv : env.WellFormed) (left : Nat) :
    mid.WellFormed ∧
      Visits (whileLoop limit (test.watchedTruth .whileTest) (body.watched limit) (left + n)) env
        (whileLoop limit (test.watchedTruth .whileTest) (body.watched limit) left) mid := by
  induction hrounds with
  | none => exact ⟨henv, .refl _ _⟩
  | more hround _ ih =>
      obtain ⟨htrue, hproceed⟩ := hround
      have htracks := watched_tracks limit body hbody
      obtain ⟨hmid, hvisits⟩ := ih (htracks.wellFormed_of_ok henv hproceed)
      refine ⟨hmid, (Visits.behind (test.gives_truth henv htest htrue _)).trans ?_⟩
      exact (Visits.andThen_behind (htracks.gives henv hproceed)).trans hvisits

theorem visits_repeatLoop (hrounds : Completes (RepeatRound limit body test) n env mid)
    (henv : env.WellFormed) (left : Nat) :
    mid.WellFormed ∧
      Visits (repeatLoop limit (body.watched limit) (test.watchedTruth .untilTest) (left + n)) env
        (repeatLoop limit (body.watched limit) (test.watchedTruth .untilTest) left) mid := by
  induction hrounds with
  | none => exact ⟨henv, .refl _ _⟩
  | more hround _ ih =>
      obtain ⟨hproceed, hfalse⟩ := hround
      have htracks := watched_tracks limit body hbody
      have hnext := htracks.wellFormed_of_ok henv hproceed
      obtain ⟨hmid, hvisits⟩ := ih hnext
      refine ⟨hmid, (Visits.andThen_behind (htracks.gives henv hproceed)).trans ?_⟩
      exact (Visits.behind (test.gives_truth hnext htest hfalse _)).trans hvisits

end Rounds

section Number

variable {var : String} {last k : Int} (hle : k ≤ last)
include hle

theorem notes_count {body : Watched Outcome} (hbody : Appends body) (left : Nat) :
    Notes (forLoop limit var last body (left + 1) k) env (.value (.int (Int64.ofInt k))) := by
  rw [forLoop, if_pos hle]
  refine (Visits.head fun v => (Appends.unrecorded _).bind fun _ => ?_).notes (.computed rfl)
  exact .andThen hbody (.forLoop var last hbody limit left (k + 1))

/-- The number is bound before the body runs. -/
theorem visits_count (body : Watched Outcome) (left : Nat) :
    Visits (forLoop limit var last body (left + 1) k) env
      (andThen body (forLoop limit var last body left (k + 1)))
      (env.bind var (.int (Int64.ofInt k))) := by
  rw [forLoop, if_pos hle]
  have hvalue : Gives (computed (.ok (.int (Int64.ofInt k)))) env (.int (Int64.ofInt k)) env :=
    (Mirrors.computed (.ok (.int _))).gives rfl
  have hbind : Gives (unrecorded (.bind var (.int (Int64.ofInt k)))) env ()
      (env.bind var (.int (Int64.ofInt k))) :=
    fun events hevents => ⟨events, hevents, rfl⟩
  exact (Visits.behind hvalue).trans (.behind hbind)

end Number

section Counts

variable {var : String} {last k k' : Int} (hbody : body.Everywhere Expr.Filled)
include hbody

/-- A loop that counts visits each of its rounds up to the last number. -/
theorem visits_forLoop (hrounds : Counts limit var body k env k' mid) (henv : env.WellFormed)
    (hle : k' ≤ last) :
    mid.WellFormed ∧ ∃ n : Nat, k' = k + n ∧ ∀ left,
      Visits (forLoop limit var last (body.watched limit) (left + n) k) env
        (forLoop limit var last (body.watched limit) left k') mid := by
  induction hrounds with
  | none k env => exact ⟨henv, 0, (Int.add_zero k).symm, fun left => .refl _ _⟩
  | @more k k' env next mid hproceed hrest ih =>
      have htracks := watched_tracks limit body hbody
      have hbound := henv.bind var (.int (Int64.ofInt k))
      obtain ⟨hmid, n, rfl, hvisits⟩ := ih (htracks.wellFormed_of_ok hbound hproceed) hle
      refine ⟨hmid, n + 1, by omega, fun left => ?_⟩
      refine (visits_count (by omega) _ _).trans ?_
      exact (Visits.andThen_behind (htracks.gives hbound hproceed)).trans (hvisits left)

end Counts

/-! ### Parts of statements -/

variable {part : Stmt α} {event : Event}

theorem Executes.everywhere {P : Expr α → Prop} (h : Executes limit s env part mid)
    (hs : s.Everywhere P) : part.Everywhere P := by
  cases h with
  | ifBody => exact (everywhere_branch.mp hs).2.1
  | elsifBody => exact ((everywhere_branch.mp hs).2.2.1 _ List.mem_append_cons_self).2
  | elseBody => exact (everywhere_branch.mp hs).2.2.2 part rfl
  | repeated => exact (everywhere_repeatUntil.mp hs).2
  | guarded => exact (everywhere_whileDo.mp hs).2
  | counted => exact (everywhere_forTo.mp hs).2.2
  | arm => exact ((everywhere_caseOf.mp hs).2.1 _ List.mem_append_cons_self).2
  | otherwise => exact (everywhere_caseOf.mp hs).2.2 part rfl
  | line => exact everywhere_block.mp hs part List.mem_append_cons_self

theorem AtPattern.mem_exprs {v : Value} (h : AtPattern env v s e) : e ∈ s.exprs := by
  cases h
  simp [exprs]

theorem Evaluates.mem_exprs (h : Evaluates limit s env e mid) : e ∈ s.exprs := by
  cases h with
  | pattern h => exact h.mem_exprs
  | _ => simp [exprs]

/-- From the point at which a counted loop is about to run its body it has iterations left. -/
theorem AtCount.visits {info : α} {var : String} {first last : Expr α} {k : Int}
    (h : AtCount limit var first last body env k mid) (henv : env.WellFormed)
    (hs : (forTo info var first last body).Everywhere Expr.Filled) :
    mid.WellFormed ∧ ∃ b left, k ≤ b ∧
      Visits ((forTo info var first last body).watched limit) env
        (forLoop limit var b (body.watched limit) (left + 1) k) mid := by
  obtain @⟨a, b, hfirst, hlast, hrounds, hlimit, hle⟩ := h
  obtain ⟨hf, hl, hbody⟩ := everywhere_forTo.mp hs
  obtain ⟨hmid, n, rfl, hvisits⟩ := visits_forLoop hbody hrounds henv hle
  refine ⟨hmid, b.toInt, limit - 1 - n, hle, ?_⟩
  refine (Visits.behind (first.gives_integer henv hf hfirst)).trans ?_
  refine (Visits.behind (last.gives_integer henv hl hlast)).trans ?_
  have hleft : limit - 1 - n + 1 + n = limit := by omega
  have hrest := hvisits (limit - 1 - n + 1)
  rw [hleft] at hrest
  exact hrest

section Forms

variable {info : α} {otherwise : Option (Stmt α)} (henv : env.WellFormed)
include henv

/-- A branch passes its tests by up to one that holds. -/
theorem visits_branch {before rest elsifs : List (Expr α × Stmt α)}
    (hs : (branch info test body elsifs otherwise).Everywhere Expr.Filled)
    (helsifs : elsifs = before ++ rest) (htest : test.eval env = .ok (.bool false))
    (hbefore : ∀ arm ∈ before, arm.1.eval env = .ok (.bool false)) :
    Visits ((branch info test body elsifs otherwise).watched limit) env
      (watchedElsifs limit (watchedElse limit otherwise) rest) env := by
  subst helsifs
  obtain ⟨hfirst, -, harms, -⟩ := everywhere_branch.mp hs
  refine (Visits.behind (test.gives_truth henv hfirst htest _)).trans ?_
  exact visits_elsifs henv rest (fun arm h => (harms arm (List.mem_append_left _ h)).1) hbefore

theorem visits_caseOf {selector : Expr α} {before rest arms : List (List (Expr α) × Stmt α)}
    {v : Value} (hs : (caseOf info selector arms otherwise).Everywhere Expr.Filled)
    (harms : arms = before ++ rest) (hselector : selector.eval env = .ok v)
    (hbefore : ∀ arm ∈ before, Expr.anyEqualTo v env arm.1 = .ok false) :
    Visits ((caseOf info selector arms otherwise).watched limit) env
      (watchedArms limit v (watchedElse limit otherwise) rest) env := by
  subst harms
  obtain ⟨hfirst, hall, -⟩ := everywhere_caseOf.mp hs
  refine (Visits.behind (Expr.gives_watched henv hfirst hselector)).trans ?_
  exact visits_arms henv rest (fun arm h => (hall arm (List.mem_append_left _ h)).1) hbefore

theorem visits_whileDo (hs : (whileDo info test body).Everywhere Expr.Filled)
    (hrounds : Completes (WhileRound limit test body) n env mid) (hn : n ≤ limit) :
    mid.WellFormed ∧ Visits ((whileDo info test body).watched limit) env
      (whileLoop limit (test.watchedTruth .whileTest) (body.watched limit) (limit - n)) mid := by
  obtain ⟨htest, hbody⟩ := everywhere_whileDo.mp hs
  have hrest := visits_whileLoop htest hbody hrounds henv (limit - n)
  rw [Nat.sub_add_cancel hn] at hrest
  exact hrest

theorem visits_repeatUntil (hs : (repeatUntil info body test).Everywhere Expr.Filled)
    (hrounds : Completes (RepeatRound limit body test) n env mid) (hn : n ≤ limit) :
    mid.WellFormed ∧ Visits ((repeatUntil info body test).watched limit) env
      (repeatLoop limit (body.watched limit) (test.watchedTruth .untilTest) (limit - n)) mid := by
  obtain ⟨htest, hbody⟩ := everywhere_repeatUntil.mp hs
  have hrest := visits_repeatLoop htest hbody hrounds henv (limit - n)
  rw [Nat.sub_add_cancel hn] at hrest
  exact hrest

/-- One of the statements is visited where those in front of it all proceed. -/
theorem visits_watchedAll {before : List (Stmt α)} (after : List (Stmt α))
    (hbefore : ∀ s ∈ before, s.Everywhere Expr.Filled)
    (hproceed : execAll limit before env = .ok .proceed mid) :
    mid.WellFormed ∧
      Visits (watchedAll limit (before ++ s :: after)) env (s.watched limit) mid := by
  have htracks := watchedAll_tracks limit before hbefore
  refine ⟨htracks.wellFormed_of_ok henv hproceed, ?_⟩
  rw [watchedAll_append]
  refine (Visits.andThen_behind (htracks.gives henv hproceed)).trans (.andThen_head ?_)
  exact watchedAll_appends limit after

end Forms

theorem AtPattern.visits {v : Value} (h : AtPattern env v s e) (henv : env.WellFormed)
    (hs : s.Everywhere Expr.Filled) :
    Visits (s.watched limit) env (e.watchedEqualTo v) env := by
  obtain @⟨_, _, _, _, after, front, behind, body, otherwise, hselector, hbefore, hfront⟩ := h
  obtain ⟨-, harms, -⟩ := everywhere_caseOf.mp hs
  have hfilled := (harms _ List.mem_append_cons_self).1
  refine (visits_caseOf henv hs rfl hselector hbefore).trans ?_
  refine (Visits.head fun _ => .ite (body.watched_appends limit) ?_).trans ?_
  · exact watchedArms_appends limit v (watchedElse_appends limit otherwise) after
  · exact visits_pattern henv e behind (fun p hp => hfilled p (List.mem_append_left _ hp)) hfront

theorem appends_whileLoop (left : Nat) :
    Appends (whileLoop limit (test.watchedTruth .whileTest) (body.watched limit) left) :=
  .whileLoop (test.watchedTruth_appends .whileTest) (body.watched_appends limit) limit left

theorem appends_repeatLoop (left : Nat) :
    Appends (repeatLoop limit (body.watched limit) (test.watchedTruth .untilTest) left) :=
  .repeatLoop (body.watched_appends limit) (test.watchedTruth_appends .untilTest) limit left

variable (henv : env.WellFormed) (hs : s.Everywhere Expr.Filled)
include henv hs

theorem Evaluates.visits (h : Evaluates limit s env e mid) :
    mid.WellFormed ∧ Visits (s.watched limit) env e.watched mid := by
  cases h with
  | assigned =>
      exact ⟨henv, .head fun _ => (Appends.unrecorded _).bind fun _ => .pure _⟩
  | alone | asserted => exact ⟨henv, .head fun _ => .pure _⟩
  | @ifTest _ _ body elsifs otherwise =>
      refine ⟨henv, (Visits.head fun _ => ?_).trans (.head fun _ => .given _)⟩
      refine .ite (body.watched_appends limit) ?_
      exact watchedElsifs_appends limit (watchedElse_appends limit otherwise) elsifs
  | @elsifTest _ _ _ _ body' _ after otherwise _ htest hbefore =>
      refine ⟨henv, (visits_branch henv hs rfl htest hbefore).trans ?_⟩
      refine (Visits.head fun _ => ?_).trans (.head fun _ => .given _)
      refine .ite (body'.watched_appends limit) ?_
      exact watchedElsifs_appends limit (watchedElse_appends limit otherwise) after
  | @untilTest _ test body n _ _ _ hn hrounds hproceed =>
      obtain ⟨hmid, hvisits⟩ := visits_repeatUntil henv hs hrounds hn.le
      have htracks := watched_tracks limit body (everywhere_repeatUntil.mp hs).2
      obtain ⟨left, hleft⟩ := Nat.exists_eq_add_one.mpr (Nat.sub_pos_of_lt hn)
      rw [hleft] at hvisits
      refine ⟨htracks.wellFormed_of_ok hmid hproceed, hvisits.trans ?_⟩
      refine (Visits.andThen_behind (htracks.gives hmid hproceed)).trans ?_
      refine (Visits.head fun _ => ?_).trans (.head fun _ => .given _)
      exact .ite (.pure _) (appends_repeatLoop left)
  | @whileTest _ test body n _ _ hn hrounds =>
      obtain ⟨hmid, hvisits⟩ := visits_whileDo henv hs hrounds hn
      refine ⟨hmid, hvisits.trans ?_⟩
      cases limit - n with
      | zero =>
          exact (Visits.head fun _ => .ite (.throw _) (.pure _)).trans (.head fun _ => .given _)
      | succ left =>
          refine (Visits.head fun _ => .ite (.andThen ?_ ?_) (.pure _)).trans
            (.head fun _ => .given _)
          · exact body.watched_appends limit
          · exact appends_whileLoop left
  | @first _ var _ last body =>
      refine ⟨henv, (Visits.head fun a => ?_).trans (.head fun _ => .given _)⟩
      refine (last.watchedInteger_appends .loopBound).bind fun b => ?_
      exact .forLoop var b.toInt (body.watched_appends limit) limit limit a.toInt
  | @last _ var first _ body a _ hfirst =>
      obtain ⟨hf, -, -⟩ := everywhere_forTo.mp hs
      refine ⟨henv, (Visits.behind (first.gives_integer henv hf hfirst)).trans ?_⟩
      refine (Visits.head fun b => ?_).trans (.head fun _ => .given _)
      exact .forLoop var b.toInt (body.watched_appends limit) limit limit a.toInt
  | @selector _ _ arms otherwise =>
      refine ⟨henv, .head fun v => ?_⟩
      exact watchedArms_appends limit v (watchedElse_appends limit otherwise) arms
  | pattern hpattern =>
      refine ⟨henv, (hpattern.visits henv hs).trans (.head fun _ => ?_)⟩
      exact .ite (.computedAs _ _) (.throw _)

theorem Executes.visits (h : Executes limit s env part mid) :
    mid.WellFormed ∧ Visits (s.watched limit) env (part.watched limit) mid := by
  cases h with
  | @ifBody _ test _ _ _ _ htest =>
      obtain ⟨hfirst, -⟩ := everywhere_branch.mp hs
      exact ⟨henv, .behind (test.gives_truth henv hfirst htest _)⟩
  | @elsifBody _ _ next _ _ _ _ _ _ htest hbefore hnext =>
      obtain ⟨-, -, harms, -⟩ := everywhere_branch.mp hs
      have hfilled := (harms _ List.mem_append_cons_self).1
      refine ⟨henv, (visits_branch henv hs rfl htest hbefore).trans ?_⟩
      exact .behind (next.gives_truth henv hfilled hnext _)
  | elseBody htest helsifs =>
      exact ⟨henv, visits_branch henv hs (List.append_nil _).symm htest helsifs⟩
  | repeated hn hrounds =>
      obtain ⟨hmid, hvisits⟩ := visits_repeatUntil henv hs hrounds hn.le
      obtain ⟨left, hleft⟩ := Nat.exists_eq_add_one.mpr (Nat.sub_pos_of_lt hn)
      rw [hleft] at hvisits
      refine ⟨hmid, hvisits.trans (.andThen_head ?_)⟩
      exact (Expr.watchedTruth_appends _ .untilTest).bind fun _ =>
        .ite (.pure _) (appends_repeatLoop left)
  | @guarded _ test _ _ _ _ hn hrounds htest =>
      obtain ⟨hmid, hvisits⟩ := visits_whileDo henv hs hrounds hn.le
      obtain ⟨left, hleft⟩ := Nat.exists_eq_add_one.mpr (Nat.sub_pos_of_lt hn)
      obtain ⟨hfirst, -⟩ := everywhere_whileDo.mp hs
      rw [hleft] at hvisits
      refine ⟨hmid, hvisits.trans ?_⟩
      exact (Visits.behind (test.gives_truth hmid hfirst htest _)).trans
        (.andThen_head (appends_whileLoop left))
  | counted hcount =>
      obtain ⟨hmid, b, left, hle, hvisits⟩ := hcount.visits henv hs
      refine ⟨hmid.bind _ (.int _), hvisits.trans ((visits_count hle _ left).trans ?_)⟩
      exact .andThen_head (.forLoop _ b (part.watched_appends limit) limit left _)
  | arm hselector hbefore hpatterns =>
      obtain ⟨-, harms, -⟩ := everywhere_caseOf.mp hs
      have hfilled := (harms _ List.mem_append_cons_self).1
      refine ⟨henv, (visits_caseOf henv hs rfl hselector hbefore).trans ?_⟩
      exact .behind ((Expr.watchedAnyEqualTo_mirrors henv _ _ hfilled).gives hpatterns)
  | otherwise hselector harms =>
      exact ⟨henv, visits_caseOf henv hs (List.append_nil _).symm hselector harms⟩
  | line hbefore =>
      have hfilled := everywhere_block.mp hs
      exact visits_watchedAll henv _ (fun s h => hfilled s (List.mem_append_left _ h)) hbefore

/-! ### Events of a run -/

theorem Meets.notes (h : Meets limit s env event) : Notes (s.watched limit) env event := by
  induction h with
  | evaluated h he =>
      obtain ⟨hmid, hvisits⟩ := h.visits henv hs
      exact hvisits.notes (he.notes hmid (hs.of_mem_exprs h.mem_exprs))
  | @counted _ _ _ _ body _ _ _ hcount =>
      obtain ⟨-, b, left, hle, hvisits⟩ := hcount.visits henv hs
      exact hvisits.notes (notes_count hle (body.watched_appends limit) left)
  | compared hpattern hequal =>
      have hfilled := hs.of_mem_exprs hpattern.mem_exprs
      exact (hpattern.visits henv hs).notes (Expr.notes_equalTo henv hfilled hequal)
  | inside h _ ih =>
      obtain ⟨hmid, hvisits⟩ := h.visits henv hs
      exact hvisits.notes (ih hmid (h.everywhere hs))

end Stmt

/-- Whatever a run meets is in the record of the run under watch. -/
theorem Program.Meets.notes {config : EvalConfig} {p : Program α} {event : Event}
    (h : p.Meets config env event) (henv : env.WellFormed)
    (hp : ∀ s ∈ p.body, s.Everywhere Expr.Filled) : Notes (p.watched config) env event := by
  obtain @⟨before, after, s, mid, _, hbody, hbefore, hs⟩ := h
  rw [hbody] at hp
  have hfront : ∀ s ∈ before, s.Everywhere Expr.Filled :=
    fun s h => hp s (List.mem_append_left _ h)
  obtain ⟨hmid, hvisits⟩ := Stmt.visits_watchedAll henv after hfront hbefore
  rw [Program.watched, hbody]
  exact hvisits.notes (hs.notes hmid (hp s List.mem_append_cons_self))

end ArmPseudocode

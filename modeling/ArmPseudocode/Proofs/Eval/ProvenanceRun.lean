import ArmPseudocode.Proofs.Eval.Provenance
import ArmPseudocode.Proofs.Eval.RecordedRun

/-!
# Where the record of a run comes from

A run under watch records what it meets and nothing else. In a loop the rounds that have completed
are carried along, so that each event is met in the round in which it is recorded.
-/

namespace ArmPseudocode

open Watched

variable {α γ : Type} {env mid next : Environment}

namespace Expr

variable {e : Expr α} {P : Event → Prop}

theorem adds_truth {rest : Bool → Watched γ} (henv : env.WellFormed) (hfilled : e.Filled)
    (place : Place) (hP : ∀ event, e.Meets env event → P event)
    (hrest : ∀ b, e.eval env = .ok (.bool b) → Adds P env (rest b)) :
    Adds P env (e.watchedTruth place >>= rest) := by
  have hmirrors := watched_mirrors henv e hfilled
  rw [watchedTruth, bind_assoc]
  refine ((watched_adds henv e hfilled).mono hP).bind hmirrors fun v hv _ => .asBool fun b hb => ?_
  subst hb
  exact hrest b hv

theorem adds_integer {rest : Int64 → Watched γ} (henv : env.WellFormed) (hfilled : e.Filled)
    (hP : ∀ event, e.Meets env event → P event)
    (hrest : ∀ n, e.eval env = .ok (.int n) → Adds P env (rest n)) :
    Adds P env (e.watchedInteger .loopBound >>= rest) := by
  have hmirrors := watched_mirrors henv e hfilled
  rw [watchedInteger, bind_assoc]
  refine ((watched_adds henv e hfilled).mono hP).bind hmirrors fun v hv _ => .asInt fun n hn => ?_
  subst hn
  exact hrest n hv

theorem watchedAnyEqualTo_adds (henv : env.WellFormed) (v : Value) (patterns : List (Expr α))
    (hfilled : ∀ pattern ∈ patterns, pattern.Filled)
    (hP : ∀ front pattern behind, patterns = front ++ pattern :: behind →
      anyEqualTo v env front = .ok false → (∀ event, pattern.Meets env event → P event) ∧
        ∀ b, pattern.isEqualTo v env = .ok b → P (.value (.bool b))) :
    Adds P env (watchedAnyEqualTo v patterns) := by
  induction patterns with
  | nil => exact .pure false
  | cons pattern patterns ih =>
      obtain ⟨hpattern, hrest⟩ := List.forall_mem_cons.mp hfilled
      obtain ⟨hmeets, hequal⟩ := hP [] pattern patterns rfl rfl
      refine Adds.bind ?_ (watchedEqualTo_mirrors henv pattern v hpattern) fun b hb _ => ?_
      · refine ((watched_adds henv pattern hpattern).mono hmeets).bind
          (watched_mirrors henv pattern hpattern) fun w hw _ => ?_
        refine .ite (fun hkind => .computedAs fun b hb => hequal b ?_) fun _ => .throw _
        rw [isEqualTo, hw]
        change (if _ then _ else _) = _
        rw [if_pos hkind]
        exact hb
      · refine .ite (fun _ => .pure true) fun h => ih hrest ?_
        rintro front pattern' behind rfl hfront
        refine hP (pattern :: front) pattern' behind rfl ?_
        rw [anyEqualTo, hb, Bool.eq_false_of_not_eq_true h]
        exact hfront

end Expr

theorem Completes.snoc {n : Nat} {round : Environment → Environment → Prop}
    (h : Completes round n env mid) (hround : round mid next) :
    Completes round (n + 1) env next := by
  induction h with
  | none => exact .more hround (.none _)
  | more hfirst _ ih => exact .more hfirst (ih hround)

namespace Stmt

variable {limit n : Nat} {info : α} {test : Expr α} {body : Stmt α} {P : Event → Prop}

/-! ### Loops -/

theorem Counts.snoc {var : String} {k k' : Int} (h : Counts limit var body k env k' mid)
    (hbody : body.exec limit (mid.bind var (.int (Int64.ofInt k'))) = .ok .proceed next) :
    Counts limit var body k env (k' + 1) next := by
  induction h with
  | none => exact .more hbody (.none _ _)
  | more hfirst _ ih => exact .more hfirst (ih hbody)

section Rounds

variable (hbody : body.Everywhere Expr.Filled)
  (hadds : ∀ mid : Environment, mid.WellFormed →
    Adds (Meets limit body mid) mid (body.watched limit))
include hbody hadds

theorem whileLoop_adds (htest : test.Filled) (left : Nat) (hleft : n + left = limit)
    (hmid : mid.WellFormed) (hrounds : Completes (WhileRound limit test body) n env mid) :
    Adds (Meets limit (whileDo info test body) env) mid
      (whileLoop limit (test.watchedTruth .whileTest) (body.watched limit) left) := by
  induction left generalizing n mid with
  | zero =>
      refine test.adds_truth hmid htest .whileTest
        (fun _ => .evaluated (.whileTest (by omega) hrounds)) fun b _ => ?_
      exact .ite (fun _ => .throw _) fun _ => .pure _
  | succ left ih =>
      refine test.adds_truth hmid htest .whileTest
        (fun _ => .evaluated (.whileTest (by omega) hrounds)) fun b hb => ?_
      refine .ite (fun h => ?_) fun _ => .pure _
      subst h
      refine ((hadds mid hmid).mono fun _ => .inside (.guarded (by omega) hrounds hb)).andThen
        (watched_tracks limit body hbody) hmid fun next hproceed hnext => ?_
      exact ih (by omega) hnext (hrounds.snoc ⟨hb, hproceed⟩)

theorem repeatLoop_adds (htest : test.Filled) (left : Nat) (hleft : n + left = limit)
    (hmid : mid.WellFormed) (hrounds : Completes (RepeatRound limit body test) n env mid) :
    Adds (Meets limit (repeatUntil info body test) env) mid
      (repeatLoop limit (body.watched limit) (test.watchedTruth .untilTest) left) := by
  induction left generalizing n mid with
  | zero => exact .throw _
  | succ left ih =>
      refine ((hadds mid hmid).mono fun _ => .inside (.repeated (by omega) hrounds)).andThen
        (watched_tracks limit body hbody) hmid fun next hproceed hnext => ?_
      refine test.adds_truth hnext htest .untilTest
        (fun _ => .evaluated (.untilTest (by omega) hrounds hproceed)) fun b hb => ?_
      refine .ite (fun _ => .pure _) fun h => ?_
      obtain rfl := Bool.eq_false_of_not_eq_true h
      exact ih (by omega) hnext (hrounds.snoc ⟨hproceed, hb⟩)

theorem forLoop_adds {var : String} {first last : Expr α} {a b : Int64}
    (hfirst : first.eval env = .ok (.int a)) (hlast : last.eval env = .ok (.int b)) (left : Nat)
    {k : Int} (hleft : k + left = a.toInt + limit) (hmid : mid.WellFormed)
    (hrounds : Counts limit var body a.toInt env k mid) :
    Adds (Meets limit (forTo info var first last body) env) mid
      (forLoop limit var b.toInt (body.watched limit) left k) := by
  induction left generalizing k mid with
  | zero => exact .ite (fun _ => .throw _) fun _ => .pure _
  | succ left ih =>
      refine .ite (fun hle => ?_) fun _ => .pure _
      have hcount : AtCount limit var first last body env k mid :=
        .intro hfirst hlast hrounds (by omega) hle
      have hbound := hmid.bind var (.int (Int64.ofInt k))
      refine (Adds.computed fun v hv => ?_).bind
        (Mirrors.computed (.ok (.int (Int64.ofInt k)))) fun v hv _ => ?_
      · cases hv
        exact .counted hcount
      · cases hv
        refine (Adds.unrecorded _).bindAction
          (Tracks.unrecorded (.bindName var (.int (Int64.ofInt k)))) hmid fun _ _ hbind _ => ?_
        cases hbind
        refine ((hadds _ hbound).mono fun _ => .inside (.counted hcount)).andThen
          (watched_tracks limit body hbody) hbound fun next hproceed hnext => ?_
        exact ih (by omega) hnext (hrounds.snoc hproceed)

end Rounds

/-! ### Statements -/

mutual

theorem watched_adds {env : Environment} (henv : env.WellFormed) (s : Stmt α)
    (hs : s.Everywhere Expr.Filled) :
    Adds (Meets limit s env) env (s.watched limit) := by
  have hvalue : ∀ {e : Expr α}, Evaluates limit s env e env → e ∈ s.exprs →
      Adds (Meets limit s env) env e.watched := fun h he =>
    (Expr.watched_adds henv _ (hs.of_mem_exprs he)).mono fun _ => .evaluated h
  cases s with
  | assign _ target e =>
      have he := hs.of_mem_exprs (e := e) (by simp [exprs])
      refine (hvalue .assigned (by simp [exprs])).bind (Expr.watched_mirrors henv e he)
        fun v _ hv => ?_
      exact (Adds.unrecorded _).bindAction (Tracks.unrecorded (target.assign_keeps hv)) henv
        fun _ _ _ _ => .pure _
  | expr _ e =>
      have he := hs.of_mem_exprs (e := e) (by simp [exprs])
      exact (hvalue .alone (by simp [exprs])).bind (Expr.watched_mirrors henv e he)
        fun _ _ _ => .pure _
  | assertion _ e =>
      have he := hs.of_mem_exprs (e := e) (by simp [exprs])
      exact (hvalue .asserted (by simp [exprs])).bind (Expr.watched_mirrors henv e he)
        fun _ _ _ => .pure _
  | declaration | undefined | unpredictable | prose | enumeration => exact .pure _
  | giveBack | malformed => exact .throw _
  | branch _ test body elsifs otherwise =>
      obtain ⟨htest, hbody, harms, hlast⟩ := everywhere_branch.mp hs
      refine test.adds_truth henv htest .ifTest (fun _ => .evaluated .ifTest) fun b hb => ?_
      refine .ite (fun h => ?_) fun h => ?_
      · subst h
        exact (watched_adds henv body hbody).mono fun _ => .inside (.ifBody hb)
      · obtain rfl := Bool.eq_false_of_not_eq_true h
        refine watchedElsifs_adds henv elsifs harms ?_ fun helsifs => ?_
        · rintro before next body' after rfl hbefore
          exact ⟨fun _ => .evaluated (.elsifTest hb hbefore),
            fun hnext _ => .inside (.elsifBody hb hbefore hnext)⟩
        · refine watchedElse_adds henv otherwise hlast ?_
          rintro last rfl event
          exact .inside (.elseBody hb helsifs)
  | repeatUntil _ body test =>
      obtain ⟨htest, hbody⟩ := everywhere_repeatUntil.mp hs
      exact repeatLoop_adds hbody (fun mid hmid => watched_adds hmid body hbody) htest limit
        (Nat.zero_add limit) henv (.none env)
  | whileDo _ test body =>
      obtain ⟨htest, hbody⟩ := everywhere_whileDo.mp hs
      exact whileLoop_adds hbody (fun mid hmid => watched_adds hmid body hbody) htest limit
        (Nat.zero_add limit) henv (.none env)
  | forTo _ var first last body =>
      obtain ⟨hfirst, hlast, hbody⟩ := everywhere_forTo.mp hs
      refine first.adds_integer henv hfirst (fun _ => .evaluated .first) fun a ha => ?_
      refine last.adds_integer henv hlast (fun _ => .evaluated (.last ha)) fun b hb => ?_
      exact forLoop_adds hbody (fun mid hmid => watched_adds hmid body hbody) ha hb limit rfl henv
        (.none _ _)
  | caseOf _ selector arms otherwise =>
      obtain ⟨hselector, harms, hlast⟩ := everywhere_caseOf.mp hs
      refine (hvalue .selector List.mem_cons_self).bind
        (Expr.watched_mirrors henv selector hselector) fun v hv _ => ?_
      refine watchedArms_adds henv v arms harms ?_ fun hnone => ?_
      · rintro before patterns body after rfl hbefore
        refine ⟨?_, fun hpatterns _ => .inside (.arm hv hbefore hpatterns)⟩
        rintro front pattern behind rfl hfront
        exact ⟨fun _ => .evaluated (.pattern (.intro hv hbefore hfront)),
          fun b hb => .compared (.intro hv hbefore hfront) hb⟩
      · refine watchedElse_adds henv otherwise hlast ?_
        rintro last rfl event
        exact .inside (.otherwise hv hnone)
  | block _ body =>
      refine watchedAll_adds henv body (everywhere_block.mp hs) ?_
      rintro before s after mid rfl hbefore event
      exact .inside (.line hbefore)
termination_by structural s

theorem watchedAll_adds {env : Environment} (henv : env.WellFormed) (ss : List (Stmt α))
    (hfilled : ∀ s ∈ ss, s.Everywhere Expr.Filled)
    {P : Event → Prop} (hP : ∀ before s after mid, ss = before ++ s :: after →
      execAll limit before env = .ok .proceed mid → ∀ event, Meets limit s mid event → P event) :
    Adds P env (watchedAll limit ss) := by
  cases ss with
  | nil => exact .pure _
  | cons s rest =>
      obtain ⟨hs, hrest⟩ := List.forall_mem_cons.mp hfilled
      refine ((watched_adds henv s hs).mono (hP [] s rest env rfl rfl)).andThen
        (watched_tracks limit s hs) henv fun mid hproceed hmid => ?_
      refine watchedAll_adds hmid rest hrest ?_
      rintro before s' after last rfl hbefore
      refine hP (s :: before) s' after last rfl ?_
      rw [execAll, Action.andThen_of_proceed hproceed]
      exact hbefore
termination_by structural ss

theorem watchedElse_adds {env : Environment} (henv : env.WellFormed) (otherwise : Option (Stmt α))
    (hfilled : ∀ last ∈ otherwise, last.Everywhere Expr.Filled)
    {P : Event → Prop} (hP : ∀ last, otherwise = some last → ∀ event, Meets limit last env event →
      P event) : Adds P env (watchedElse limit otherwise) := by
  cases otherwise with
  | none => exact .pure _
  | some last => exact (watched_adds henv last (hfilled last rfl)).mono (hP last rfl)
termination_by structural otherwise

theorem watchedElsifs_adds {env : Environment} (henv : env.WellFormed) {otherwise : Watched Outcome}
    (elsifs : List (Expr α × Stmt α))
    (hfilled : ∀ arm ∈ elsifs, arm.1.Filled ∧ arm.2.Everywhere Expr.Filled)
    {P : Event → Prop} (hP : ∀ before test body after, elsifs = before ++ (test, body) :: after →
      (∀ arm ∈ before, arm.1.eval env = .ok (.bool false)) →
      (∀ event, test.Meets env event → P event) ∧
        (test.eval env = .ok (.bool true) → ∀ event, Meets limit body env event → P event))
    (hlast : (∀ arm ∈ elsifs, arm.1.eval env = .ok (.bool false)) → Adds P env otherwise) :
    Adds P env (watchedElsifs limit otherwise elsifs) := by
  cases elsifs with
  | nil => exact hlast fun arm harm => nomatch harm
  | cons guarded rest =>
      obtain ⟨test, body⟩ := guarded
      obtain ⟨⟨htest, hbody⟩, hrest⟩ := List.forall_mem_cons.mp hfilled
      obtain ⟨hmeets, hexec⟩ := hP [] test body rest rfl fun arm harm => nomatch harm
      refine test.adds_truth henv htest .elsifTest hmeets fun b hb => ?_
      refine .ite (fun h => ?_) fun h => ?_
      · subst h
        exact (watched_adds henv body hbody).mono (hexec hb)
      · obtain rfl := Bool.eq_false_of_not_eq_true h
        refine watchedElsifs_adds henv rest hrest ?_ fun hnone =>
          hlast (List.forall_mem_cons.mpr ⟨hb, hnone⟩)
        rintro before test' body' after rfl hbefore
        exact hP ((test, body) :: before) test' body' after rfl
          (List.forall_mem_cons.mpr ⟨hb, hbefore⟩)
termination_by structural elsifs

theorem watchedArms_adds {env : Environment} (henv : env.WellFormed) (v : Value)
    {otherwise : Watched Outcome} (arms : List (List (Expr α) × Stmt α))
    (hfilled : ∀ arm ∈ arms, (∀ e ∈ arm.1, e.Filled) ∧ arm.2.Everywhere Expr.Filled)
    {P : Event → Prop} (hP : ∀ before patterns body after,
      arms = before ++ (patterns, body) :: after →
      (∀ arm ∈ before, Expr.anyEqualTo v env arm.1 = .ok false) →
      (∀ front pattern behind, patterns = front ++ pattern :: behind →
        Expr.anyEqualTo v env front = .ok false → (∀ event, pattern.Meets env event → P event) ∧
          ∀ b, pattern.isEqualTo v env = .ok b → P (.value (.bool b))) ∧
        (Expr.anyEqualTo v env patterns = .ok true → ∀ event, Meets limit body env event → P event))
    (hlast : (∀ arm ∈ arms, Expr.anyEqualTo v env arm.1 = .ok false) → Adds P env otherwise) :
    Adds P env (watchedArms limit v otherwise arms) := by
  cases arms with
  | nil => exact hlast fun arm harm => nomatch harm
  | cons arm rest =>
      obtain ⟨patterns, body⟩ := arm
      obtain ⟨⟨hpatterns, hbody⟩, hrest⟩ := List.forall_mem_cons.mp hfilled
      obtain ⟨hmeets, hexec⟩ := hP [] patterns body rest rfl fun arm harm => nomatch harm
      refine (Expr.watchedAnyEqualTo_adds henv v patterns hpatterns hmeets).bind
        (Expr.watchedAnyEqualTo_mirrors henv v patterns hpatterns) fun b hb _ => ?_
      refine .ite (fun h => ?_) fun h => ?_
      · subst h
        exact (watched_adds henv body hbody).mono (hexec hb)
      · obtain rfl := Bool.eq_false_of_not_eq_true h
        refine watchedArms_adds henv v rest hrest ?_ fun hnone =>
          hlast (List.forall_mem_cons.mpr ⟨hb, hnone⟩)
        rintro before patterns' body' after rfl hbefore
        exact hP ((patterns, body) :: before) patterns' body' after rfl
          (List.forall_mem_cons.mpr ⟨hb, hbefore⟩)
termination_by structural arms

end

end Stmt

/-- The record of a run that starts with none is what the run meets. -/
theorem Program.mem_record_iff {config : EvalConfig} {p : Program α} {event : Event}
    (henv : env.WellFormed) (hp : ∀ s ∈ p.body, s.Everywhere Expr.Filled) :
    event ∈ record (p.watched config ⟨env, []⟩) ↔ p.Meets config env event := by
  have hempty : SoundRecord [] := fun event hevent => nomatch hevent
  refine ⟨fun h => ?_, fun h => h.notes henv hp [] hempty⟩
  have hadds : Adds (p.Meets config env) env (p.watched config) := by
    refine Stmt.watchedAll_adds henv p.body hp ?_
    intro before s after mid hbody hbefore event
    exact .intro hbody hbefore
  exact (hadds [] hempty event h).resolve_left (fun hnil => nomatch hnil)

end ArmPseudocode

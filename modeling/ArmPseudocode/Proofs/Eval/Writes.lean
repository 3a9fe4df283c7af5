import ArmPseudocode.Proofs.Eval.Bindings
import ArmPseudocode.Proofs.Eval.Coupling
import ArmPseudocode.Proofs.Syntax.Everywhere

/-!
# What a run writes

A run only ever binds names, and only the names its program writes: those at the leaves of a target
and the variables of loops. So whatever it ends in, the environment it leaves is the one it began
with and a list of bindings on top. A name that was bound is still bound, and every other name is
as it was.
-/

namespace ArmPseudocode

variable {α β γ : Type}

namespace Environment

def bindAll (env : Environment) (writes : List (String × Value)) : Environment :=
  writes.foldl (fun env write => env.bind write.1 write.2) env

@[simp] theorem bindAll_nil (env : Environment) : env.bindAll [] = env := rfl

theorem bindAll_append (env : Environment) (writes writes' : List (String × Value)) :
    env.bindAll (writes ++ writes') = (env.bindAll writes).bindAll writes' :=
  List.foldl_append

theorem isSome_get?_bindAll {env : Environment} {id : String} (hid : (env.get? id).isSome)
    (writes : List (String × Value)) : ((env.bindAll writes).get? id).isSome := by
  induction writes generalizing env with
  | nil => exact hid
  | cons write writes ih =>
      have hnext : ((env.bind write.1 write.2).get? id).isSome := by
        rw [get?_bind]
        split
        · rfl
        · exact hid
      exact ih hnext

theorem get?_bindAll_of_forall_ne {env : Environment} {id : String}
    {writes : List (String × Value)} (hid : ∀ write ∈ writes, write.1 ≠ id) :
    (env.bindAll writes).get? id = env.get? id := by
  induction writes generalizing env with
  | nil => rfl
  | cons write writes ih =>
      rw [List.forall_mem_cons] at hid
      calc ((env.bind write.1 write.2).bindAll writes).get? id
          = (env.bind write.1 write.2).get? id := ih hid.2
        _ = env.get? id := by rw [get?_bind, if_neg hid.1.symm]

end Environment

/-! ### The names a program writes -/

namespace Expr

mutual

/-- The names that an assignment to the target may bind. -/
def targetNames : Expr α → List String
  | name _ id | declare _ _ id => [id]
  | tuple _ slots => targetNamesAll slots
  | _ => []
termination_by structural target => target

def targetNamesAll : List (Expr α) → List String
  | [] => []
  | slot :: slots => slot.targetNames ++ targetNamesAll slots
termination_by structural slots => slots

end

end Expr

/-- The names that a statement binds itself, those of the statements inside it left out. -/
def Stmt.written : Stmt α → List String
  | assign _ target _ => target.targetNames
  | forTo _ var _ _ _ => [var]
  | _ => []

/-- The names that the statements of a program bind, nested ones included. -/
def Program.written (p : Program α) : List String :=
  p.walk.flatMap Stmt.written

/-! ### Actions -/

namespace Action

/-- Wherever the action starts and however it ends, all it does to the environment is to bind some
of the names, one after another. -/
def Writes (names : List String) (act : Action β) : Prop :=
  ∀ env : Environment, ∃ writes : List (String × Value),
    (∀ write ∈ writes, write.1 ∈ names) ∧ final (act env) = env.bindAll writes

namespace Writes

variable {names : List String}

theorem pure (b : β) : Writes names (Pure.pure b) :=
  fun _ => ⟨[], List.forall_mem_nil _, rfl⟩

theorem throw (e : EvalError) : Writes names (MonadExcept.throw e : Action β) :=
  fun _ => ⟨[], List.forall_mem_nil _, rfl⟩

theorem bindName {id : String} (hid : id ∈ names) (v : Value) : Writes names (Action.bind id v) :=
  fun _ => ⟨[(id, v)], List.forall_mem_singleton.mpr hid, rfl⟩

end Writes

theorem final_reading (f : Environment → Except EvalError β) (env : Environment) :
    final (reading f env) = env := by
  unfold reading
  cases f env <;> rfl

namespace Writes

variable {names : List String}

theorem reading (f : Environment → Except EvalError β) : Writes names (Action.reading f) :=
  fun env => ⟨[], List.forall_mem_nil _, final_reading f env⟩

theorem bind {first : Action β} {next : β → Action γ} (h : Writes names first)
    (hnext : ∀ b, Writes names (next b)) : Writes names (first >>= next) := by
  intro env
  obtain ⟨writes, hwrites, hfinal⟩ := h env
  change ∃ _, _ ∧ final (EStateM.bind first next env) = _
  unfold EStateM.bind
  generalize first env = ended at hfinal ⊢
  cases ended with
  | ok b mid =>
      obtain rfl : mid = env.bindAll writes := hfinal
      obtain ⟨writes', hwrites', hfinal'⟩ := hnext b (env.bindAll writes)
      refine ⟨writes ++ writes', List.forall_mem_append.mpr ⟨hwrites, hwrites'⟩, ?_⟩
      rw [Environment.bindAll_append]
      exact hfinal'
  | error e mid => exact ⟨writes, hwrites, hfinal⟩

theorem ite {p : Prop} [Decidable p] {first second : Action β} (hyes : Writes names first)
    (hno : Writes names second) : Writes names (if p then first else second) := by
  split
  · exact hyes
  · exact hno

theorem andThen {first second : Action Outcome} (h : Writes names first)
    (hnext : Writes names second) : Writes names (Action.andThen first second) := by
  have hbind : Action.andThen first second =
      first >>= fun outcome => if outcome = .proceed then second else Pure.pure outcome := by
    funext env
    change Action.andThen first second env = EStateM.bind first _ env
    unfold Action.andThen EStateM.bind
    cases first env with
    | ok outcome mid => cases outcome <;> rfl
    | error e mid => rfl
  rw [hbind]
  exact h.bind fun outcome => .ite hnext (.pure outcome)

/-! ### Loops -/

variable {test : Action Bool} {body : Action Outcome}

theorem whileLoop (htest : Writes names test) (hbody : Writes names body) (limit left : Nat) :
    Writes names (Action.whileLoop limit test body left) := by
  induction left with
  | zero => exact htest.bind fun _ => .ite (.throw _) (.pure _)
  | succ left ih => exact htest.bind fun _ => .ite (.andThen hbody ih) (.pure _)

theorem repeatLoop (hbody : Writes names body) (htest : Writes names test) (limit left : Nat) :
    Writes names (Action.repeatLoop limit body test left) := by
  induction left with
  | zero => exact .throw _
  | succ left ih => exact .andThen hbody (htest.bind fun _ => .ite (.pure _) ih)

theorem forLoop {var : String} (hvar : var ∈ names) (last : Int) (hbody : Writes names body)
    (limit left : Nat) (k : Int) : Writes names (Action.forLoop limit var last body left k) := by
  induction left generalizing k with
  | zero => exact ite (.throw _) (.pure _)
  | succ left ih =>
      exact ite ((bindName hvar _).bind fun _ => .andThen hbody (ih (k + 1))) (.pure _)

end Writes

end Action

open ArmPseudocode.Action (Writes)

variable {names : List String}

namespace Expr

mutual

theorem assign_writes (target : Expr α) (v : Value)
    (hnames : ∀ id ∈ target.targetNames, id ∈ names) : Writes names (target.assign v) := by
  cases target with
  | name _ id => exact .bindName (hnames id List.mem_cons_self) v
  | declare _ _ id => exact .bindName (hnames id List.mem_cons_self) v
  | tuple _ slots =>
      match slots with
      | [slot] =>
          simp only [targetNames, targetNamesAll, List.append_nil] at hnames
          simp only [assign]
          exact assign_writes slot v hnames
      | [] =>
          cases v with
          | tuple vs => exact .ite (assignAll_writes [] vs hnames) (.throw _)
          | _ => exact .throw _
      | first :: second :: rest =>
          cases v with
          | tuple vs => exact .ite (assignAll_writes (first :: second :: rest) vs hnames) (.throw _)
          | _ => exact .throw _
  | _ => exact .throw _
termination_by structural target

theorem assignAll_writes (slots : List (Expr α)) (vs : List Value)
    (hnames : ∀ id ∈ targetNamesAll slots, id ∈ names) : Writes names (assignAll slots vs) := by
  cases slots with
  | nil => exact .pure _
  | cons slot slots =>
      cases vs with
      | nil => exact .pure _
      | cons v vs =>
          simp only [targetNamesAll, List.forall_mem_append] at hnames
          simp only [assignAll]
          have hrest := assignAll_writes slots vs hnames.2
          exact .ite ((assign_writes slot v hnames.1).bind fun _ => hrest) hrest
termination_by structural slots

end

end Expr

namespace Stmt

/-! ### Statements -/

variable (limit : Nat)

mutual

theorem exec_writes (s : Stmt α) (hnames : ∀ x ∈ s.walk, ∀ id ∈ x.written, id ∈ names) :
    Writes names (s.exec limit) := by
  cases s with
  | assign _ target e =>
      have htarget := hnames _ List.mem_cons_self
      simp only [exec]
      exact (Writes.reading _).bind fun v => (target.assign_writes v htarget).bind fun _ => .pure _
  | expr _ e =>
      simp only [exec]
      exact (Writes.reading _).bind fun _ => .pure _
  | declaration _ e => exact .pure _
  | giveBack _ values => exact .throw _
  | undefined _ => exact .pure _
  | unpredictable _ => exact .pure _
  | prose _ word about => exact .pure _
  | branch _ test body elsifs otherwise =>
      simp only [walk, List.cons_append, List.forall_mem_cons, List.forall_mem_append] at hnames
      obtain ⟨-, ⟨hbody, helsifs⟩, hotherwise⟩ := hnames
      simp only [exec]
      exact (Writes.reading _).bind fun _ => .ite (exec_writes body hbody)
        (execElsifs_writes (execElse_writes otherwise hotherwise) elsifs helsifs)
  | repeatUntil _ body test =>
      simp only [walk, List.forall_mem_cons] at hnames
      simp only [exec]
      exact .repeatLoop (exec_writes body hnames.2) (.reading _) limit limit
  | whileDo _ test body =>
      simp only [walk, List.forall_mem_cons] at hnames
      simp only [exec]
      exact .whileLoop (.reading _) (exec_writes body hnames.2) limit limit
  | forTo _ var first last body =>
      simp only [walk, List.forall_mem_cons, written] at hnames
      obtain ⟨hvar, hbody⟩ := hnames
      simp only [exec]
      refine (Writes.reading _).bind fun first => (Writes.reading _).bind fun last => ?_
      exact .forLoop hvar.1 last.toInt (exec_writes body hbody) limit limit first.toInt
  | caseOf _ selector arms otherwise =>
      simp only [walk, List.cons_append, List.forall_mem_cons, List.forall_mem_append] at hnames
      obtain ⟨-, harms, hotherwise⟩ := hnames
      simp only [exec]
      exact (Writes.reading _).bind fun v =>
        execArms_writes v (execElse_writes otherwise hotherwise) arms harms
  | block _ body =>
      simp only [walk, List.forall_mem_cons] at hnames
      simp only [exec]
      exact execAll_writes body hnames.2
  | assertion _ e =>
      simp only [exec]
      exact (Writes.reading _).bind fun _ => .pure _
  | enumeration _ id values => exact .pure _
  | malformed _ => exact .throw _
termination_by structural s

theorem execAll_writes (ss : List (Stmt α))
    (hnames : ∀ x ∈ walkAll ss, ∀ id ∈ x.written, id ∈ names) :
    Writes names (execAll limit ss) := by
  cases ss with
  | nil => exact .pure _
  | cons s rest =>
      simp only [walkAll, List.forall_mem_append] at hnames
      simp only [execAll]
      exact .andThen (exec_writes s hnames.1) (execAll_writes rest hnames.2)
termination_by structural ss

theorem execElse_writes (otherwise : Option (Stmt α))
    (hnames : ∀ x ∈ walkElse otherwise, ∀ id ∈ x.written, id ∈ names) :
    Writes names (execElse limit otherwise) := by
  cases otherwise with
  | none => exact .pure _
  | some last =>
      simp only [execElse]
      exact exec_writes last hnames
termination_by structural otherwise

theorem execElsifs_writes {otherwise : Action Outcome} (hotherwise : Writes names otherwise)
    (elsifs : List (Expr α × Stmt α))
    (hnames : ∀ x ∈ walkElsifs elsifs, ∀ id ∈ x.written, id ∈ names) :
    Writes names (execElsifs limit otherwise elsifs) := by
  cases elsifs with
  | nil =>
      simp only [execElsifs]
      exact hotherwise
  | cons guarded rest =>
      obtain ⟨test, body⟩ := guarded
      simp only [walkElsifs, List.forall_mem_append] at hnames
      simp only [execElsifs]
      exact (Writes.reading _).bind fun _ => .ite (exec_writes body hnames.1)
        (execElsifs_writes hotherwise rest hnames.2)
termination_by structural elsifs

theorem execArms_writes (selector : Value) {otherwise : Action Outcome}
    (hotherwise : Writes names otherwise) (arms : List (List (Expr α) × Stmt α))
    (hnames : ∀ x ∈ walkArms arms, ∀ id ∈ x.written, id ∈ names) :
    Writes names (execArms limit selector otherwise arms) := by
  cases arms with
  | nil =>
      simp only [execArms]
      exact hotherwise
  | cons arm rest =>
      obtain ⟨patterns, body⟩ := arm
      simp only [walkArms, List.forall_mem_append] at hnames
      simp only [execArms]
      exact (Writes.reading _).bind fun _ => .ite (exec_writes body hnames.1)
        (execArms_writes selector hotherwise rest hnames.2)
termination_by structural arms

end

end Stmt

namespace Program

/-! ### Programs -/

theorem run_writes (config : EvalConfig) (p : Program α) : Writes p.written (p.run config) :=
  Stmt.execAll_writes config.maxIterations p.body fun _ hx _ hid =>
    List.mem_flatMap.mpr ⟨_, hx, hid⟩

/-- **What a run leaves alone.** Whatever a run ends in, it has bound names of its program one after
another and done nothing else to the environment: a name that was bound still is, and a name that
the program does not write is bound to what it was bound to, if to anything. Evaluating an
expression leaves the environment as it is, also where a truth value or an integer is asked for. -/
theorem run_frame (config : EvalConfig) (p : Program α) (env : Environment) :
    (∃ writes : List (String × Value), (∀ write ∈ writes, write.1 ∈ p.written) ∧
      Action.final (p.run config env) = env.bindAll writes) ∧
    (∀ id, (env.get? id).isSome → ((Action.final (p.run config env)).get? id).isSome) ∧
    (∀ id, id ∉ p.written → (Action.final (p.run config env)).get? id = env.get? id) ∧
    ∀ e : Expr α, Action.final (e.value env) = env ∧
      ∀ place, Action.final (e.truth place env) = env ∧
        Action.final (e.integer place env) = env := by
  obtain ⟨writes, hwrites, hfinal⟩ := p.run_writes config env
  refine ⟨⟨writes, hwrites, hfinal⟩, fun id hid => ?_, fun id hid => ?_, fun e => ?_⟩
  · rw [hfinal]
    exact Environment.isSome_get?_bindAll hid writes
  · rw [hfinal]
    refine Environment.get?_bindAll_of_forall_ne fun write hwrite hname => ?_
    exact hid (hname ▸ hwrites write hwrite)
  · exact ⟨Action.final_reading _ env,
      fun place => ⟨Action.final_reading _ env, Action.final_reading _ env⟩⟩

def brokenOff : Program Unit :=
  ⟨[.forTo () "i" (.int () 0) (.int () 3)
    (.assign () (.tuple () [.name () "a", .tuple () [.name () "b", .declare () .bit "c"]])
      (.tuple () [.int () 7, .int () 8]))]⟩

theorem brokenOff_frame :
    brokenOff.written = ["i", "a", "b", "c"] ∧
    Action.ending (brokenOff.run {} ⟨[("z", .bool true), ("i", .int 5)], .strict⟩) =
      .error (.notATuple .int) ∧
    Action.final (brokenOff.run {} ⟨[("z", .bool true), ("i", .int 5)], .strict⟩) =
      ⟨[("z", .bool true), ("i", .int 0), ("a", .int 7)], .strict⟩ ∧
    (Action.final (brokenOff.run {} ⟨[("z", .bool true), ("i", .int 5)], .strict⟩)).get? "z" =
      some (.bool true) := by
  obtain ⟨-, -, hkept, -⟩ :=
    run_frame {} brokenOff ⟨[("z", .bool true), ("i", .int 5)], .strict⟩
  exact ⟨rfl, rfl, rfl, hkept "z" (by decide)⟩

end Program

end ArmPseudocode

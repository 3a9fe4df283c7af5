import ArmPseudocode.Proofs.Eval.CoupledRun

/-!
# What the settings decide

The limit on iterations and the rule for unbound names each decide one thing only: whether a run
ends in the defect that reports them. A run that does not report the limit is the same under any
higher limit, down to the environment it leaves, and a strict run that meets no unresolved name is
the same when names are resolved leniently.
-/

namespace ArmPseudocode

variable {α : Type}

/-! ### The limit on iterations -/

/-- One environment, and more iterations for the loops of the second run. -/
def Coupling.raisedLimit (extra : Nat) : Coupling where
  Related env env' := env = env'
  Known _ := True
  Excused e := ∃ limit, e = .loopLimit limit
  extra := extra
  lookup henv _ := by
    subst henv
    exact .same _
  bind id v henv := by rw [henv]
  loopLimit _ limit := ⟨limit, rfl⟩

/-- A run that does not end at the limit on iterations is the same under every higher limit. -/
theorem run_of_higher_limit (p : Program α) (env : Environment) {config config' : EvalConfig}
    (hlimit : config.maxIterations ≤ config'.maxIterations)
    (hends : ∀ limit, Action.ending (p.run config env) ≠ .error (.loopLimit limit)) :
    p.run config' env = p.run config env := by
  obtain ⟨extra, hextra⟩ := Nat.exists_eq_add_of_le hlimit
  have hrun := p.run_coupled (.raisedLimit extra) (fun _ _ => trivial) config config' hextra env env
    rfl
  obtain ⟨hending, hfinal⟩ := hrun.alike (by
    rintro e ⟨limit, rfl⟩
    exact hends limit)
  exact Action.eq_of_ending_of_final hending hfinal.symm

def nestedLoops : Program Unit where
  body :=
    [.assign () (.name () "n") (.int () 0),
      .forTo () "i" (.int () 1) (.int () 2)
        (.repeatUntil ()
          (.assign () (.name () "n") (.binary () .add (.name () "n") (.int () 1)))
          (.binary () .equal (.binary () .mod (.name () "n") (.int () 2)) (.int () 0)))]

theorem nestedLoops_of_higher_limit :
    (∀ limit, Action.ending (nestedLoops.run { maxIterations := 2 } (.empty .lenient)) ≠
        .error (.loopLimit limit)) ∧
      nestedLoops.run { maxIterations := 1024 } (.empty .lenient) =
        nestedLoops.run { maxIterations := 2 } (.empty .lenient) := by
  have hends : Action.ending (nestedLoops.run { maxIterations := 2 } (.empty .lenient)) =
      .ok .proceed := by rfl
  have hlimit : ∀ limit, Action.ending (nestedLoops.run { maxIterations := 2 } (.empty .lenient)) ≠
      .error (.loopLimit limit) := by
    intro limit
    rw [hends]
    nofun
  exact ⟨hlimit, run_of_higher_limit nestedLoops (.empty .lenient) (by decide) hlimit⟩

/-! ### The rule for unbound names -/

/-- The same bindings, with unbound names refused in the first run and taken as symbols in the
second. -/
def Coupling.relaxedNames : Coupling where
  Related env env' := env.names = .strict ∧ env' = { env with names := .lenient }
  Known _ := True
  Excused e := ∃ id, e = .unresolvedName id
  extra := 0
  lookup := by
    rintro env _ id ⟨hstrict, rfl⟩ -
    have hget : ({ env with names := .lenient } : Environment).get? id = env.get? id := rfl
    unfold Environment.lookup
    rw [hget, hstrict]
    cases env.get? id with
    | some v => exact .same _
    | none =>
        cases Builtin.ofName? id with
        | some v => exact .same _
        | none => exact .released ⟨id, rfl⟩ _
  bind id v henv := ⟨henv.1, by rw [henv.2]; rfl⟩
  loopLimit h := absurd h (by decide)

/-- The run of a program from given bindings under a rule for unbound names. -/
def Program.runUnder (p : Program α) (names : NameResolution) (limit : Nat)
    (bindings : List (String × Value)) : EStateM.Result EvalError Environment Outcome :=
  p.run { names, maxIterations := limit } ⟨bindings, names⟩

/-- A strict run that does not end at an unresolved name ends as the lenient run does and leaves the
same bindings. -/
theorem run_lenient_of_strict (p : Program α) (limit : Nat) (bindings : List (String × Value))
    (hends : ∀ id, Action.ending (p.runUnder .strict limit bindings) ≠
      .error (.unresolvedName id)) :
    Action.ending (p.runUnder .lenient limit bindings) =
        Action.ending (p.runUnder .strict limit bindings) ∧
      (Action.final (p.runUnder .lenient limit bindings)).bindings =
        (Action.final (p.runUnder .strict limit bindings)).bindings := by
  have hrun := p.run_coupled .relaxedNames (fun _ _ => trivial) ⟨.strict, limit⟩ ⟨.lenient, limit⟩
    rfl ⟨bindings, .strict⟩ ⟨bindings, .lenient⟩ ⟨rfl, rfl⟩
  obtain ⟨hending, -, hfinal⟩ := hrun.alike (by
    rintro e ⟨id, rfl⟩
    exact hends id)
  refine ⟨hending, ?_⟩
  unfold Program.runUnder
  rw [hfinal]

def guardedName : Program Unit where
  body :=
    [.branch () (.binary () .andAlso (.name () "FALSE") (.name () "APSR")) (.undefined ()) [] none,
      .assign () (.name () "n") (.call () "UInt" [.name () "imm"]),
      .expr () (.binary () .div (.name () "n") (.int () 0))]

theorem guardedName_lenient_of_strict :
    (∀ id, Action.ending (guardedName.runUnder .strict 8 [("imm", .bits ⟨4, 9, 0⟩)]) ≠
        .error (.unresolvedName id)) ∧
      Action.ending (guardedName.runUnder .lenient 8 [("imm", .bits ⟨4, 9, 0⟩)]) =
        .error .divisionByZero ∧
      (Action.final (guardedName.runUnder .lenient 8 [("imm", .bits ⟨4, 9, 0⟩)])).bindings =
        [("imm", .bits ⟨4, 9, 0⟩), ("n", .int 9)] := by
  have hstrict : guardedName.runUnder .strict 8 [("imm", .bits ⟨4, 9, 0⟩)] =
      .error .divisionByZero ⟨[("imm", .bits ⟨4, 9, 0⟩), ("n", .int 9)], .strict⟩ := by rfl
  have hnames : ∀ id, Action.ending (guardedName.runUnder .strict 8 [("imm", .bits ⟨4, 9, 0⟩)]) ≠
      .error (.unresolvedName id) := by
    intro id
    rw [hstrict]
    nofun
  obtain ⟨hending, hbindings⟩ := run_lenient_of_strict guardedName 8 _ hnames
  rw [hstrict] at hending hbindings
  exact ⟨hnames, hending, hbindings⟩

end ArmPseudocode

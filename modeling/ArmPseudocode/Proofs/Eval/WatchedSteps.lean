import ArmPseudocode.Proofs.Eval.Watch
import ArmPseudocode.Proofs.Eval.WellFormed

/-!
# Watched steps

A watched step goes the way of the step it watches. From a well-formed environment and a sound
record it comes to a well-formed environment and a sound record again, where a record is sound if
its values are well-formed, its ranges lie inside their vectors, and its vectors fit the widths they
are put under. Sequencing, branching and the loops keep all of that.
-/

namespace ArmPseudocode

open EStateM (Result)

variable {β γ : Type}

/-- An event is sound if its value is well-formed, or else if the operation that it stands for was
used as it may be used. -/
def Event.Sound : Event → Prop
  | value v => v.WellFormed
  | slice b high low => low ≤ high ∧ high < b.width
  | extend b width => b.width ≤ width ∧ width ≤ Bits.maxWidth

/-- Nothing unsound happened so far. -/
def SoundRecord (events : List Event) : Prop :=
  ∀ event ∈ events, event.Sound

theorem SoundRecord.cons {event : Event} {events : List Event} (hevent : event.Sound)
    (hevents : SoundRecord events) : SoundRecord (event :: events) :=
  List.forall_mem_cons.mpr ⟨hevent, hevents⟩

namespace Watched

/-- The result of a watched step without the record. -/
def forget : Result EvalError Watch β → Result EvalError Environment β
  | .ok b w => .ok b w.env
  | .error e w => .error e w.env

/-- The record that a watched step leaves. -/
def record : Result EvalError Watch β → List Event
  | .ok _ w => w.events
  | .error _ w => w.events

/-! ### Steps that only read the environment -/

/-- How a watched evaluation ends beside the evaluation itself. -/
inductive Shows (Good : β → Prop) (env : Environment) :
    Result EvalError Watch β → Except EvalError β → Prop
  | ok {b : β} {events : List Event} (hb : Good b) (hevents : SoundRecord events) :
      Shows Good env (.ok b ⟨env, events⟩) (.ok b)
  | error (e : EvalError) {events : List Event} (hevents : SoundRecord events) :
      Shows Good env (.error e ⟨env, events⟩) (.error e)

/-- The watched evaluation ends as the evaluation does, with a good result and a sound record. -/
def Mirrors (Good : β → Prop) (env : Environment) (step : Watched β) (x : Except EvalError β) :
    Prop :=
  ∀ events, SoundRecord events → Shows Good env (step ⟨env, events⟩) x

namespace Mirrors

variable {env : Environment} {Good : β → Prop} {Better : γ → Prop} {step : Watched β}
  {x : Except EvalError β} {next : β → Watched γ}

theorem pure {b : β} (hb : Good b) : Mirrors Good env (Pure.pure b) (.ok b) :=
  fun _ hevents => .ok hb hevents

theorem throw (e : EvalError) : Mirrors Good env (MonadExcept.throw e) (.error e) :=
  fun _ hevents => .error e hevents

theorem bind {f : β → Except EvalError γ} (h : Mirrors Good env step x)
    (hnext : ∀ b, Good b → Mirrors Better env (next b) (f b)) :
    Mirrors Better env (step >>= next) (x >>= f) := by
  intro events hevents
  have hends := h events hevents
  change Shows Better env (EStateM.bind step next ⟨env, events⟩) (x >>= f)
  unfold EStateM.bind
  generalize step ⟨env, events⟩ = r at hends ⊢
  cases hends with
  | ok hb hmid => exact hnext _ hb _ hmid
  | error e hmid => exact .error e hmid

theorem map {f : β → γ} (h : Mirrors Good env step x)
    (hnext : ∀ b, Good b → Mirrors Better env (next b) (.ok (f b))) :
    Mirrors Better env (step >>= next) (f <$> x) := by
  rw [map_eq_pure_bind]
  exact h.bind hnext

/-- A step of which the evaluation shows nothing. -/
theorem andThen {b : β} {y : Except EvalError γ} (h : Mirrors Good env step (.ok b))
    (hnext : Mirrors Better env (next b) y) : Mirrors Better env (step >>= next) y := by
  intro events hevents
  have hends := h events hevents
  change Shows Better env (EStateM.bind step next ⟨env, events⟩) y
  unfold EStateM.bind
  generalize step ⟨env, events⟩ = r at hends ⊢
  cases hends with
  | ok hb hmid => exact hnext _ hmid

theorem ite {p : Prop} [Decidable p] {yes no : Watched β} {y : Except EvalError β}
    (hyes : p → Mirrors Good env yes x) (hno : ¬p → Mirrors Good env no y) :
    Mirrors Good env (if p then yes else no) (if p then x else y) := by
  by_cases h : p
  · rw [if_pos h, if_pos h]
    exact hyes h
  · rw [if_neg h, if_neg h]
    exact hno h

theorem given (hx : Yields Good x) : Mirrors Good env (Watched.given x) x := by
  cases x with
  | ok b => exact fun _ hevents => .ok (hx b rfl) hevents
  | error e => exact fun _ hevents => .error e hevents

theorem note (event : Event) (hevent : event.Sound) :
    Mirrors (fun _ => True) env (Watched.note event) (.ok ()) :=
  fun _ hevents => .ok True.intro (hevents.cons hevent)

theorem computedAs {asValue : β → Value} (hx : Yields Good x)
    (hvalue : ∀ b, Good b → (asValue b).WellFormed) :
    Mirrors Good env (Watched.computedAs asValue x) x := by
  cases x with
  | ok b =>
      have hb := hx b rfl
      exact fun events hevents => .ok hb (hevents.cons (hvalue b hb))
  | error e => exact fun _ hevents => .error e hevents

theorem computed {x : Except EvalError Value} (hx : Yields Value.WellFormed x) :
    Mirrors Value.WellFormed env (Watched.computed x) x :=
  computedAs hx fun _ hv => hv

theorem lookup (henv : env.WellFormed) (id : String) :
    Mirrors Value.WellFormed env (Watched.lookup id) (env.lookup id) :=
  computed (henv.lookup id)

/-! ### Operations that have events of their own -/

variable {b selected : Bits} {high low : Int64}

theorem yields_position (b : Bits) (index : Int64) :
    Yields (fun i => i < b.width ∧ i = index.toInt.toNat) (b.position index) := by
  apply Yields.ite
  · rintro ⟨hpos, hlt⟩
    exact .ok ⟨by omega, rfl⟩
  · intro _
    exact .error _

theorem select (hb : b.WellFormed) (hselected : selected.WellFormed)
    (hle : low.toInt ≤ high.toInt) :
    Mirrors Bits.WellFormed env (Watched.select b selected high low)
      (b.select selected high low) := by
  refine (given (yields_position b high)).bind fun i hi => ?_
  refine (given (yields_position b low)).bind fun j hj => ?_
  have hrange : j ≤ i ∧ i < b.width := by omega
  have hpart := Bits.wellFormed_slice hb hrange.1 hrange.2
  refine (note (.slice b i j) hrange).andThen ?_
  refine (computedAs (.ok hpart) fun _ => .bits).andThen ?_
  exact computedAs (Bits.wellFormed_concat hselected hpart).ofWidth fun _ => .bits

theorem selectRange (hb : b.WellFormed) (hselected : selected.WellFormed) :
    Mirrors Bits.WellFormed env (Watched.selectRange b selected high low)
      (b.selectRange selected high low) := by
  apply ite
  · intro _
    exact throw _
  · intro hlt
    exact select hb hselected (by omega)

theorem zeroExtended (hb : b.WellFormed) (n : Int64) :
    Mirrors Value.WellFormed env (Watched.zeroExtended b n) (Builtin.zeroExtended b n) := by
  apply ite
  · rintro ⟨hold, hnew⟩
    have hwidths : b.width ≤ n.toInt.toNat ∧ n.toInt.toNat ≤ Bits.maxWidth := by omega
    refine (note (.extend b n.toInt.toNat) hwidths).andThen ?_
    exact computed (.ok (.bits (Bits.wellFormed_extend hb hwidths.1 hwidths.2)))
  · intro _
    exact throw _

theorem apply (f : Builtin) {args : List Value} (hargs : ∀ v ∈ args, v.WellFormed) :
    Mirrors Value.WellFormed env (Watched.apply f args) (f.apply args) := by
  unfold Watched.apply
  split
  · refine (given (Builtin.wellFormed_bitsArgument _ (hargs _ List.mem_cons_self))).bind
      fun b hb => ?_
    exact (given (.trivial _)).bind fun n _ => zeroExtended hb n
  · exact computed (Builtin.wellFormed_apply f hargs)

theorem applyTo (callee : String) {args : List Value} (hargs : ∀ v ∈ args, v.WellFormed)
    (v : Value) :
    Mirrors Value.WellFormed env (Watched.applyTo callee args v) (v.applyTo callee args) := by
  cases v with
  | func f => exact apply f hargs
  | _ => exact throw _

end Mirrors

/-! ### Steps that change the environment -/

/-- How a watched step ends beside the step itself. -/
inductive Ends (Good : β → Prop) :
    Result EvalError Watch β → Result EvalError Environment β → Prop
  | ok {b : β} {w : Watch} (hb : Good b) (henv : w.env.WellFormed)
      (hevents : SoundRecord w.events) : Ends Good (.ok b w) (.ok b w.env)
  | error (e : EvalError) {w : Watch} (henv : w.env.WellFormed) (hevents : SoundRecord w.events) :
      Ends Good (.error e w) (.error e w.env)

/-- From a well-formed environment the watched step ends as the step does, in a well-formed
environment, with a good result and a sound record. -/
def Tracks (Good : β → Prop) (step : Watched β) (action : Action β) : Prop :=
  ∀ w, w.env.WellFormed → SoundRecord w.events → Ends Good (step w) (action w.env)

namespace Tracks

variable {Good : β → Prop} {Better : γ → Prop} {step : Watched β} {action : Action β}
  {first second : Watched Outcome} {first' second' : Action Outcome}

theorem pure {b : β} (hb : Good b) : Tracks Good (Pure.pure b) (Pure.pure b) :=
  fun _ henv hevents => .ok hb henv hevents

theorem throw (e : EvalError) : Tracks Good (MonadExcept.throw e) (MonadExcept.throw e) :=
  fun _ henv hevents => .error e henv hevents

theorem reading {f : Environment → Except EvalError β}
    (h : ∀ env : Environment, env.WellFormed → Mirrors Good env step (f env)) :
    Tracks Good step (.reading f) := by
  intro w henv hevents
  have hends := h w.env henv w.events hevents
  unfold Action.reading
  generalize step w = r at hends ⊢
  generalize f w.env = x at hends ⊢
  cases hends with
  | ok hb hmid => exact .ok hb henv hmid
  | error e hmid => exact .error e henv hmid

theorem bind {next : β → Watched γ} {f : β → Action γ} (h : Tracks Good step action)
    (hnext : ∀ b, Good b → Tracks Better (next b) (f b)) :
    Tracks Better (step >>= next) (action >>= f) := by
  intro w henv hevents
  have hends := h w henv hevents
  change Ends Better (EStateM.bind step next w) (EStateM.bind action f w.env)
  unfold EStateM.bind
  generalize step w = r at hends ⊢
  generalize action w.env = r' at hends ⊢
  cases hends with
  | ok hb hmid hrecord => exact hnext _ hb _ hmid hrecord
  | error e hmid hrecord => exact .error e hmid hrecord

theorem ite {p : Prop} [Decidable p] {yes no : Watched β} {yes' no' : Action β}
    (hyes : Tracks Good yes yes') (hno : Tracks Good no no') :
    Tracks Good (if p then yes else no) (if p then yes' else no') := by
  by_cases h : p
  · rw [if_pos h, if_pos h]
    exact hyes
  · rw [if_neg h, if_neg h]
    exact hno

/-- A step without a record has to keep the environment well-formed by itself. -/
theorem unrecorded (hkeeps : action.Keeps) :
    Tracks (fun _ => True) (Watched.unrecorded action) action := by
  intro w henv hevents
  have hfinal := hkeeps w.env henv
  unfold Watched.unrecorded
  generalize action w.env = r at hfinal ⊢
  cases r with
  | ok b env => exact .ok True.intro hfinal hevents
  | error e env => exact .error e hfinal hevents

theorem andThen (h : Tracks (fun _ => True) first first')
    (hnext : Tracks (fun _ => True) second second') :
    Tracks (fun _ => True) (Watched.andThen first second) (Action.andThen first' second') := by
  intro w henv hevents
  have hends := h w henv hevents
  unfold Watched.andThen Action.andThen
  generalize first w = r at hends ⊢
  generalize first' w.env = r' at hends ⊢
  cases hends with
  | @ok outcome _ _ hmid hrecord =>
      cases outcome with
      | proceed => exact hnext _ hmid hrecord
      | _ => exact .ok True.intro hmid hrecord
  | error e hmid hrecord => exact .error e hmid hrecord

/-! ### Loops -/

variable {test : Watched Bool} {test' : Action Bool} {body : Watched Outcome}
  {body' : Action Outcome}

theorem whileLoop (htest : Tracks (fun _ => True) test test')
    (hbody : Tracks (fun _ => True) body body') (limit left : Nat) :
    Tracks (fun _ => True) (Watched.whileLoop limit test body left)
      (Action.whileLoop limit test' body' left) := by
  induction left with
  | zero => exact htest.bind fun _ _ => .ite (.throw _) (.pure True.intro)
  | succ left ih => exact htest.bind fun _ _ => .ite (.andThen hbody ih) (.pure True.intro)

theorem repeatLoop (hbody : Tracks (fun _ => True) body body')
    (htest : Tracks (fun _ => True) test test') (limit left : Nat) :
    Tracks (fun _ => True) (Watched.repeatLoop limit body test left)
      (Action.repeatLoop limit body' test' left) := by
  induction left with
  | zero => exact .throw _
  | succ left ih =>
      exact .andThen hbody (htest.bind fun _ _ => .ite (.pure True.intro) ih)

theorem count (var : String) (k : Int) :
    Tracks (fun _ => True)
      (Watched.computed (.ok (.int (Int64.ofInt k))) >>= fun v =>
        Watched.unrecorded (.bind var v))
      (.bind var (.int (Int64.ofInt k))) := by
  intro w henv hevents
  have hv : (Value.int (Int64.ofInt k)).WellFormed := .int _
  exact .ok True.intro (henv.bind var hv) (hevents.cons hv)

theorem forLoop (var : String) (last : Int) (hbody : Tracks (fun _ => True) body body')
    (limit left : Nat) (k : Int) :
    Tracks (fun _ => True) (Watched.forLoop limit var last body left k)
      (Action.forLoop limit var last body' left k) := by
  induction left generalizing k with
  | zero => exact ite (.throw _) (.pure True.intro)
  | succ left ih =>
      apply ite
      · have hrest := andThen hbody (ih (k + 1))
        simpa only [bind_assoc] using (count var k).bind fun _ _ => hrest
      · exact .pure True.intro

end Tracks

end Watched

end ArmPseudocode

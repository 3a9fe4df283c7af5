import ArmPseudocode.Proofs.Eval.Recorded

/-!
# Where records come from

The record of an expression under watch holds nothing but what its evaluation meets. Each step that
adds to the record is followed back to the part of the expression at which it stands.
-/

namespace ArmPseudocode

variable {α β γ : Type} {env mid : Environment}

theorem Builtin.eq_bits_of_bitsArgument {f : Builtin} {v : Value} {b : Bits}
    (h : f.bitsArgument v = .ok b) : v = .bits b := by
  cases v <;> cases h
  rfl

theorem Builtin.eq_int_of_intArgument {f : Builtin} {v : Value} {n : Int64}
    (h : f.intArgument v = .ok n) : v = .int n := by
  cases v <;> cases h
  rfl

theorem Value.eq_int_of_asInt {place : Place} {v : Value} {n : Int64}
    (h : v.asInt place = .ok n) : v = .int n := by
  cases v <;> cases h
  rfl

theorem Value.eq_bool_of_asBool {place : Place} {v : Value} {b : Bool}
    (h : v.asBool place = .ok b) : v = .bool b := by
  cases v <;> cases h
  rfl

namespace Watched

/-- From a sound record the step adds no events but those with the property. -/
def Adds (P : Event → Prop) (env : Environment) (step : Watched β) : Prop :=
  ∀ events, SoundRecord events → ∀ event ∈ record (step ⟨env, events⟩), event ∈ events ∨ P event

namespace Adds

variable {P Q : Event → Prop} {Good : β → Prop} {step : Watched β} {next : β → Watched γ}
  {x : Except EvalError β}

theorem mono (h : Adds P env step) (hPQ : ∀ event, P event → Q event) : Adds Q env step :=
  fun events hevents event hevent => (h events hevents event hevent).imp_right (hPQ event)

theorem pure (b : β) : Adds P env (Pure.pure b) := fun _ _ _ h => .inl h

theorem throw (e : EvalError) : Adds P env (throw e : Watched β) := fun _ _ _ h => .inl h

theorem unrecorded (action : Action β) : Adds P env (unrecorded action) := by
  intro events _ event hevent
  simp only [Watched.unrecorded] at hevent
  cases haction : action env <;> rw [haction] at hevent <;> exact .inl hevent

theorem given (x : Except EvalError β) : Adds P env (given x) := unrecorded _

theorem note {event : Event} (h : P event) : Adds P env (note event) := by
  intro events _ event' hevent
  rcases List.mem_cons.mp hevent with rfl | hold
  · exact .inr h
  · exact .inl hold

theorem ite {p : Prop} [Decidable p] {yes no : Watched β} (hyes : p → Adds P env yes)
    (hno : ¬p → Adds P env no) : Adds P env (if p then yes else no) := by
  split
  · next h => exact hyes h
  · next h => exact hno h

/-- What is behind a step that reads adds its events from the value that the step shows. -/
theorem bind (h : Adds P env step) (hmirrors : Mirrors Good env step x)
    (hnext : ∀ b, x = .ok b → Good b → Adds P env (next b)) : Adds P env (step >>= next) := by
  intro events hevents event hevent
  have hstep := h events hevents
  have hends := hmirrors events hevents
  change event ∈ record (EStateM.bind step next ⟨env, events⟩) at hevent
  unfold EStateM.bind at hevent
  generalize step ⟨env, events⟩ = r at hstep hends hevent
  cases hends with
  | ok hb hmid =>
      rcases hnext _ rfl hb _ hmid event hevent with hold | hnew
      · exact hstep event hold
      · exact .inr hnew
  | error e hmid => exact hstep event hevent

/-- So does what is behind a step that acts, from the environment that the step leaves. -/
theorem bindAction {action : Action β} (h : Adds P env step) (htracks : Tracks Good step action)
    (henv : env.WellFormed)
    (hnext : ∀ b mid, action env = .ok b mid → mid.WellFormed → Adds P mid (next b)) :
    Adds P env (step >>= next) := by
  intro events hevents event hevent
  have hstep := h events hevents
  have hends := htracks ⟨env, events⟩ henv hevents
  change event ∈ record (EStateM.bind step next ⟨env, events⟩) at hevent
  unfold EStateM.bind at hevent
  generalize step ⟨env, events⟩ = r at hstep hends hevent
  generalize haction : action env = r' at hends
  cases hends with
  | ok hb hmid hrecord =>
      rcases hnext _ _ haction hmid _ hrecord event hevent with hold | hnew
      · exact hstep event hold
      · exact .inr hnew
  | error e hmid hrecord => exact hstep event hevent

theorem andThen {first second : Watched Outcome} {action : Action Outcome}
    (h : Adds P env first) (htracks : Tracks (fun _ => True) first action) (henv : env.WellFormed)
    (hnext : ∀ mid, action env = .ok .proceed mid → mid.WellFormed → Adds P mid second) :
    Adds P env (andThen first second) := by
  intro events hevents event hevent
  have hfirst := h events hevents
  have hends := htracks ⟨env, events⟩ henv hevents
  unfold Watched.andThen at hevent
  generalize first ⟨env, events⟩ = r at hfirst hends hevent
  generalize haction : action env = r' at hends
  cases hends with
  | @ok outcome w _ hmid hrecord =>
      cases outcome with
      | proceed =>
          rcases hnext _ haction hmid _ hrecord event hevent with hold | hnew
          · exact hfirst event hold
          · exact .inr hnew
      | _ => exact hfirst event hevent
  | error e hmid hrecord => exact hfirst event hevent

theorem computedAs {asValue : β → Value} (h : ∀ b, x = .ok b → P (.value (asValue b))) :
    Adds P env (computedAs asValue x) := by
  cases x with
  | error e => exact throw e
  | ok b =>
      intro events hevents event hevent
      exact note (h b rfl) events hevents event hevent

theorem computed {x : Except EvalError Value} (h : ∀ v, x = .ok v → P (.value v)) :
    Adds P env (computed x) := computedAs h

theorem lookup {id : String} (h : ∀ v, env.lookup id = .ok v → P (.value v)) :
    Adds P env (lookup id) :=
  fun events hevents event hevent => computed h events hevents event hevent

theorem asInt {v : Value} {place : Place} {rest : Int64 → Watched γ}
    (hrest : ∀ n, v = .int n → Adds P env (rest n)) :
    Adds P env (Watched.given (v.asInt place) >>= rest) :=
  (given _).bind (Mirrors.given (.trivial _)) fun n hn _ => hrest n (Value.eq_int_of_asInt hn)

theorem asBool {v : Value} {place : Place} {rest : Bool → Watched γ}
    (hrest : ∀ b, v = .bool b → Adds P env (rest b)) :
    Adds P env (Watched.given (v.asBool place) >>= rest) :=
  (given _).bind (Mirrors.given (.trivial _)) fun b hb _ => hrest b (Value.eq_bool_of_asBool hb)

/-! ### Operations that have events of their own -/

variable {b selected : Bits} {high low : Int64}

theorem select (hb : b.WellFormed) (hle : low.toInt ≤ high.toInt)
    (h : ∀ i j, b.position high = .ok i → b.position low = .ok j →
      P (.slice b i j) ∧ P (.value (.bits (b.slice i j))) ∧
        ∀ more, EvalError.ofWidth (selected.concat (b.slice i j)) = .ok more →
          P (.value (.bits more))) :
    Adds P env (select b selected high low) := by
  refine (given _).bind (Mirrors.given (Mirrors.yields_position b high)) fun i hhigh hi => ?_
  refine (given _).bind (Mirrors.given (Mirrors.yields_position b low)) fun j hlow hj => ?_
  obtain ⟨hslice, hpart, hmore⟩ := h i j hhigh hlow
  have hrange : j ≤ i ∧ i < b.width := by omega
  have hwell := Bits.wellFormed_slice hb hrange.1 hrange.2
  refine (note hslice).bind (Mirrors.note (.slice b i j) hrange) fun _ _ _ => ?_
  refine (computedAs ?_).bind (Mirrors.computedAs (.ok hwell) fun _ => .bits) fun part hx _ => ?_
  · intro part hx
    cases hx
    exact hpart
  · cases hx
    exact computedAs hmore

theorem zeroExtended {n : Int64}
    (h : ∀ v, Builtin.zeroExtended b n = .ok v → P (.extend b n.toInt.toNat) ∧ P (.value v)) :
    Adds P env (zeroExtended b n) := by
  unfold Watched.zeroExtended
  refine ite (fun hwidths => ?_) fun _ => throw _
  have hv : Builtin.zeroExtended b n = .ok (.bits (b.extend n.toInt.toNat)) := if_pos hwidths
  have hsound : (Event.extend b n.toInt.toNat).Sound := ⟨by omega, by omega⟩
  refine (note (h _ hv).1).bind (Mirrors.note _ hsound) fun _ _ _ => computed ?_
  intro v hx
  cases hx
  exact (h _ hv).2

theorem apply {f : Builtin} {args : List Value}
    (hvalue : ∀ v, f.apply args = .ok v → P (.value v))
    (hextend : ∀ b n v, f = .zeroExtend → args = [.bits b, .int n] → f.apply args = .ok v →
      P (.extend b n.toInt.toNat)) : Adds P env (apply f args) := by
  unfold Watched.apply
  split
  · next v w =>
      refine (given _).bind (Mirrors.given (.trivial _)) fun b hv _ => ?_
      refine (given _).bind (Mirrors.given (.trivial _)) fun n hw _ => ?_
      obtain rfl := Builtin.eq_bits_of_bitsArgument hv
      obtain rfl := Builtin.eq_int_of_intArgument hw
      exact zeroExtended fun v hx => ⟨hextend b n v rfl rfl hx, hvalue v hx⟩
  · exact computed hvalue

end Adds

end Watched

open Watched

namespace Expr

variable {e part : Expr α}

theorem Evaluates.adds (h : Evaluates env e part) (hfilled : e.Filled)
    (hpart : part.Filled → Adds (Meets env part) env part.watched) :
    Adds (Meets env e) env part.watched :=
  (hpart (h.filled hfilled)).mono fun _ => .inside h

/-- An operand adds what it meets, and then the rest goes on from its value. -/
theorem Evaluates.bind_adds {rest : Value → Watched γ} (h : Evaluates env e part)
    (henv : env.WellFormed) (hfilled : e.Filled)
    (hpart : part.Filled → Adds (Meets env part) env part.watched)
    (hrest : ∀ v, part.eval env = .ok v → v.WellFormed → Adds (Meets env e) env (rest v)) :
    Adds (Meets env e) env (part.watched >>= rest) :=
  (h.adds hfilled hpart).bind (watched_mirrors henv part (h.filled hfilled)) hrest

theorem adds_value {x : Except EvalError Value} (h : ∀ v, x = .ok v → e.eval env = .ok v) :
    Adds (Meets env e) env (computed x) :=
  .computed fun v hx => .here (.value (h v hx))

theorem AtTerm.adds_select {b selected : Bits} {term : SliceTerm (Expr α)} {high low : Int64}
    (h : AtTerm env e b selected term) (htakes : term.Takes env high low) (hb : b.WellFormed) :
    Adds (Meets env e) env (select b selected high low) := by
  refine .select hb htakes.le fun i j hi hj => ?_
  have hrange := AtRange.intro h htakes hi hj
  exact ⟨.here (.taken hrange), .here (.part hrange),
    fun more hmore => .here (.joined hrange hmore)⟩

theorem AtTerm.adds_selectRange {b selected : Bits} {high low : Expr α} {i j : Int64}
    (h : AtTerm env e b selected (.range high low)) (hhigh : high.eval env = .ok (.int i))
    (hlow : low.eval env = .ok (.int j)) (hb : b.WellFormed) :
    Adds (Meets env e) env (selectRange b selected i j) :=
  .ite (fun _ => .throw _) fun hlt => h.adds_select (.range hhigh hlow (by omega)) hb

theorem adds_applyTo {info : α} {callee : String} {args : List (Expr α)} {vs : List Value}
    (hargs : evalAll env args = .ok vs) {v : Value} (hv : env.lookup callee = .ok v) :
    Adds (Meets env (call info callee args)) env (applyTo callee vs v) := by
  have hvalue : ∀ r, v.applyTo callee vs = .ok r → (call info callee args).eval env = .ok r := by
    intro r hr
    rw [eval, hargs]
    change (env.lookup callee >>= _) = _
    rw [hv]
    exact hr
  cases v with
  | func f =>
      refine .apply (fun r hr => .here (.value (hvalue r hr))) ?_
      rintro b n r rfl rfl hr
      exact .here (.extended hargs hv (hvalue r hr))
  | _ => exact .throw _

/-- The right operand is reached unless the value of the left one settles the operation. -/
theorem binary_adds {info : α} {op : BinaryOp} {left right : Expr α} (henv : env.WellFormed)
    (hfilled : (binary info op left right).Filled)
    (hleft : left.Filled → Adds (Meets env left) env left.watched)
    (hright : right.Filled → Adds (Meets env right) env right.watched) :
    Adds (Meets env (binary info op left right)) env (binary info op left right).watched := by
  refine Evaluates.left.bind_adds henv hfilled hleft fun v hv _ => ?_
  have hreached : op.Needs v → Evaluates env (binary info op left right) right := .right hv
  have hsettled : ∀ b : Bool, (binary info op left right).eval env = .ok (.bool b) →
      Adds (Meets env (binary info op left right)) env (computed (.ok (.bool b))) := by
    intro b hb
    refine adds_value fun r hr => ?_
    cases hr
    exact hb
  cases op with
  | andAlso =>
      refine .asBool fun holds hholds => ?_
      subst hholds
      cases holds with
      | true => exact (hreached rfl).adds hfilled hright
      | false => exact hsettled false (by rw [eval, hv]; rfl)
  | orElse =>
      refine .asBool fun holds hholds => ?_
      subst hholds
      cases holds with
      | true => exact hsettled true (by rw [eval, hv]; rfl)
      | false => exact (hreached rfl).adds hfilled hright
  | _ =>
      refine (hreached True.intro).bind_adds henv hfilled hright
        fun w hw _ => adds_value fun r hr => ?_
      rw [eval, hv]
      change (right.eval env >>= _) = _
      rw [hw]
      exact hr

mutual

theorem watched_adds (henv : env.WellFormed) (e : Expr α) (hfilled : e.Filled) :
    Adds (Meets env e) env e.watched := by
  cases e with
  | int | bitString => exact adds_value fun v hx => hx
  | real | declare | blank | malformed => exact .throw _
  | name _ id => exact .lookup fun v hx => .here (.value hx)
  | unknown _ type =>
      match type with
      | none => exact .throw _
      | some (.bits width) =>
          refine Evaluates.width.bind_adds henv hfilled (watched_adds henv width)
            fun v hv _ => .asInt fun n hn => ?_
          refine adds_value fun r hr => ?_
          rw [eval, hv, hn]
          exact hr
      | some .bit => exact adds_value fun v hx => hx
      | some .boolean | some .integer | some (.named _) | some (.tuple _) => exact .throw _
  | call _ callee args =>
      have hargs : ∀ part ∈ walkEach args, part.isEmptyTuple = false :=
        fun x hx => hfilled x (List.mem_cons_of_mem _ hx)
      refine (watchedAll_adds henv args hargs ?_).bind (watchedAll_mirrors henv args hargs)
        fun vs hvs _ => ?_
      · rintro before part after vs rfl hbefore event hpart
        exact .inside (.argument hbefore) hpart
      · refine (Adds.lookup fun v hv => ?_).bind (Mirrors.lookup henv callee) fun v hv _ => ?_
        · exact .here (.callee hvs hv)
        · exact adds_applyTo hvs hv
  | tuple info items =>
      have hitems : ∀ part ∈ walkEach items, part.isEmptyTuple = false :=
        fun x hx => hfilled x (List.mem_cons_of_mem _ hx)
      match items with
      | [] => exact nomatch hfilled _ List.mem_cons_self
      | [item] =>
          have hsingle : Evaluates env (tuple info ([] ++ item :: [])) item := .component rfl
          exact hsingle.adds hfilled (watched_adds henv item)
      | first :: second :: rest =>
          have hall := watchedAll_adds henv (first :: second :: rest) hitems
            (P := Meets env (tuple info (first :: second :: rest)))
            fun before part after vs heq hbefore event hpart => by
              rw [heq]
              exact .inside (.component hbefore) hpart
          refine hall.bind (watchedAll_mirrors henv (first :: second :: rest) hitems)
            fun vs hvs _ => adds_value fun r hr => ?_
          rw [eval, hvs]
          · exact hr
          · nofun
  | binary _ op left right =>
      exact binary_adds henv hfilled (watched_adds henv left) (watched_adds henv right)
  | unary _ op operand =>
      refine Evaluates.operand.bind_adds henv hfilled (watched_adds henv operand)
        fun v hv _ => adds_value fun r hr => ?_
      rw [eval, hv]
      exact hr
  | slice _ base terms | index _ base terms =>
      have hterms : ∀ part ∈ walkTerms terms, part.isEmptyTuple = false := fun x hx =>
        hfilled x (List.mem_cons_of_mem _ (List.mem_append_right _ hx))
      refine (Evaluates.base rfl).bind_adds henv hfilled (watched_adds henv base)
        fun v hv hwell => ?_
      cases hwell with
      | bits hb =>
          refine (watchedTerms_adds henv hfilled hb Bits.wellFormed_nil terms ?_).bind
            (watchedTerms_mirrors henv hb Bits.wellFormed_nil terms hterms)
            fun chosen hchosen _ => adds_value fun r hr => ?_
          · rintro before term after chosen rfl hbefore
            exact .intro rfl hv hbefore
          · rw [eval, hv]
            change (Value.bits <$> evalTerms env _ .nil terms) = _
            rw [hchosen]
            exact hr
      | _ => exact .throw _
  | conditional _ test yes no =>
      refine Evaluates.test.bind_adds henv hfilled (watched_adds henv test)
        fun v hv _ => .asBool fun holds hholds => ?_
      subst hholds
      cases holds with
      | true => exact (Evaluates.yes hv).adds hfilled (watched_adds henv yes)
      | false => exact (Evaluates.no hv).adds hfilled (watched_adds henv no)
  | member _ base field =>
      refine Evaluates.owner.bind_adds henv hfilled (watched_adds henv base)
        fun v hv _ => adds_value fun r hr => ?_
      rw [eval, hv]
      exact hr
termination_by structural e

theorem watchedAll_adds (henv : env.WellFormed) (es : List (Expr α))
    (hfilled : ∀ part ∈ walkEach es, part.isEmptyTuple = false)
    {P : Event → Prop} (hP : ∀ before part after vs, es = before ++ part :: after →
      evalAll env before = .ok vs → ∀ event, Meets env part event → P event) :
    Adds P env (watchedAll es) := by
  cases es with
  | nil => exact .pure []
  | cons e es =>
      simp only [walkEach, List.forall_mem_append] at hfilled
      refine ((watched_adds henv e hfilled.1).mono (hP [] e es [] rfl rfl)).bind
        (watched_mirrors henv e hfilled.1) fun v hv _ => ?_
      refine (watchedAll_adds henv es hfilled.2 ?_).bind (watchedAll_mirrors henv es hfilled.2)
        fun vs _ _ => .pure _
      rintro before part after vs rfl hbefore
      refine hP (e :: before) part after (v :: vs) rfl ?_
      rw [evalAll, hv, hbefore]
      rfl
termination_by structural es

theorem watchedTerms_adds (henv : env.WellFormed) {e : Expr α} (hfilled : e.Filled)
    {b selected : Bits} (hb : b.WellFormed) (hselected : selected.WellFormed)
    (terms : List (SliceTerm (Expr α)))
    (hat : ∀ before term after chosen, terms = before ++ term :: after →
      evalTerms env b selected before = .ok chosen → AtTerm env e b chosen term) :
    Adds (Meets env e) env (watchedTerms b selected terms) := by
  cases terms with
  | nil => exact .pure selected
  | cons term terms =>
      have hterm := hat [] term terms selected rfl rfl
      cases term with
      | single position =>
          refine (Evaluates.position hterm).bind_adds henv hfilled (watched_adds henv position)
            fun v hv _ => .asInt fun i hi => ?_
          subst hi
          refine (hterm.adds_select (.single hv) hb).bind
            (Mirrors.select hb hselected (Int.le_refl _)) fun more hmore hwell => ?_
          refine watchedTerms_adds henv hfilled hb hwell terms
            fun before term after chosen hterms hbefore => ?_
          refine hat (.single position :: before) term after chosen (by rw [hterms]; rfl) ?_
          rw [evalTerms, hv]
          change (b.select selected i i >>= _) = _
          rw [hmore]
          exact hbefore
      | range high low =>
          refine (Evaluates.high hterm).bind_adds henv hfilled (watched_adds henv high)
            fun v hv _ => .asInt fun i hi => ?_
          subst hi
          refine (Evaluates.low hterm hv).bind_adds henv hfilled (watched_adds henv low)
            fun w hw _ => .asInt fun j hj => ?_
          subst hj
          refine (hterm.adds_selectRange hv hw hb).bind (Mirrors.selectRange hb hselected)
            fun more hmore hwell => ?_
          refine watchedTerms_adds henv hfilled hb hwell terms
            fun before term after chosen hterms hbefore => ?_
          refine hat (.range high low :: before) term after chosen (by rw [hterms]; rfl) ?_
          rw [evalTerms, hv]
          change (low.eval env >>= _) = _
          rw [hw]
          change (b.selectRange selected i j >>= _) = _
          rw [hmore]
          exact hbefore
termination_by structural terms

end

end Expr

end ArmPseudocode

import ArmPseudocode.Proofs.Eval.Encounters
import ArmPseudocode.Proofs.Eval.Record
import ArmPseudocode.Proofs.Eval.WatchedRun

/-!
# Recorded events

Whatever a run meets is in the record of the run under watch. A watched step visits another if it
comes to run it and drops nothing that this one records; a form visits its parts, one after the
other, for as long as those in front of them end as they do without the watch.
-/

namespace ArmPseudocode

variable {α β γ δ : Type} {env mid next : Environment}

namespace Watched

/-- From any sound record the step ends well, in an environment of its own and with a result. -/
def Gives (step : Watched β) (env : Environment) (b : β) (mid : Environment) : Prop :=
  ∀ events, SoundRecord events →
    ∃ events', SoundRecord events' ∧ step ⟨env, events⟩ = .ok b ⟨mid, events'⟩

/-- From any sound record the step comes to run another, which starts from a sound record as well
and whose record is the bottom of what the step leaves. -/
def Visits (step : Watched β) (env : Environment) (inner : Watched γ) (mid : Environment) : Prop :=
  ∀ events, SoundRecord events →
    ∃ events', SoundRecord events' ∧ record (inner ⟨mid, events'⟩) <:+ record (step ⟨env, events⟩)

/-- From any sound record the step leaves the event in the record. -/
def Notes (step : Watched β) (env : Environment) (event : Event) : Prop :=
  ∀ events, SoundRecord events → event ∈ record (step ⟨env, events⟩)

variable {step : Watched β} {inner : Watched γ} {b : β} {event : Event}

theorem Mirrors.gives {Good : β → Prop} {x : Except EvalError β} (h : Mirrors Good env step x)
    (hx : x = .ok b) : Gives step env b env := by
  intro events hevents
  have hends := h events hevents
  rw [hx] at hends
  generalize step ⟨env, events⟩ = r at hends ⊢
  cases hends with
  | ok _ hmid => exact ⟨_, hmid, rfl⟩

theorem Mirrors.good {Good : β → Prop} (h : Mirrors Good env step (.ok b)) : Good b := by
  have hends := h [] fun event hevent => nomatch hevent
  generalize step ⟨env, []⟩ = r at hends
  cases hends with
  | ok hb _ => exact hb

theorem Tracks.gives {Good : β → Prop} {action : Action β} (h : Tracks Good step action)
    (henv : env.WellFormed) (haction : action env = .ok b mid) : Gives step env b mid := by
  intro events hevents
  have hends := h ⟨env, events⟩ henv hevents
  rw [haction] at hends
  generalize step ⟨env, events⟩ = r at hends ⊢
  cases hends with
  | ok _ _ hmid => exact ⟨_, hmid, rfl⟩

theorem Tracks.wellFormed_of_ok {Good : β → Prop} {action : Action β} (h : Tracks Good step action)
    (henv : env.WellFormed) (haction : action env = .ok b mid) : mid.WellFormed := by
  have hends := h ⟨env, []⟩ henv fun event hevent => nomatch hevent
  rw [haction] at hends
  generalize step ⟨env, []⟩ = r at hends
  cases hends with
  | ok _ hmid _ => exact hmid

theorem gives_given (x : Except EvalError β) (hx : x = .ok b) : Gives (given x) env b env := by
  subst hx
  exact fun events hevents => ⟨events, hevents, rfl⟩

namespace Visits

variable {step' : Watched δ}

theorem refl (step : Watched β) (env : Environment) : Visits step env step env :=
  fun events hevents => ⟨events, hevents, List.suffix_rfl⟩

theorem trans (h : Visits step env inner mid) (h' : Visits inner mid step' next) :
    Visits step env step' next := by
  intro events hevents
  obtain ⟨events', hevents', hsuffix⟩ := h events hevents
  obtain ⟨events'', hevents'', hsuffix'⟩ := h' events' hevents'
  exact ⟨events'', hevents'', hsuffix'.trans hsuffix⟩

/-- A step visits its first step, as nothing behind that takes anything out of the record. -/
theorem head {rest : β → Watched γ} (hrest : ∀ b, Appends (rest b)) :
    Visits (step >>= rest) env step env := by
  intro events hevents
  refine ⟨events, hevents, ?_⟩
  change _ <:+ record (EStateM.bind step rest ⟨env, events⟩)
  unfold EStateM.bind
  cases step ⟨env, events⟩ with
  | ok b w => exact hrest b w
  | error e w => exact List.suffix_rfl

/-- A step that goes on as another does visits it. -/
theorem of_eq {inner : Watched β} (h : ∀ events, SoundRecord events →
    ∃ events', SoundRecord events' ∧ step ⟨env, events⟩ = inner ⟨mid, events'⟩) :
    Visits step env inner mid := by
  intro events hevents
  obtain ⟨events', hevents', hstep⟩ := h events hevents
  exact ⟨events', hevents', hstep ▸ List.suffix_rfl⟩

theorem behind {rest : β → Watched γ} (h : Gives step env b mid) :
    Visits (step >>= rest) env (rest b) mid := by
  refine of_eq fun events hevents => ?_
  obtain ⟨events', hevents', hstep⟩ := h events hevents
  refine ⟨events', hevents', ?_⟩
  change EStateM.bind step rest ⟨env, events⟩ = _
  unfold EStateM.bind
  rw [hstep]

theorem andThen_head {first second : Watched Outcome} (hsecond : Appends second) :
    Visits (andThen first second) env first env := by
  intro events hevents
  refine ⟨events, hevents, ?_⟩
  unfold andThen
  cases first ⟨env, events⟩ with
  | ok outcome w =>
      cases outcome with
      | proceed => exact hsecond w
      | _ => exact List.suffix_rfl
  | error e w => exact List.suffix_rfl

theorem andThen_behind {first second : Watched Outcome} (h : Gives first env .proceed mid) :
    Visits (andThen first second) env second mid := by
  refine of_eq fun events hevents => ?_
  obtain ⟨events', hevents', hfirst⟩ := h events hevents
  refine ⟨events', hevents', ?_⟩
  unfold andThen
  rw [hfirst]

theorem notes (h : Visits step env inner mid) (hinner : Notes inner mid event) :
    Notes step env event := by
  intro events hevents
  obtain ⟨events', hevents', hsuffix⟩ := h events hevents
  exact hsuffix.subset (hinner events' hevents')

end Visits

namespace Notes

theorem note (event : Event) (env : Environment) : Notes (Watched.note event) env event :=
  fun _ _ => List.mem_cons_self

/-- A value that is computed is recorded at once. -/
theorem computedAs {asValue : β → Value} {x : Except EvalError β} (hx : x = .ok b) :
    Notes (Watched.computedAs asValue x) env (.value (asValue b)) := by
  subst hx
  exact fun _ _ => List.mem_cons_self

theorem computed {x : Except EvalError Value} {v : Value} (hx : x = .ok v) :
    Notes (Watched.computed x) env (.value v) :=
  computedAs hx

theorem lookup {id : String} {v : Value} (hid : env.lookup id = .ok v) :
    Notes (Watched.lookup id) env (.value v) :=
  fun events hevents => computed hid events hevents

theorem zeroExtended {b : Bits} {n : Int64} {v : Value}
    (h : Builtin.zeroExtended b n = .ok v) :
    Notes (Watched.zeroExtended b n) env (.extend b n.toInt.toNat) := by
  unfold Builtin.zeroExtended at h
  unfold Watched.zeroExtended
  split
  · exact (Visits.head fun _ => .computed _).notes (note _ _)
  · next hwidths =>
      rw [if_neg hwidths] at h
      cases h

theorem of_records {step : Watched Value} {v : Value} (h : Records step)
    (hgives : Gives step env v mid) : Notes step env (.value v) := by
  intro events hevents
  obtain ⟨events', -, hstep⟩ := hgives events hevents
  rw [hstep]
  exact h _ _ _ hstep

end Notes

end Watched

open Watched

theorem SliceTerm.Takes.le {term : SliceTerm (Expr α)} {high low : Int64}
    (h : term.Takes env high low) : low.toInt ≤ high.toInt := by
  cases h with
  | single => exact Int.le_refl _
  | range _ _ hlt => omega

namespace Expr

/-! ### Parts of expressions -/

variable {e part base : Expr α} {terms : List (SliceTerm (Expr α))} {b selected : Bits} {i j : Nat}

theorem walk_of_cut (hcut : e.cut? = some (base, terms)) :
    base.walk ⊆ e.walk ∧ walkTerms terms ⊆ e.walk := by
  cases e with
  | slice _ base terms | index _ base terms =>
      cases hcut
      exact ⟨List.subset_cons_of_subset _ (List.subset_append_left _ _),
        List.subset_cons_of_subset _ (List.subset_append_right _ _)⟩
  | _ => nomatch hcut

theorem AtTerm.walk_subset {term : SliceTerm (Expr α)} (h : AtTerm env e b selected term)
    {bound : Expr α} (hbound : bound ∈ term.bounds) : bound.walk ⊆ e.walk := by
  obtain ⟨hcut, -, -⟩ := h
  intro x hx
  apply (walk_of_cut hcut).2
  rw [walkTerms_eq_flatMap, List.mem_flatMap]
  exact ⟨term, List.mem_append_right _ List.mem_cons_self, List.mem_flatMap.mpr ⟨bound, hbound, hx⟩⟩

theorem walkEach_append_subset (before after : List (Expr α)) (e : Expr α) :
    walkEach before ⊆ walkEach (before ++ e :: after) ∧
      e.walk ⊆ walkEach (before ++ e :: after) := by
  simp only [walkEach_eq_flatMap, List.flatMap_append, List.flatMap_cons]
  exact ⟨List.subset_append_left _ _,
    List.Subset.trans (List.subset_append_left _ _) (List.subset_append_right _ _)⟩

theorem Evaluates.walk_subset (h : Evaluates env e part) : part.walk ⊆ e.walk := by
  cases h with
  | width => exact List.subset_cons_self _ _
  | argument | component =>
      exact List.subset_cons_of_subset _ (walkEach_append_subset _ _ part).2
  | left => exact List.subset_cons_of_subset _ (List.subset_append_left _ _)
  | right => exact List.subset_cons_of_subset _ (List.subset_append_right _ _)
  | operand | owner => exact List.subset_cons_self _ _
  | base hcut => exact (walk_of_cut hcut).1
  | position hterm | high hterm => exact hterm.walk_subset List.mem_cons_self
  | low hterm => exact hterm.walk_subset (List.mem_cons_of_mem _ List.mem_cons_self)
  | test =>
      exact List.subset_cons_of_subset _
        (List.subset_append_of_subset_left _ (List.subset_append_left _ _))
  | yes =>
      exact List.subset_cons_of_subset _
        (List.subset_append_of_subset_left _ (List.subset_append_right _ _))
  | no => exact List.subset_cons_of_subset _ (List.subset_append_right _ _)

/-- A part that is reached has no empty tuple in it if the whole has none. -/
theorem Evaluates.filled (h : Evaluates env e part) (he : e.Filled) : part.Filled :=
  fun x hx => he x (h.walk_subset hx)

theorem walkTerms_append_subset (before after : List (SliceTerm (Expr α))) :
    walkTerms before ⊆ walkTerms (before ++ after) := by
  simp only [walkTerms_eq_flatMap, List.flatMap_append]
  exact List.subset_append_left _ _

/-! ### Visits of expressions -/

theorem watchedAll_append (before after : List (Expr α)) :
    watchedAll (before ++ after) = do
      let vs ← watchedAll before
      let ws ← watchedAll after
      return vs ++ ws := by
  induction before with
  | nil => simp [watchedAll]
  | cons e before ih => simp [watchedAll, ih]

theorem watchedTerms_append (b selected : Bits) (before after : List (SliceTerm (Expr α))) :
    watchedTerms b selected (before ++ after) =
      watchedTerms b selected before >>= fun selected => watchedTerms b selected after := by
  induction before generalizing selected with
  | nil => simp [watchedTerms]
  | cons term before ih => cases term <;> simp [watchedTerms, ih]

/-- One of the expressions is visited where those in front of it all have values. -/
theorem visits_watchedAll {before : List (Expr α)} {vs : List Value} (after : List (Expr α))
    (hbefore : Gives (watchedAll before) env vs env) :
    Visits (watchedAll (before ++ part :: after)) env part.watched env := by
  rw [watchedAll_append]
  refine (Visits.behind hbefore).trans ((Visits.head fun ws => .pure _).trans (.head fun v => ?_))
  exact (watchedAll_appends after).bind fun ws => .pure _

theorem watched_tuple (info : α) {items : List (Expr α)} (hitems : items.length ≠ 1) :
    (tuple info items).watched =
      watchedAll items >>= fun vs => computed (.ok (.tuple vs)) := by
  match items with
  | [] => rfl
  | [_] => exact absurd rfl hitems
  | _ :: _ :: _ => rfl

theorem visits_base (hcut : e.cut? = some (base, terms)) :
    Visits e.watched env base.watched env := by
  cases e with
  | slice _ base terms | index _ base terms =>
      cases hcut
      refine .head fun v => ?_
      cases v with
      | bits b => exact (watchedTerms_appends b .nil terms).bind fun _ => .computed _
      | _ => exact .throw _
  | _ => nomatch hcut

theorem visits_terms (hcut : e.cut? = some (base, terms))
    (hbase : Gives base.watched env (.bits b) env) :
    Visits e.watched env (watchedTerms b .nil terms) env := by
  cases e with
  | slice _ base terms | index _ base terms =>
      cases hcut
      exact (Visits.behind hbase).trans (.head fun _ => .computed _)
  | _ => nomatch hcut

theorem AtRange.sound (h : AtRange env e b selected i j) : (Event.slice b i j).Sound := by
  obtain ⟨-, htakes, hhigh, hlow⟩ := h
  obtain ⟨hi, rfl⟩ := Mirrors.yields_position b _ i hhigh
  obtain ⟨-, rfl⟩ := Mirrors.yields_position b _ j hlow
  have hle := htakes.le
  exact ⟨by omega, hi⟩

theorem AtRange.gives_slice (h : AtRange env e b selected i j) :
    Gives (note (.slice b i j)) env () env :=
  (Mirrors.note _ h.sound).gives rfl

variable (henv : env.WellFormed) (hfilled : e.Filled)
include henv hfilled

theorem gives_watched {v : Value} (he : e.eval env = .ok v) : Gives e.watched env v env :=
  (watched_mirrors henv e hfilled).gives he

theorem wellFormed_of_eval {v : Value} (he : e.eval env = .ok v) : v.WellFormed := by
  have hmirrors := watched_mirrors henv e hfilled
  rw [he] at hmirrors
  exact hmirrors.good

theorem Evaluates.gives {v : Value} (h : Evaluates env e part) (hv : part.eval env = .ok v) :
    Gives part.watched env v env :=
  gives_watched henv (h.filled hfilled) hv

theorem AtTerm.wellFormed {term : SliceTerm (Expr α)} (h : AtTerm env e b selected term) :
    b.WellFormed ∧ selected.WellFormed := by
  obtain ⟨hcut, hbase, hbefore⟩ := h
  have hbases : Evaluates env e _ := .base hcut
  cases wellFormed_of_eval henv (hbases.filled hfilled) hbase with
  | bits hb =>
      have hmirrors := watchedTerms_mirrors henv hb Bits.wellFormed_nil _ fun x hx =>
        hfilled x ((walk_of_cut hcut).2 (walkTerms_append_subset _ _ hx))
      rw [hbefore] at hmirrors
      exact ⟨hb, hmirrors.good⟩

theorem AtTerm.visits {term : SliceTerm (Expr α)} (h : AtTerm env e b selected term) :
    ∃ after, Visits e.watched env (watchedTerms b selected (term :: after)) env := by
  obtain ⟨hb, -⟩ := h.wellFormed henv hfilled
  obtain @⟨base, before, after, _, hcut, hbase, hbefore⟩ := h
  have hmirrors := watchedTerms_mirrors henv hb Bits.wellFormed_nil before fun x hx =>
    hfilled x ((walk_of_cut hcut).2 (walkTerms_append_subset _ _ hx))
  have hvisits := visits_terms hcut ((Evaluates.base hcut).gives henv hfilled hbase)
  rw [watchedTerms_append] at hvisits
  exact ⟨after, hvisits.trans (.behind (hmirrors.gives hbefore))⟩

theorem AtTerm.visits_select {term : SliceTerm (Expr α)} {high low : Int64}
    (h : AtTerm env e b selected term) (htakes : term.Takes env high low) :
    Visits e.watched env (select b selected high low) env := by
  obtain ⟨after, hvisits⟩ := h.visits henv hfilled
  refine hvisits.trans ?_
  cases htakes with
  | single hposition =>
      have hgives := (Evaluates.position h).gives henv hfilled hposition
      refine (Visits.behind hgives).trans ?_
      refine (Visits.behind (gives_given _ rfl)).trans (.head fun selected => ?_)
      exact watchedTerms_appends b selected after
  | range hhigh hlow hlt =>
      have hfirst := (Evaluates.high h).gives henv hfilled hhigh
      have hsecond := (Evaluates.low h hhigh).gives henv hfilled hlow
      refine (Visits.behind hfirst).trans ((Visits.behind (gives_given _ rfl)).trans ?_)
      refine (Visits.behind hsecond).trans ((Visits.behind (gives_given _ rfl)).trans ?_)
      refine (Visits.head fun selected => watchedTerms_appends b selected after).trans ?_
      rw [selectRange, if_neg (by omega)]
      exact .refl _ _

theorem Evaluates.visits (h : Evaluates env e part) : Visits e.watched env part.watched env := by
  cases h with
  | width => exact .head fun _ => (Appends.given _).bind fun _ => .computed _
  | @argument _ callee before after _ _ hbefore =>
      have hall := watchedAll_mirrors henv before fun x hx =>
        hfilled x (List.mem_cons_of_mem _ ((walkEach_append_subset before after part).1 hx))
      refine (Visits.head fun vs => ?_).trans (visits_watchedAll after (hall.gives hbefore))
      exact (Appends.lookup callee).bind fun v => .applyTo callee vs v
  | @component info before after _ _ hbefore =>
      have hall := watchedAll_mirrors henv before fun x hx =>
        hfilled x (List.mem_cons_of_mem _ ((walkEach_append_subset before after part).1 hx))
      by_cases hitems : (before ++ part :: after).length = 1
      · rw [List.length_append, List.length_cons] at hitems
        obtain rfl := List.eq_nil_of_length_eq_zero (l := before) (by omega)
        obtain rfl := List.eq_nil_of_length_eq_zero (l := after) (by omega)
        exact .refl _ _
      · rw [watched_tuple info hitems]
        refine (Visits.head fun _ => .computed _).trans ?_
        exact visits_watchedAll after (hall.gives hbefore)
  | @left _ op _ right =>
      refine .head fun v => ?_
      cases op with
      | andAlso =>
          exact (Appends.given _).bind fun _ => .ite right.watched_appends (.computed _)
      | orElse =>
          exact (Appends.given _).bind fun _ => .ite (.computed _) right.watched_appends
      | _ => exact right.watched_appends.bind fun _ => .computed _
  | @right _ op left _ v hleft hop =>
      refine (Visits.behind (Evaluates.left.gives henv hfilled hleft)).trans ?_
      cases op with
      | andAlso =>
          cases hop
          exact .behind (gives_given _ rfl)
      | orElse =>
          cases hop
          exact .behind (gives_given _ rfl)
      | _ => exact .head fun _ => .computed _
  | operand => exact .head fun _ => .computed _
  | base hcut => exact visits_base hcut
  | position hterm =>
      obtain ⟨after, hvisits⟩ := hterm.visits henv hfilled
      refine hvisits.trans (.head fun _ => (Appends.given _).bind fun i => ?_)
      exact (Appends.select _ _ i i).bind fun selected => watchedTerms_appends _ selected after
  | high hterm =>
      obtain ⟨after, hvisits⟩ := hterm.visits henv hfilled
      refine hvisits.trans (.head fun _ => (Appends.given _).bind fun i => ?_)
      refine (watched_appends _).bind fun _ => (Appends.given _).bind fun j => ?_
      exact (Appends.selectRange _ _ i j).bind fun selected => watchedTerms_appends _ selected after
  | low hterm hhigh =>
      have hgives := (Evaluates.high hterm).gives henv hfilled hhigh
      obtain ⟨after, hvisits⟩ := hterm.visits henv hfilled
      refine hvisits.trans ((Visits.behind hgives).trans ?_)
      refine (Visits.behind (gives_given _ rfl)).trans (.head fun _ => ?_)
      refine (Appends.given _).bind fun j => (Appends.selectRange _ _ _ j).bind fun selected => ?_
      exact watchedTerms_appends _ selected after
  | test =>
      refine .head fun _ => (Appends.given _).bind fun _ => .ite ?_ ?_
      · exact watched_appends _
      · exact watched_appends _
  | yes htest | no htest =>
      refine (Visits.behind (Evaluates.test.gives henv hfilled htest)).trans ?_
      exact .behind (gives_given _ rfl)
  | owner => exact .head fun _ => .computed _

/-! ### Events of expressions -/

/-- What is left of the selection once the ends of the range are known. -/
theorem AtRange.visits (h : AtRange env e b selected i j) :
    Visits e.watched env (note (.slice b i j) >>= fun _ =>
      computedAs .bits (.ok (b.slice i j)) >>= fun part =>
      computedAs .bits (EvalError.ofWidth (selected.concat part))) env := by
  obtain ⟨hterm, htakes, hhigh, hlow⟩ := h
  refine (hterm.visits_select henv hfilled htakes).trans ?_
  exact (Visits.behind (gives_given _ hhigh)).trans (.behind (gives_given _ hlow))

theorem AtRange.notes_slice (h : AtRange env e b selected i j) :
    Notes e.watched env (.slice b i j) :=
  (h.visits henv hfilled).notes ((Visits.head fun _ =>
    (Appends.computedAs _ _).bind fun _ => .computedAs _ _).notes (.note _ _))

theorem AtRange.notes_part (h : AtRange env e b selected i j) :
    Notes e.watched env (.value (.bits (b.slice i j))) :=
  (h.visits henv hfilled).notes ((Visits.behind h.gives_slice).notes
    ((Visits.head fun _ => .computedAs _ _).notes (.computedAs rfl)))

theorem AtRange.notes_joined {more : Bits} (h : AtRange env e b selected i j)
    (hmore : EvalError.ofWidth (selected.concat (b.slice i j)) = .ok more) :
    Notes e.watched env (.value (.bits more)) := by
  have hb : b.WellFormed := by
    obtain ⟨hterm, -⟩ := h
    exact (hterm.wellFormed henv hfilled).1
  have hpart := Bits.wellFormed_slice hb h.sound.1 h.sound.2
  have hgives : Gives (computedAs Value.bits (.ok (b.slice i j))) env (b.slice i j) env :=
    (Mirrors.computedAs (.ok hpart) fun _ => .bits).gives rfl
  refine (h.visits henv hfilled).notes ((Visits.behind h.gives_slice).notes ?_)
  exact (Visits.behind hgives).notes (.computedAs hmore)

theorem Causes.notes {event : Event} (h : Causes env e event) : Notes e.watched env event := by
  cases h with
  | value he => exact .of_records e.watched_records (gives_watched henv hfilled he)
  | @callee _ callee args _ _ hargs hcallee =>
      have hall := watchedAll_mirrors henv args fun x hx => hfilled x (List.mem_cons_of_mem _ hx)
      refine (Visits.behind (hall.gives hargs)).notes ?_
      refine (Visits.head fun v => .applyTo callee _ v).notes ?_
      exact Notes.lookup hcallee
  | @extended _ callee args b n _ hargs hcallee he =>
      have hall := watchedAll_mirrors henv args fun x hx => hfilled x (List.mem_cons_of_mem _ hx)
      have hlookup := (Mirrors.lookup henv callee).gives hcallee
      refine (Visits.behind (hall.gives hargs)).notes ((Visits.behind hlookup).notes ?_)
      refine (Visits.behind (gives_given _ rfl)).notes ?_
      refine (Visits.behind (gives_given _ rfl)).notes ?_
      apply Notes.zeroExtended
      simp only [eval, hargs, hcallee] at he
      exact he
  | taken hrange => exact hrange.notes_slice henv hfilled
  | part hrange => exact hrange.notes_part henv hfilled
  | joined hrange hmore => exact hrange.notes_joined henv hfilled hmore

theorem Meets.notes {event : Event} (h : Meets env e event) : Notes e.watched env event := by
  induction h with
  | here h => exact h.notes henv hfilled
  | inside h _ ih => exact (h.visits henv hfilled).notes (ih (h.filled hfilled))

end Expr

end ArmPseudocode

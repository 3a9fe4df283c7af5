import ArmPseudocode.Proofs.Diagnostic.Queue

/-!
# What every queue satisfies

Along any run of reports and hand-outs the count, the line of the last syntax error and the limit
flag are functions of the entries that were taken, and the entries are those and the limit marker.
What is refused and what is handed out follows from that.
-/

namespace ArmPseudocode.DiagnosticQueue

variable {config : DiagnosticConfig} {q : DiagnosticQueue} {taken : List LocatedDiagnostic}
  {d : Diagnostic} {line : Nat}

/-- A queue that comes from an empty one by reports and hand-outs, with the entries it has taken
since it was last empty. Nothing but the queue itself reports that the limit was reached. -/
inductive Reachable (config : DiagnosticConfig) : List LocatedDiagnostic → DiagnosticQueue → Prop
  | empty : Reachable config [] (empty config)
  | add {taken : List LocatedDiagnostic} {q : DiagnosticQueue} (h : Reachable config taken q)
      (d : Diagnostic) (line : Nat) (hcode : d.code ≠ .tooManyErrors) :
      Reachable config (if (q.add d line).1 then taken ++ [⟨d, line⟩] else taken) (q.add d line).2
  | flush {taken : List LocatedDiagnostic} {q : DiagnosticQueue} (h : Reachable config taken q) :
      Reachable config [] q.flush.2

def errors (entries : List LocatedDiagnostic) : Nat :=
  entries.countP (·.diagnostic.isError)

def lastSyntaxLineOf (entries : List LocatedDiagnostic) : Option Nat :=
  (entries.filter (·.diagnostic.code.isSyntactic)).getLast?.map (·.line)

def markerBehind (entry : LocatedDiagnostic) : LocatedDiagnostic :=
  ⟨.tooManyErrors (entry.diagnostic.span.getD .none), entry.line⟩

/-- What a queue holds that has taken some entries. -/
structure Holds (config : DiagnosticConfig) (taken : List LocatedDiagnostic)
    (q : DiagnosticQueue) : Prop where
  config_eq : q.config = config
  /-- Nothing that was taken is a limit marker. -/
  unmarked : ∀ entry ∈ taken, entry.diagnostic.code ≠ .tooManyErrors
  counted : q.errorCount = errors taken
  remembered : q.lastSyntaxLine = lastSyntaxLineOf taken
  /-- Below the limit there are only the entries that were taken. -/
  opened : q.limitReached = false →
    q.entries = taken ∧ (0 < config.errorLimit → q.errorCount < config.errorLimit)
  /-- At the limit the entry that reached it is the last one taken, and the marker is behind it. -/
  closed : q.limitReached = true →
    0 < config.errorLimit ∧ q.errorCount = config.errorLimit ∧
      ∃ front last, taken = front ++ [last] ∧ q.entries = taken ++ [markerBehind last]

/-! ### One report -/

theorem errors_append (entries : List LocatedDiagnostic) (entry : LocatedDiagnostic) :
    errors (entries ++ [entry]) = errors entries + if entry.diagnostic.isError then 1 else 0 := by
  rw [errors, errors, List.countP_append, List.countP_singleton]

theorem lastSyntaxLineOf_append (entries : List LocatedDiagnostic) (d : Diagnostic) (line : Nat) :
    lastSyntaxLineOf (entries ++ [⟨d, line⟩]) =
      if d.code.isSyntactic then some line else lastSyntaxLineOf entries := by
  rw [lastSyntaxLineOf, List.filter_append, List.filter_cons, List.filter_nil]
  split
  · rw [List.getLast?_concat]
    rfl
  · rw [List.append_nil]
    rfl

/-- The three things a report can do to a queue: nothing, to be taken, or to be taken as the error
that reaches the limit. -/
theorem add_cases (q : DiagnosticQueue) (d : Diagnostic) (line : Nat) :
    (q.limitReached = true ∨ q.isEcho d line = true) ∧ q.add d line = (false, q) ∨
      (q.limitReached = false ∧ q.isEcho d line = false) ∧
        ((d.isError = true → 0 < q.config.errorLimit → q.errorCount + 1 < q.config.errorLimit) ∧
            q.add d line = (true, { q.append d line with
              errorCount := q.errorCount + if d.isError then 1 else 0 }) ∨
          (d.isError = true ∧ 0 < q.config.errorLimit ∧ q.config.errorLimit ≤ q.errorCount + 1) ∧
            q.add d line = (true, { q.append d line with
              errorCount := q.errorCount + 1
              entries := q.entries ++ [⟨d, line⟩] ++ [markerBehind ⟨d, line⟩]
              limitReached := true })) := by
  rw [add]
  split
  · next h => exact .inl ⟨Bool.or_eq_true _ _ ▸ h, rfl⟩
  · next h =>
      rw [Bool.or_eq_true, not_or, Bool.not_eq_true, Bool.not_eq_true] at h
      refine .inr ⟨h, ?_⟩
      dsimp only
      by_cases herror : d.isError = true
      · rw [if_pos herror, if_pos herror, countError]
        by_cases hlimit : 0 < q.config.errorLimit ∧ q.config.errorLimit ≤ q.errorCount + 1
        · exact .inr ⟨⟨herror, hlimit⟩, congrArg (Prod.mk true) (if_pos hlimit)⟩
        · refine .inl ⟨fun _ hpos => ?_, congrArg (Prod.mk true) (if_neg hlimit)⟩
          exact Nat.lt_of_not_le fun hle => hlimit ⟨hpos, hle⟩
      · exact .inl ⟨fun h => absurd h herror, by rw [if_neg herror, if_neg herror]; rfl⟩

theorem Holds.empty (config : DiagnosticConfig) : Holds config [] (empty config) where
  config_eq := rfl
  unmarked := nofun
  counted := rfl
  remembered := rfl
  opened _ := ⟨rfl, id⟩
  closed := nofun

theorem Holds.add (h : Holds config taken q) (d : Diagnostic) (line : Nat)
    (hcode : d.code ≠ .tooManyErrors) :
    Holds config (if (q.add d line).1 then taken ++ [⟨d, line⟩] else taken) (q.add d line).2 := by
  have hunmarked : ∀ entry ∈ taken ++ [⟨d, line⟩], entry.diagnostic.code ≠ .tooManyErrors := by
    rw [List.forall_mem_append, List.forall_mem_singleton]
    exact ⟨h.unmarked, hcode⟩
  have hremembered :
      (q.append d line).lastSyntaxLine = lastSyntaxLineOf (taken ++ [⟨d, line⟩]) := by
    rw [lastSyntaxLineOf_append, append, h.remembered]
  have hcounted : q.errorCount + (if d.isError then 1 else 0) = errors (taken ++ [⟨d, line⟩]) := by
    rw [errors_append, h.counted]
  obtain ⟨-, heq⟩ | ⟨⟨hopen, -⟩, ⟨hbelow, heq⟩ | ⟨⟨herror, hpos, hreached⟩, heq⟩⟩ :=
    add_cases q d line
  · rw [heq]
    exact h
  · obtain ⟨hentries, hless⟩ := h.opened hopen
    rw [h.config_eq] at hbelow
    rw [heq, if_pos rfl]
    refine ⟨h.config_eq, hunmarked, hcounted, hremembered, fun _ => ⟨?_, fun hpos => ?_⟩,
      fun hclosed => absurd (hopen.symm.trans hclosed) Bool.false_ne_true⟩
    · show q.entries ++ [⟨d, line⟩] = _
      rw [hentries]
    · show q.errorCount + _ < _
      split
      · next herror => exact hbelow herror hpos
      · exact hless hpos
  · obtain ⟨hentries, hless⟩ := h.opened hopen
    rw [h.config_eq] at hpos hreached
    have := hless hpos
    rw [heq, if_pos rfl]
    refine ⟨h.config_eq, hunmarked, ?_, hremembered,
      fun hopen => absurd hopen Bool.false_ne_true.symm, fun _ => ⟨hpos, ?_, taken, _, rfl, ?_⟩⟩
    · rw [← hcounted, if_pos herror]
    · show q.errorCount + 1 = _
      omega
    · show q.entries ++ _ ++ _ = _
      rw [hentries]

/-- A run of reports and hand-outs keeps what a queue satisfies. -/
theorem Reachable.holds (h : Reachable config taken q) : Holds config taken q := by
  induction h with
  | empty => exact .empty config
  | add _ d line hcode ih => exact ih.add d line hcode
  | flush _ ih =>
      rw [DiagnosticQueue.flush, ih.config_eq]
      exact .empty config

/-! ### The entries -/

theorem Holds.entries_eq (h : Holds config taken q) :
    ∃ markers, q.entries = taken ++ markers ∧
      (q.limitReached = false → markers = []) ∧
      (q.limitReached = true → ∃ marker, markers = [marker] ∧
        marker.diagnostic.code = .tooManyErrors) := by
  cases hreached : q.limitReached with
  | false => exact ⟨[], by rw [(h.opened hreached).1, List.append_nil], fun _ => rfl, nofun⟩
  | true =>
      obtain ⟨-, -, front, last, -, hentries⟩ := h.closed hreached
      exact ⟨[markerBehind last], hentries, nofun, fun _ => ⟨_, rfl, rfl⟩⟩

theorem Holds.errorCount_eq (h : Holds config taken q) :
    q.errorCount =
      errors (q.entries.filter fun entry => entry.diagnostic.code ≠ .tooManyErrors) := by
  have htaken : taken.filter (fun entry => entry.diagnostic.code ≠ .tooManyErrors) = taken :=
    List.filter_eq_self.mpr fun entry hentry => decide_eq_true (h.unmarked entry hentry)
  obtain ⟨markers, hentries, hopen, hclosed⟩ := h.entries_eq
  rw [h.counted, hentries, List.filter_append, htaken]
  cases hreached : q.limitReached with
  | false => rw [hopen hreached, List.filter_nil, List.append_nil]
  | true =>
      obtain ⟨marker, hmarkers, hcode⟩ := hclosed hreached
      rw [hmarkers, List.filter_cons_of_neg (by simp [hcode]), List.filter_nil, List.append_nil]

/-- The limit is reached with the last error that it allows. -/
theorem Holds.limitReached_iff (h : Holds config taken q) (hpos : 0 < config.errorLimit) :
    q.limitReached = true ↔ q.errorCount = config.errorLimit := by
  constructor
  · exact fun hclosed => (h.closed hclosed).2.1
  · intro hcount
    cases hreached : q.limitReached with
    | true => rfl
    | false =>
        have := (h.opened hreached).2 hpos
        omega

/-! ### What is refused -/

/-- What is refused before the limit is a syntax error on the line of the last one taken. -/
theorem Holds.refused_iff (h : Holds config taken q) (hopen : q.limitReached = false) :
    (q.add d line).1 = false ↔
      config.deduplicate = true ∧ d.code.isSyntactic = true ∧
        lastSyntaxLineOf taken = some line := by
  have hecho : q.isEcho d line = true ↔ config.deduplicate = true ∧
      d.code.isSyntactic = true ∧ lastSyntaxLineOf taken = some line := by
    rw [isEcho, h.config_eq, h.remembered, Bool.and_eq_true, Bool.and_eq_true, beq_iff_eq,
      and_assoc]
  rw [← hecho]
  obtain ⟨hrefused, heq⟩ | ⟨⟨-, hnew⟩, ⟨-, heq⟩ | ⟨-, heq⟩⟩ := add_cases q d line
  · rw [heq, hopen] at *
    exact iff_of_true rfl (hrefused.resolve_left Bool.false_ne_true)
  · rw [heq, hnew]
    exact iff_of_false Bool.false_ne_true.symm Bool.false_ne_true
  · rw [heq, hnew]
    exact iff_of_false Bool.false_ne_true.symm Bool.false_ne_true

/-! ### What is handed out -/

theorem sortByLine_pairwise (entries : List LocatedDiagnostic) :
    (sortByLine entries).Pairwise fun a b => a.line ≤ b.line := by
  refine (List.pairwise_mergeSort (fun a b c => ?_) (fun a b => ?_) entries).imp of_decide_eq_true
  · simpa using Nat.le_trans
  · simpa using Nat.le_total a.line b.line

theorem sortByLine_stable (entries : List LocatedDiagnostic) (line : Nat) :
    (sortByLine entries).filter (·.line = line) = entries.filter (·.line = line) := by
  have hline : ∀ entry ∈ entries.filter (·.line = line), entry.line = line := fun entry hentry =>
    of_decide_eq_true (List.mem_filter.mp hentry).2
  have hpairwise : (entries.filter (·.line = line)).Pairwise fun a b => a.line ≤ b.line := by
    refine List.pairwise_iff_forall_sublist.mpr fun {a b} hab => ?_
    exact Nat.le_of_eq
      ((hline a (hab.mem List.mem_cons_self)).trans (hline b (hab.mem (by simp))).symm)
  have hsub : (entries.filter (·.line = line)).Sublist (sortByLine entries) :=
    List.sublist_mergeSort (fun a b c => by simpa using Nat.le_trans)
      (fun a b => by simpa using Nat.le_total a.line b.line) (hpairwise.imp decide_eq_true)
      List.filter_sublist
  replace hsub := hsub.filter (·.line = line)
  simp only [List.filter_filter, Bool.and_self] at hsub
  exact (hsub.eq_of_length ((List.mergeSort_perm entries _).filter _).length_eq.symm).symm

theorem Holds.flush_eq (h : Holds config taken q) :
    ∃ markers, q.entries = taken ++ markers ∧ q.flush = (sortByLine taken ++ markers, .empty config)
    := by
  cases hreached : q.limitReached with
  | false =>
      obtain ⟨hentries, -⟩ := h.opened hreached
      exact ⟨[], by rw [hentries, List.append_nil],
        by rw [flush, hreached, if_neg Bool.false_ne_true, hentries, h.config_eq, List.append_nil]⟩
  | true =>
      obtain ⟨-, -, front, last, -, hentries⟩ := h.closed hreached
      exact ⟨[markerBehind last], hentries, by
        rw [flush, hreached, if_pos rfl, hentries, List.dropLast_concat, List.getLast?_concat,
          h.config_eq]
        rfl⟩

/-! ### Every run -/

/-- In every state the count is that of the errors in the queue; a limit other than zero is reached
exactly when the count is the limit, which it never passes, and exactly then there is one marker,
the last entry. At the limit nothing is taken any more, and below it everything but a syntax error
on the line of the last one, if those are dropped. Handing out gives the entries that were taken by
line, those of one line in their order, and then the marker, and leaves an empty queue. -/
theorem limits_of_reachable (h : Reachable config taken q) :
    q.errorCount =
        errors (q.entries.filter fun entry => entry.diagnostic.code ≠ .tooManyErrors) ∧
      (0 < config.errorLimit → q.errorCount ≤ config.errorLimit ∧
        (q.limitReached = true ↔ q.errorCount = config.errorLimit)) ∧
      (config.errorLimit = 0 → q.limitReached = false) ∧
      (∀ d line, q.limitReached = true → q.add d line = (false, q)) ∧
      (∀ d line, q.limitReached = false →
        ((q.add d line).1 = false ↔ config.deduplicate = true ∧ d.code.isSyntactic = true ∧
          lastSyntaxLineOf taken = some line)) ∧
      ∃ markers sorted, q.entries = taken ++ markers ∧
        (∀ entry ∈ taken, entry.diagnostic.code ≠ .tooManyErrors) ∧
        (q.limitReached = false → markers = []) ∧
        (q.limitReached = true → ∃ marker, markers = [marker] ∧
          marker.diagnostic.code = .tooManyErrors) ∧
        q.flush = (sorted ++ markers, empty config) ∧
        sorted.Perm taken ∧ sorted.Pairwise (fun a b => a.line ≤ b.line) ∧
        ∀ line, sorted.filter (·.line = line) = taken.filter (·.line = line) := by
  have hq := h.holds
  obtain ⟨markers, hentries, hopen, hclosed⟩ := hq.entries_eq
  obtain ⟨others, hothers, hflush⟩ := hq.flush_eq
  obtain rfl : others = markers := List.append_cancel_left (hothers.symm.trans hentries)
  refine ⟨hq.errorCount_eq, fun hpos => ⟨?_, hq.limitReached_iff hpos⟩, fun hzero => ?_,
    fun d line hreached => ?_, fun d line => hq.refused_iff, others, sortByLine taken, hentries,
    hq.unmarked, hopen, hclosed, hflush, List.mergeSort_perm _ _, sortByLine_pairwise taken,
    sortByLine_stable taken⟩
  · cases hreached : q.limitReached with
    | true => exact Nat.le_of_eq (hq.closed hreached).2.1
    | false => exact Nat.le_of_lt ((hq.opened hreached).2 hpos)
  · cases hreached : q.limitReached with
    | true => exact absurd hzero (Nat.ne_of_gt (hq.closed hreached).1)
    | false => rfl
  · rw [add, hreached, Bool.true_or, if_pos rfl]

def closedQueue : DiagnosticQueue :=
  let q := ((empty ⟨2, true⟩).add (.expectedName ⟨30, 31⟩ "end of input") 3).2
  let q := (q.add (.expectedName ⟨32, 33⟩ "end of input") 3).2
  (q.add (.unterminatedComment ⟨0, 1⟩) 1).2

/-- The echo is not counted, and the marker stands last although its line is the first. -/
theorem closedQueue_limits :
    closedQueue.errorCount = 2 ∧ closedQueue.limitReached = true ∧
      (∃ sorted marker, closedQueue.flush = (sorted ++ [marker], empty ⟨2, true⟩) ∧
        marker.diagnostic.code = .tooManyErrors) ∧
      ∀ d line, closedQueue.add d line = (false, closedQueue) := by
  have hreachable : Reachable ⟨2, true⟩ _ closedQueue :=
    ((Reachable.empty.add (.expectedName ⟨30, 31⟩ "end of input") 3 (by decide)).add
      (.expectedName ⟨32, 33⟩ "end of input") 3 (by decide)).add
      (.unterminatedComment ⟨0, 1⟩) 1 (by decide)
  obtain ⟨-, hlimit, -, hclosed, -, markers, sorted, -, -, -, hmarker, hflush, -⟩ :=
    limits_of_reachable hreachable
  have hcount : closedQueue.errorCount = 2 := by decide
  have hreached := (hlimit (by decide)).2.mpr hcount
  obtain ⟨marker, rfl, hcode⟩ := hmarker hreached
  exact ⟨hcount, hreached, ⟨sorted, marker, hflush, hcode⟩, fun d line => hclosed d line hreached⟩

end ArmPseudocode.DiagnosticQueue

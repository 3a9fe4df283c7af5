import ArmPseudocode.Diagnostic.Queue

/-!
# What a queue keeps

Reports only add entries, and an untouched queue takes the first one whatever its configuration, so
whether a text has errors does not depend on what the queue drops afterwards. Handing out the
entries changes their order alone.
-/

namespace ArmPseudocode.DiagnosticQueue

variable {q q' : DiagnosticQueue} {lines : LineTable}

theorem entries_add (d : Diagnostic) (line : Nat) :
    q.entries <+: (q.add d line).2.entries := by
  rw [add]
  split
  · exact List.prefix_rfl
  · have happend : q.entries <+: (q.append d line).entries := List.prefix_append _ _
    dsimp only
    split
    · rw [countError]
      split
      · exact happend.trans (List.prefix_append _ _)
      · exact happend
    · exact happend

inductive Reported (lines : LineTable) (q : DiagnosticQueue) : DiagnosticQueue → Prop
  | refl : Reported lines q q
  | report {q' : DiagnosticQueue} (h : Reported lines q q') (d : Diagnostic) :
      Reported lines q (q'.report lines d)

theorem Reported.trans {q'' : DiagnosticQueue} (h : Reported lines q q')
    (h' : Reported lines q' q'') : Reported lines q q'' := by
  induction h' with
  | refl => exact h
  | report _ d ih => exact ih.report d

def reportAll (q : DiagnosticQueue) (lines : LineTable) (ds : List Diagnostic) : DiagnosticQueue :=
  ds.foldl (fun q d => q.report lines d) q

theorem reportAll_append (q : DiagnosticQueue) (lines : LineTable) (ds ds' : List Diagnostic) :
    q.reportAll lines (ds ++ ds') = (q.reportAll lines ds).reportAll lines ds' :=
  List.foldl_append

theorem reported_reportAll (ds : List Diagnostic) : q.Reported lines (q.reportAll lines ds) := by
  induction ds generalizing q with
  | nil => exact .refl
  | cons d ds ih => exact (Reported.refl.report d).trans ih

theorem Reported.entries (h : Reported lines q q') : q.entries <+: q'.entries := by
  induction h with
  | refl => exact List.prefix_rfl
  | report _ d ih => exact ih.trans (entries_add d _)

def Marked (q : DiagnosticQueue) : Prop :=
  ∃ entry ∈ q.entries, entry.diagnostic.isError = true

instance (q : DiagnosticQueue) : Decidable q.Marked :=
  inferInstanceAs (Decidable (∃ entry ∈ q.entries, entry.diagnostic.isError = true))

theorem Reported.marked (h : Reported lines q q') (hq : q.Marked) : q'.Marked := by
  obtain ⟨entry, hmem, herror⟩ := hq
  exact ⟨entry, h.entries.subset hmem, herror⟩

theorem not_marked_empty (config : DiagnosticConfig) : ¬(empty config).Marked := by
  rintro ⟨entry, hmem, -⟩
  nomatch hmem

/-- A queue that has neither reached its limit nor seen a syntax error takes what is reported. -/
theorem marked_report {d : Diagnostic} (hopen : q.limitReached = false)
    (hfresh : q.lastSyntaxLine = none) (hd : d.isError = true) : (q.report lines d).Marked := by
  have htaken : ¬(q.limitReached || q.isEcho d (lineOf lines d)) = true := by
    rw [hopen, isEcho, hfresh]
    simp
  have happend :
      (⟨d, lineOf lines d⟩ : LocatedDiagnostic) ∈ (q.append d (lineOf lines d)).entries :=
    List.mem_append_right _ List.mem_cons_self
  refine ⟨⟨d, lineOf lines d⟩, ?_, hd⟩
  rw [report, addAt, add, if_neg htaken]
  dsimp only
  rw [if_pos hd, countError]
  split
  · exact List.mem_append_left _ happend
  · exact happend

theorem marked_reportAll_iff {config : DiagnosticConfig} {ds : List Diagnostic}
    (hds : ∀ d ∈ ds, d.isError = true) :
    ((empty config).reportAll lines ds).Marked ↔ ds ≠ [] := by
  cases ds with
  | nil => exact iff_of_false (not_marked_empty config) (not_not_intro rfl)
  | cons d ds =>
      refine iff_of_true ?_ (List.cons_ne_nil d ds)
      have hfirst : ((empty config).report lines d).Marked :=
        marked_report rfl rfl (hds d List.mem_cons_self)
      exact (reported_reportAll ds).marked hfirst

/-- A queue without a limit that drops nothing has an entry for every report. -/
theorem entries_report_unlimited (d : Diagnostic) (hconfig : q.config = ⟨0, false⟩)
    (hopen : q.limitReached = false) :
    (q.report lines d).entries = q.entries ++ [⟨d, lineOf lines d⟩] ∧
      (q.report lines d).config = ⟨0, false⟩ ∧ (q.report lines d).limitReached = false := by
  have htaken : ¬(q.limitReached || q.isEcho d (lineOf lines d)) = true := by
    rw [hopen, isEcho, hconfig]
    simp
  rw [report, addAt, add, if_neg htaken]
  dsimp only
  split
  · rw [countError, if_neg (by rw [append, hconfig]; simp)]
    exact ⟨rfl, hconfig, hopen⟩
  · exact ⟨rfl, hconfig, hopen⟩

/-- The first report leaves the queue open, unless one error is the limit. -/
theorem report_empty {config : DiagnosticConfig} (d : Diagnostic) (hlimit : config.errorLimit ≠ 1) :
    ((empty config).report lines d).entries = [⟨d, lineOf lines d⟩] ∧
      ((empty config).report lines d).limitReached = false := by
  have htaken :
      ¬((empty config).limitReached || (empty config).isEcho d (lineOf lines d)) = true := by
    simp [empty, isEcho]
  rw [report, addAt, add, if_neg htaken]
  dsimp only
  split
  · rw [countError, if_neg (by simp only [append, empty]; omega)]
    exact ⟨rfl, rfl⟩
  · exact ⟨rfl, rfl⟩

theorem flush_perm (q : DiagnosticQueue) : q.flush.1.Perm q.entries := by
  rw [flush]
  dsimp only
  split
  · cases hlast : q.entries.getLast? with
    | none =>
        rw [List.getLast?_eq_none_iff] at hlast
        rw [hlast, Option.toList_none, List.append_nil]
        exact List.mergeSort_perm _ _
    | some last =>
        obtain ⟨front, hsplit⟩ := List.getLast?_eq_some_iff.mp hlast
        rw [hsplit, List.dropLast_concat]
        exact (List.mergeSort_perm front _).append_right [last]
  · exact List.mergeSort_perm _ _

theorem flush_of_ascending {front : List LocatedDiagnostic}
    (hfront : front.Pairwise fun a b => a.line ≤ b.line)
    (h : q.limitReached = false ∧ q.entries = front ∨
      q.limitReached = true ∧ ∃ last, q.entries = front ++ [last]) :
    q.flush.1 = q.entries := by
  have hsorted : sortByLine front = front :=
    List.mergeSort_of_pairwise (hfront.imp decide_eq_true)
  rw [flush]
  obtain ⟨hopen, rfl⟩ | ⟨hreached, last, hentries⟩ := h
  · rw [hopen, if_neg Bool.false_ne_true, hsorted]
  · rw [hreached, if_pos rfl, hentries, List.dropLast_concat, hsorted, List.getLast?_concat]
    rfl

/-- Handing out the entries shows an error exactly if there is one. -/
theorem any_flush_iff (q : DiagnosticQueue) :
    q.flush.1.any (·.diagnostic.isError) = true ↔ q.Marked := by
  rw [List.any_eq_true]
  constructor
  · rintro ⟨entry, hmem, herror⟩
    exact ⟨entry, q.flush_perm.mem_iff.mp hmem, herror⟩
  · rintro ⟨entry, hmem, herror⟩
    exact ⟨entry, q.flush_perm.mem_iff.mpr hmem, herror⟩

end ArmPseudocode.DiagnosticQueue

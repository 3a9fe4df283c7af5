import ArmPseudocode.Proofs.Parser.Resume
import ArmPseudocode.Proofs.Source.Grammar

/-!
# A broken statement between two programs

A statement that cannot be read costs itself and no more: one diagnostic is reported, and the
program around it is read as if the statement were not there. Whatever stands in front of it has
been read by then, since no rule of the grammar looks further than one token ahead, and recovery
ends behind its semicolon.
-/

namespace ArmPseudocode.TokenStream

open ParseStmt (list_of_broken list_of_spells)

variable {lines : LineTable} {config : DiagnosticConfig} {a b c : List Token} {separator : Token}
  {stop : Nat}

def diagnostics (lines : LineTable) (config : DiagnosticConfig) (s : TokenStream) :
    List LocatedDiagnostic :=
  (s.parse lines (.empty config)).2.entries

def body (lines : LineTable) (config : DiagnosticConfig) (s : TokenStream) : List (Stmt Unit) :=
  Stmt.eraseAll (s.parse lines (.empty config)).1.body

/-- Where a stream is not read as one statement without a diagnostic, its tokens spell none. -/
theorem not_spells_of_broken {s : TokenStream}
    (hbroken : ¬(s.diagnostics lines config = [] ∧ (s.body lines config).length = 1))
    (st : Stmt Unit) : ¬Spells (s.tokens.map (·.kind)) .eof (.stmt st) := by
  intro hspells
  have hlist : Spells (s.tokens.map (·.kind)) .eof (.list [st]) := by
    rw [← List.append_nil (s.tokens.map _)]
    exact .cons hspells .nil
  obtain ⟨read, d, hclean, herase⟩ := clean_of_spells lines hlist
  refine hbroken ?_
  rw [diagnostics, body, parse_of_clean hclean rfl, herase]
  exact ⟨rfl, rfl⟩

/-- What stands around a statement that cannot be read is read as if the statement were not there,
by every queue that the report of it leaves open. -/
theorem parse_of_spells_around {s : TokenStream} {before skipped after : List TokenKind}
    {ss ss' : List (Stmt Unit)} (lines : LineTable)
    (hkinds : s.tokens.map (·.kind) = before ++ (skipped ++ .fixed .semicolon :: after))
    (hbefore : Spells before .eof (.list ss)) (hafter : Spells after .eof (.list ss'))
    (hne : skipped ≠ []) (hskipped : ∀ k ∈ skipped, k.stopsRecovery = false)
    (hfirst : ParseStmt.EndsBranch (skipped.headD .eof))
    (hbroken : ∀ st, ¬Spells (skipped ++ [.fixed .semicolon]) .eof (.stmt st)) :
    ∃ (e : Diagnostic) (found : List (Stmt Span)), e.isError = true ∧
      Stmt.eraseAll found = ss ++ ss' ∧
      ∀ q : DiagnosticQueue, q.limitReached = false → (q.report lines e).limitReached = false →
        s.parse lines q = (⟨found⟩, q.report lines e) := by
  have hall : (Cursor.atStart s).kinds =
      before ++ (skipped ++ .fixed .semicolon :: (after ++ [.eof])) := by
    rw [Cursor.kinds_atStart, hkinds, List.append_assoc, List.append_assoc, List.cons_append]
  obtain ⟨k, rest, rfl⟩ := List.exists_cons_of_ne_nil hne
  have hk : k.stopsRecovery = false := hskipped k List.mem_cons_self
  have hsemicolon : k ≠ .fixed .semicolon := by
    rintro rfl
    cases hk
  have hstart : (Cursor.atStart s).Faces before k (s.tokens.length + 1) :=
    ⟨Cursor.terminated_atStart s, Nat.le_of_eq s.length_kinds_atStart, _, hall⟩
  obtain ⟨found, c, fewer, hpass, herase, hfewer, hfront⟩ := list_of_spells (fun _ => false) lines
    (hbefore.list_follow hfirst hsemicolon) (fun _ _ => rfl) hstart hstart.length
  have hc : c.kinds = k :: rest ++ .fixed .semicolon :: (after ++ [.eof]) :=
    List.append_cancel_left (hpass.kinds_eq.symm.trans hall)
  have hterminated := hpass.terminated hstart.terminated
  obtain ⟨e, d, he, hreaches, hd, hmiddle⟩ := list_of_broken (fun _ => false) lines hterminated
    (Nat.le_trans hpass.reaches.length_le hstart.length) rfl hc hne hskipped (by simp) hbroken
  obtain ⟨fewer, rfl⟩ : ∃ m, fewer = m + 1 := by
    rw [Cursor.length_kinds] at hfewer
    exact ⟨fewer - 1, by omega⟩
  have hlength : d.kinds.length ≤ fewer := by
    have hless := congrArg List.length hc
    rw [List.length_append, List.length_cons, List.length_cons, ← hd] at hless
    omega
  have hless : d.kinds.length ≤ s.tokens.length + 1 :=
    Nat.le_trans (hpass.reaches.trans hreaches).length_le hstart.length
  have hbehind : d.Faces after .eof d.kinds.length :=
    ⟨hreaches.terminated hterminated, Nat.le_refl _, [], hd⟩
  obtain ⟨found', d', hclean, -, herase'⟩ := ParseStmt.accepted_of_spells lines hafter _
    (fun _ => false) _ _ _ hless hlength (fun _ _ => rfl) (.inl rfl) hbehind
  refine ⟨e, found ++ found', he, by rw [Stmt.eraseAll_append, herase, herase'],
    fun q hq hopen => ?_⟩
  have hrest := hclean (q.report lines e) hopen
  rw [ParseStmt.statements] at hrest
  obtain ⟨hfound, hstate⟩ := EStateM.Result.ok.inj hrest
  rw [parse, hfront q hq, hmiddle fewer q hq, hfound, hstate]

/-- **One diagnostic for one broken statement.** Between two programs that are read without a
diagnostic stands a statement up to its semicolon that begins with no word of its own and is not
read as one statement without a diagnostic. Then, unless one error ends the reading, one diagnostic
is reported, and the program is the first followed by the second. -/
theorem parse_around_broken {stopA stopB stopC : Nat} (hlimit : config.errorLimit ≠ 1)
    (hinner : ∀ t ∈ a ++ c, t.kind ≠ .eof) (ha : diagnostics lines config ⟨a, stopA⟩ = [])
    (hc : diagnostics lines config ⟨c, stopC⟩ = [])
    (hb : b ≠ []) (hskipped : ∀ t ∈ b, t.kind.stopsRecovery = false)
    (hfirst : ∀ t ∈ b.head?, t.kind ≠ .fixed .kwElse ∧ t.kind ≠ .fixed .kwElsif)
    (hseparator : separator.kind = .fixed .semicolon)
    (hbroken : ¬(diagnostics lines config ⟨b ++ [separator], stopB⟩ = [] ∧
      (body lines config ⟨b ++ [separator], stopB⟩).length = 1)) :
    (∃ entry : LocatedDiagnostic, entry.diagnostic.isError = true ∧
        diagnostics lines config ⟨a ++ b ++ separator :: c, stop⟩ = [entry]) ∧
      body lines config ⟨a ++ b ++ separator :: c, stop⟩ =
        body lines config ⟨a, stopA⟩ ++ body lines config ⟨c, stopC⟩ := by
  have hspellsA := spells_of_parse (fun t ht => hinner t (List.mem_append_left c ht)) ha
  have hspellsC := spells_of_parse (fun t ht => hinner t (List.mem_append_right a ht)) hc
  have hspellsB := not_spells_of_broken hbroken
  have hbranch : ParseStmt.EndsBranch ((b.map (·.kind)).headD .eof) := by
    cases b with
    | nil => exact absurd rfl hb
    | cons t rest => exact (hfirst t rfl).symm
  have hkinds : (a ++ b ++ separator :: c).map (·.kind) =
      a.map (·.kind) ++ (b.map (·.kind) ++ .fixed .semicolon :: c.map (·.kind)) := by
    rw [List.map_append, List.map_append, List.map_cons, hseparator, List.append_assoc]
  rw [List.map_append, List.map_singleton, hseparator] at hspellsB
  have hwords : ∀ k ∈ b.map (·.kind), k.stopsRecovery = false := List.forall_mem_map.mpr hskipped
  obtain ⟨e, found, he, herase, hparse⟩ := parse_of_spells_around
    (s := ⟨a ++ b ++ separator :: c, stop⟩) lines hkinds hspellsA hspellsC (by simpa using hb)
    hwords hbranch hspellsB
  obtain ⟨hentries, hopen⟩ := DiagnosticQueue.report_empty e hlimit
  have hread := hparse _ rfl hopen
  refine ⟨⟨⟨e, DiagnosticQueue.lineOf lines e⟩, he, ?_⟩, ?_⟩
  · rw [diagnostics, hread]
    exact hentries
  · rw [body, hread]
    exact herase

def placeless (kinds : List TokenKind) : List Token :=
  kinds.map (⟨·, .none⟩)

def assignment (id : String) (n : Int64) : List Token :=
  placeless [.name id, .fixed .assign, .int n, .fixed .semicolon]

def missingOperand : List Token :=
  placeless [.name "y", .fixed .assign, .fixed .openParen, .name "x", .fixed .plus]

def assignmentsAround : TokenStream :=
  ⟨assignment "x" 1 ++ missingOperand ++ ⟨.fixed .semicolon, .none⟩ :: assignment "z" 2, 0⟩

theorem missingOperand_parse_around :
    (∃ entry : LocatedDiagnostic, entry.diagnostic.isError = true ∧
        assignmentsAround.diagnostics (.ofText []) {} = [entry]) ∧
      assignmentsAround.body (.ofText []) {} =
        [.assign () (.name () "x") (.int () 1), .assign () (.name () "z") (.int () 2)] :=
  @parse_around_broken (.ofText []) {} (assignment "x" 1) missingOperand (assignment "z" 2)
    ⟨.fixed .semicolon, .none⟩ 0 0 0 0 (by decide) (by decide) (by decide +kernel)
    (by decide +kernel) (by decide) (by decide) (by decide) rfl (by decide +kernel)

end ArmPseudocode.TokenStream

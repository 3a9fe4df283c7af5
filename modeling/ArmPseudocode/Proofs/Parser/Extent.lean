import ArmPseudocode.Proofs.Parser.Steps
import ArmPseudocode.Proofs.Token.Order

/-!
# Extents

Whatever was read stands between two cursors, and its extent goes from the token at the first one to
the last token consumed at the second. The tokens of a text are in order, so extents grow with the
way between the cursors, and one that was read behind another lies behind it.
-/

namespace ArmPseudocode

namespace Span

/-- The inner span lies in the outer one. -/
def Contains (outer inner : Span) : Prop :=
  outer.start ≤ inner.start ∧ inner.stop ≤ outer.stop

/-- The first span ends before the second begins. -/
def Precedes (a b : Span) : Prop :=
  a.stop ≤ b.start

/-- The span goes from the start of the first token to the end of the last. -/
def Delimits (span : Span) (ts : List Token) : Prop :=
  ts.head?.map (·.span.start) = some span.start ∧ ts.getLast?.map (·.span.stop) = some span.stop

variable {a b : Span}

theorem contains_refl (a : Span) : a.Contains a := ⟨Nat.le_refl _, Nat.le_refl _⟩

/-- Spans in order are merged into one from the start of the first to the end of the second. -/
theorem merge_eq (hstart : a.start ≤ b.start) (hstop : a.stop ≤ b.stop) :
    a.merge b = ⟨a.start, b.stop⟩ := by
  rw [merge, Nat.min_eq_left hstart, Nat.max_eq_right hstop]

end Span

namespace Cursor

/-- Moving from one cursor to the other consumes these tokens. -/
def Consumes (c : Cursor) (ts : List Token) (c' : Cursor) : Prop :=
  c'.before = ts.reverse ++ c.before ∧ c.remaining = ts ++ c'.remaining

/-- Moving from one cursor to the other consumes a token at least. -/
def Advances (c c' : Cursor) : Prop :=
  ∃ ts, ts ≠ [] ∧ c.Consumes ts c'

/-- Where the token here starts. -/
def fore (c : Cursor) : Nat :=
  c.here.span.start

/-- Where the last token consumed ends. -/
def rear (c : Cursor) : Nat :=
  c.lastSpan.stop

/-- From the token at one cursor to the last token consumed at another. -/
def spanTo (c c' : Cursor) : Span :=
  ⟨c.fore, c'.rear⟩

variable {c c' c'' : Cursor} {ts ts' : List Token} {ks : List TokenKind}

@[simp] theorem spanTo_stop (c c' : Cursor) : (c.spanTo c').stop = c'.rear := rfl

theorem Consumes.reaches (h : c.Consumes ts c') : c.Reaches c' := ⟨_, ts, rfl, h⟩

theorem Consumes.trans (h : c.Consumes ts c') (h' : c'.Consumes ts' c'') :
    c.Consumes (ts ++ ts') c'' := by
  obtain ⟨hbefore, hremaining⟩ := h
  obtain ⟨hbefore', hremaining'⟩ := h'
  refine ⟨?_, ?_⟩
  · rw [hbefore', hbefore, List.reverse_append, List.append_assoc]
  · rw [hremaining, hremaining', List.append_assoc]

theorem Reaches.exists_consumes (h : c.Reaches c') : ∃ ts, c.Consumes ts c' := by
  obtain ⟨_, ts, -, h⟩ := h
  exact ⟨ts, h⟩

namespace Advances

theorem of_passes (h : c.Passes ks c') (hks : ks ≠ []) : c.Advances c' := by
  obtain ⟨ts, rfl, h⟩ := h
  exact ⟨ts, fun hnil => hks (by rw [hnil, List.map_nil]), h⟩

theorem reaches (h : c.Advances c') : c.Reaches c' := by
  obtain ⟨ts, -, h⟩ := h
  exact h.reaches

theorem trans_reaches (h : c.Advances c') (h' : c'.Reaches c'') : c.Advances c'' := by
  obtain ⟨ts, hts, h⟩ := h
  obtain ⟨ts', h'⟩ := h'.exists_consumes
  exact ⟨ts ++ ts', List.append_ne_nil_of_left_ne_nil hts ts', h.trans h'⟩

theorem length (h : c.Advances c') : c'.kinds.length + 1 ≤ c.kinds.length := by
  obtain ⟨ts, hts, h⟩ := h
  have hpass : c.Passes (ts.map (·.kind)) c' := ⟨ts, rfl, h⟩
  have := List.length_pos_iff.mpr hts
  rw [hpass.length, List.length_map]
  omega

end Advances

theorem Reaches.advances (h : c.Reaches c') (hlength : c'.kinds.length + 1 ≤ c.kinds.length) :
    c.Advances c' := by
  obtain ⟨ks, hpass⟩ := h
  refine .of_passes hpass fun hnil => ?_
  have := hpass.length
  rw [hnil, List.length_nil] at this
  omega

/-- The first token consumed stood here, the last one is the last token consumed now. -/
theorem Consumes.exists_last (h : c.Consumes ts c') (hts : ts ≠ []) :
    ts.head? = some c.here ∧
      ∃ t ∈ c.remaining, ts.getLast? = some t ∧ c'.lastSpan = t.span := by
  obtain ⟨hbefore, hremaining⟩ := h
  refine ⟨?_, ts.getLast hts, ?_, List.getLast?_eq_some_getLast hts, ?_⟩
  · cases ts with
    | nil => exact absurd rfl hts
    | cons t ts =>
        rw [(List.cons.inj hremaining).1]
        rfl
  · rw [hremaining]
    exact List.mem_append_left _ (List.getLast_mem hts)
  · rw [← List.dropLast_concat_getLast hts, List.reverse_append] at hbefore
    rw [lastSpan, hbefore]
    simp

theorem Consumes.delimits (h : c.Consumes ts c') (hts : ts ≠ []) : (c.spanTo c').Delimits ts := by
  obtain ⟨hhead, t, -, hlast, hspan⟩ := h.exists_last hts
  rw [Span.Delimits, hhead, hlast]
  exact ⟨rfl, by rw [spanTo_stop, rear, hspan]; rfl⟩

theorem Passes.spanTo_eq {k : TokenKind} (h : c.Passes [k] c') : c.spanTo c' = c.here.span := by
  obtain ⟨ts, hkinds, hbefore, hremaining⟩ := h
  obtain ⟨t, rfl, -⟩ := List.map_eq_singleton_iff.mp hkinds
  obtain rfl : c.here = t := (List.cons.inj hremaining).1
  rw [spanTo, rear, lastSpan, hbefore]
  rfl

structure Place (start : Cursor) (size : Nat) (c : Cursor) : Prop where
  reaches : start.Reaches c
  terminated : c.Terminated
  inOrder : TokenStream.InOrder size (c.before.reverse ++ c.remaining)

namespace Place

variable {start : Cursor} {size : Nat} {t : Token}

theorem of_reaches (hc : Place start size c) (h : c.Reaches c') : Place start size c' := by
  refine ⟨hc.reaches.trans h, h.terminated hc.terminated, ?_⟩
  obtain ⟨ts, hbefore, hremaining⟩ := h.exists_consumes
  have hinOrder := hc.inOrder
  rw [hremaining, ← List.append_assoc] at hinOrder
  rwa [hbefore, List.reverse_append, List.reverse_reverse]

theorem bounds (hc : Place start size c) (ht : t ∈ c.remaining) :
    t.span.start ≤ t.span.stop ∧ t.span.stop ≤ size :=
  hc.inOrder.bounds t (List.mem_append_right _ ht)

theorem here_first (hc : Place start size c) (ht : t ∈ c.remaining) :
    t = c.here ∨ c.here.span.stop ≤ t.span.start := by
  have hascending := (List.pairwise_append.mp hc.inOrder.ascending).2.1
  obtain rfl | ht := List.mem_cons.mp ht
  · exact .inl rfl
  · exact .inr ((List.pairwise_cons.mp hascending).1 t ht)

theorem rear_le_start (hc : Place start size c) (ht : t ∈ c.remaining) :
    c.rear ≤ t.span.start := by
  have hacross := (List.pairwise_append.mp hc.inOrder.ascending).2.2
  rw [rear, lastSpan]
  cases hbefore : c.before with
  | nil => exact Nat.zero_le _
  | cons last before => exact hacross last (by rw [hbefore]; simp) t ht

theorem rear_le_fore (hc : Place start size c) : c.rear ≤ c.fore :=
  hc.rear_le_start List.mem_cons_self

theorem rear_le_size (hc : Place start size c) : c.rear ≤ size := by
  have := hc.rear_le_fore
  have := hc.bounds List.mem_cons_self
  rw [fore] at *
  omega

theorem fore_le (hc : Place start size c) (h : c.Reaches c') : c.fore ≤ c'.fore := by
  rw [fore, fore]
  have := hc.bounds List.mem_cons_self
  obtain heq | hbehind := hc.here_first (h.subset List.mem_cons_self)
  · exact Nat.le_of_eq (by rw [heq])
  · omega

/-- The last token that was consumed is no other than the one that was here, or it is behind it. -/
theorem last_bounds (hc : Place start size c) (h : c.Advances c') :
    c.fore ≤ c'.lastSpan.start ∧ c.here.span.stop ≤ c'.rear ∧ c'.lastSpan.start ≤ c'.rear := by
  obtain ⟨ts, hts, h⟩ := h
  obtain ⟨-, t, ht, -, hspan⟩ := h.exists_last hts
  have := hc.bounds List.mem_cons_self
  have := hc.bounds ht
  rw [fore, rear, hspan]
  obtain rfl | hbehind := hc.here_first ht
  · exact ⟨Nat.le_refl _, Nat.le_refl _, by omega⟩
  · omega

theorem fore_le_rear (hc : Place start size c) (h : c.Advances c') : c.fore ≤ c'.rear := by
  have := hc.last_bounds h
  omega

theorem rear_le (hc : Place start size c) (h : c.Reaches c') : c.rear ≤ c'.rear := by
  obtain ⟨ts, hconsumes⟩ := h.exists_consumes
  cases ts with
  | nil =>
      have hbefore : c'.before = c.before := hconsumes.1
      exact Nat.le_of_eq (by rw [rear, rear, lastSpan, lastSpan, hbefore])
  | cons t ts =>
      have := hc.fore_le_rear ⟨_, List.cons_ne_nil t ts, hconsumes⟩
      have := hc.rear_le_fore
      omega

/-- A span from the token at a cursor grows to the last token consumed. -/
theorem merge_lastSpan (hc : Place start size c) (h : c.Advances c') {span : Span}
    (hstart : span.start = c.fore) (hstop : span.stop ≤ c'.rear) :
    span.merge c'.lastSpan = c.spanTo c' := by
  rw [Span.merge_eq (by rw [hstart]; exact (hc.last_bounds h).1) hstop, hstart]
  rfl

theorem merge_here (hc : Place start size c) (h : c.Advances c') :
    c.here.span.merge c'.lastSpan = c.spanTo c' :=
  hc.merge_lastSpan h rfl (hc.last_bounds h).2.1

end Place

def Between (c c' : Cursor) (span : Span) : Prop :=
  c.fore ≤ span.start ∧ span.stop ≤ c'.rear

end Cursor

end ArmPseudocode

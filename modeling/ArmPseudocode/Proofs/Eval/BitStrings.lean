import ArmPseudocode.Eval.Stmt
import ArmPseudocode.Proofs.Parser.Unambiguous
import ArmPseudocode.Proofs.Token.LongestMatch
import ArmPseudocode.Proofs.Value.Literals

/-!
# Bit strings

A run of bits between quotes is one token, and as an expression it is the vector that the run
writes. The digits are picked out of a text three times: by the tokenizer, when the vector is read,
and when it is written. All three pick the same ones, so a vector written out as a bit string is
read back.
-/

namespace ArmPseudocode

open Digit (isDigitChar)

/-! ### The token -/

namespace Pattern

variable {c d : Char} {w z : List Char}

theorem best?_bitString (hopen : isOpeningQuote c = true) (hw : w ∈ someOf isBitChar)
    (hclose : isClosingQuote d = true) (z : List Char) :
    best? (c :: (w ++ d :: z)) table = some (bitString, w.length + 2) := by
  have honly : ∀ c ∈ ['\u2018', '\u2019', '\''], ∀ row ∈ table, row.begins c = true →
      row = bitString := by
    decide +kernel
  have hquote : c ∈ ['\u2018', '\u2019', '\''] := by
    simpa [isOpeningQuote, or_assoc] using hopen
  exact best?_of_begins (by decide +kernel) (longest?_bitString hopen hw hclose) (honly c hquote)

theorem isDigitChar_of_quote (h : isOpeningQuote c = true ∨ isClosingQuote c = true) :
    isDigitChar c = false := by
  have hquotes : ∀ c ∈ ['\u2018', '\u2019', '\''], isDigitChar c = false := by decide
  have hquote : c ∈ ['\u2018', '\u2019', '\''] := by
    obtain h | h := h
    · simpa [isOpeningQuote, or_assoc] using h
    · rw [List.mem_cons]
      exact .inr (by simpa [isClosingQuote] using h)
  exact hquotes c hquote

/-- Of what stands between the quotes all but the spaces are digits. -/
theorem filter_isDigitChar (h : ∀ c ∈ w, isBitChar c = true) :
    w.filter isDigitChar = w.filter (· ≠ ' ') := by
  apply List.filter_congr
  intro c hc
  have hbits : ∀ c ∈ [' ', '0', '1', 'x'], isDigitChar c = decide (c ≠ ' ') := by decide
  exact hbits c (by simpa [isBitChar, or_assoc] using h c hc)

end Pattern

namespace Lexeme

open Pattern

variable {c d : Char} {s w : List Char} {reading : Reading}

theorem ofText_of_scan (hs : s ≠ []) (hscan : scan s = ⟨reading, s.length⟩) :
    ofText s = [⟨reading, .ofRange 0 (byteLength s)⟩] := by
  rw [ofText_eq_locate, pieces_of_ne_nil hs, hscan, List.drop_length, List.take_length, locate,
    Nat.zero_add]
  rfl

theorem scan_bitString (hopen : isOpeningQuote c = true) (hw : w ∈ someOf isBitChar)
    (hclose : isClosingQuote d = true) :
    scan (c :: (w ++ [d])) =
      ⟨.token (.bitString (String.ofList (w.filter isDigitChar))), (c :: (w ++ [d])).length⟩ := by
  have hlength : (c :: (w ++ [d])).length = w.length + 2 := by simp
  rw [scan_of_best? (best?_bitString hopen hw hclose []) (by simp), ← hlength, List.take_length]
  show Scan.mk (.token (.bitString (String.ofList ((c :: (w ++ [d])).filter isDigitChar)))) _ = _
  rw [List.filter_cons_of_neg (by simp [isDigitChar_of_quote (.inl hopen)]), List.filter_append,
    List.filter_cons_of_neg (by simp [isDigitChar_of_quote (.inr hclose)]), List.filter_nil,
    List.append_nil]

end Lexeme

namespace TokenStream

open Pattern Lexeme

/-- Bits between quotes are one token, under all limits and without a report. -/
theorem ofText_bitString {c d : Char} {w : List Char} (hopen : isOpeningQuote c = true)
    (hw : w ∈ someOf isBitChar) (hclose : isClosingQuote d = true) (lines : LineTable)
    (queue : DiagnosticQueue) :
    ∃ stream : TokenStream, ofText lines queue (c :: (w ++ [d])) = (stream, queue) ∧
      stream.tokens = [⟨.bitString (String.ofList (w.filter isDigitChar)),
        .ofRange 0 (byteLength (c :: (w ++ [d])))⟩] := by
  refine ⟨⟨_, min (byteLength (c :: (w ++ [d]))) Span.maxOffset⟩, ?_, rfl⟩
  rw [ofText, ofText_of_scan (by simp) (scan_bitString hopen hw hclose)]
  rfl

end TokenStream

/-! ### The expression -/

theorem Parse.expr_of_bitString {c : Cursor} {digits : String} (hkind : c.kind = .bitString digits)
    (hstop : Stops BinaryOp.loosest c.advance.kind) (bound : Nat) :
    expr (bound + 1) c =
      .ok (.bitString (c.here.span.merge c.advance.lastSpan) digits) c.advance := by
  refine expr_of_primary (by rw [hkind]; rfl) ?_ hstop
  rw [primary, bind_of_eq_ok (span_run c), primaryForm, bind_assoc, bind_of_eq_ok (span_run c),
    bind_assoc, bind_of_eq_ok (kind_run c), hkind]
  rfl

def Value.ofDigitText (s : List Char) : Except EvalError Value :=
  Value.bits <$> EvalError.ofWidth (Bits.ofText s)

theorem Expr.eval_bitString {α : Type} (info : α) (s : List Char) (env : Environment) :
    (bitString info (String.ofList (s.filter isDigitChar))).eval env = Value.ofDigitText s := by
  rw [eval, String.toList_ofList, Bits.ofText_filter, Value.ofDigitText]

/-- Bits between quotes are one token, and as an expression the vector that they write. -/
theorem TokenStream.exists_bitString {c d : Char} {w : List Char}
    (hopen : Pattern.isOpeningQuote c = true) (hsome : w ≠ [])
    (hbits : ∀ c ∈ w, Pattern.isBitChar c = true) (hclose : Pattern.isClosingQuote d = true)
    (lines : LineTable) (queue : DiagnosticQueue) :
    ∃ stream : TokenStream, ofText lines queue (c :: (w ++ [d])) = (stream, queue) ∧
      stream.tokens = [⟨.bitString (String.ofList (w.filter (· ≠ ' '))),
        .ofRange 0 (Lexeme.byteLength (c :: (w ++ [d])))⟩] ∧
      ∀ bound, ∃ e c', Parse.expr (bound + 1) (.atStart stream) = .ok e c' ∧ c'.kind = .eof ∧
        ∀ env, e.eval env = Value.ofDigitText w := by
  have hw := Pattern.mem_someOf.mpr ⟨hsome, hbits⟩
  obtain ⟨stream, hread, htokens⟩ := ofText_bitString hopen hw hclose lines queue
  have hstart := Cursor.kinds_atStart stream
  rw [htokens] at hstart
  have hend := Cursor.kind_eq_of_kinds (Cursor.kinds_advance hstart (by simp) (by simp))
  have hstop : Parse.Stops BinaryOp.loosest (Cursor.atStart stream).advance.kind := by
    rw [hend]
    exact Parse.stops_of_none _ rfl rfl
  refine ⟨stream, hread, ?_, fun bound => ?_⟩
  · rw [htokens, Pattern.filter_isDigitChar hbits]
  · exact ⟨_, _, Parse.expr_of_bitString (Cursor.kind_eq_of_kinds hstart) hstop bound, hend,
      Expr.eval_bitString _ w⟩

namespace Bits

/-- A vector of some width, written out, is an expression with the vector as its value. -/
theorem WellFormed.eval_text {b : Bits} (hb : b.WellFormed) (hwidth : 0 < b.width)
    (lines : LineTable) (queue : DiagnosticQueue) :
    ∃ stream : TokenStream, TokenStream.ofText lines queue b.text.toList = (stream, queue) ∧
      ∀ bound, ∃ e c', Parse.expr (bound + 1) (.atStart stream) = .ok e c' ∧ c'.kind = .eof ∧
        ∀ env, e.eval env = .ok (.bits b) := by
  have hsome : b.digits.map Digit.toChar ≠ [] := by
    rw [← List.length_pos_iff, List.length_map, length_digits]
    exact hwidth
  have hbits : ∀ c ∈ b.digits.map Digit.toChar, Pattern.isBitChar c = true := by
    intro c hc
    obtain ⟨d, -, rfl⟩ := List.mem_map.mp hc
    cases d <;> rfl
  have htext : b.text.toList = '\'' :: (b.digits.map Digit.toChar ++ ['\'']) := by
    rw [text, String.toList_ofList]
    rfl
  have hopen : Pattern.isOpeningQuote '\'' = true := rfl
  have hclose : Pattern.isClosingQuote '\'' = true := rfl
  obtain ⟨stream, hread, -, heval⟩ :=
    TokenStream.exists_bitString hopen hsome hbits hclose lines queue
  refine ⟨stream, htext ▸ hread, fun bound => ?_⟩
  obtain ⟨e, c', hrun, hend, hvalue⟩ := heval bound
  refine ⟨e, c', hrun, hend, fun env => ?_⟩
  rw [hvalue env, Value.ofDigitText, ofText_digits hb]
  rfl

/-- **Bit strings are vectors.** A text writes a vector if no more than 32 of its characters are
digits; the width and the text of the vector are then those of these digits, and else the first
width too great is reported. A vector is read back from its text, so that vectors are the same
exactly if they are written the same. Between quotes a run of bits is one token, whose digits are
the run without its spaces, and its value as an expression is the vector that the run writes. -/
theorem literals_of_vectors :
    (∀ s : List Char,
      ((∃ b, ofText s = .ok b) ↔ (s.filter isDigitChar).length ≤ 32) ∧
      (∀ b, ofText s = .ok b → b.width = (s.filter isDigitChar).length ∧
        b.text = String.ofList ('\'' :: s.filter isDigitChar ++ ['\''])) ∧
      (32 < (s.filter isDigitChar).length → ofText s = .error (.outOfRange 33))) ∧
    (∀ b : Bits, b.WellFormed → ofText b.text.toList = .ok b) ∧
    (∀ a b : Bits, a.WellFormed → b.WellFormed → (a = b ↔ a.text = b.text)) ∧
    ∀ opening run closing, Pattern.isOpeningQuote opening = true → run ≠ [] →
      (∀ c ∈ run, Pattern.isBitChar c = true) → Pattern.isClosingQuote closing = true →
      ∀ lines queue, ∃ stream : TokenStream,
        TokenStream.ofText lines queue (opening :: (run ++ [closing])) = (stream, queue) ∧
        stream.tokens = [⟨.bitString (String.ofList (run.filter (· ≠ ' '))),
          .ofRange 0 (Lexeme.byteLength (opening :: (run ++ [closing])))⟩] ∧
        ∀ bound, ∃ e d, Parse.expr (bound + 1) (.atStart stream) = .ok e d ∧ d.kind = .eof ∧
          ∀ env, e.eval env = Value.ofDigitText run := by
  refine ⟨fun s => ⟨⟨?_, ?_⟩, ?_, ofText_of_lt⟩, fun b => ofText_text,
    fun a b ha hb => (text_inj ha hb).symm, ?_⟩
  · intro h
    obtain ⟨b, hread⟩ := h
    exact (of_ofText hread).1
  · intro hshort
    obtain ⟨b, hread, -⟩ := exists_ofText hshort
    exact ⟨b, hread⟩
  · intro b hread
    exact (of_ofText hread).2.2
  · intro opening run closing hopen hsome hbits hclose
    exact TokenStream.exists_bitString hopen hsome hbits hclose

def spacedVector : Bits := ⟨3, 4, 1⟩

theorem spacedVector_literals :
    (∃ b, ofText "1 0x".toList = .ok b ∧ b.width = 3 ∧ b.text = "'10x'") ∧
      ofText (List.replicate 33 '1') = .error (.outOfRange 33) ∧
      ofText spacedVector.text.toList = .ok spacedVector ∧
      (spacedVector = ⟨3, 4, 1⟩ ↔ spacedVector.text = "'10x'") ∧
      ∃ stream : TokenStream,
        TokenStream.ofText (.ofText []) (.empty {}) ['\u2018', '1', ' ', '0', 'x', '\u2019'] =
          (stream, .empty {}) ∧
        stream.tokens = [⟨.bitString "10x", ⟨0, 10⟩⟩] ∧
        ∃ e d, Parse.expr 1 (.atStart stream) = .ok e d ∧
          ∀ env, e.eval env = .ok (.bits spacedVector) := by
  obtain ⟨hread, hwritten, hequal, hquoted⟩ := literals_of_vectors
  have hwell : spacedVector.WellFormed := by constructor <;> decide
  obtain ⟨hfits, hvector, -⟩ := hread "1 0x".toList
  obtain ⟨b, hb⟩ := hfits.mpr (by decide)
  obtain ⟨hwidth, htext⟩ := hvector b hb
  obtain ⟨stream, htokenized, htokens, hexpr⟩ := hquoted '\u2018' ['1', ' ', '0', 'x'] '\u2019'
    rfl (by simp) (by decide) rfl (.ofText []) (.empty {})
  obtain ⟨e, d, hrun, -, hvalue⟩ := hexpr 0
  refine ⟨⟨b, hb, hwidth, htext⟩, (hread _).2.2 (by decide), hwritten _ hwell,
    hequal _ _ hwell hwell, stream, htokenized, htokens, e, d, hrun, fun env => ?_⟩
  rw [hvalue env]
  rfl

end Bits

end ArmPseudocode

import ArmPseudocode.Encoding.Template
import ArmPseudocode.Proofs.Encoding.Placement
import ArmPseudocode.Proofs.Text.Cutting
import ArmPseudocode.Proofs.Text.Trimming

/-!
# Layouts written and read again

The text of a layout is accepted as a layout again. Fixed bits come back as they are, and so does
every field whose text is not that of a fixed bit: its name is trimmed and has no separator in it,
and its width is written in decimal. A width of one is left out, so a field of one bit that is named
`0`, `1`, `(0)` or `(1)` comes back as the fixed bit.
-/

namespace ArmPseudocode

namespace Text

theorem isDigit_of_mem_toDigits {n : Nat} {c : Char} (h : c ∈ Nat.toDigits 10 n) :
    isDigit c = true := by
  have hdigit := Nat.isDigit_of_mem_toDigits (by decide) (by decide) h
  rw [Char.isDigit, Bool.and_eq_true, decide_eq_true_eq, decide_eq_true_eq] at hdigit
  rw [isDigit, Bool.and_eq_true, decide_eq_true_eq, decide_eq_true_eq]
  exact hdigit

theorem toNat_of_isDigit {c : Char} (h : isDigit c = true) : 48 ≤ c.toNat ∧ c.toNat ≤ 57 := by
  rw [isDigit, Bool.and_eq_true, decide_eq_true_eq, decide_eq_true_eq] at h
  exact h

theorem isBlank_of_isDigit {c : Char} (h : isDigit c = true) : isBlank c = false := by
  have := toNat_of_isDigit h
  simp only [isBlank, Bool.or_eq_false_iff, Bool.and_eq_false_iff, decide_eq_false_iff_not,
    beq_eq_false_iff_ne]
  omega

theorem digitsValue_toDigits (n : Nat) : digitsValue 10 (Nat.toDigits 10 n) = n := by
  have hvalue : ∀ c ∈ Nat.toDigits 10 n, digitValue c = c.toNat - '0'.toNat := fun c hc => by
    rw [digitValue, if_pos (isDigit_of_mem_toDigits hc)]
  calc digitsValue 10 (Nat.toDigits 10 n)
      = Nat.ofDigitChars 10 (Nat.toDigits 10 n) 0 :=
        List.foldl_ext _ _ _ fun total c hc => by rw [hvalue c hc, Nat.mul_comm]
    _ = n := Nat.ofDigitChars_ten_toDigits

/-- A width written in decimal is read back. -/
theorem readWidth?_toDigits {n : Nat} (h : n < UInt32.size) :
    readWidth? (Nat.toDigits 10 n) = some n := by
  obtain ⟨c, rest, hdigits⟩ := List.exists_cons_of_ne_nil (Nat.toDigits_ne_nil (b := 10) (n := n))
  have hplus : c ≠ '+' := by
    rintro rfl
    exact absurd (isDigit_of_mem_toDigits (hdigits ▸ List.mem_cons_self)) (by decide)
  have hall : (c :: rest).all isDigit = true :=
    List.all_eq_true.mpr fun d hd => isDigit_of_mem_toDigits (hdigits ▸ hd)
  rw [hdigits, readWidth?, if_neg, ← hdigits, digitsValue_toDigits, if_pos h]
  · simp [hall]
  · rintro digits heq
    exact hplus (List.cons.inj heq).1

theorem lt_of_readWidth? {s : List Char} {n : Nat} (h : readWidth? s = some n) :
    n < UInt32.size := by
  unfold readWidth? at h
  extract_lets digits n at h
  split at h
  · cases h
  · split at h
    · next hlt => exact Option.some.inj h ▸ hlt
    · cases h

end Text

namespace FieldSpec

variable {spec : FieldSpec} {specs : List FieldSpec} {item id : List Char} {width : Nat}

/-- What a layout can say as a field's name: something without blanks around it and without the
characters that end an item and a name. -/
structure Legible (id : List Char) : Prop where
  nonempty : id ≠ []
  trimmed : Text.trim id = id
  bar_notin : '|' ∉ id
  colon_notin : ':' ∉ id

/-- An item that a layout can hold. -/
inductive Written : FieldSpec → Prop
  | literal (bit parenthesized : Bool) : Written (.literal bit parenthesized)
  | field {id : String} {width : Nat} (hname : Legible id.toList) (hpos : width ≠ 0)
      (hbound : width < UInt32.size) : Written (.field id width)

def reread : FieldSpec → FieldSpec
  | .literal bit parenthesized => .literal bit parenthesized
  | .field id width =>
    if width ≠ 1 then .field id width
    else if id = "0" then .literal false false
    else if id = "1" then .literal true false
    else if id = "(0)" then .literal false true
    else if id = "(1)" then .literal true true
    else .field id width

/-- A field whose text is that of a fixed bit. -/
inductive Disguised : FieldSpec → Prop
  | intro (bit parenthesized : Bool) : Disguised (.field (literal bit parenthesized).text 1)

theorem width_reread (spec : FieldSpec) : spec.reread.width = spec.width := by
  cases spec with
  | literal bit parenthesized => rfl
  | field id width =>
      by_cases hwidth : width = 1
      · subst hwidth
        rw [reread, if_neg (not_not_intro rfl)]
        repeat' split
        all_goals rfl
      · rw [reread, if_pos hwidth]

/-- Only a field that looks like a fixed bit comes back as something else. -/
theorem reread_eq_self_iff : spec.reread = spec ↔ ¬spec.Disguised := by
  cases spec with
  | literal bit parenthesized => exact ⟨fun _ => nofun, fun _ => rfl⟩
  | field id width =>
      constructor
      · rintro h ⟨bit, parenthesized⟩
        revert h
        cases bit <;> cases parenthesized <;> decide
      · intro h
        by_cases hwidth : width = 1
        · subst hwidth
          rw [reread, if_neg (not_not_intro rfl),
            if_neg fun heq => h (by rw [heq]; exact .intro false false),
            if_neg fun heq => h (by rw [heq]; exact .intro true false),
            if_neg fun heq => h (by rw [heq]; exact .intro false true),
            if_neg fun heq => h (by rw [heq]; exact .intro true true)]
        · rw [reread, if_pos hwidth]

/-! ### Reading -/

theorem written_of_named (hlegible : id ≠ [] → Legible id) (hbound : width < UInt32.size)
    (h : named item id width = .ok spec) : Written spec := by
  unfold named at h
  split at h
  · cases h
  · next hne =>
      split at h
      · cases h
      · next hpos =>
          cases h
          refine .field ?_ hpos hbound
          rw [String.toList_ofList]
          exact hlegible fun heq => hne (List.isEmpty_iff.mpr heq)

theorem written_of_readField (htrim : Text.trim item = item) (hbar : '|' ∉ item)
    (h : readField item = .ok spec) : Written spec := by
  unfold readField at h
  obtain ⟨hcolon, hcut⟩ | ⟨id, digits, hcolon, rfl, hcut⟩ := Text.cutAt?_cases ':' item
  · rw [hcut] at h
    exact written_of_named (fun hne => ⟨hne, htrim, hbar, hcolon⟩) (by decide) h
  · simp only [hcut] at h
    have hsub : ∀ {c}, c ∈ Text.trim id → c ∈ id := (Text.trim_infix id).mem
    split at h
    · next width hwidth =>
        refine written_of_named (fun hne => ⟨hne, Text.trim_trim id, fun hmem => hbar ?_,
          fun hmem => hcolon (hsub hmem)⟩) (Text.lt_of_readWidth? hwidth) h
        exact List.mem_append_left _ (hsub hmem)
    · cases h

/-- What is read off a layout is an item that a layout can hold. -/
theorem written_of_read (hbar : '|' ∉ item) (h : read item = .ok spec) : Written spec := by
  unfold read at h
  split at h
  · cases h; exact .literal _ _
  · cases h; exact .literal _ _
  · cases h; exact .literal _ _
  · cases h; exact .literal _ _
  · exact written_of_readField (Text.trim_trim item)
      (fun hmem => hbar ((Text.trim_infix item).mem hmem)) h

/-! ### Reading again -/

theorem toList_text_field {id : String} (hwidth : width ≠ 1) :
    (field id width).text.toList = id.toList ++ ':' :: Nat.toDigits 10 width := by
  rw [text, if_neg hwidth, String.append_assoc, String.toList_append, String.toList_append,
    Nat.toString_eq_repr, Nat.toList_repr]
  rfl

theorem bar_notin_text (h : Written spec) : '|' ∉ spec.text.toList := by
  cases h with
  | literal bit parenthesized => cases bit <;> cases parenthesized <;> decide
  | @field id width hname hpos hbound =>
      by_cases hwidth : width = 1
      · rw [text, if_pos hwidth]
        exact hname.bar_notin
      · rw [toList_text_field hwidth, List.mem_append, List.mem_cons]
        rintro (hmem | heq | hmem)
        · exact hname.bar_notin hmem
        · cases heq
        · exact absurd (Text.isDigit_of_mem_toDigits hmem) (by decide)

/-- A name on its own is a field of one bit, or the fixed bit it looks like. -/
theorem read_name {id : String} (h : Legible id.toList) :
    read id.toList = .ok (reread (.field id 1)) := by
  have hid : ∀ {s : List Char}, id.toList = s → id = String.ofList s := fun heq => by
    rw [← heq, String.ofList_toList]
  rw [read, h.trimmed]
  split
  · next heq => rw [hid heq]; rfl
  · next heq => rw [hid heq]; rfl
  · next heq => rw [hid heq]; rfl
  · next heq => rw [hid heq]; rfl
  · next h0 h1 h0' h1' =>
      have hself : reread (.field id 1) = .field id 1 := by
        refine reread_eq_self_iff.mpr ?_
        rintro ⟨bit, parenthesized⟩
        cases bit <;> cases parenthesized <;> contradiction
      rw [hself, readField, Text.cutAt?_of_notin h.colon_notin]
      simp only [named, List.isEmpty_eq_false_iff.mpr h.nonempty, Bool.false_eq_true, if_false,
        Nat.one_ne_zero, String.ofList_toList]

theorem read_name_width {id : String} (h : Legible id.toList) (hpos : width ≠ 0)
    (hbound : width < UInt32.size) :
    read (id.toList ++ ':' :: Nat.toDigits 10 width) = .ok (.field id width) := by
  have hdigits : Text.trim (Nat.toDigits 10 width) = Nat.toDigits 10 width :=
    Text.trim_eq_self fun c hc => Text.isBlank_of_isDigit (Text.isDigit_of_mem_toDigits hc)
  have hback : Text.trim (':' :: Nat.toDigits 10 width) = ':' :: Nat.toDigits 10 width := by
    refine Text.trim_eq_self fun c hc => ?_
    obtain rfl | hc := List.mem_cons.mp hc
    · decide
    · exact Text.isBlank_of_isDigit (Text.isDigit_of_mem_toDigits hc)
  have hcolon : ':' ∈ id.toList ++ ':' :: Nat.toDigits 10 width := by simp
  rw [read, Text.trim_append h.nonempty (List.cons_ne_nil _ _) h.trimmed hback]
  split
  · next heq => rw [heq] at hcolon; exact absurd hcolon (by decide)
  · next heq => rw [heq] at hcolon; exact absurd hcolon (by decide)
  · next heq => rw [heq] at hcolon; exact absurd hcolon (by decide)
  · next heq => rw [heq] at hcolon; exact absurd hcolon (by decide)
  · rw [readField, Text.cutAt?_append_cons h.colon_notin]
    simp only [hdigits, Text.readWidth?_toDigits hbound, h.trimmed, named,
      List.isEmpty_eq_false_iff.mpr h.nonempty, Bool.false_eq_true, if_false, hpos,
      String.ofList_toList]

theorem read_text (h : Written spec) : read spec.text.toList = .ok spec.reread := by
  cases h with
  | literal bit parenthesized => cases bit <;> cases parenthesized <;> rfl
  | @field id width hname hpos hbound =>
      by_cases hwidth : width = 1
      · subst hwidth
        exact read_name hname
      · rw [toList_text_field hwidth, reread, if_pos hwidth]
        exact read_name_width hname hpos hbound

/-! ### Layouts -/

theorem toList_textAll (specs : List FieldSpec) :
    (textAll specs).toList = Text.joinWith ['|'] (specs.map fun spec => spec.text.toList) := by
  rw [textAll, String.toList_intercalate, List.map_map, Text.joinWith_eq_intercalate]
  rfl

theorem mapM_read_text (h : ∀ spec ∈ specs, Written spec) :
    (specs.map fun spec => spec.text.toList).mapM read = .ok (specs.map reread) := by
  induction specs with
  | nil => rfl
  | cons spec specs ih =>
      obtain ⟨hspec, hspecs⟩ := List.forall_mem_cons.mp h
      rw [List.map_cons, List.mapM_cons, read_text hspec, ih hspecs]
      rfl

/-- The text of a layout is read item by item. -/
theorem readAll_textAll (hne : specs ≠ []) (h : ∀ spec ∈ specs, Written spec) :
    readAll (textAll specs).toList = .ok (specs.map reread) := by
  rw [readAll, toList_textAll, Text.splitOn_joinWith, mapM_read_text h]
  · simpa using hne
  · intro piece hpiece
    obtain ⟨spec, hspec, rfl⟩ := List.mem_map.mp hpiece
    exact bar_notin_text (h spec hspec)

theorem written_of_mapM_read {items : List (List Char)} (hbar : ∀ item ∈ items, '|' ∉ item)
    (h : items.mapM read = .ok specs) : ∀ spec ∈ specs, Written spec := by
  induction items generalizing specs with
  | nil =>
      cases h
      simp
  | cons item items ih =>
      obtain ⟨hitem, hitems⟩ := List.forall_mem_cons.mp hbar
      rw [List.mapM_cons] at h
      cases hread : read item with
      | error e => rw [hread] at h; cases h
      | ok first =>
          cases hrest : items.mapM read with
          | error e => rw [hread, hrest] at h; cases h
          | ok rest =>
              rw [hread, hrest] at h
              cases h
              exact List.forall_mem_cons.mpr ⟨written_of_read hitem hread, ih hitems hrest⟩

theorem totalWidth_map_reread (specs : List FieldSpec) :
    totalWidth (specs.map reread) = totalWidth specs := by
  induction specs with
  | nil => rfl
  | cons spec specs ih => rw [List.map_cons, totalWidth_cons, totalWidth_cons, width_reread, ih]

theorem map_reread_eq_self_iff :
    specs.map reread = specs ↔ ∀ spec ∈ specs, ¬spec.Disguised := by
  calc specs.map reread = specs ↔ specs.map reread = specs.map id := by rw [List.map_id]
    _ ↔ ∀ spec ∈ specs, spec.reread = spec := List.map_inj_left
    _ ↔ ∀ spec ∈ specs, ¬spec.Disguised := forall₂_congr fun _ _ => reread_eq_self_iff

end FieldSpec

namespace Template

variable {t : Template} {name : String} {layout : List Char} {program : Program Span}

theorem of_ofLayout_eq_ok (h : ofLayout name layout program = .ok t) :
    FieldSpec.readAll layout = .ok t.specs := by
  unfold ofLayout at h
  cases hread : FieldSpec.readAll layout with
  | error e => rw [hread] at h; cases h
  | ok specs =>
      rw [hread] at h
      change ofSpecs name specs program = .ok t at h
      unfold ofSpecs at h
      split at h
      · cases h; rfl
      · cases h

/-- Every layout that is accepted is accepted again from its text, with each item read from the text
of the item. The items are the same if and only if no field looks like a fixed bit. -/
theorem ofLayout_textAll (h : ofLayout name layout program = .ok t) :
    ∃ t', ofLayout name (FieldSpec.textAll t.specs).toList program = .ok t' ∧
      t'.specs = t.specs.map FieldSpec.reread ∧
      (t'.specs = t.specs ↔ ∀ spec ∈ t.specs, ¬spec.Disguised) := by
  have hread := of_ofLayout_eq_ok h
  have hwritten : ∀ spec ∈ t.specs, FieldSpec.Written spec :=
    FieldSpec.written_of_mapM_read (fun _ => Text.notin_of_mem_splitOn) hread
  have hne : t.specs ≠ [] := by
    intro hnil
    have hcovers := t.covers
    rw [hnil] at hcovers
    cases hcovers
  have hagain := FieldSpec.readAll_textAll hne hwritten
  have hcovers : FieldSpec.totalWidth (t.specs.map FieldSpec.reread) = wordBits := by
    rw [FieldSpec.totalWidth_map_reread, t.covers]
  refine ⟨⟨name, t.specs.map FieldSpec.reread, program, hcovers⟩, ?_, rfl,
    FieldSpec.map_reread_eq_self_iff⟩
  rw [ofLayout, hagain]
  exact dif_pos hcovers

def spacedTemplate : Template where
  name := "STR"
  specs := [.field "cond" 4, .literal false false, .literal true true, .field "S" 1,
    .field "Rn" 4, .field "imm" 21]
  program := .empty
  covers := by decide

theorem spacedTemplate_textAll :
    ofLayout "STR" " cond:4|0|(1)| S : 01 | Rn:4|imm:+21".toList .empty = .ok spacedTemplate ∧
      FieldSpec.textAll spacedTemplate.specs = "cond:4|0|(1)|S|Rn:4|imm:21" ∧
      ∃ t', ofLayout "STR" "cond:4|0|(1)|S|Rn:4|imm:21".toList .empty = .ok t' ∧
        t'.specs = spacedTemplate.specs := by
  have hread : ofLayout "STR" " cond:4|0|(1)| S : 01 | Rn:4|imm:+21".toList .empty =
      .ok spacedTemplate := rfl
  have htext : FieldSpec.textAll spacedTemplate.specs = "cond:4|0|(1)|S|Rn:4|imm:21" := by decide
  obtain ⟨t', hagain, -, hsame⟩ := ofLayout_textAll hread
  refine ⟨hread, htext, t', htext ▸ hagain, hsame.mpr fun spec hspec => ?_⟩
  rw [← FieldSpec.reread_eq_self_iff]
  revert spec
  decide

/-- A field named `0` is a fixed bit when its layout is read again. -/
theorem namedBit_reread :
    (ofLayout "T" "0:1|a:31".toList .empty).map specs =
        .ok [.field "0" 1, .field "a" 31] ∧
      FieldSpec.textAll [.field "0" 1, .field "a" 31] = "0|a:31" ∧
      (ofLayout "T" "0|a:31".toList .empty).map specs =
        .ok [.literal false false, .field "a" 31] := by
  refine ⟨rfl, by decide, rfl⟩

end Template

end ArmPseudocode

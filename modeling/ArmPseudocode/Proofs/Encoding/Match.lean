import ArmPseudocode.Proofs.Encoding.Slice
import ArmPseudocode.Proofs.Eval.Bindings
import Mathlib.Data.List.GetD
import Mathlib.Data.Set.Function

/-!
# What matching a word does

A word matches a layout exactly if it has the layout's fixed bits. Matching then binds every field's
name to the slice of the word where the field lies, or marks the name as inconsistent when it stands
for two different slices, and binds nothing else. When no name stands twice, nothing is lost: the
words that match and the ways to fill in the fields correspond one to one.
-/

namespace ArmPseudocode

namespace Template

/-- The word has the fixed bits of the items. -/
def LiteralsMatch (items : List (Nat × FieldSpec)) (word : BitVec 32) : Prop :=
  ∀ offset bit parenthesized, (offset, .literal bit parenthesized) ∈ items →
    word.getMsbD offset = bit

/-- The names of the fields are bound to their slices of the word, and no other name is bound. -/
structure FieldsBound (items : List (Nat × FieldSpec)) (word : BitVec 32) (env : Environment) :
    Prop where
  /-- A name whose fields all have one width and one value is bound to it. -/
  uniform : ∀ id offset width, (offset, .field id width) ∈ items →
    (∀ offset' width', (offset', .field id width') ∈ items →
      wordDigits word offset' width' = wordDigits word offset width) →
    ∃ b, env.get? id = some (.bits b) ∧ IsSlice word offset width b
  /-- A name with two fields that differ is marked. -/
  differing : ∀ id offset width offset' width', (offset, .field id width) ∈ items →
    (offset', .field id width') ∈ items →
    wordDigits word offset width ≠ wordDigits word offset' width' →
    env.get? id = some .inconsistent
  unbound : ∀ id, (∀ offset width, (offset, .field id width) ∉ items) → env.get? id = none

/-- No subtraction falls below zero and no shift amount reaches the width of a word when an item is
cut out of it. -/
def CutInRange (offset width : Nat) : Prop :=
  offset + width ≤ wordBits ∧ wordBits - offset - width < wordBits ∧ wordBits - width < wordBits

/-- One concrete vector of the right width for every field, and nothing for other names. -/
structure Assigns (specs : List FieldSpec) (assignment : String → Option Value) : Prop where
  bound : ∀ id width, .field id width ∈ specs →
    ∃ b : Bits, assignment id = some (.bits b) ∧ b.WellFormed ∧ b.isConcrete ∧ b.width = width
  unbound : ∀ id, (∀ width, .field id width ∉ specs) → assignment id = none

variable {word : BitVec 32} {specs : List FieldSpec}

/-! ### Matching binds a row of fields -/

def fieldValues (word : BitVec 32) : Nat → List FieldSpec → List (String × Value)
  | _, [] => []
  | start, .literal _ _ :: specs => fieldValues word (start + 1) specs
  | start, .field id width :: specs =>
    (id, .bits (fieldBits word start width)) :: fieldValues word (start + width) specs

theorem mem_fieldValues {start : Nat} {id : String} {v : Value} :
    (id, v) ∈ fieldValues word start specs ↔
      ∃ offset width, (offset, .field id width) ∈ FieldSpec.placedFrom start specs ∧
        v = .bits (fieldBits word offset width) := by
  induction specs generalizing start with
  | nil => simp [fieldValues, FieldSpec.placedFrom]
  | cons first rest ih =>
      cases first with
      | literal _ _ => simp [fieldValues, FieldSpec.placedFrom, FieldSpec.width, ih]
      | field other w =>
          simp only [fieldValues, FieldSpec.placedFrom, FieldSpec.width, List.mem_cons,
            Prod.mk.injEq, FieldSpec.field.injEq, ih]
          constructor
          · rintro (⟨rfl, rfl⟩ | ⟨offset, width, hmem, rfl⟩)
            · exact ⟨start, w, .inl ⟨rfl, rfl, rfl⟩, rfl⟩
            · exact ⟨offset, width, .inr hmem, rfl⟩
          · rintro ⟨offset, width, ⟨rfl, rfl, rfl⟩ | hmem, rfl⟩
            · exact .inl ⟨rfl, rfl⟩
            · exact .inr ⟨offset, width, hmem, rfl⟩

theorem literalsMatch_cons_literal {start : Nat} {bit parenthesized : Bool} :
    LiteralsMatch (FieldSpec.placedFrom start (.literal bit parenthesized :: specs)) word ↔
      word.getMsbD start = bit ∧ LiteralsMatch (FieldSpec.placedFrom (start + 1) specs) word := by
  constructor
  · intro h
    exact ⟨h start bit parenthesized List.mem_cons_self,
      fun offset b p hmem => h offset b p (List.mem_cons_of_mem _ hmem)⟩
  · rintro ⟨hbit, hrest⟩ offset b p hmem
    simp only [FieldSpec.placedFrom, FieldSpec.width, List.mem_cons, Prod.mk.injEq,
      FieldSpec.literal.injEq] at hmem
    rcases hmem with ⟨rfl, rfl, rfl⟩ | hmem
    · exact hbit
    · exact hrest offset b p hmem

theorem literalsMatch_cons_field {start width : Nat} {id : String} :
    LiteralsMatch (FieldSpec.placedFrom start (.field id width :: specs)) word ↔
      LiteralsMatch (FieldSpec.placedFrom (start + width) specs) word := by
  constructor
  · exact fun h offset b p hmem => h offset b p (List.mem_cons_of_mem _ hmem)
  · intro h offset b p hmem
    simp only [FieldSpec.placedFrom, FieldSpec.width, List.mem_cons, Prod.mk.injEq, reduceCtorEq,
      and_false, false_or] at hmem
    exact h offset b p hmem

theorem bindFrom_fst (start : Nat) (env : Environment) :
    (bindFrom word start specs env).1 = true ↔
      LiteralsMatch (FieldSpec.placedFrom start specs) word := by
  induction specs generalizing start env with
  | nil => simp [bindFrom, FieldSpec.placedFrom, LiteralsMatch]
  | cons first rest ih =>
      cases first with
      | literal bit parenthesized =>
          rw [literalsMatch_cons_literal, bindFrom]
          split
          · next hbit => rw [ih, and_iff_right hbit]
          · next hbit => simp [hbit]
      | field id width => rw [literalsMatch_cons_field, bindFrom, ih]

theorem bindFrom_snd {start : Nat} (env : Environment)
    (h : LiteralsMatch (FieldSpec.placedFrom start specs) word) :
    (bindFrom word start specs env).2 = env.bindFields (fieldValues word start specs) := by
  induction specs generalizing start env with
  | nil => rfl
  | cons first rest ih =>
      cases first with
      | literal bit parenthesized =>
          obtain ⟨hbit, hrest⟩ := literalsMatch_cons_literal.mp h
          rw [bindFrom, if_pos hbit, ih env hrest]
          rfl
      | field id width =>
          rw [bindFrom, ih _ (literalsMatch_cons_field.mp h)]
          rfl

/-- A row of fields bound in a fresh environment binds every name as its fields say. -/
theorem fieldsBound_of_fits (names : NameResolution)
    (hfits : ∀ offset id width, (offset, .field id width) ∈ FieldSpec.placed specs →
      offset + width ≤ wordBits) :
    FieldsBound (FieldSpec.placed specs) word
      ((Environment.empty names).bindFields (fieldValues word 0 specs)) where
  uniform id offset width hmem huniform := by
    have hend := hfits offset id width hmem
    refine ⟨fieldBits word offset width, ?_, isSlice_fieldBits word hend⟩
    refine Environment.get?_bindFields_of_unique (Environment.get?_empty names id)
      (mem_fieldValues.mpr ⟨offset, width, hmem, rfl⟩) fun v hv => ?_
    obtain ⟨offset', width', hmem', rfl⟩ := mem_fieldValues.mp hv
    have hdigits := huniform offset' width' hmem'
    rw [(fieldBits_eq_iff (hfits offset' id width' hmem') hend).mpr hdigits]
  differing id offset width offset' width' hmem hmem' hne := by
    refine Environment.get?_bindFields_of_two (Environment.get?_empty names id)
      (mem_fieldValues.mpr ⟨offset, width, hmem, rfl⟩)
      (mem_fieldValues.mpr ⟨offset', width', hmem', rfl⟩) fun h => hne ?_
    rw [Value.bits.injEq] at h
    exact (fieldBits_eq_iff (hfits offset id width hmem) (hfits offset' id width' hmem')).mp h
  unbound id hid := by
    rw [Environment.get?_bindFields_of_not_mem _ fun v hv => ?_, Environment.get?_empty]
    obtain ⟨offset, width, hmem, -⟩ := mem_fieldValues.mp hv
    exact hid offset width hmem

variable {t : Template}

theorem bind_fst (names : NameResolution) :
    (t.bind word (.empty names)).1 = true ↔ LiteralsMatch (FieldSpec.placed t.specs) word :=
  bindFrom_fst 0 (.empty names)

theorem fieldsBound_bind (names : NameResolution)
    (h : LiteralsMatch (FieldSpec.placed t.specs) word) :
    FieldsBound (FieldSpec.placed t.specs) word (t.bind word (.empty names)).2 := by
  rw [bind, bindFrom_snd (.empty names) h]
  exact fieldsBound_of_fits names fun _ _ _ hmem => end_le_wordBits hmem

/-! ### The word of an assignment -/

def itemBits (assignment : String → Option Value) : FieldSpec → List Bool
  | .literal bit _ => [bit]
  | .field id width =>
    match assignment id with
    | some (.bits b) => (List.range width).map fun i => b.value.getLsbD (width - 1 - i)
    | _ => List.replicate width false

def layoutBits (assignment : String → Option Value) (specs : List FieldSpec) : List Bool :=
  specs.flatMap (itemBits assignment)

variable (assignment : String → Option Value)

@[simp] theorem length_itemBits (spec : FieldSpec) :
    (itemBits assignment spec).length = spec.width := by
  cases spec with
  | literal _ _ => rfl
  | field id width =>
      simp only [itemBits]
      split <;> simp [FieldSpec.width]

theorem length_layoutBits (specs : List FieldSpec) :
    (layoutBits assignment specs).length = FieldSpec.totalWidth specs := by
  induction specs with
  | nil => rfl
  | cons spec specs ih =>
      rw [layoutBits, List.flatMap_cons, List.length_append, length_itemBits, ← layoutBits, ih,
        FieldSpec.totalWidth_cons]

theorem getD_layoutBits {start offset : Nat} {spec : FieldSpec}
    (hmem : (offset, spec) ∈ FieldSpec.placedFrom start specs) {i : Nat} (hi : i < spec.width) :
    (layoutBits assignment specs).getD (offset - start + i) false =
      (itemBits assignment spec).getD i false := by
  induction specs generalizing start with
  | nil => simp [FieldSpec.placedFrom] at hmem
  | cons first rest ih =>
      simp only [FieldSpec.placedFrom, List.mem_cons, Prod.mk.injEq] at hmem
      rw [layoutBits, List.flatMap_cons]
      rcases hmem with ⟨rfl, rfl⟩ | hrest
      · rw [List.getD_append _ _ _ _ (by rw [length_itemBits]; omega), Nat.sub_self, Nat.zero_add]
      · have hstart := FieldSpec.start_le_of_mem hrest
        rw [List.getD_append_right _ _ _ _ (by rw [length_itemBits]; omega), length_itemBits,
          show offset - start + i - first.width = offset - (start + first.width) + i by omega]
        exact ih hrest

def wordOf (t : Template) : BitVec 32 :=
  (BitVec.ofBoolListBE (layoutBits assignment t.specs)).cast
    ((length_layoutBits assignment t.specs).trans t.covers)

theorem getMsbD_wordOf {offset : Nat} {spec : FieldSpec}
    (hmem : (offset, spec) ∈ FieldSpec.placed t.specs) {i : Nat} (hi : i < spec.width) :
    (wordOf assignment t).getMsbD (offset + i) = (itemBits assignment spec).getD i false := by
  rw [wordOf, BitVec.getMsbD_cast, BitVec.getMsbD_ofBoolListBE]
  exact getD_layoutBits assignment hmem hi

theorem literalsMatch_wordOf (t : Template) :
    LiteralsMatch (FieldSpec.placed t.specs) (wordOf assignment t) := by
  intro offset bit parenthesized hmem
  exact getMsbD_wordOf assignment hmem (Nat.zero_lt_one)

theorem isSlice_wordOf {offset width : Nat} {id : String} {b : Bits}
    (hmem : (offset, .field id width) ∈ FieldSpec.placed t.specs)
    (hassign : assignment id = some (.bits b)) (hb : b.WellFormed) (hconcrete : b.isConcrete)
    (hwidth : b.width = width) : IsSlice (wordOf assignment t) offset width b := by
  refine isSlice_of_getLsbD hb hconcrete hwidth fun i hi => ?_
  rw [getMsbD_wordOf assignment hmem hi]
  simp [itemBits, hassign, hi]

/-! ### Matching a word -/

/-- Every field of a matching word is bound to a slice when no two fields share a name. -/
theorem FieldsBound.slice {env : Environment} (h : FieldsBound (FieldSpec.placed specs) word env)
    (hnodup : (FieldSpec.fieldNames specs).Nodup) {offset width : Nat} {id : String}
    (hmem : (offset, .field id width) ∈ FieldSpec.placed specs) :
    ∃ b, env.get? id = some (.bits b) ∧ IsSlice word offset width b := by
  refine h.uniform id offset width hmem fun offset' width' hmem' => ?_
  obtain ⟨rfl, rfl⟩ := FieldSpec.unique_of_nodup hnodup hmem hmem'
  rfl

theorem FieldsBound.assigns {env : Environment} (h : FieldsBound (FieldSpec.placed specs) word env)
    (hnodup : (FieldSpec.fieldNames specs).Nodup) : Assigns specs env.get? where
  bound id width hmem := by
    obtain ⟨offset, hplaced⟩ := FieldSpec.exists_mem_placedFrom 0 hmem
    obtain ⟨b, hget, hslice⟩ := h.slice hnodup hplaced
    exact ⟨b, hget, hslice.wellFormed, hslice.concrete, hslice.width_eq⟩
  unbound id hid :=
    h.unbound id fun _ width hmem => hid width (FieldSpec.mem_of_mem_placedFrom hmem)

/-- Two words that match and fill the fields alike are one word: each of their bits is a fixed bit
or lies in a field. -/
theorem eq_of_get?_eq {word' : BitVec 32} {env env' : Environment}
    (hnodup : (FieldSpec.fieldNames t.specs).Nodup)
    (hliterals : LiteralsMatch (FieldSpec.placed t.specs) word)
    (hliterals' : LiteralsMatch (FieldSpec.placed t.specs) word')
    (hbound : FieldsBound (FieldSpec.placed t.specs) word env)
    (hbound' : FieldsBound (FieldSpec.placed t.specs) word' env')
    (hget : env.get? = env'.get?) : word = word' := by
  refine BitVec.eq_of_getMsbD_eq fun k hk => ?_
  have hcovered : k < 0 + FieldSpec.totalWidth t.specs := by
    rw [t.covers, wordBits]
    omega
  obtain ⟨offset, spec, hmem, hle, hlt⟩ := FieldSpec.exists_item_of_lt (Nat.zero_le k) hcovered
  cases spec with
  | literal bit parenthesized =>
      have hoffset : k = offset := by
        simp only [FieldSpec.width] at hlt
        omega
      rw [hoffset, hliterals _ _ _ hmem, hliterals' _ _ _ hmem]
  | field id width =>
      obtain ⟨b, hb, hslice⟩ := hbound.slice hnodup hmem
      obtain ⟨b', hb', hslice'⟩ := hbound'.slice hnodup hmem
      have hsame : b = b' := by
        rw [hget, hb'] at hb
        simpa using hb.symm
      have hdigits : wordDigits word offset width = wordDigits word' offset width := by
        rw [← hslice.digits, ← hslice'.digits, hsame]
      have hbit := wordDigits_eq_iff.mp hdigits (k - offset) (by
        simp only [FieldSpec.width] at hlt
        omega)
      rwa [show offset + (k - offset) = k by omega] at hbit

/-- The word of an assignment matches and fills the fields as the assignment does. -/
theorem get?_bind_wordOf (names : NameResolution) (hnodup : (FieldSpec.fieldNames t.specs).Nodup)
    (hassigns : Assigns t.specs assignment) :
    (t.bind (wordOf assignment t) (.empty names)).2.get? = assignment := by
  have hbound := fieldsBound_bind names (literalsMatch_wordOf assignment t)
  funext id
  by_cases hid : ∃ width, .field id width ∈ t.specs
  · obtain ⟨width, hmem⟩ := hid
    obtain ⟨b, hassign, hb, hconcrete, hwidth⟩ := hassigns.bound id width hmem
    obtain ⟨offset, hplaced⟩ := FieldSpec.exists_mem_placedFrom 0 hmem
    obtain ⟨b', hget, hslice'⟩ := hbound.slice hnodup hplaced
    have hslice := isSlice_wordOf assignment hplaced hassign hb hconcrete hwidth
    have hsame : b' = b := by
      refine Bits.eq_of_digits_eq hslice'.wellFormed hb ?_
      rw [hslice'.digits, hslice.digits]
    rw [hget, hassign, hsame]
  · have hnone : ∀ width, .field id width ∉ t.specs := fun width hmem => hid ⟨width, hmem⟩
    rw [hassigns.unbound id hnone]
    exact hbound.unbound id fun _ width hmem => hnone width (FieldSpec.mem_of_mem_placedFrom hmem)

theorem cutInRange {offset : Nat} {spec : FieldSpec} (hpos : 1 ≤ spec.width)
    (hend : offset + spec.width ≤ wordBits) : CutInRange offset spec.width := by
  unfold CutInRange wordBits at *
  omega

/-- **Matching a word against a layout read from text.** All items are cut out in range; a word
matches exactly if it has the fixed bits, and then the fields are bound to their slices of it; and
when no two fields share a name, matching words correspond one to one to the assignments of a vector
to every field. Environments count as the assignments that `get?` reads off them. -/
theorem bind_of_ofLayout {name : String} {layout : List Char} {program : Program Span}
    (ht : ofLayout name layout program = .ok t) (names : NameResolution) :
    (∀ offset spec, (offset, spec) ∈ FieldSpec.placed t.specs → CutInRange offset spec.width) ∧
    (∀ word : BitVec 32,
      ((t.bind word (.empty names)).1 = true ↔ LiteralsMatch (FieldSpec.placed t.specs) word) ∧
      (LiteralsMatch (FieldSpec.placed t.specs) word →
        FieldsBound (FieldSpec.placed t.specs) word (t.bind word (.empty names)).2)) ∧
    ((FieldSpec.fieldNames t.specs).Nodup →
      Set.BijOn (fun word => (t.bind word (.empty names)).2.get?)
        {word | (t.bind word (.empty names)).1 = true}
        {assignment | Assigns t.specs assignment}) := by
  refine ⟨fun offset spec hmem => ?_, fun word => ⟨bind_fst names, fieldsBound_bind names⟩,
    fun hnodup => ⟨?_, ?_, ?_⟩⟩
  · have hpos := width_pos_of_ofLayout ht (FieldSpec.mem_of_mem_placedFrom hmem)
    exact cutInRange hpos (end_le_wordBits hmem)
  · intro word hword
    exact (fieldsBound_bind names ((bind_fst names).mp hword)).assigns hnodup
  · intro word hword word' hword' hget
    have hliterals := (bind_fst names).mp hword
    have hliterals' := (bind_fst names).mp hword'
    exact eq_of_get?_eq hnodup hliterals hliterals' (fieldsBound_bind names hliterals)
      (fieldsBound_bind names hliterals') hget
  · intro assignment hassigns
    refine ⟨wordOf assignment t, (bind_fst names).mpr (literalsMatch_wordOf assignment t), ?_⟩
    exact get?_bind_wordOf assignment names hnodup hassigns

def branchTemplate : Template where
  name := "B"
  specs := [.field "cond" 4, .literal false false, .literal true true, .field "S" 1,
    .field "imm" 25]
  program := .empty
  covers := by decide

theorem branchTemplate_bind :
    ofLayout "B" "cond:4|0|(1)|S|imm: +25".toList .empty = .ok branchTemplate ∧
      (branchTemplate.bind 0xE6000003 (.empty .strict)).1 = true ∧
      (branchTemplate.bind 0xEE000003 (.empty .strict)).1 = false ∧
      Set.BijOn (fun word => (branchTemplate.bind word (.empty .strict)).2.get?)
        {word | (branchTemplate.bind word (.empty .strict)).1 = true}
        {assignment | Assigns branchTemplate.specs assignment} := by
  have ht : ofLayout "B" "cond:4|0|(1)|S|imm: +25".toList .empty = .ok branchTemplate := by rfl
  have hnodup : (FieldSpec.fieldNames branchTemplate.specs).Nodup := by decide
  exact ⟨ht, by rfl, by rfl, (bind_of_ofLayout ht .strict).2.2 hnodup⟩

end Template

end ArmPseudocode

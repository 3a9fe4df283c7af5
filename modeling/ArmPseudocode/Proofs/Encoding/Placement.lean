import ArmPseudocode.Encoding.Template

/-!
# Where the items of a layout lie

Items lie one behind another, the first at the most significant bit, so an item's offset is the
number of bits in front of it. Every item lies inside the word, every bit of the word lies in an
item, and a layout read from text has no item of width zero. The arithmetic that cuts a field out of
a word needs no more than that.
-/

namespace ArmPseudocode

namespace FieldSpec

def placedFrom : Nat → List FieldSpec → List (Nat × FieldSpec)
  | _, [] => []
  | start, spec :: specs => (start, spec) :: placedFrom (start + spec.width) specs

/-- The items of a layout with their offsets, counted from the most significant bit. -/
def placed (specs : List FieldSpec) : List (Nat × FieldSpec) :=
  placedFrom 0 specs

def fieldNames : List FieldSpec → List String
  | [] => []
  | .literal _ _ :: specs => fieldNames specs
  | .field id _ :: specs => id :: fieldNames specs

variable {specs : List FieldSpec} {start offset : Nat} {spec : FieldSpec}

@[simp] theorem totalWidth_nil : totalWidth [] = 0 := rfl

@[simp] theorem totalWidth_cons (spec : FieldSpec) (specs : List FieldSpec) :
    totalWidth (spec :: specs) = spec.width + totalWidth specs := rfl

theorem totalWidth_append (specs specs' : List FieldSpec) :
    totalWidth (specs ++ specs') = totalWidth specs + totalWidth specs' := by
  induction specs with
  | nil => rw [List.nil_append, totalWidth_nil, Nat.zero_add]
  | cons spec specs ih => rw [List.cons_append, totalWidth_cons, ih, totalWidth_cons, Nat.add_assoc]

theorem mem_placedFrom : (offset, spec) ∈ placedFrom start specs ↔
    ∃ before after, specs = before ++ spec :: after ∧ offset = start + totalWidth before := by
  induction specs generalizing start with
  | nil => simp [placedFrom]
  | cons first rest ih =>
      rw [placedFrom, List.mem_cons, Prod.mk.injEq, ih]
      constructor
      · rintro (⟨rfl, rfl⟩ | ⟨before, after, rfl, rfl⟩)
        · exact ⟨[], rest, rfl, rfl⟩
        · exact ⟨first :: before, after, rfl, by rw [totalWidth_cons, Nat.add_assoc]⟩
      · rintro ⟨before, after, hspecs, rfl⟩
        cases before with
        | nil =>
            cases hspecs
            exact .inl ⟨rfl, rfl⟩
        | cons spec before =>
            cases hspecs
            exact .inr ⟨before, after, rfl, by rw [totalWidth_cons, Nat.add_assoc]⟩

theorem mem_of_mem_placedFrom (h : (offset, spec) ∈ placedFrom start specs) : spec ∈ specs := by
  obtain ⟨before, after, rfl, -⟩ := mem_placedFrom.mp h
  exact List.mem_append_right _ List.mem_cons_self

theorem exists_mem_placedFrom (start : Nat) (h : spec ∈ specs) :
    ∃ offset, (offset, spec) ∈ placedFrom start specs := by
  obtain ⟨before, after, rfl⟩ := List.mem_iff_append.mp h
  exact ⟨_, mem_placedFrom.mpr ⟨before, after, rfl, rfl⟩⟩

theorem start_le_of_mem (h : (offset, spec) ∈ placedFrom start specs) : start ≤ offset := by
  obtain ⟨before, -, -, rfl⟩ := mem_placedFrom.mp h
  exact Nat.le_add_right _ _

theorem end_le_of_mem (h : (offset, spec) ∈ placedFrom start specs) :
    offset + spec.width ≤ start + totalWidth specs := by
  obtain ⟨before, after, rfl, rfl⟩ := mem_placedFrom.mp h
  rw [totalWidth_append, totalWidth_cons]
  omega

theorem exists_item_of_lt {k : Nat} (hstart : start ≤ k) (hk : k < start + totalWidth specs) :
    ∃ offset spec, (offset, spec) ∈ placedFrom start specs ∧ offset ≤ k ∧
      k < offset + spec.width := by
  induction specs generalizing start with
  | nil =>
      rw [totalWidth_nil] at hk
      omega
  | cons first rest ih =>
      rw [totalWidth_cons] at hk
      rcases Nat.lt_or_ge k (start + first.width) with hlt | hge
      · exact ⟨start, first, List.mem_cons_self, hstart, hlt⟩
      · obtain ⟨offset, spec, hmem, hle, hlt⟩ := ih hge (by omega)
        exact ⟨offset, spec, List.mem_cons_of_mem _ hmem, hle, hlt⟩

/-! ### Fields -/

theorem mem_fieldNames {id : String} {width : Nat} (h : .field id width ∈ specs) :
    id ∈ fieldNames specs := by
  induction specs with
  | nil => simp at h
  | cons first rest ih =>
      rcases List.mem_cons.mp h with rfl | hrest
      · exact List.mem_cons_self
      · cases first with
        | literal _ _ => exact ih hrest
        | field _ _ => exact List.mem_cons_of_mem _ (ih hrest)

/-- When no two fields share a name, the name leads to one place. -/
theorem unique_of_nodup (hnodup : (fieldNames specs).Nodup) {id : String}
    {offset offset' width width' : Nat} (h : (offset, .field id width) ∈ placedFrom start specs)
    (h' : (offset', .field id width') ∈ placedFrom start specs) :
    offset = offset' ∧ width = width' := by
  induction specs generalizing start with
  | nil => simp [placedFrom] at h
  | cons first rest ih =>
      simp only [placedFrom, List.mem_cons, Prod.mk.injEq] at h h'
      cases first with
      | literal _ _ =>
          simp only [reduceCtorEq, and_false, false_or] at h h'
          exact ih hnodup h h'
      | field other w =>
          obtain ⟨hfresh, hrest⟩ := List.nodup_cons.mp hnodup
          rcases h with ⟨rfl, hfirst⟩ | h
          · simp only [field.injEq] at hfirst
            rcases h' with ⟨rfl, hfirst'⟩ | h'
            · simp only [field.injEq] at hfirst'
              exact ⟨rfl, hfirst.2.trans hfirst'.2.symm⟩
            · exact absurd (hfirst.1 ▸ mem_fieldNames (mem_of_mem_placedFrom h')) hfresh
          · rcases h' with ⟨rfl, hfirst'⟩ | h'
            · simp only [field.injEq] at hfirst'
              exact absurd (hfirst'.1 ▸ mem_fieldNames (mem_of_mem_placedFrom h)) hfresh
            · exact ih hrest h h'

/-! ### Layouts read from text -/

theorem width_pos_of_named {item id : List Char} {width : Nat}
    (h : named item id width = .ok spec) : 1 ≤ spec.width := by
  unfold named at h
  split at h
  · simp at h
  · split at h
    · simp at h
    · next hwidth =>
        simp only [Except.ok.injEq] at h
        subst h
        exact Nat.one_le_iff_ne_zero.mpr hwidth

theorem width_pos_of_read {item : List Char} (h : read item = .ok spec) : 1 ≤ spec.width := by
  unfold read at h
  split at h
  · cases h; exact Nat.le_refl _
  · cases h; exact Nat.le_refl _
  · cases h; exact Nat.le_refl _
  · cases h; exact Nat.le_refl _
  · unfold readField at h
    split at h
    · exact width_pos_of_named h
    · split at h
      · exact width_pos_of_named h
      · simp at h

theorem width_pos_of_mapM_read {items : List (List Char)} (h : items.mapM read = .ok specs)
    (hmem : spec ∈ specs) : 1 ≤ spec.width := by
  induction items generalizing specs with
  | nil =>
      cases h
      simp at hmem
  | cons item items ih =>
      rw [List.mapM_cons] at h
      cases hitem : read item with
      | error e => rw [hitem] at h; cases h
      | ok first =>
          cases hrest : items.mapM read with
          | error e => rw [hitem, hrest] at h; cases h
          | ok rest =>
              rw [hitem, hrest] at h
              cases h
              rcases List.mem_cons.mp hmem with rfl | hmem
              · exact width_pos_of_read hitem
              · exact ih hrest hmem

end FieldSpec

namespace Template

variable {t : Template} {offset : Nat} {spec : FieldSpec}

theorem end_le_wordBits (h : (offset, spec) ∈ FieldSpec.placed t.specs) :
    offset + spec.width ≤ wordBits := by
  have := FieldSpec.end_le_of_mem h
  rw [t.covers] at this
  omega

theorem width_pos_of_ofLayout {name : String} {layout : List Char} {program : Program Span}
    (ht : ofLayout name layout program = .ok t) (hmem : spec ∈ t.specs) : 1 ≤ spec.width := by
  unfold ofLayout at ht
  cases hread : FieldSpec.readAll layout with
  | error e => rw [hread] at ht; cases ht
  | ok specs =>
      rw [hread] at ht
      change ofSpecs name specs program = .ok t at ht
      unfold ofSpecs at ht
      split at ht
      · cases ht
        exact FieldSpec.width_pos_of_mapM_read hread hmem
      · cases ht

end Template

end ArmPseudocode

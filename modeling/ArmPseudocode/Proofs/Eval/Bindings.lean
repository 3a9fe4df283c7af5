import ArmPseudocode.Eval.Environment

/-!
# What is bound after binding

An environment is read through `get?` alone: what a name is bound to after one binding, after one
field, and after a row of fields. How the bindings are kept does not show. A row of fields binds a
name to the one value it pairs the name with, or to the mark of inconsistency when it pairs the name
with two; the order of the row does not matter.
-/

namespace ArmPseudocode

namespace Environment

theorem lookup_update (id : String) (v : Value) (bindings : List (String × Value))
    (other : String) :
    (update id v bindings).lookup other = if other = id then some v else bindings.lookup other := by
  induction bindings with
  | nil =>
      by_cases h : other = id
      · simp [update, h]
      · have hne : (other == id) = false := beq_eq_false_iff_ne.mpr h
        simp [update, List.lookup_cons, hne, h]
  | cons entry rest ih =>
      obtain ⟨bound, w⟩ := entry
      by_cases hbound : bound = id
      · subst hbound
        rw [update, if_pos rfl]
        by_cases h : other = bound
        · simp [h]
        · have hne : (other == bound) = false := beq_eq_false_iff_ne.mpr h
          simp [List.lookup_cons, hne, h]
      · rw [update, if_neg hbound, List.lookup_cons, ih, List.lookup_cons]
        by_cases h : other = bound
        · simp [h, hbound]
        · have hne : (other == bound) = false := beq_eq_false_iff_ne.mpr h
          simp [hne]

@[simp] theorem get?_empty (names : NameResolution) (id : String) :
    (empty names).get? id = none := rfl

theorem get?_bind (env : Environment) (id : String) (v : Value) (other : String) :
    (env.bind id v).get? other = if other = id then some v else env.get? other :=
  lookup_update id v env.bindings other

/-- What a name stands for hangs on its binding and on the rule for unbound names alone. -/
theorem lookup_congr {env env' : Environment} {id : String} (hnames : env.names = env'.names)
    (hget : env.get? id = env'.get? id) : env.lookup id = env'.lookup id := by
  simp only [lookup, hget, hnames]

/-! ### Fields -/

/-- What a name that may be bound already is bound to once a field has given it a value. -/
def merged : Option Value → Value → Value
  | none, v => v
  | some old, v => if old = v then v else .inconsistent

theorem merged_self (v : Value) : merged (some v) v = v := if_pos rfl

theorem merged_of_ne {old v : Value} (h : old ≠ v) : merged (some old) v = .inconsistent := if_neg h

theorem merged_inconsistent (v : Value) : merged (some .inconsistent) v = .inconsistent := by
  by_cases h : Value.inconsistent = v
  · rw [← h, merged_self]
  · exact merged_of_ne h

theorem get?_bindField (env : Environment) (id : String) (v : Value) (other : String) :
    (env.bindField id v).get? other =
      if other = id then some (merged (env.get? id) v) else env.get? other := by
  unfold bindField
  cases hold : env.get? id with
  | none => exact get?_bind env id v other
  | some old =>
      by_cases hv : old = v
      · have hkeep : (if other = id then some old else env.get? other) = env.get? other := by
          split
          · next h => rw [h, hold]
          · rfl
        subst hv
        cases old <;> simpa only [merged, if_true] using hkeep.symm
      · cases old with
        | inconsistent =>
            simp only [merged, if_neg hv]
            split
            · next h => rw [h, hold]
            · rfl
        | _ => simp only [merged, if_neg hv, get?_bind]

@[simp] theorem names_bindField (env : Environment) (id : String) (v : Value) :
    (env.bindField id v).names = env.names := by
  unfold bindField
  split
  · rfl
  · rfl
  · split <;> rfl

def bindFields (env : Environment) (fields : List (String × Value)) : Environment :=
  fields.foldl (fun env field => env.bindField field.1 field.2) env

theorem bindFields_cons (env : Environment) (field : String × Value)
    (fields : List (String × Value)) :
    env.bindFields (field :: fields) = (env.bindField field.1 field.2).bindFields fields := rfl

@[simp] theorem names_bindFields (env : Environment) (fields : List (String × Value)) :
    (env.bindFields fields).names = env.names := by
  induction fields generalizing env with
  | nil => rfl
  | cons field fields ih => rw [bindFields_cons, ih, names_bindField]

theorem get?_bindFields_of_not_mem (env : Environment) {fields : List (String × Value)}
    {id : String} (hid : ∀ v, (id, v) ∉ fields) :
    (env.bindFields fields).get? id = env.get? id := by
  induction fields generalizing env with
  | nil => rfl
  | cons field fields ih =>
      have hne : id ≠ field.1 := fun h => hid field.2 (by simp [h])
      rw [bindFields_cons, ih _ fun v hv => hid v (List.mem_cons_of_mem _ hv), get?_bindField,
        if_neg hne]

/-- A name that is bound already keeps its value when no field changes it. -/
theorem get?_bindFields_of_merged {env : Environment} {fields : List (String × Value)} {id : String}
    {u : Value} (hu : env.get? id = some u)
    (hkeep : ∀ v, (id, v) ∈ fields → merged (some u) v = u) :
    (env.bindFields fields).get? id = some u := by
  induction fields generalizing env with
  | nil => exact hu
  | cons field fields ih =>
      obtain ⟨other, v⟩ := field
      refine ih ?_ fun w hw => hkeep w (List.mem_cons_of_mem _ hw)
      rw [get?_bindField]
      split
      · next h => rw [← h, hu, hkeep v (by simp [h])]
      · exact hu

theorem get?_bindFields_of_inconsistent {env : Environment} (fields : List (String × Value))
    {id : String} (hu : env.get? id = some .inconsistent) :
    (env.bindFields fields).get? id = some .inconsistent :=
  get?_bindFields_of_merged hu fun v _ => merged_inconsistent v

/-- One field with another value than the one bound makes the name inconsistent. -/
theorem get?_bindFields_of_ne {env : Environment} {fields : List (String × Value)} {id : String}
    {u w : Value} (hu : env.get? id = some u) (hw : (id, w) ∈ fields) (hne : u ≠ w) :
    (env.bindFields fields).get? id = some .inconsistent := by
  induction fields generalizing env with
  | nil => simp at hw
  | cons field fields ih =>
      obtain ⟨other, v⟩ := field
      rw [bindFields_cons]
      by_cases hid : id = other
      · subst hid
        have hhead : (env.bindField id v).get? id = some (merged (some u) v) := by
          rw [get?_bindField, if_pos rfl, hu]
        by_cases hv : u = v
        · have htail : (id, w) ∈ fields := by
            have hdiff : (id, w) ≠ (id, v) := fun h => hne (by simpa [hv] using h.symm)
            simpa [hdiff] using hw
          rw [← hv, merged_self] at hhead
          rw [← hv]
          exact ih hhead htail
        · rw [merged_of_ne hv] at hhead
          exact get?_bindFields_of_inconsistent fields hhead
      · have hhead : (env.bindField other v).get? id = some u := by
          rw [get?_bindField, if_neg hid, hu]
        have htail : (id, w) ∈ fields := by simpa [hid] using hw
        exact ih hhead htail

/-- A name not bound before, which the fields give one value, is bound to it. -/
theorem get?_bindFields_of_unique {env : Environment} {fields : List (String × Value)} {id : String}
    {v : Value} (hnone : env.get? id = none) (hv : (id, v) ∈ fields)
    (honly : ∀ w, (id, w) ∈ fields → w = v) : (env.bindFields fields).get? id = some v := by
  induction fields generalizing env with
  | nil => simp at hv
  | cons field fields ih =>
      obtain ⟨other, w⟩ := field
      have hrest : ∀ u, (id, u) ∈ fields → u = v := fun u hu => honly u (List.mem_cons_of_mem _ hu)
      rw [bindFields_cons]
      by_cases hid : id = other
      · subst hid
        have hw : w = v := honly w List.mem_cons_self
        have hhead : (env.bindField id w).get? id = some v := by
          rw [get?_bindField, if_pos rfl, hnone, merged, hw]
        refine get?_bindFields_of_merged hhead fun u hu => ?_
        rw [hrest u hu, merged_self]
      · have hhead : (env.bindField other w).get? id = none := by
          rw [get?_bindField, if_neg hid, hnone]
        exact ih hhead (by simpa [hid] using hv) hrest

/-- A name not bound before, which the fields give two values, is inconsistent. -/
theorem get?_bindFields_of_two {env : Environment} {fields : List (String × Value)} {id : String}
    {v w : Value} (hnone : env.get? id = none) (hv : (id, v) ∈ fields) (hw : (id, w) ∈ fields)
    (hne : v ≠ w) : (env.bindFields fields).get? id = some .inconsistent := by
  induction fields generalizing env with
  | nil => simp at hv
  | cons field fields ih =>
      obtain ⟨other, u⟩ := field
      rw [bindFields_cons]
      by_cases hid : id = other
      · subst hid
        have hhead : (env.bindField id u).get? id = some u := by
          rw [get?_bindField, if_pos rfl, hnone, merged]
        simp only [List.mem_cons, Prod.mk.injEq, true_and] at hv hw
        rcases hv with rfl | hv
        · rcases hw with rfl | hw
          · exact absurd rfl hne
          · exact get?_bindFields_of_ne hhead hw hne
        · by_cases hu : u = v
          · subst hu
            rcases hw with rfl | hw
            · exact absurd rfl hne
            · exact get?_bindFields_of_ne hhead hw hne
          · exact get?_bindFields_of_ne hhead hv hu
      · have hhead : (env.bindField other u).get? id = none := by
          rw [get?_bindField, if_neg hid, hnone]
        exact ih hhead (by simpa [hid] using hv) (by simpa [hid] using hw)

end Environment

end ArmPseudocode

import ArmPseudocode.Eval.Expr
import ArmPseudocode.Proofs.Eval.Bindings
import Mathlib.Data.List.Nodup

/-!
# Fields as a set of pairs

A field can occur more than once in an encoding, and its occurrences are bound one after another.
What they leave behind in an environment without bindings is a matter of the set of their pairs: the
order in which they come and how often each of them comes do not show. The bindings themselves are
kept in a list, and two lists that bind alike differ in their order at most, since no name is bound
twice. A body asks about the set with `Consistent`, which says whether a field has one value only.
-/

namespace ArmPseudocode

namespace Environment

variable {env env' : Environment} {fields fields' : List (String × Value)} {id : String} {v : Value}

/-! ### Every name once -/

/-- No name has two bindings. -/
def BindsOnce (env : Environment) : Prop :=
  (env.bindings.map Prod.fst).Nodup

theorem map_fst_update (id : String) (v : Value) (bindings : List (String × Value)) :
    (update id v bindings).map Prod.fst =
      if id ∈ bindings.map Prod.fst then bindings.map Prod.fst
      else bindings.map Prod.fst ++ [id] := by
  induction bindings with
  | nil => rfl
  | cons entry rest ih =>
      obtain ⟨bound, w⟩ := entry
      by_cases hbound : bound = id
      · simp [update, hbound]
      · rw [update, if_neg hbound, List.map_cons, List.map_cons, ih]
        by_cases hrest : id ∈ rest.map Prod.fst
        · rw [if_pos hrest, if_pos (List.mem_cons_of_mem _ hrest)]
        · have hfresh : id ∉ bound :: rest.map Prod.fst :=
            List.not_mem_cons_of_ne_of_not_mem (Ne.symm hbound) hrest
          rw [if_neg hrest, if_neg hfresh, List.cons_append]

theorem BindsOnce.bind (h : env.BindsOnce) (id : String) (v : Value) :
    (env.bind id v).BindsOnce := by
  show ((update id v env.bindings).map Prod.fst).Nodup
  rw [map_fst_update]
  split
  · exact h
  · next hfresh => exact List.nodup_append_comm.mp (List.nodup_cons.mpr ⟨hfresh, h⟩)

theorem BindsOnce.bindField (h : env.BindsOnce) (id : String) (v : Value) :
    (env.bindField id v).BindsOnce := by
  unfold Environment.bindField
  split
  · exact h.bind id v
  · exact h
  · split
    · exact h
    · exact h.bind id .inconsistent

theorem BindsOnce.bindFields (h : env.BindsOnce) (fields : List (String × Value)) :
    (env.bindFields fields).BindsOnce := by
  induction fields generalizing env with
  | nil => exact h
  | cons field fields ih => exact ih (h.bindField field.1 field.2)

theorem bindsOnce_of_no_bindings (h : env.bindings = []) : env.BindsOnce := by
  simp [BindsOnce, h]

theorem BindsOnce.get?_eq_some_iff (h : env.BindsOnce) :
    env.get? id = some v ↔ (id, v) ∈ env.bindings := by
  rw [get?, List.lookup_eq_some_iff]
  constructor
  · rintro ⟨front, rest, hsplit, -⟩
    simp [hsplit]
  · intro hmem
    obtain ⟨front, rest, hsplit⟩ := List.append_of_mem hmem
    refine ⟨front, rest, hsplit, fun entry hentry => ?_⟩
    unfold BindsOnce at h
    rw [hsplit, List.map_append, List.map_cons] at h
    have hapart := (List.nodup_append.mp h).2.2 entry.1 (List.mem_map_of_mem hentry) id
      List.mem_cons_self
    simpa using Ne.symm hapart

/-- Environments that bind names alike have the same bindings, in some order. -/
theorem BindsOnce.perm (h : env.BindsOnce) (h' : env'.BindsOnce) (hget : env.get? = env'.get?) :
    env.bindings.Perm env'.bindings := by
  rw [List.perm_ext_iff_of_nodup (List.Nodup.of_map _ h) (List.Nodup.of_map _ h')]
  rintro ⟨id, v⟩
  rw [← h.get?_eq_some_iff, ← h'.get?_eq_some_iff, hget]

/-! ### What a set of fields makes of a name -/

/-- What fields bind a name to when nothing is bound to it before. -/
inductive Settles (fields : List (String × Value)) (id : String) : Option Value → Prop where
  /-- No field has the name. -/
  | unbound (hnone : ∀ v, (id, v) ∉ fields) : Settles fields id none
  /-- All fields of the name have one value. -/
  | agreed {v : Value} (hv : (id, v) ∈ fields) (honly : ∀ w, (id, w) ∈ fields → w = v) :
    Settles fields id (some v)
  /-- Two fields of the name differ. -/
  | clashing {v w : Value} (hv : (id, v) ∈ fields) (hw : (id, w) ∈ fields) (hne : v ≠ w) :
    Settles fields id (some .inconsistent)

theorem exists_settles (fields : List (String × Value)) (id : String) :
    ∃ bound, Settles fields id bound := by
  by_cases hnone : ∀ v, (id, v) ∉ fields
  · exact ⟨none, .unbound hnone⟩
  · obtain ⟨v, hv⟩ := not_forall_not.mp hnone
    by_cases honly : ∀ w, (id, w) ∈ fields → w = v
    · exact ⟨some v, .agreed hv honly⟩
    · obtain ⟨w, hother⟩ := not_forall.mp honly
      obtain ⟨hw, hne⟩ := Classical.not_imp.mp hother
      exact ⟨some .inconsistent, .clashing hw hv hne⟩

theorem Settles.congr {bound : Option Value} (h : Settles fields id bound)
    (hsame : ∀ field, field ∈ fields ↔ field ∈ fields') : Settles fields' id bound := by
  cases h with
  | unbound hnone => exact .unbound fun v hv => hnone v ((hsame _).mpr hv)
  | agreed hv honly => exact .agreed ((hsame _).mp hv) fun w hw => honly w ((hsame _).mpr hw)
  | clashing hv hw hne => exact .clashing ((hsame _).mp hv) ((hsame _).mp hw) hne

theorem get?_of_settles {bound : Option Value} (hid : env.get? id = none)
    (h : Settles fields id bound) : (env.bindFields fields).get? id = bound := by
  cases h with
  | unbound hnone => rw [get?_bindFields_of_not_mem env hnone, hid]
  | agreed hv honly => exact get?_bindFields_of_unique hid hv honly
  | clashing hv hw hne => exact get?_bindFields_of_two hid hv hw hne

theorem get?_bindFields_iff {bound : Option Value} (hid : env.get? id = none) :
    (env.bindFields fields).get? id = bound ↔ Settles fields id bound := by
  refine ⟨fun hget => ?_, get?_of_settles hid⟩
  obtain ⟨settled, hsettled⟩ := exists_settles fields id
  rw [get?_of_settles hid hsettled] at hget
  exact hget ▸ hsettled

theorem get?_of_no_bindings (h : env.bindings = []) (id : String) : env.get? id = none := by
  rw [get?, h]
  rfl

/-- **Fields in any order.** Fields bound in an environment without bindings bind every name as the
set of their pairs settles it, to nothing else and at most once. Other fields with the same pairs,
in whatever order and however often each, leave the same bindings, and every name stands for the
same. -/
theorem bindFields_of_pairs (hempty : env.bindings = []) (fields : List (String × Value)) :
    (∀ id bound, (env.bindFields fields).get? id = bound ↔ Settles fields id bound) ∧
    (env.bindFields fields).BindsOnce ∧
    ∀ fields', (∀ field, field ∈ fields ↔ field ∈ fields') →
      (env.bindFields fields).bindings.Perm (env.bindFields fields').bindings ∧
      (env.bindFields fields).get? = (env.bindFields fields').get? ∧
      (env.bindFields fields).lookup = (env.bindFields fields').lookup := by
  have hunbound := get?_of_no_bindings hempty
  have honce := bindsOnce_of_no_bindings hempty
  refine ⟨fun id bound => get?_bindFields_iff (hunbound id), honce.bindFields fields,
    fun fields' hsame => ?_⟩
  have hget : (env.bindFields fields).get? = (env.bindFields fields').get? := by
    funext id
    obtain ⟨bound, hbound⟩ := exists_settles fields id
    rw [get?_of_settles (hunbound id) hbound, get?_of_settles (hunbound id) (hbound.congr hsame)]
  refine ⟨(honce.bindFields fields).perm (honce.bindFields fields') hget, hget, ?_⟩
  funext id
  exact lookup_congr (by rw [names_bindFields, names_bindFields]) (congrFun hget id)

def occurrences : List (String × Value) :=
  [("Rd", .bits ⟨4, 3, 0⟩), ("S", .bits ⟨1, 1, 0⟩), ("Rd", .bits ⟨4, 5, 0⟩),
    ("Rd", .bits ⟨4, 3, 0⟩), ("S", .bits ⟨1, 1, 0⟩)]

def shuffledOccurrences : List (String × Value) :=
  [("Rd", .bits ⟨4, 5, 0⟩), ("Rd", .bits ⟨4, 5, 0⟩), ("S", .bits ⟨1, 1, 0⟩),
    ("Rd", .bits ⟨4, 3, 0⟩)]

theorem occurrences_pairs :
    (empty .strict).bindings = [] ∧
    (∀ field, field ∈ occurrences ↔ field ∈ shuffledOccurrences) ∧
    ((empty .strict).bindFields occurrences).get? "Rd" = some .inconsistent ∧
    ((empty .strict).bindFields occurrences).get? "S" = some (.bits ⟨1, 1, 0⟩) ∧
    ((empty .strict).bindFields occurrences).get? "Rm" = none ∧
    ((empty .strict).bindFields occurrences).bindings.Perm
      ((empty .strict).bindFields shuffledOccurrences).bindings ∧
    ((empty .strict).bindFields occurrences).lookup =
      ((empty .strict).bindFields shuffledOccurrences).lookup := by
  have hempty : (empty .strict).bindings = [] := rfl
  have hsame : ∀ field, field ∈ occurrences ↔ field ∈ shuffledOccurrences := by
    intro field
    simp only [occurrences, shuffledOccurrences, List.mem_cons, List.not_mem_nil, or_false]
    tauto
  obtain ⟨hsettled, -, hpairs⟩ := bindFields_of_pairs hempty occurrences
  obtain ⟨hperm, -, hlookup⟩ := hpairs shuffledOccurrences hsame
  refine ⟨hempty, hsame, (hsettled _ _).mpr ?_, (hsettled _ _).mpr ?_, (hsettled _ _).mpr ?_, hperm,
    hlookup⟩
  · exact .clashing (v := .bits ⟨4, 3, 0⟩) (w := .bits ⟨4, 5, 0⟩) (by decide) (by decide)
      (by decide)
  · exact .agreed (by decide) fun w hw => by simpa [occurrences] using hw
  · exact .unbound fun w => by simp [occurrences]

/-! ### Asking whether a field is consistent -/

/-- `Consistent` says of a field whether it has one value wherever it occurs. None of the values
may be the mark of inconsistency itself, as none that is cut out of a word is. -/
theorem eval_consistent {α : Type} (ann ann' : α) (hempty : env.bindings = [])
    (hproper : (id, .inconsistent) ∉ fields) (hfree : ∀ w, ("Consistent", w) ∉ fields)
    (hv : (id, v) ∈ fields) :
    ∃ answer, (Expr.call ann "Consistent" [.name ann' id]).eval (env.bindFields fields) =
        .ok (.bool answer) ∧
      (answer = true ↔ ∀ w, (id, w) ∈ fields → w = v) := by
  have hunbound := get?_of_no_bindings hempty
  have hcallee : (env.bindFields fields).lookup "Consistent" = .ok (.func .consistent) := by
    rw [lookup, get?_of_settles (hunbound _) (.unbound hfree)]
    rfl
  have hargument {u : Value} (hu : (env.bindFields fields).get? id = some u) :
      (Expr.call ann "Consistent" [.name ann' id]).eval (env.bindFields fields) =
        .ok (.bool (u ≠ .inconsistent)) := by
    have hname : (env.bindFields fields).lookup id = .ok u := by rw [lookup, hu]
    simp only [Expr.eval, Expr.evalAll, hname, hcallee]
    rfl
  obtain ⟨bound, hbound⟩ := exists_settles fields id
  have hget := get?_of_settles (hunbound id) hbound
  cases hbound with
  | unbound hnone => exact absurd hv (hnone v)
  | @agreed u hu honly =>
      refine ⟨_, hargument hget, ?_⟩
      have hne : u ≠ .inconsistent := fun h => hproper (h ▸ hu)
      simpa [hne, honly v hv] using honly
  | @clashing u w hu hw hne =>
      refine ⟨_, hargument hget, ?_⟩
      have hdiffer : ¬ ∀ x, (id, x) ∈ fields → x = v := fun h =>
        hne ((h u hu).trans (h w hw).symm)
      simpa using hdiffer

end Environment

end ArmPseudocode

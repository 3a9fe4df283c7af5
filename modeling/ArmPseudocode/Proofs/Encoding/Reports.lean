import ArmPseudocode.Encoding.Check

/-!
# Reports put together from checks

The report on a template is what the single checks of the words say, in the order of the words: a
report on words in two parts is the reports on the parts joined. So the reports of a batch have
nothing to do with each other, and each of them can be read off the checks of its own template.
-/

namespace ArmPseudocode

namespace Template

/-- The defect in which the check of a word ends, if it ends in one. -/
def defectOn? (config : EvalConfig) (t : Template) (word : BitVec 32) : Option Defect :=
  match t.check config word with
  | .ok _ => none
  | .error e => some ⟨word, e⟩

variable {config : EvalConfig} {t : Template} {word : BitVec 32}

theorem defectOn?_eq_some_iff {d : Defect} :
    t.defectOn? config word = some d ↔
      d.word = word ∧ t.check config word = .error d.error := by
  obtain ⟨word', e⟩ := d
  rw [defectOn?]
  cases hcheck : t.check config word with
  | ok verdict => simp
  | error e' => simp [eq_comm]

theorem defectOn?_eq_none_iff :
    t.defectOn? config word = none ↔ ∃ verdict, t.check config word = .ok verdict := by
  rw [defectOn?]
  cases hcheck : t.check config word with
  | ok verdict => simp
  | error e => simp

end Template

namespace TemplateReport

/-- Two reports on one template as a report on the words of both, those of the first in front. -/
def append (r r' : TemplateReport) : TemplateReport where
  name := r.name
  validWords := r.validWords ++ r'.validWords
  defectiveWords := r.defectiveWords + r'.defectiveWords
  defect := r.defect <|> r'.defect

variable {config : EvalConfig} {t : Template} {words : List (BitVec 32)}

@[simp] theorem append_empty (r : TemplateReport) (name : String) : r.append (empty name) = r := by
  simp [append, empty]

theorem record_append (r r' : TemplateReport) (word : BitVec 32)
    (x : Except EvalError Verdict) :
    (r.append r').record word x = r.append (r'.record word x) := by
  cases x with
  | ok verdict =>
      rw [record, record]
      split
      · simp [append]
      · rfl
  | error e => simp [record, append, Nat.add_assoc]

theorem foldl_record_append (config : EvalConfig) (t : Template) (words : List (BitVec 32))
    (r r' : TemplateReport) :
    words.foldl (fun r word => r.record word (t.check config word)) (r.append r') =
      r.append (words.foldl (fun r word => r.record word (t.check config word)) r') := by
  induction words generalizing r' with
  | nil => rfl
  | cons word words ih => rw [List.foldl_cons, List.foldl_cons, record_append, ih]

theorem ofWords_append (config : EvalConfig) (t : Template) (words words' : List (BitVec 32)) :
    ofWords config t (words ++ words') =
      (ofWords config t words).append (ofWords config t words') := by
  calc ofWords config t (words ++ words')
      = words'.foldl (fun r word => r.record word (t.check config word))
          ((ofWords config t words).append (empty t.name)) := by
        rw [append_empty, ofWords, ofWords, List.foldl_append]
    _ = (ofWords config t words).append (ofWords config t words') :=
        foldl_record_append config t words' _ _

theorem ofWords_cons (config : EvalConfig) (t : Template) (word : BitVec 32)
    (words : List (BitVec 32)) :
    ofWords config t (word :: words) =
      ((empty t.name).record word (t.check config word)).append (ofWords config t words) :=
  ofWords_append config t [word] words

/-! ### The fields of a report -/

theorem name_ofWords (config : EvalConfig) (t : Template) (words : List (BitVec 32)) :
    (ofWords config t words).name = t.name := by
  cases words with
  | nil => rfl
  | cons word words =>
      rw [ofWords_cons, append, record.eq_def]
      split
      · split <;> rfl
      · rfl

theorem validWords_ofWords (config : EvalConfig) (t : Template) (words : List (BitVec 32)) :
    (ofWords config t words).validWords =
      words.filter fun word => (t.check config word).toOption.any Verdict.isValid := by
  induction words with
  | nil => rfl
  | cons word words ih =>
      rw [ofWords_cons, append, ih, List.filter_cons]
      cases t.check config word with
      | ok verdict =>
          cases hvalid : verdict.isValid <;> simp [record, empty, Except.toOption, hvalid]
      | error e => simp [record, empty, Except.toOption]

theorem defectiveWords_ofWords (config : EvalConfig) (t : Template) (words : List (BitVec 32)) :
    (ofWords config t words).defectiveWords =
      words.countP fun word => !(t.check config word).isOk := by
  induction words with
  | nil => rfl
  | cons word words ih =>
      rw [ofWords_cons, append, ih, List.countP_cons]
      cases t.check config word with
      | ok verdict =>
          cases hvalid : verdict.isValid <;>
            simp [record, empty, Except.isOk, Except.toBool, hvalid]
      | error e => simp [record, empty, Except.isOk, Except.toBool, Nat.add_comm]

theorem defect_ofWords (config : EvalConfig) (t : Template) (words : List (BitVec 32)) :
    (ofWords config t words).defect = words.findSome? (t.defectOn? config) := by
  induction words with
  | nil => rfl
  | cons word words ih =>
      rw [ofWords_cons, append, ih, List.findSome?_cons, Template.defectOn?]
      cases t.check config word with
      | ok verdict => cases hvalid : verdict.isValid <;> simp [record, empty, hvalid]
      | error e => simp [record, empty]

/-- The report says of the words what their checks say: which of them are encodings, how many end
in a defect, and which is the first that does. -/
structure ReportsOn (config : EvalConfig) (t : Template) (words : List (BitVec 32))
    (r : TemplateReport) : Prop where
  name : r.name = t.name
  validWords : r.validWords =
    words.filter fun word => (t.check config word).toOption.any Verdict.isValid
  defectiveWords : r.defectiveWords = words.countP fun word => !(t.check config word).isOk
  defect_eq_some_iff : ∀ d : Defect, r.defect = some d ↔ ∃ front behind,
    words = front ++ d.word :: behind ∧ t.check config d.word = .error d.error ∧
      ∀ word ∈ front, ∃ verdict, t.check config word = .ok verdict
  defect_eq_none_iff : r.defect = none ↔
    ∀ word ∈ words, ∃ verdict, t.check config word = .ok verdict

theorem reportsOn_ofWords (config : EvalConfig) (t : Template) (words : List (BitVec 32)) :
    (ofWords config t words).ReportsOn config t words where
  name := name_ofWords config t words
  validWords := validWords_ofWords config t words
  defectiveWords := defectiveWords_ofWords config t words
  defect_eq_some_iff d := by
    rw [defect_ofWords, List.findSome?_eq_some_iff]
    constructor
    · rintro ⟨front, word, behind, rfl, hword, hfront⟩
      obtain ⟨rfl, hcheck⟩ := Template.defectOn?_eq_some_iff.mp hword
      exact ⟨front, behind, rfl, hcheck,
        fun word hmem => Template.defectOn?_eq_none_iff.mp (hfront word hmem)⟩
    · rintro ⟨front, behind, rfl, hcheck, hfront⟩
      exact ⟨front, d.word, behind, rfl, Template.defectOn?_eq_some_iff.mpr ⟨rfl, hcheck⟩,
        fun word hmem => Template.defectOn?_eq_none_iff.mpr (hfront word hmem)⟩
  defect_eq_none_iff := by
    rw [defect_ofWords, List.findSome?_eq_none_iff]
    exact forall₂_congr fun word _ => Template.defectOn?_eq_none_iff

end TemplateReport

namespace BatchReport

/-- A batch has one report for each template, in their order. A report says what the checks of its
own template say and is the same in every batch that has the template, whatever the other templates
are; a batch on words in two parts joins the batches on the parts, report by report. -/
theorem ofBatch_from_checks (config : EvalConfig) (templates : List Template)
    (words : List (BitVec 32)) :
    (ofBatch config templates words).templates.length = templates.length ∧
    (∀ (i : Nat) (t : Template), templates[i]? = some t →
      ∃ r, (ofBatch config templates words).templates[i]? = some r ∧ r.ReportsOn config t words ∧
        ∀ (templates' : List Template) (j : Nat), templates'[j]? = some t →
          (ofBatch config templates' words).templates[j]? = some r) ∧
    (∀ templates' : List Template, templates.Perm templates' →
      (ofBatch config templates words).templates.Perm
        (ofBatch config templates' words).templates) ∧
    ∀ words' : List (BitVec 32), (ofBatch config templates (words ++ words')).templates =
      List.zipWith TemplateReport.append (ofBatch config templates words).templates
        (ofBatch config templates words').templates := by
  refine ⟨List.length_map _, fun i t ht => ?_, fun templates' hperm => hperm.map _,
    fun words' => ?_⟩
  · refine ⟨.ofWords config t words, ?_, TemplateReport.reportsOn_ofWords config t words,
      fun templates' j ht' => ?_⟩
    · rw [ofBatch, List.getElem?_map, ht, Option.map_some]
    · rw [ofBatch, List.getElem?_map, ht', Option.map_some]
  · rw [ofBatch, ofBatch, ofBatch, List.zipWith_map, List.zipWith_self]
    exact List.map_congr_left fun t _ => TemplateReport.ofWords_append config t words words'

def guardedSum : Template where
  name := "S"
  specs := [.field "Rd" 4, .field "rest" 28]
  program :=
    ⟨[.branch .none (.binary .none .equal (.name .none "Rd") (.bitString .none "1111"))
      (.assign .none (.name .none "x") (.binary .none .add (.name .none "Rd") (.int .none 1)))
      [] none]⟩
  covers := by decide

def elsewhere : Template where
  name := "E"
  specs := [.field "Rd" 32]
  program := ⟨[.prose .none .see "another"]⟩
  covers := by decide

theorem guardedSum_from_checks :
    (guardedSum.check {} 0x10000000 = .ok .valid ∧
      (guardedSum.check {} 0xF0000000).isOk = false ∧
      elsewhere.check {} 0x10000000 = .ok .seeOther) ∧
    ((ofBatch {} [elsewhere, guardedSum] [0x10000000, 0xF0000000, 0x10000000]).templates[1]?.map
      fun r => (r.name, r.validWords, r.defectiveWords, r.defect.map Defect.word)) =
        some ("S", [0x10000000, 0x10000000], 1, some 0xF0000000) := by
  refine ⟨⟨by rfl, by rfl, by rfl⟩, ?_⟩
  obtain ⟨-, hreports, -⟩ := ofBatch_from_checks {} [guardedSum]
    [0x10000000, 0xF0000000, 0x10000000]
  obtain ⟨r, hr, -, heverywhere⟩ := hreports 0 guardedSum rfl
  have hhere := heverywhere [elsewhere, guardedSum] 1 rfl
  rw [hhere, ← hr]
  rfl

end BatchReport

end ArmPseudocode

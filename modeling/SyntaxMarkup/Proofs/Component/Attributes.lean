import SyntaxMarkup.Proofs.Component.Runs

namespace SyntaxMarkup

namespace Attributes

/-- What an attribute holds, as far as it is told apart. -/
inductive Content where
  | text (source : String)
  | sourceType (sourceType : SourceType)
  | stylesheet (href : Option String)

/-- The name of the attribute that holds a content. -/
def Content.name : Content → String
  | text _ => "value"
  | sourceType _ => "source-type"
  | stylesheet _ => "stylesheet"

def write (attributes : Attributes) : Content → Attributes
  | .text source => { attributes with value := source }
  | .sourceType sourceType => { attributes with sourceType }
  | .stylesheet href => { attributes with stylesheet := href }

/-- What setting or removing an attribute writes; nothing unless the name is that of an attribute
and the text is one that the attribute takes. -/
def written? (name : String) (value : Option String) : Option Content :=
  match name with
  | "value" => some (.text (value.getD ""))
  | "source-type" => (value.elim (.ok .module) SourceType.ofText).toOption.map .sourceType
  | "stylesheet" => some (.stylesheet value)
  | _ => none

variable {name other : String} {value value' : Option String} {first second : Content}

theorem name_of_written? (h : written? name value = some first) : first.name = name := by
  unfold written? at h
  split at h
  case h_2 =>
    obtain ⟨sourceType, -, rfl⟩ := Option.map_eq_some_iff.mp h
    rfl
  case h_4 => cases h
  all_goals
    cases h
    rfl

variable (attributes : Attributes)

theorem set_eq_write (name : String) (value : Option String) :
    (attributes.set name value).1 = (written? name value).elim attributes attributes.write := by
  unfold set
  split
  case h_2 =>
    simp only [written?]
    cases value.elim (.ok .module) SourceType.ofText <;> rfl
  case h_4 => simp [written?]
  all_goals rfl

/-- Of two contents for the same attribute the later one stays. -/
theorem write_write (same : first.name = second.name) :
    (attributes.write first).write second = attributes.write second := by
  cases first <;> cases second <;> first | rfl | simp [Content.name] at same

theorem write_comm (different : first.name ≠ second.name) :
    (attributes.write first).write second = (attributes.write second).write first := by
  cases first <;> cases second <;> first | rfl | exact absurd rfl different

/-- Whether writing makes a difference does not depend on other attributes. -/
theorem write_write_eq_iff (different : first.name ≠ second.name) :
    (attributes.write first).write second = attributes.write first ↔
      attributes.write second = attributes := by
  cases attributes
  cases first <;> cases second <;> first | exact absurd rfl different | simp [write]

theorem set_set (name : String) (value : Option String) :
    ((attributes.set name value).1.set name value).1 = (attributes.set name value).1 := by
  rw [set_eq_write, set_eq_write]
  cases written? name value with
  | none => rfl
  | some content => exact attributes.write_write rfl

theorem set_comm (different : name ≠ other) :
    ((attributes.set name value).1.set other value').1 =
      ((attributes.set other value').1.set name value).1 := by
  simp only [set_eq_write]
  cases first : written? name value with
  | none => rfl
  | some content =>
    cases second : written? other value' with
    | none => rfl
    | some content' =>
      refine attributes.write_comm ?_
      rwa [name_of_written? first, name_of_written? second]

theorem set_set_eq_iff (different : name ≠ other) :
    ((attributes.set name value).1.set other value').1 = (attributes.set name value).1 ↔
      (attributes.set other value').1 = attributes := by
  simp only [set_eq_write]
  cases first : written? name value with
  | none => rfl
  | some content =>
    cases second : written? other value' with
    | none => exact iff_of_true rfl rfl
    | some content' =>
      refine attributes.write_write_eq_iff ?_
      rwa [name_of_written? first, name_of_written? second]

end Attributes

namespace Component

/-- What the result of a step tells: that there was one pass, or that all is as it was. -/
structure Tells (component : Component) (step : Step Bool) : Prop where
  rendered : step.result = true ↔
    step.passes = 1 ∧ step.component.generation = component.generation + 1
  unchanged : step.result = false → step.component = component ∧ step.parsed = []

section Changes

variable {parse : Parser} {component : Component} {name other : String}
  {value value' : Option String}

theorem setAttribute_of_eq (parse : Parser)
    (same : (component.attributes.set name value).1 = component.attributes) :
    (component.setAttribute parse name value).result = false ∧
      (component.setAttribute parse name value).component = component ∧
      (component.setAttribute parse name value).parsed = [] := by
  have hs : component.setAttribute parse name value = _ := if_pos same
  rw [hs]
  exact ⟨rfl, rfl, rfl⟩

theorem setAttribute_of_ne (parse : Parser)
    (new : (component.attributes.set name value).1 ≠ component.attributes) :
    (component.setAttribute parse name value).result = true ∧
      (component.setAttribute parse name value).component =
        component.passed parse (component.attributes.set name value).1 ∧
      (component.setAttribute parse name value).passes = 1 := by
  have changed : component.setAttribute parse name value = _ := if_neg new
  rw [changed]
  exact ⟨rfl, rfl, rfl⟩

theorem result_setAttribute : (component.setAttribute parse name value).result = true ↔
    (component.attributes.set name value).1 ≠ component.attributes := by
  by_cases same : (component.attributes.set name value).1 = component.attributes
  · simp [setAttribute_of_eq parse same, same]
  · simp [setAttribute_of_ne parse same, same]

theorem attributes_setAttribute : (component.setAttribute parse name value).component.attributes =
    (component.attributes.set name value).1 := by
  by_cases same : (component.attributes.set name value).1 = component.attributes
  · rw [(setAttribute_of_eq parse same).2.1, same]
  · rw [(setAttribute_of_ne parse same).2.1]
    rfl

theorem tells_setAttribute (parse : Parser) (component : Component) (name : String)
    (value : Option String) : component.Tells (component.setAttribute parse name value) := by
  by_cases same : (component.attributes.set name value).1 = component.attributes
  · obtain ⟨result, unchanged, unparsed⟩ := setAttribute_of_eq parse same
    constructor
    · simp [result, unchanged]
    · exact fun _ => ⟨unchanged, unparsed⟩
  · obtain ⟨result, passed, passes⟩ := setAttribute_of_ne parse same
    constructor
    · rw [passed]
      exact iff_of_true result ⟨passes, rfl⟩
    · exact fun unchanged => nomatch result.symm.trans unchanged

theorem result_setAttribute_again (parse : Parser) (component : Component) (name : String)
    (value : Option String) :
    ((component.setAttribute parse name value).component.setAttribute parse name value).result =
      false := by
  rw [← Bool.not_eq_true, result_setAttribute, not_not, attributes_setAttribute,
    Attributes.set_set]

/-- The result does not depend on what was set before. -/
theorem result_setAttribute_after (different : name ≠ other) :
    ((component.setAttribute parse name value).component.setAttribute parse other value').result =
      (component.setAttribute parse other value').result := by
  rw [Bool.eq_iff_iff, result_setAttribute, result_setAttribute, attributes_setAttribute]
  exact not_congr (Attributes.set_set_eq_iff _ different)

/-- Of an earlier pass nothing is left but its number. -/
theorem passed_passed (attributes attributes' final : Attributes) :
    (component.passed parse attributes).passed parse final =
      (component.passed parse attributes').passed parse final :=
  rfl

/-- A change that makes no difference may as well come first. -/
theorem component_setAttribute_of_eq (different : name ≠ other)
    (same : (component.attributes.set name value).1 = component.attributes) :
    ((component.setAttribute parse name value).component.setAttribute parse other
        value').component =
      ((component.setAttribute parse other value').component.setAttribute parse name
        value).component := by
  have later : ((component.setAttribute parse other value').component.attributes.set name value).1 =
      (component.setAttribute parse other value').component.attributes := by
    rw [attributes_setAttribute]
    exact (Attributes.set_set_eq_iff _ different.symm).mpr same
  rw [(setAttribute_of_eq parse same).2.1, (setAttribute_of_eq parse later).2.1]

/-- The second of two changes that both make a difference runs the last pass. -/
theorem component_setAttribute_of_ne (different : name ≠ other)
    (first : (component.attributes.set name value).1 ≠ component.attributes)
    (second : (component.attributes.set other value').1 ≠ component.attributes) :
    ((component.setAttribute parse name value).component.setAttribute parse other
        value').component =
      (component.passed parse (component.attributes.set name value).1).passed parse
        ((component.attributes.set name value).1.set other value').1 := by
  have later :
      ((component.passed parse (component.attributes.set name value).1).attributes.set other
        value').1 ≠ (component.attributes.set name value).1 :=
    (Attributes.set_set_eq_iff _ different).not.mpr second
  rw [(setAttribute_of_ne parse first).2.1]
  exact (setAttribute_of_ne parse later).2.1

theorem component_setAttribute_comm (different : name ≠ other) :
    ((component.setAttribute parse name value).component.setAttribute parse other
        value').component =
      ((component.setAttribute parse other value').component.setAttribute parse name
        value).component := by
  by_cases first : (component.attributes.set name value).1 = component.attributes
  · exact component_setAttribute_of_eq different first
  · by_cases second : (component.attributes.set other value').1 = component.attributes
    · exact (component_setAttribute_of_eq different.symm second).symm
    · -- both changes run a pass, and only the last one is left
      rw [component_setAttribute_of_ne different first second,
        component_setAttribute_of_ne different.symm second first,
        Attributes.set_comm _ different]
      exact passed_passed _ _ _

end Changes

/-- For any component: a change of an attribute tells by its result whether the parser was called,
once and for a pass with the next number, and if it was not, nothing has changed. The same change
again, be it to an attribute or to the content, makes no difference. Two changes of different
attributes give the same results and the same component in either order. -/
theorem attribute_changes_settle_and_commute (parse : Parser) (component : Component) :
    (∀ name value, component.Tells (component.setAttribute parse name value) ∧
      ((component.setAttribute parse name value).component.setAttribute parse name
        value).result = false) ∧
    (∀ text, component.Tells (component.setContent parse text) ∧
      ((component.setContent parse text).component.setContent parse text).result = false) ∧
    ∀ name other value value', name ≠ other →
      let first := component.setAttribute parse name value
      let second := first.component.setAttribute parse other value'
      let first' := component.setAttribute parse other value'
      let second' := first'.component.setAttribute parse name value
      first.result = second'.result ∧ second.result = first'.result ∧
        second.component = second'.component := by
  refine ⟨fun name value => ?_, fun text => ?_, fun name other value value' different => ?_⟩
  · exact ⟨component.tells_setAttribute parse name value,
      component.result_setAttribute_again parse name value⟩
  · exact ⟨component.tells_setAttribute parse "value" _,
      component.result_setAttribute_again parse "value" _⟩
  · exact ⟨(result_setAttribute_after different.symm).symm, result_setAttribute_after different,
      component_setAttribute_comm different⟩

/-- After a first pass: a text that names no source type, and two changes that both make a
difference. -/
theorem attribute_changes_after_connect :
    let component := (after sampleParser {} [.connect]).component
    let ignored := component.setAttribute sampleParser "source-type" (some "commonjs")
    let first := component.setAttribute sampleParser "source-type" (some " script ")
    let second := first.component.setAttribute sampleParser "value" (some "a;")
    let first' := component.setAttribute sampleParser "value" (some "a;")
    let second' := first'.component.setAttribute sampleParser "source-type" (some " script ")
    ignored.result = false ∧ ignored.component = component ∧ "source-type" ≠ "value" ∧
      first.result = true ∧ second'.result = true ∧ second.component = second'.component ∧
      second.component.generation = 3 := by
  intro component ignored first second first' second'
  obtain ⟨ht, -, commute⟩ := attribute_changes_settle_and_commute sampleParser component
  have refused : ignored.result = false := by decide +kernel
  have changed : first.result = true := by decide +kernel
  have different : "source-type" ≠ "value" := by decide
  obtain ⟨result, -, same⟩ := commute "source-type" "value" (some " script ") (some "a;") different
  exact ⟨refused, ((ht "source-type" (some "commonjs")).1.unchanged refused).1, different,
    changed, result.symm.trans changed, same, by decide +kernel⟩

end Component

end SyntaxMarkup

import SyntaxMarkup.Component.Basic
import SyntaxMarkup.Proofs.Markup.Tags
import SyntaxMarkup.Proofs.Tree.Regular

namespace SyntaxMarkup

inductive Operation where
  | setAttribute (name : String) (value : Option String)
  | setContent (text : String)
  | connect
  | render

/-- Every pass parses once. -/
def Step.passes {α : Type} (step : Step α) : Nat :=
  step.parsed.length

def Attributes.parseOptions (attributes : Attributes) : ParseOptions :=
  { sourceType := attributes.sourceType }

/-- What the parser makes of the attributes. -/
def Attributes.outcome (attributes : Attributes) (parse : Parser) : Except ParseError Tree :=
  parse attributes.value attributes.parseOptions

namespace Component

/-- Carries out an operation; the result tells whether a pass was run. -/
def perform (parse : Parser) (component : Component) : Operation → Step Bool
  | .setAttribute name value => component.setAttribute parse name value
  | .setContent text => component.setContent parse text
  | .connect => component.connect parse
  | .render => { component.render parse with result := true }

/-- Carries out operations one after the other. -/
def run (parse : Parser) (component : Component) : List Operation → Step Unit
  | [] => { component, result := () }
  | operation :: rest =>
    let step := component.perform parse operation
    let later := step.component.run parse rest
    { component := later.component
      result := ()
      notices := step.notices ++ later.notices
      parsed := step.parsed ++ later.parsed }

/-- What operations make of a new component. -/
def after (parse : Parser) (options : RenderOptions) (operations : List Operation) : Step Unit :=
  ({ options } : Component).run parse operations

section Steps

variable (parse : Parser) (component : Component)

/-- The component after a pass with the given attributes. -/
def passed (attributes : Attributes) : Component :=
  { component with
    attributes
    generation := component.generation + 1
    pass := some (Pass.ofOutcome component.options (component.generation + 1)
      (attributes.outcome parse)).1 }

theorem component_render :
    (component.render parse).component = component.passed parse component.attributes :=
  rfl

theorem parsed_render : (component.render parse).parsed =
    [(component.attributes.value, component.attributes.parseOptions)] :=
  rfl

/-- What a step can do: nothing, or one pass with attributes that the component keeps. -/
def Advances {α : Type} (step : Step α) : Prop :=
  (step.component = component ∧ step.parsed = []) ∨
    ∃ attributes : Attributes, step.component = component.passed parse attributes ∧
      step.parsed = [(attributes.value, attributes.parseOptions)]

theorem advances_setAttribute (name : String) (value : Option String) :
    component.Advances parse (component.setAttribute parse name value) := by
  unfold setAttribute
  obtain ⟨attributes, notices⟩ := component.attributes.set name value
  dsimp only
  split
  · exact .inl ⟨rfl, rfl⟩
  · exact .inr ⟨attributes, component_render _ _, parsed_render parse _⟩

theorem advances_connect : component.Advances parse (component.connect parse) := by
  unfold connect
  split
  · exact .inl ⟨rfl, rfl⟩
  · exact .inr ⟨component.attributes, component_render _ _, parsed_render parse _⟩

theorem advances_perform (operation : Operation) :
    component.Advances parse (component.perform parse operation) := by
  cases operation with
  | setAttribute name value => exact component.advances_setAttribute parse name value
  | setContent text => exact component.advances_setAttribute parse "value" _
  | connect => exact component.advances_connect parse
  | render => exact .inr ⟨component.attributes, component_render _ _, parsed_render parse _⟩

end Steps

/-- What a component shows of the outcome of a parse: the tree with its markup, or the error. -/
def Shows (component : Component) : Except ParseError Tree → Prop
  | .ok tree =>
    component.document? = some (tree.render component.options) ∧
      component.tree? = some tree.annotate ∧ component.error? = none
  | .error error =>
    component.document? = some (.ofError error.message) ∧
      component.tree? = none ∧ component.error? = some error

theorem shows_passed (parse : Parser) (component : Component) (attributes : Attributes) :
    (component.passed parse attributes).Shows (attributes.outcome parse) := by
  unfold passed
  cases attributes.outcome parse with
  | ok tree => exact ⟨rfl, rfl, rfl⟩
  | error error => exact ⟨rfl, rfl, rfl⟩

theorem generation_ofOutcome (options : RenderOptions) (generation : Nat)
    (outcome : Except ParseError Tree) :
    (Pass.ofOutcome options generation outcome).1.generation = generation := by
  cases outcome <;> rfl

/-- A component after so many passes: the last one has their number and shows what the parser
makes of the attributes as they are. -/
structure Coherent (parse : Parser) (options : RenderOptions) (passes : Nat)
    (component : Component) : Prop where
  options_eq : component.options = options
  generation_eq : component.generation = passes
  unrendered : passes = 0 → component.pass = none
  numbered : 0 < passes → ∃ pass, component.pass = some pass ∧ pass.generation = passes
  shown : 0 < passes → component.Shows (component.attributes.outcome parse)

section Coherent

variable {parse : Parser} {options : RenderOptions} {passes : Nat} {component : Component}

theorem coherent_new (parse : Parser) (options : RenderOptions) :
    Coherent parse options 0 { options } where
  options_eq := rfl
  generation_eq := rfl
  unrendered _ := rfl
  numbered h := absurd h (Nat.lt_irrefl 0)
  shown h := absurd h (Nat.lt_irrefl 0)

theorem Coherent.passed (hc : component.Coherent parse options passes)
    (attributes : Attributes) :
    (component.passed parse attributes).Coherent parse options (passes + 1) where
  options_eq := hc.options_eq
  generation_eq := congrArg Nat.succ hc.generation_eq
  unrendered h := nomatch h
  numbered _ := by
    refine ⟨_, rfl, ?_⟩
    rw [generation_ofOutcome, hc.generation_eq]
  shown _ := component.shows_passed parse attributes

theorem Coherent.perform (hc : component.Coherent parse options passes)
    (operation : Operation) :
    (component.perform parse operation).component.Coherent parse options
      (passes + (component.perform parse operation).passes) := by
  rcases component.advances_perform parse operation with ⟨same, none⟩ | ⟨attributes, passed, one⟩
  · rw [Step.passes, none, same]
    exact hc
  · rw [Step.passes, one, passed]
    exact hc.passed attributes

theorem Coherent.run (hc : component.Coherent parse options passes)
    (operations : List Operation) :
    (component.run parse operations).component.Coherent parse options
      (passes + (component.run parse operations).passes) := by
  induction operations generalizing component passes with
  | nil => exact hc
  | cons operation rest ih =>
    have later := ih (hc.perform operation)
    rwa [Nat.add_assoc, Step.passes, Step.passes, ← List.length_append] at later

theorem coherent_after (parse : Parser) (options : RenderOptions) (operations : List Operation) :
    (after parse options operations).component.Coherent parse options
      (after parse options operations).passes := by
  have hc := (coherent_new parse options).run operations
  rwa [Nat.zero_add] at hc

theorem Coherent.exists_pass (hc : component.Coherent parse options passes)
    (some : 0 < passes) :
    ∃ pass, component.pass = .some pass ∧ pass.generation = component.generation := by
  rw [hc.generation_eq]
  exact hc.numbered some

end Coherent

/-- Components with the same attributes show the same, whatever was done to them. -/
theorem eq_of_shows {first second : Component} {outcome : Except ParseError Tree}
    (options : second.options = first.options) (h : first.Shows outcome)
    (h' : second.Shows outcome) :
    second.document? = first.document? ∧ second.tree? = first.tree? ∧
      second.error? = first.error? := by
  cases outcome with
  | ok tree =>
    obtain ⟨document, annotated, hr⟩ := h
    obtain ⟨document', annotated', hr'⟩ := h'
    exact ⟨by rw [document, document', options], annotated'.trans annotated.symm,
      hr'.trans hr.symm⟩
  | error error =>
    obtain ⟨document, htree, he⟩ := h
    obtain ⟨document', htree', he'⟩ := h'
    exact ⟨document'.trans document.symm, htree'.trans htree.symm, he'.trans he.symm⟩

theorem html_eq {component : Component} {pass : Pass} (current : component.pass = some pass) :
    component.html = pass.document.html pass.generation component.attributes.stylesheet := by
  rw [html, current, Option.elim_some]

/-- After any operations on a new component there has been no pass, or the last pass has the number
of all passes and shows what the parser makes of the attributes as they are. So what is shown
follows from the attributes alone, but for the number in the HTML text. -/
theorem shows_after (parse : Parser) (options : RenderOptions) (operations : List Operation) :
    let final := after parse options operations
    (final.passes = 0 → final.component.pass = none ∧ final.component.generation = 0) ∧
    (0 < final.passes → final.component.generation = final.passes ∧
      (∃ pass, final.component.pass = some pass ∧
        pass.generation = final.component.generation) ∧
      final.component.options = options ∧
      final.component.Shows
        (parse final.component.attributes.value
          { sourceType := final.component.attributes.sourceType })) ∧
    ∀ others, let other := after parse options others
      0 < final.passes → 0 < other.passes →
      other.component.attributes = final.component.attributes →
      other.component.document? = final.component.document? ∧
      other.component.tree? = final.component.tree? ∧
      other.component.error? = final.component.error? ∧
      ∃ before rest,
        final.component.html =
          before ++ Document.containerTag final.component.generation ++ rest ∧
        other.component.html =
          before ++ Document.containerTag other.component.generation ++ rest := by
  intro final
  have hcoh := coherent_after parse options operations
  refine ⟨fun none => ⟨hcoh.unrendered none, hcoh.generation_eq.trans none⟩,
    fun some => ⟨hcoh.generation_eq, hcoh.exists_pass some, hcoh.options_eq,
      hcoh.shown some⟩, ?_⟩
  intro others other some some' same
  have hcoh' := coherent_after parse options others
  have hshown' := hcoh'.shown some'
  rw [show (after parse options others).component.attributes = _ from same] at hshown'
  obtain ⟨documents, trees, errors⟩ :=
    eq_of_shows (hcoh'.options_eq.trans hcoh.options_eq.symm) (hcoh.shown some) hshown'
  obtain ⟨pass, current, generation⟩ := hcoh.exists_pass some
  obtain ⟨pass', current', generation'⟩ := hcoh'.exists_pass some'
  have sameDocument : pass'.document = pass.document := by
    rw [document?, document?, current, current'] at documents
    exact Option.some.inj documents
  refine ⟨documents, trees, errors,
    final.component.attributes.stylesheet.elim "" Document.stylesheetLink,
    Fragment.htmlOf pass.document.roots ++ "</code>", ?_, ?_⟩
  · rw [html_eq current, Document.html_eq, generation, String.append_assoc]
  · rw [html_eq current', sameDocument, same, Document.html_eq, generation', String.append_assoc]

/-- A parser that knows one text. -/
def sampleParser : Parser :=
  .ofJson fun source _ =>
    if source = "a;" then
      .ok (.ofNode "Program" [("body", .array [.ofNode "ExpressionStatement"
        [("expression", .ofNode "Identifier" [("name", .string "a")])]])])
    else .error (.rejected "Unexpected token (1:0)" (some 0))

/-- Two ways to the same attributes, the longer one over a failed pass. -/
theorem shows_after_two_ways :
    let final := after sampleParser {} [.connect, .setContent "  a;"]
    let other := after sampleParser {} [.setAttribute "value" (some "a;")]
    final.passes = 2 ∧ other.passes = 1 ∧ final.component.generation = 2 ∧
      final.component.error? = none ∧ other.component.document? = final.component.document? ∧
      other.component.tree? = final.component.tree? := by
  intro final other
  obtain ⟨-, hn, same⟩ := shows_after sampleParser {} [.connect, .setContent "  a;"]
  have passes : final.passes = 2 := by decide +kernel
  obtain ⟨generation, -⟩ := hn (by decide +kernel)
  obtain ⟨documents, trees, errors, -⟩ := same [.setAttribute "value" (some "a;")]
    (by decide +kernel) (by decide +kernel) (by decide +kernel)
  exact ⟨passes, by decide +kernel, generation.trans passes, by decide +kernel, documents, trees⟩

end Component

end SyntaxMarkup

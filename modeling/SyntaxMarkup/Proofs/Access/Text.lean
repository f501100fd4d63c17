import SyntaxMarkup.Proofs.Access.Arguments
import SyntaxMarkup.Proofs.Access.Expression

namespace SyntaxMarkup

namespace Access

def text : Access → List Char :=
  fold (·.text.toList)
    (fun object property optional =>
      object ++ (if optional then ['?', '.'] else ['.']) ++ property.text.toList)
    (fun callee arguments optional =>
      callee ++ (if optional then ['?', '.'] else []) ++ '(' :: joined arguments ++ [')'])
    fun content => content

/-- What follows a name: a member, or the arguments of a call. -/
inductive Step where
  | member (property : PlainName) (optional : Bool)
  | call (arguments : List Access) (optional : Bool)

namespace Step

def text : Step → List Char
  | member property optional =>
    (if optional then ['?', '.'] else ['.']) ++ property.text.toList
  | call arguments optional =>
    (if optional then ['?', '.'] else []) ++ '(' :: joined (arguments.map Access.text) ++ [')']

def arguments : Step → List Access
  | member _ _ => []
  | call arguments _ => arguments

def unchained : Step → Step
  | member property optional => .member property optional
  | call arguments optional => .call (arguments.map Access.unchained) optional

def extend (access : Access) : Step → Access
  | member property optional => .member access property optional
  | call arguments optional => .call access arguments optional

end Step

/-- The name that an access starts with. -/
def head : Access → PlainName
  | name content => content
  | member object _ _ => object.head
  | call callee _ _ => callee.head
  | chain content => content.head

def steps : Access → List Step
  | name _ => []
  | member object property optional => object.steps ++ [.member property optional]
  | call callee arguments optional => callee.steps ++ [.call arguments optional]
  | chain content => content.steps

theorem text_member (object : Access) (property : PlainName) (optional : Bool) :
    (member object property optional).text =
      object.text ++ (Step.member property optional).text := by
  simp [text, fold, Step.text]

theorem text_call (callee : Access) (arguments : List Access) (optional : Bool) :
    (call callee arguments optional).text =
      callee.text ++ (Step.call arguments optional).text := by
  rw [text, fold_call]
  simp [Step.text, text]

theorem text_eq (access : Access) :
    access.text = access.head.text.toList ++ access.steps.flatMap Step.text := by
  induction access with
  | name => simp [text, fold, head, steps]
  | member object property optional ih =>
    rw [text_member, ih]
    simp [head, steps]
  | call callee arguments optional ih =>
    rw [text_call, ih]
    simp [head, steps]
  | chain content ih => exact ih

theorem unchained_eq (access : Access) :
    access.unchained =
      (access.steps.map Step.unchained).foldl Step.extend (.name access.head) := by
  induction access with
  | name => rfl
  | member object property optional ih =>
    change member object.unchained property optional = _
    rw [ih]
    simp [steps, head, Step.unchained, Step.extend]
  | call callee arguments optional ih =>
    rw [unchained_call, ih]
    simp [steps, head, Step.unchained, Step.extend]
  | chain content ih => exact ih

theorem text_unchained (access : Access) : access.unchained.text = access.text := by
  induction access with
  | name => rfl
  | member object property optional ih =>
    change (member object.unchained property optional).text = _
    rw [text_member, text_member, ih]
  | call callee arguments optional ih each =>
    have items : (arguments.map unchained).map text = arguments.map text :=
      (List.map_map).trans (List.map_congr_left each)
    rw [unchained_call, text_call, text_call, ih, Step.text, Step.text, items]
  | chain content ih => exact ih

end Access

/-- A text starts with a mark if it goes on at all. -/
def Marked (rest : List Char) : Prop :=
  ∀ c ∈ rest.head?, isMark c

namespace PlainName

theorem append_inj {name other : PlainName} {rest rest' : List Char} (marked : Marked rest)
    (marked' : Marked rest') (same : name.text.toList ++ rest = other.text.toList ++ rest') :
    name = other ∧ rest = rest' := by
  obtain ⟨texts, rests⟩ := append_inj_of_all name.chars other.chars
    (fun c first => by rw [marked c first]; rfl) (fun c first => by rw [marked' c first]; rfl) same
  refine ⟨?_, rests⟩
  cases name
  cases other
  cases String.toList_inj.mp texts
  rfl

end PlainName

namespace Access

/-- Neither a member nor a call follows. -/
def Ended (rest : List Char) : Prop :=
  ∀ c ∈ rest.head?, c = ',' ∨ c = ')' ∨ c = ';'

theorem Ended.marked {rest : List Char} (he : Ended rest) : Marked rest := by
  intro c first
  rcases he c first with rfl | rfl | rfl <;> rfl

theorem endsArgument_ended : EndsArgument Ended where
  comma _ _ first := .inl (Option.some.inj first).symm
  paren _ _ first := .inr (.inl (Option.some.inj first).symm)

/-- Whether a text, whatever follows it, is that of no other access, the ends of chains aside. -/
def Determined (access : Access) : Prop :=
  Tells Ended text unchained access

theorem exists_cons (access : Access) :
    ∃ c rest, access.text = c :: rest ∧ isMark c = false := by
  obtain ⟨c, rest, chars, plain⟩ := access.head.exists_cons
  exact ⟨c, rest ++ access.steps.flatMap Step.text, by rw [text_eq, chars]; rfl, plain⟩

theorem append_ne_paren (access : Access) (rest rest' : List Char) :
    access.text ++ rest ≠ ')' :: rest' := by
  obtain ⟨c, chars, text, plain⟩ := access.exists_cons
  rw [text]
  intro same
  cases (List.cons.inj same).1
  cases plain

theorem Step.determined {step other : Step} {rest rest' : List Char}
    (each : ∀ item ∈ step.arguments, item.Determined) (marked : Marked rest)
    (marked' : Marked rest') (same : step.text ++ rest = other.text ++ rest') :
    step.unchained = other.unchained ∧ rest = rest' := by
  -- a property does not start with a parenthesis
  have ha (property : PlainName) (rest rest' : List Char) :
      property.text.toList ++ rest ≠ '(' :: rest' := by
    obtain ⟨c, chars, text, plain⟩ := property.exists_cons
    rw [text]
    intro same
    cases (List.cons.inj same).1
    cases plain
  cases step with
  | member property optional =>
    cases other with
    | member property' optional' =>
      have names : optional = optional' ∧
          property.text.toList ++ rest = property'.text.toList ++ rest' := by
        cases optional <;> cases optional' <;> simp [Step.text] at same ⊢ <;> exact same
      obtain ⟨rfl, names⟩ := names
      obtain ⟨rfl, rests⟩ := PlainName.append_inj marked marked' names
      exact ⟨rfl, rests⟩
    | call arguments optional' =>
      exfalso
      cases optional <;> cases optional' <;> simp [Step.text, ha] at same
  | call arguments optional =>
    cases other with
    | member property optional' =>
      exfalso
      cases optional <;> cases optional' <;> simp [Step.text, (ha _ _ _).symm] at same
    | call arguments' optional' =>
      have lists : optional = optional' ∧ joined (arguments.map Access.text) ++ ')' :: rest =
          joined (arguments'.map Access.text) ++ ')' :: rest' := by
        cases optional <;> cases optional' <;> simp [Step.text] at same ⊢ <;> exact same
      obtain ⟨rfl, lists⟩ := lists
      obtain ⟨items, rests⟩ := joined_told endsArgument_ended append_ne_paren each lists
      exact ⟨congrArg (Step.call · optional) items, rests⟩

theorem marked_steps (steps : List Step) {rest : List Char} (he : Ended rest) :
    Marked (steps.flatMap Step.text ++ rest) := by
  cases steps with
  | nil => exact he.marked
  | cons step steps =>
    intro c first
    cases step with
    | member property optional =>
      cases optional <;> cases first <;> rfl
    | call arguments optional =>
      cases optional <;> cases first <;> rfl

theorem not_ended_step (step : Step) (rest : List Char) : ¬Ended (step.text ++ rest) := by
  intro he
  cases step with
  | member property optional => cases optional <;> simpa using he _ rfl
  | call arguments optional => cases optional <;> simpa using he _ rfl

theorem steps_determined {steps others : List Step} {rest rest' : List Char}
    (each : ∀ step ∈ steps, ∀ item ∈ step.arguments, item.Determined) (hended : Ended rest)
    (hended' : Ended rest')
    (same : steps.flatMap Step.text ++ rest = others.flatMap Step.text ++ rest') :
    steps.map Step.unchained = others.map Step.unchained ∧ rest = rest' := by
  induction steps generalizing others with
  | nil =>
    cases others with
    | nil => exact ⟨rfl, same⟩
    | cons other others =>
      rw [List.flatMap_cons, List.append_assoc] at same
      change rest = _ at same
      exact absurd (same ▸ hended) (not_ended_step _ _)
  | cons step steps ih =>
    obtain ⟨first, later⟩ := List.forall_mem_cons.mp each
    cases others with
    | nil =>
      rw [List.flatMap_cons, List.append_assoc] at same
      change _ = rest' at same
      exact absurd (same ▸ hended') (not_ended_step _ _)
    | cons other others =>
      rw [List.flatMap_cons, List.append_assoc, List.flatMap_cons, List.append_assoc] at same
      obtain ⟨here, same⟩ := Step.determined first (marked_steps steps hended)
        (marked_steps others hended') same
      obtain ⟨tails, rests⟩ := ih later same
      exact ⟨congrArg₂ List.cons here tails, rests⟩

theorem determined_of_steps {access : Access}
    (each : ∀ step ∈ access.steps, ∀ item ∈ step.arguments, item.Determined) :
    access.Determined := by
  intro other rest rest' hended hended' same
  rw [text_eq, text_eq, List.append_assoc, List.append_assoc] at same
  obtain ⟨heads, same⟩ := PlainName.append_inj (marked_steps _ hended) (marked_steps _ hended') same
  obtain ⟨steps, rests⟩ := steps_determined each hended hended' same
  rw [unchained_eq, unchained_eq, heads, steps]
  exact ⟨rfl, rests⟩

theorem determined (access : Access) : access.Determined := by
  refine determined_of_steps ?_
  induction access with
  | name => exact nofun
  | member object property optional ih =>
    intro step hm
    rcases List.mem_append.mp hm with hm | hm
    · exact ih step hm
    · cases List.mem_singleton.mp hm
      exact nofun
  | call callee arguments optional ih each =>
    intro step hm
    rcases List.mem_append.mp hm with hm | hm
    · exact ih step hm
    · cases List.mem_singleton.mp hm
      exact fun item ha => determined_of_steps (each item ha)
  | chain content ih => exact ih

/-- Accesses are written alike exactly if they differ in the ends of chains alone. -/
theorem text_append_inj {access other : Access} {rest rest' : List Char} (hended : Ended rest)
    (hended' : Ended rest') :
    access.text ++ rest = other.text ++ rest' ↔
      access.unchained = other.unchained ∧ rest = rest' := by
  constructor
  · exact access.determined other rest rest' hended hended'
  · rintro ⟨same, rfl⟩
    rw [← text_unchained access, same, text_unchained]

end Access

end SyntaxMarkup

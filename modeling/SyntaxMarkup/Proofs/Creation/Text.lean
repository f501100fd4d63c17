import SyntaxMarkup.Proofs.Access.Arguments
import SyntaxMarkup.Proofs.Creation.Expression

namespace SyntaxMarkup

namespace Creation

def text : Creation → List Char :=
  fold (·.text.toList)
    (fun object property => object ++ '.' :: property.text.toList)
    (fun object key => object ++ '[' :: key ++ [']'])
    (fun callee arguments => callee ++ '(' :: joined arguments ++ [')'])
    fun callee written arguments =>
      'n' :: 'e' :: 'w' :: ' ' :: (if callee.calls then '(' :: written ++ [')'] else written) ++
        '(' :: joined arguments ++ [')']

/-- What a creation starts with. -/
inductive Head where
  | name (name : BareName)
  | create (callee : Creation) (arguments : List Creation)

/-- What follows it: a member, a key, or the arguments of a call. -/
inductive Step where
  | member (property : BareName)
  | index (key : Creation)
  | call (arguments : List Creation)

/-- The text of what comes after `new`, with parentheses if it has a call that would get the
arguments. -/
def calleeText (callee : Creation) : List Char :=
  if callee.calls then '(' :: callee.text ++ [')'] else callee.text

namespace Head

def text : Head → List Char
  | name content => content.text.toList
  | create callee arguments =>
    'n' :: 'e' :: 'w' :: ' ' :: callee.calleeText ++ '(' :: joined (arguments.map Creation.text) ++
      [')']

def parts : Head → List Creation
  | name _ => []
  | create callee arguments => callee :: arguments

def creation : Head → Creation
  | name content => .name content
  | create callee arguments => .create callee arguments

end Head

namespace Step

def text : Step → List Char
  | member property => '.' :: property.text.toList
  | index key => '[' :: key.text ++ [']']
  | call arguments => '(' :: joined (arguments.map Creation.text) ++ [')']

def parts : Step → List Creation
  | member _ => []
  | index key => [key]
  | call arguments => arguments

def isCall : Step → Bool
  | call _ => true
  | _ => false

def extend (creation : Creation) : Step → Creation
  | member property => .member creation property
  | index key => .index creation key
  | call arguments => .call creation arguments

end Step

def head : Creation → Head
  | name content => .name content
  | member object _ => object.head
  | index object _ => object.head
  | call callee _ => callee.head
  | create callee arguments => .create callee arguments

def steps : Creation → List Step
  | name _ => []
  | member object property => object.steps ++ [.member property]
  | index object key => object.steps ++ [.index key]
  | call callee arguments => callee.steps ++ [.call arguments]
  | create _ _ => []

theorem text_call (callee : Creation) (arguments : List Creation) :
    (call callee arguments).text = callee.text ++ (Step.call arguments).text := by
  rw [text, fold_call]
  simp [Step.text, text]

theorem text_create (callee : Creation) (arguments : List Creation) :
    (create callee arguments).text = (Head.create callee arguments).text := by
  rw [text, fold_create]
  rfl

theorem text_eq (creation : Creation) :
    creation.text = creation.head.text ++ creation.steps.flatMap Step.text := by
  induction creation with
  | name => exact (List.append_nil _).symm
  | member object property ih =>
    change object.text ++ (Step.member property).text = _
    rw [ih]
    simp [head, steps]
  | index object key ih =>
    change object.text ++ '[' :: key.text ++ [']'] = _
    rw [ih]
    simp [head, steps, Step.text]
  | call callee arguments ih =>
    rw [text_call, ih]
    simp [head, steps]
  | create callee arguments => exact (text_create _ _).trans (List.append_nil _).symm

theorem creation_eq (creation : Creation) :
    creation = creation.steps.foldl Step.extend creation.head.creation := by
  induction creation with
  | name | create => rfl
  | member object property ih =>
    rw [steps, List.foldl_append]
    exact congrArg (member · property) ih
  | index object key ih =>
    rw [steps, List.foldl_append]
    exact congrArg (index · key) ih
  | call callee arguments ih =>
    rw [steps, List.foldl_append]
    exact congrArg (call · arguments) ih

theorem calls_eq (creation : Creation) : creation.calls = creation.steps.any Step.isCall := by
  induction creation with
  | name | create => rfl
  | member object property ih => simp [calls, steps, ih, Step.isCall]
  | index object key ih => simp [calls, steps, ih, Step.isCall]
  | call callee arguments ih => simp [calls, steps, Step.isCall]

/-- The characters that can follow a creation or a part of one. -/
def Follows (rest : List Char) : Prop :=
  ∀ c ∈ rest.head?, c ∈ ['.', '[', '(', ',', ')', ']', ';']

end Creation

namespace BareName

/-- The characters that are in no bare name. -/
def isStop (c : Char) : Bool :=
  isMark c || c == '[' || c == ']'

theorem all_chars (name : BareName) : name.text.toList.all (!isStop ·) := by
  refine List.all_eq_true.mpr fun c hm => ?_
  have plain := List.all_eq_true.mp name.chars c hm
  have brackets := List.all_eq_true.mp name.brackets c hm
  simp_all [isStop]

theorem isStop_of_follows {rest : List Char} (hf : Creation.Follows rest) :
    ∀ c ∈ rest.head?, (!isStop c) = false := by
  have all : ['.', '[', '(', ',', ')', ']', ';'].all isStop := by decide
  intro c first
  rw [List.all_eq_true.mp all c (hf c first)]
  rfl

theorem append_inj {name other : BareName} {rest rest' : List Char}
    (hfollows : Creation.Follows rest) (hfollows' : Creation.Follows rest')
    (same : name.text.toList ++ rest = other.text.toList ++ rest') :
    name = other ∧ rest = rest' := by
  obtain ⟨texts, rests⟩ := append_inj_of_all name.all_chars other.all_chars
    (isStop_of_follows hfollows) (isStop_of_follows hfollows') same
  refine ⟨?_, rests⟩
  obtain ⟨⟨text, _, _⟩, _⟩ := name
  obtain ⟨⟨text', _, _⟩, _⟩ := other
  cases String.toList_inj.mp texts
  rfl

/-- The word `new` is no name, because a space comes after it. -/
theorem append_ne_new {name : BareName} {rest : List Char} (hf : Creation.Follows rest)
    (rest' : List Char) : name.text.toList ++ rest ≠ 'n' :: 'e' :: 'w' :: ' ' :: rest' := by
  intro same
  have word : ['n', 'e', 'w'].all (!isStop ·) := by decide
  have ha : ∀ c ∈ (' ' :: rest').head?, (!isStop c) = false := by simp [isStop, isMark]
  obtain ⟨-, rests⟩ :=
    append_inj_of_all name.all_chars word (isStop_of_follows hf) ha same
  have space : ' ' ∈ ['.', '[', '(', ',', ')', ']', ';'] := hf ' ' (by rw [rests]; rfl)
  exact absurd space (by decide)

end BareName

namespace Creation

/-- A creation ends, or, where calls are not part of it, the arguments of what it stands after
follow. -/
def Stops (calls : Bool) (rest : List Char) : Prop :=
  ∀ c ∈ rest.head?, c ∈ [',', ')', ']', ';'] ∨ calls = false ∧ c = '('

theorem Stops.follows {calls : Bool} {rest : List Char} (stops : Stops calls rest) :
    Follows rest := by
  have all : [',', ')', ']', ';'] ⊆ ['.', '[', '(', ',', ')', ']', ';'] := by simp
  intro c first
  rcases stops c first with hm | ⟨-, rfl⟩
  · exact all hm
  · simp

theorem stops_cons {c : Char} (calls : Bool) (rest : List Char) (hm : c ∈ [',', ')', ']', ';']) :
    Stops calls (c :: rest) := by
  intro d first
  cases first
  exact .inl hm

/-- Whether a creation is one without calls, where there must be none. -/
def Within (calls : Bool) (creation : Creation) : Prop :=
  calls = false → creation.calls = false

/-- Whether the text of a creation tells it apart from all others, or, where there must be no
calls, from the others without calls. -/
def Determined (calls : Bool) (creation : Creation) : Prop :=
  creation.Within calls → ∀ (other : Creation) (rest rest' : List Char), other.Within calls →
    Stops calls rest → Stops calls rest' → creation.text ++ rest = other.text ++ rest' →
      creation = other ∧ rest = rest'

theorem Determined.tells {creation : Creation} (hd : creation.Determined true) :
    Tells (Stops true) text id creation :=
  fun other rest rest' stops stops' same => hd nofun other rest rest' nofun stops stops' same

theorem endsArgument_stops (calls : Bool) : EndsArgument (Stops calls) where
  comma rest := stops_cons calls rest (by decide)
  paren rest := stops_cons calls rest (by decide)

theorem exists_cons (creation : Creation) :
    ∃ c rest, creation.text = c :: rest ∧ c ∉ ['(', ')'] := by
  rw [text_eq]
  cases creation.head with
  | name content =>
    obtain ⟨c, rest, chars, plain⟩ := content.toPlainName.exists_cons
    refine ⟨c, _, by rw [Head.text, chars]; rfl, fun hm => ?_⟩
    have all : ['(', ')'].all isMark := by decide
    cases plain.symm.trans (List.all_eq_true.mp all c hm)
  | create callee arguments => exact ⟨'n', _, rfl, by decide⟩

theorem append_ne_cons {c : Char} (hm : c ∈ ['(', ')']) (creation : Creation)
    (rest rest' : List Char) : creation.text ++ rest ≠ c :: rest' := by
  obtain ⟨d, chars, text, other⟩ := creation.exists_cons
  rw [text]
  intro same
  cases (List.cons.inj same).1
  exact other hm

theorem arguments_determined {items others : List Creation} {rest rest' : List Char}
    (each : ∀ item ∈ items, item.Determined true)
    (same : '(' :: joined (items.map text) ++ [')'] ++ rest =
      '(' :: joined (others.map text) ++ [')'] ++ rest') : items = others ∧ rest = rest' := by
  simp only [List.cons_append, List.append_assoc, List.nil_append, List.cons.injEq,
    true_and] at same
  obtain ⟨lists, rests⟩ := joined_told (endsArgument_stops true) (append_ne_cons (by decide))
    (fun item hm => (each item hm).tells) same
  rw [List.map_id, List.map_id] at lists
  exact ⟨lists, rests⟩

theorem Step.determined {step other : Step} {rest rest' : List Char}
    (each : ∀ part ∈ step.parts, part.Determined true) (hfollows : Follows rest)
    (hfollows' : Follows rest') (same : step.text ++ rest = other.text ++ rest') :
    step = other ∧ rest = rest' := by
  cases step with
  | member property =>
    cases other with
    | member property' =>
      obtain ⟨rfl, rests⟩ := BareName.append_inj hfollows hfollows' (List.cons.inj same).2
      exact ⟨rfl, rests⟩
    | index | call => cases (List.cons.inj same).1
  | index key =>
    cases other with
    | index key' =>
      simp only [Step.text, List.cons_append, List.append_assoc, List.cons.injEq, true_and] at same
      obtain ⟨rfl, rests⟩ := each key List.mem_cons_self nofun key' _ _ nofun
        (stops_cons true rest (by decide)) (stops_cons true rest' (by decide)) same
      exact ⟨rfl, (List.cons.inj rests).2⟩
    | member | call => cases (List.cons.inj same).1
  | call arguments =>
    cases other with
    | call arguments' =>
      obtain ⟨rfl, rests⟩ := arguments_determined each same
      exact ⟨rfl, rests⟩
    | member | index => cases (List.cons.inj same).1

theorem Stops.follows_steps {calls : Bool} {rest : List Char} (stops : Stops calls rest)
    (steps : List Step) : Follows (steps.flatMap Step.text ++ rest) := by
  cases steps with
  | nil => exact stops.follows
  | cons step steps =>
    intro c first
    cases step <;> cases first <;> decide

/-- Where a creation has to stop, no further step of it can be read. -/
theorem not_stops_step {calls : Bool} {step : Step} (within : calls = false → step.isCall = false)
    (rest : List Char) : ¬Stops calls (step.text ++ rest) := by
  intro stops
  cases step with
  | member property => exact absurd (stops '.' rfl) (by simp)
  | index key => exact absurd (stops '[' rfl) (by simp)
  | call arguments =>
    rcases stops '(' rfl with hm | ⟨none, -⟩
    · exact absurd hm (by decide)
    · cases within none

theorem steps_determined {calls : Bool} {steps others : List Step} {rest rest' : List Char}
    (each : ∀ step ∈ steps, ∀ part ∈ step.parts, part.Determined true)
    (within : ∀ step ∈ steps, calls = false → step.isCall = false)
    (within' : ∀ step ∈ others, calls = false → step.isCall = false) (stops : Stops calls rest)
    (stops' : Stops calls rest')
    (same : steps.flatMap Step.text ++ rest = others.flatMap Step.text ++ rest') :
    steps = others ∧ rest = rest' := by
  induction steps generalizing others with
  | nil =>
    cases others with
    | nil => exact ⟨rfl, same⟩
    | cons other others =>
      rw [List.flatMap_cons, List.append_assoc] at same
      change rest = _ at same
      exact absurd (same ▸ stops) (not_stops_step (within' other List.mem_cons_self) _)
  | cons step steps ih =>
    obtain ⟨first, later⟩ := List.forall_mem_cons.mp each
    obtain ⟨here, withinLater⟩ := List.forall_mem_cons.mp within
    cases others with
    | nil =>
      rw [List.flatMap_cons, List.append_assoc] at same
      change _ = rest' at same
      exact absurd (same ▸ stops') (not_stops_step here _)
    | cons other others =>
      rw [List.flatMap_cons, List.append_assoc, List.flatMap_cons, List.append_assoc] at same
      obtain ⟨rfl, tails⟩ :=
        Step.determined first (stops.follows_steps steps) (stops'.follows_steps others) same
      obtain ⟨rfl, rests⟩ :=
        ih later withinLater (fun step hm => within' step (.tail _ hm)) tails
      exact ⟨rfl, rests⟩

/-- The callee of `new` is told by its text, up to the arguments: in parentheses by the end of
these, and otherwise because it has no call that could take the arguments. -/
theorem callee_determined {callee other : Creation} {rest rest' : List Char}
    (hd : ∀ calls, callee.Determined calls)
    (same : callee.calleeText ++ '(' :: rest = other.calleeText ++ '(' :: rest') :
    callee = other ∧ rest = rest' := by
  unfold calleeText at same
  have open_ (rest : List Char) : Stops false ('(' :: rest) := by
    intro c first
    cases first
    exact .inr ⟨rfl, rfl⟩
  cases calls : callee.calls with
  | true =>
    cases calls' : other.calls with
    | true =>
      simp only [calls, calls', if_true, List.cons_append, List.append_assoc, List.nil_append,
        List.cons.injEq, true_and] at same
      obtain ⟨rfl, rests⟩ := hd true nofun other _ _ nofun
        (stops_cons true _ (by decide)) (stops_cons true _ (by decide)) same
      exact ⟨rfl, by simpa using rests⟩
    | false =>
      simp only [calls, calls', if_true, List.cons_append] at same
      exact absurd same.symm (append_ne_cons (by decide) other _ _)
  | false =>
    cases calls' : other.calls with
    | true =>
      simp only [calls, calls', if_true, List.cons_append] at same
      exact absurd same (append_ne_cons (by decide) callee _ _)
    | false =>
      simp only [calls, calls'] at same
      obtain ⟨rfl, rests⟩ := hd false (fun _ => calls) other _ _ (fun _ => calls')
        (open_ rest) (open_ rest') same
      exact ⟨rfl, (List.cons.inj rests).2⟩

theorem Head.determined {head other : Head} {rest rest' : List Char}
    (each : ∀ part ∈ head.parts, ∀ calls, part.Determined calls) (hfollows : Follows rest)
    (hfollows' : Follows rest') (same : head.text ++ rest = other.text ++ rest') :
    head = other ∧ rest = rest' := by
  cases head with
  | name content =>
    cases other with
    | name content' =>
      obtain ⟨rfl, rests⟩ := BareName.append_inj hfollows hfollows' same
      exact ⟨rfl, rests⟩
    | create callee arguments => exact absurd same (BareName.append_ne_new hfollows _)
  | create callee arguments =>
    cases other with
    | name content => exact absurd same.symm (BareName.append_ne_new hfollows' _)
    | create callee' arguments' =>
      obtain ⟨first, later⟩ := List.forall_mem_cons.mp each
      simp only [Head.text, List.cons_append, List.append_assoc, List.cons.injEq, true_and] at same
      obtain ⟨rfl, same⟩ := callee_determined first same
      have lists : '(' :: joined (arguments.map Creation.text) ++ [')'] ++ rest =
          '(' :: joined (arguments'.map Creation.text) ++ [')'] ++ rest' := by simpa using same
      obtain ⟨rfl, rests⟩ := arguments_determined (fun item hm => later item hm true) lists
      exact ⟨rfl, rests⟩

/-- What a creation is put together from. -/
def parts (creation : Creation) : List Creation :=
  creation.head.parts ++ creation.steps.flatMap Step.parts

theorem determined_of_parts {creation : Creation}
    (each : ∀ part ∈ creation.parts, ∀ calls, part.Determined calls) (calls : Bool) :
    creation.Determined calls := by
  intro within other rest rest' within' stops stops' same
  obtain ⟨hh, hs⟩ := List.forall_mem_append.mp each
  have hf {creation : Creation} (within : creation.Within calls) :
      ∀ step ∈ creation.steps, calls = false → step.isCall = false := by
    intro step hm none
    have all := within none
    rw [calls_eq, List.any_eq_false] at all
    simpa using all step hm
  rw [text_eq, text_eq, List.append_assoc, List.append_assoc] at same
  obtain ⟨heads, same⟩ :=
    Head.determined hh (stops.follows_steps _) (stops'.follows_steps _) same
  obtain ⟨steps, rests⟩ := steps_determined (fun step hm part hp =>
    hs part (List.mem_flatMap_of_mem hm hp) true) (hf within) (hf within') stops stops' same
  rw [creation.creation_eq, other.creation_eq, heads, steps]
  exact ⟨rfl, rests⟩

theorem determined (creation : Creation) (calls : Bool) : creation.Determined calls := by
  refine determined_of_parts ?_ calls
  induction creation with
  | name => exact nofun
  | member object property ih =>
    intro part hm
    exact ih part (by simpa [parts, head, steps, Step.parts] using hm)
  | index object key ih ihKey =>
    intro part hm
    have cases : part ∈ object.parts ∨ part = key := by
      simpa [parts, head, steps, Step.parts, or_assoc] using hm
    rcases cases with hm | rfl
    · exact ih part hm
    · exact determined_of_parts ihKey
  | call callee arguments ih each =>
    intro part hm
    have cases : part ∈ callee.parts ∨ part ∈ arguments := by
      simpa [parts, head, steps, Step.parts, or_assoc] using hm
    rcases cases with hm | hm
    · exact ih part hm
    · exact determined_of_parts (each part hm)
  | create callee arguments ih each =>
    intro part hm
    have cases : part = callee ∨ part ∈ arguments := by
      simpa [parts, head, steps, Head.parts] using hm
    rcases cases with rfl | hm
    · exact determined_of_parts ih
    · exact determined_of_parts (each part hm)

end Creation

end SyntaxMarkup

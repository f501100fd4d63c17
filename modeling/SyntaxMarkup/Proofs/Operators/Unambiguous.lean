import SyntaxMarkup.Proofs.Operators.Operand

namespace SyntaxMarkup

namespace Phrase

def last? : Phrase → Option InfixOperator
  | joined _ operator _ => some operator
  | conditional _ _ _ => some .question
  | _ => none

theorem level_of_mem_last? {phrase : Phrase} {operator : InfixOperator}
    (h : operator ∈ phrase.last?) : operator.level = phrase.strength := by
  cases phrase with
  | joined | conditional =>
    cases h
    rfl
  | identifier | paren | prefixed | update => cases h

/-- Whether the last operand of each step is ended by what comes after it. -/
def Ended (rest : List Char) : List Step → Prop
  | [] => True
  | step :: later => Stop step.operator.reach (later.flatMap Step.text ++ rest) ∧ Ended rest later

theorem ended_append_singleton {rest : List Char} {steps : List Step} {step : Step} :
    Ended rest (steps ++ [step]) ↔
      Ended (step.text ++ rest) steps ∧ Stop step.operator.reach rest := by
  induction steps with
  | nil => simp [Ended]
  | cons first later ih => simp [Ended, ih, and_assoc]

theorem ended_steps {phrase : Phrase} (valid : phrase.Valid) {rest : List Char}
    (stop : ∀ operator ∈ phrase.last?, Stop operator.reach rest) : Ended rest phrase.steps := by
  -- an operator that takes the left operand is too weak for the last operand inside it
  have before {left : Phrase} {step : Step} {rest : List Char}
      (least : step.operator.least ≤ left.strength) :
      ∀ operator ∈ left.last?, Stop operator.reach (step.text ++ rest) := by
    intro operator last
    rw [← level_of_mem_last? last] at least
    rw [Step.text, List.append_assoc]
    exact .operator _ _ (InfixOperator.level_lt_reach least)
  induction phrase generalizing rest with
  | joined left operator right ih =>
    rw [steps, ended_append_singleton]
    exact ⟨ih valid.1 (before valid.2.2.2.1), stop operator rfl⟩
  | conditional test consequent alternate ih =>
    rw [steps, ended_append_singleton]
    exact ⟨ih valid.1 (before valid.2.2.2.1), stop .question rfl⟩
  | identifier | paren | prefixed | update => trivial

/-- The last operator outside all operands is the weakest one. -/
theorem strength_le_level {phrase : Phrase} (valid : phrase.Valid) :
    ∀ step ∈ phrase.steps, phrase.strength ≤ step.operator.level := by
  induction phrase with
  | joined left operator right ih =>
    refine List.forall_mem_append.mpr ⟨fun step hm => ?_, ?_⟩
    · have least : operator.least ≤ left.strength := valid.2.2.2.1
      exact Nat.le_trans operator.level_le_least (Nat.le_trans least (ih valid.1 step hm))
    · exact List.forall_mem_singleton.mpr (Nat.le_refl _)
  | conditional test consequent alternate ih =>
    refine List.forall_mem_append.mpr ⟨fun step hm => ?_, ?_⟩
    · have least : InfixOperator.question.least ≤ test.strength := valid.2.2.2.1
      exact Nat.le_trans InfixOperator.question.level_le_least
        (Nat.le_trans least (ih valid.1 step hm))
    · exact List.forall_mem_singleton.mpr (Nat.le_refl _)
  | identifier | paren | prefixed | update => exact nofun

namespace Step

def parts : Step → List Phrase
  | joined _ right => [right]
  | conditional consequent alternate => [consequent, alternate]

theorem operands_append_inj {step other : Step} (valid : step.Valid) (valid' : other.Valid)
    (same : step.operator = other.operator) (hd : ∀ part ∈ step.parts, part.Determined)
    {rest rest' : List Char} (stop : Stop step.operator.reach rest)
    (stop' : Stop step.operator.reach rest')
    (h : step.operands ++ rest = other.operands ++ rest') : step = other ∧ rest = rest' := by
  cases step with
  | joined operator right =>
    cases other with
    | joined operator' right' =>
      cases same
      obtain ⟨rfl, rests⟩ := hd right List.mem_cons_self right' _ _ _ valid'.1
        operator.reach_ne_conditional valid.2.2 valid'.2.2 stop stop' h
      exact ⟨rfl, rests⟩
    | conditional consequent' alternate' => exact absurd same valid.2.1
  | conditional consequent alternate =>
    cases other with
    | joined operator' right' => exact absurd same.symm valid'.2.1
    | conditional consequent' alternate' =>
      obtain ⟨-, -, least, least'⟩ := valid
      obtain ⟨consequentValid, alternateValid, other, other'⟩ := valid'
      have texts : consequent.text ++ (" : ".toList ++ (alternate.text ++ rest)) =
          consequent'.text ++ (" : ".toList ++ (alternate'.text ++ rest')) := by
        simpa [operands] using h
      obtain ⟨rfl, later⟩ := hd consequent List.mem_cons_self consequent' .assignment _ _
        consequentValid (by decide) least other (.colon _) (.colon _) texts
      obtain ⟨rfl, rests⟩ := hd alternate (.tail _ List.mem_cons_self) alternate' _ _ _
        alternateValid InfixOperator.question.reach_ne_conditional least' other' stop stop'
        (List.append_cancel_left later)
      exact ⟨rfl, rests⟩

end Step

/-- Steps are read back from their texts as long as they bind tightly enough. -/
theorem steps_append_inj {steps others : List Step} {least : Strength} {rest rest' : List Char}
    (valid : ∀ step ∈ steps, step.Valid) (valid' : ∀ step ∈ others, step.Valid)
    (hd : ∀ step ∈ steps, ∀ part ∈ step.parts, part.Determined)
    (hstrong : ∀ step ∈ steps, least ≤ step.operator.level)
    (hstrong' : ∀ step ∈ others, least ≤ step.operator.level)
    (hended : Ended rest steps) (hended' : Ended rest' others)
    (stop : Stop least rest) (stop' : Stop least rest')
    (h : steps.flatMap Step.text ++ rest = others.flatMap Step.text ++ rest') :
    steps = others ∧ rest = rest' := by
  induction steps generalizing others with
  | nil =>
    cases others with
    | nil => exact ⟨rfl, h⟩
    | cons other later =>
      -- what stops the one phrase would be an operator that is strong enough to go on
      have texts : rest =
          other.operator.text ++ (other.operands ++ (later.flatMap Step.text ++ rest')) := by
        simpa [Step.text] using h
      rw [texts] at stop
      exact absurd (hstrong' other List.mem_cons_self) (Nat.not_le.mpr stop.level_lt)
  | cons step earlier ih =>
    cases others with
    | nil =>
      have texts : rest' =
          step.operator.text ++ (step.operands ++ (earlier.flatMap Step.text ++ rest)) := by
        simpa [Step.text] using h.symm
      rw [texts] at stop'
      exact absurd (hstrong step List.mem_cons_self) (Nat.not_le.mpr stop'.level_lt)
    | cons other later =>
      have texts : step.operator.text ++ (step.operands ++ (earlier.flatMap Step.text ++ rest)) =
          other.operator.text ++ (other.operands ++ (later.flatMap Step.text ++ rest')) := by
        simpa [Step.text] using h
      obtain ⟨same, afterOperator⟩ := InfixOperator.text_append_inj texts
      obtain ⟨rfl, afterStep⟩ := Step.operands_append_inj (valid step List.mem_cons_self)
        (valid' other List.mem_cons_self) same (hd step List.mem_cons_self) hended.1
        (same ▸ hended'.1) afterOperator
      obtain ⟨rfl, rests⟩ := ih (fun step hm => valid step (.tail _ hm))
        (fun step hm => valid' step (.tail _ hm)) (fun step hm => hd step (.tail _ hm))
        (fun step hm => hstrong step (.tail _ hm)) (fun step hm => hstrong' step (.tail _ hm))
        hended.2 hended'.2 afterStep
      exact ⟨rfl, rests⟩

theorem stop_steps (steps : List Step) {least : Strength} {rest : List Char}
    (stop : Stop least rest) : Stop .unary (steps.flatMap Step.text ++ rest) := by
  cases steps with
  | nil => exact stop.unary
  | cons step later =>
    rw [List.flatMap_cons, Step.text, List.append_assoc, List.append_assoc]
    exact .operator _ _ step.operator.level_lt_unary

theorem ended_of_stop {phrase : Phrase} (valid : phrase.Valid) {least : Strength}
    (other : least ≠ .conditional) (hs : least ≤ phrase.strength) {rest : List Char}
    (stop : Stop least rest) : Ended rest phrase.steps := by
  refine ended_steps valid fun operator last => stop.mono ?_
  rw [← level_of_mem_last? last] at hs
  exact InfixOperator.le_reach hs other

theorem determined_of_parts {phrase : Phrase} (valid : phrase.Valid)
    (inside : ∀ part ∈ phrase.head.inside, part.Determined)
    (hd : ∀ step ∈ phrase.steps, ∀ part ∈ step.parts, part.Determined) :
    phrase.Determined := by
  intro other least rest rest' valid' hc hstrong hstrong' stop stop' h
  rw [text_eq phrase, text_eq other, List.append_assoc, List.append_assoc] at h
  obtain ⟨heads, afterHead⟩ := operand_append_inj phrase.isOperand_head other.isOperand_head
    valid.head valid'.head inside (stop_steps _ stop) (stop_steps _ stop') h
  obtain ⟨steps, rests⟩ := steps_append_inj valid.steps valid'.steps hd
    (fun step hm => Nat.le_trans hstrong (strength_le_level valid step hm))
    (fun step hm => Nat.le_trans hstrong' (strength_le_level valid' step hm))
    (ended_of_stop valid hc hstrong stop)
    (ended_of_stop valid' hc hstrong' stop') stop stop' afterHead
  rw [← phrase.foldl_apply, ← other.foldl_apply, heads, steps]
  exact ⟨rfl, rests⟩

/-- A phrase is read back from its text, and so are the phrases that it is made of. -/
theorem determined_parts {phrase : Phrase} (valid : phrase.Valid) :
    phrase.Determined ∧ (∀ part ∈ phrase.head.inside, part.Determined) ∧
      ∀ step ∈ phrase.steps, ∀ part ∈ step.parts, part.Determined := by
  have whole {phrase : Phrase} (valid : phrase.Valid)
      (inside : ∀ part ∈ phrase.head.inside, part.Determined)
      (hd : ∀ step ∈ phrase.steps, ∀ part ∈ step.parts, part.Determined) :
      phrase.Determined ∧ (∀ part ∈ phrase.head.inside, part.Determined) ∧
        ∀ step ∈ phrase.steps, ∀ part ∈ step.parts, part.Determined :=
    ⟨determined_of_parts valid inside hd, inside, hd⟩
  -- along the left operands the head stays and the steps grow, so both are carried with the whole
  induction phrase with
  | identifier | update => exact whole valid nofun nofun
  | paren inner ih => exact whole valid (List.forall_mem_singleton.mpr (ih valid).1) nofun
  | prefixed operator argument ih =>
    exact whole valid (List.forall_mem_singleton.mpr (ih valid.1).1) nofun
  | joined left operator right ihLeft ihRight =>
    obtain ⟨-, inside, earlier⟩ := ihLeft valid.1
    refine whole valid inside (List.forall_mem_append.mpr ⟨earlier, ?_⟩)
    exact List.forall_mem_singleton.mpr (List.forall_mem_singleton.mpr (ihRight valid.2.1).1)
  | conditional test consequent alternate ihTest ihConsequent ihAlternate =>
    obtain ⟨-, inside, earlier⟩ := ihTest valid.1
    refine whole valid inside (List.forall_mem_append.mpr ⟨earlier, ?_⟩)
    refine List.forall_mem_singleton.mpr (List.forall_mem_cons.mpr ⟨(ihConsequent valid.2.1).1, ?_⟩)
    exact List.forall_mem_singleton.mpr (ihAlternate valid.2.2.1).1

/-- Statements of phrases with the same text are statements of the same phrase. -/
theorem eq_of_statement {phrase other : Phrase} (valid : phrase.Valid) (valid' : other.Valid)
    (h : phrase.text ++ [';'] = other.text ++ [';']) : phrase = other :=
  ((determined_parts valid).1 other .sequence _ _ valid' (by decide) phrase.sequence_le_strength
    other.sequence_le_strength (.semicolon []) (.semicolon []) h).1

end Phrase

end SyntaxMarkup

import SyntaxMarkup.Proofs.Tree.Checks

namespace SyntaxMarkup

namespace NodeObject

variable {object partner : NodeObject} {name : String}

section Congruence

variable (same : object.field? name = partner.field? name)

include same

theorem flag_congr : object.flag name = partner.flag name := by
  rw [flag, same, flag]

theorem text?_congr : object.text? name = partner.text? name := by
  rw [text?, same, text?]

variable (hn : object.typeName = partner.typeName)

include hn

theorem require_congr : object.require name = partner.require name := by
  rw [require, same, missing, hn, require, missing]

theorem text_congr : object.text name = partner.text name := by
  simp only [NodeObject.text, require_congr same hn, invalid, hn]

theorem word_congr {α : Type} [Vocabulary α] (demand : Demand) :
    (object.word name demand : Except TreeError α) = partner.word name demand := by
  simp only [word, text_congr same hn, invalid, hn]

end Congruence

theorem sourceType_congr (same : object.field? "sourceType" = partner.field? "sourceType") :
    object.sourceType = partner.sourceType := by
  unfold sourceType
  rw [text?_congr same]

theorem propertyKind_congr (same : object.field? "kind" = partner.field? "kind")
    (hn : object.typeName = partner.typeName) : object.propertyKind = partner.propertyKind := by
  simp only [propertyKind, same, word_congr same hn]

theorem templateElement_congr (value : object.field? "value" = partner.field? "value")
    (tail : object.field? "tail" = partner.field? "tail")
    (hn : object.typeName = partner.typeName) :
    object.templateElement = partner.templateElement := by
  simp only [templateElement, require_congr value hn, flag_congr tail, invalid, hn]

theorem literal_congr (regex : object.field? "regex" = partner.field? "regex")
    (raw : object.field? "raw" = partner.field? "raw")
    (bigint : object.field? "bigint" = partner.field? "bigint")
    (hn : object.typeName = partner.typeName)
    (value : object.text? "raw" = none →
      object.members.lookup "value" = partner.members.lookup "value") :
    object.literal = partner.literal := by
  have regexes : object.regex? = partner.regex? := by
    simp only [regex?, regex, invalid, hn]
  have raws : object.raw = partner.raw := by
    have texts := text?_congr raw
    simp only [NodeObject.raw, missing, hn]
    cases hk : object.text? "raw" with
    | some text => rw [← texts, hk]
    | none => rw [← texts, hk, value hk]
  rw [literal, regexes, raws, text?_congr bigint, literal]

theorem map_congr {α β ε : Type} {x y : Except ε α} {f g : α → β} (arguments : x = y)
    (functions : f = g) : f <$> x = g <$> y := by
  rw [arguments, functions]

/-- Objects of one type have the same kind if they agree on the fields without children. -/
theorem form_congr {rules : List (String × Rule)} (hk : schema object.typeName = some rules)
    (hn : object.typeName = partner.typeName)
    (same : ∀ entry ∈ rules, entry.2.arity? = none → object.field? entry.1 = partner.field? entry.1)
    (literal : object.typeName = "Literal" → object.text? "raw" = none →
      object.members.lookup "value" = partner.members.lookup "value") :
    object.form.kind = partner.form.kind ∧
      object.form.childrenFirst = partner.form.childrenFirst := by
  obtain ⟨typeName, members⟩ := object
  obtain ⟨other, others⟩ := partner
  change typeName = other at hn
  subst hn
  change schema typeName = some rules at hk
  unfold schema at hk
  split at hk
  case h_73 => cases hk
  all_goals
    cases hk
    simp only [List.forall_mem_cons, List.not_mem_nil, IsEmpty.forall_iff, implies_true,
      Rule.arity?, reduceCtorEq, forall_const, true_and, and_true] at same
    first
    | exact ⟨rfl, rfl⟩
    | exact ⟨congrArg Except.ok (by simp only [flag, text?, same]), rfl⟩
    | exact ⟨map_congr (text_congr same rfl) rfl, rfl⟩
    | exact ⟨map_congr (word_congr same rfl _) rfl, rfl⟩
    | exact ⟨map_congr (word_congr same.1 rfl _) (by simp only [flag, same]), rfl⟩
    | exact ⟨congrArg (Except.ok ∘ Kind.program) (sourceType_congr same), rfl⟩
    | exact ⟨map_congr (propertyKind_congr same.1 rfl) (by simp only [flag, same]), rfl⟩
    | exact ⟨templateElement_congr same.1 same.2 rfl, rfl⟩
    | exact ⟨literal_congr same.1 same.2.1 same.2.2 rfl (literal rfl), rfl⟩

end NodeObject

end SyntaxMarkup

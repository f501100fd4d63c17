import SyntaxMarkup.Markup.Html

namespace SyntaxMarkup

namespace Html

/-- The tags in HTML text, each without its angle brackets. -/
def tags : List Char → List (List Char)
  | [] => []
  | c :: rest => if c = '<' then rest.takeWhile (· ≠ '>') :: tags rest else tags rest

/-- The name that an equals sign at the end is for. -/
def nameBefore (before : List Char) : String :=
  String.ofList (before.dropLast.reverse.takeWhile (· ≠ ' ')).reverse

/-- The names and values in a tag that was cut at its quotes. -/
def quoted : List (List Char) → List (String × String)
  | before :: value :: rest => (nameBefore before, String.ofList value) :: quoted rest
  | _ => []

def attributes (tag : List Char) : List (String × String) :=
  quoted (tag.splitOn '"')

/-- The attributes of each tag that has any. -/
def attributeLists (text : List Char) : List (List (String × String)) :=
  ((tags text).map attributes).filter (· ≠ [])

/-- The values of an attribute in HTML text, in the order of the tags. -/
def values (name text : String) : List String :=
  (attributeLists text.toList).filterMap (List.lookup name)

/-- The text of an attribute in a tag. -/
def attributeText (entry : String × String) : List Char :=
  ' ' :: (entry.1.toList ++ '=' :: '"' :: (entry.2.toList ++ ['"']))

/-- The text of a tag without its angle brackets. -/
def tagText (name : String) (attributes : List (String × String)) : List Char :=
  name.toList ++ attributes.flatMap attributeText

/-- The characters that end text, a tag or a value. -/
def specials : List Char := ['"', '<', '>']

def Plain (text : List Char) : Prop :=
  ∀ c ∈ specials, c ∉ text

/-- Whether an attribute can be read back. -/
structure WellFormed (entry : String × String) : Prop where
  space : ' ' ∉ entry.1.toList
  name : Plain entry.1.toList
  value : Plain entry.2.toList

@[simp]
theorem plain_iff {text : List Char} :
    Plain text ↔ '"' ∉ text ∧ '<' ∉ text ∧ '>' ∉ text := by
  simp [Plain, specials]

theorem tags_append {text : List Char} (plain : '<' ∉ text) (rest : List Char) :
    tags (text ++ rest) = tags rest := by
  induction text with
  | nil => rfl
  | cons c text ih =>
    rw [List.mem_cons, not_or] at plain
    rw [List.cons_append, tags, if_neg (Ne.symm plain.1), ih plain.2]

theorem takeWhile_append_cons {stop : Char} {before : List Char} (other : stop ∉ before)
    (rest : List Char) : (before ++ stop :: rest).takeWhile (· ≠ stop) = before := by
  rw [List.takeWhile_append_of_pos fun c hm => by
    simpa using fun eq : c = stop => other (eq ▸ hm)]
  simp

theorem tags_tag {inside : List Char} (hs : '<' ∉ inside) (hstop : '>' ∉ inside)
    (rest : List Char) : tags ('<' :: (inside ++ '>' :: rest)) = inside :: tags rest := by
  have after : tags ('>' :: rest) = tags rest := if_neg (by decide)
  rw [tags, if_pos rfl, takeWhile_append_cons hstop, tags_append hs, after]

theorem splitOn_quote {before : List Char} (plain : '"' ∉ before) (rest : List Char) :
    (before ++ '"' :: rest).splitOn '"' = before :: rest.splitOn '"' :=
  List.splitOnP_append_cons_of_forall_mem
    (fun c hm => by simpa using fun eq : c = '"' => plain (eq ▸ hm)) '"' rfl rest

theorem nameBefore_append (before : List Char) {name : String} (space : ' ' ∉ name.toList) :
    nameBefore (before ++ ' ' :: (name.toList ++ ['='])) = name := by
  have he : (before ++ ' ' :: (name.toList ++ ['='])).dropLast =
      before ++ ' ' :: name.toList := by
    rw [← List.cons_append, ← List.append_assoc, List.dropLast_concat]
  rw [nameBefore, he, List.reverse_append, List.reverse_cons, List.append_assoc,
    List.singleton_append, takeWhile_append_cons fun hm => space (List.mem_reverse.mp hm),
    List.reverse_reverse, String.ofList_toList]

/-- Attributes are read back whatever text without a quote stands before them. -/
theorem attributes_append {before : List Char} (plain : '"' ∉ before)
    {list : List (String × String)} (hw : ∀ entry ∈ list, WellFormed entry) :
    attributes (before ++ list.flatMap attributeText) = list := by
  -- the name of the tag stands before the first attribute, nothing before the others
  induction list generalizing before with
  | nil =>
    rw [List.flatMap_nil, List.append_nil, attributes, List.splitOn_eq_singleton plain]
    rfl
  | cons entry rest ih =>
    obtain ⟨space, name, value⟩ := hw entry List.mem_cons_self
    have cut : before ++ (entry :: rest).flatMap attributeText =
        (before ++ ' ' :: (entry.1.toList ++ ['='])) ++
          '"' :: (entry.2.toList ++ '"' :: rest.flatMap attributeText) := by
      simp [attributeText]
    have hq : '"' ∉ before ++ ' ' :: (entry.1.toList ++ ['=']) := by
      simp [plain, name '"' (by decide)]
    have others : quoted ((rest.flatMap attributeText).splitOn '"') = rest :=
      ih (List.not_mem_nil) fun other hm => hw other (List.mem_cons_of_mem _ hm)
    rw [attributes, cut, splitOn_quote hq, splitOn_quote (value '"' (by decide)), quoted,
      nameBefore_append before space, others, String.ofList_toList]

theorem not_mem_tagText {name : String} (plain : Plain name.toList) {list : List (String × String)}
    (hw : ∀ entry ∈ list, WellFormed entry) :
    '<' ∉ tagText name list ∧ '>' ∉ tagText name list := by
  have each {c : Char} (special : c ∈ specials) (other : c ∉ [' ', '=', '"']) :
      c ∉ tagText name list := by
    intro hm
    rcases List.mem_append.mp hm with hm | hm
    · exact plain c special hm
    · obtain ⟨entry, hi, hm⟩ := List.mem_flatMap.mp hm
      obtain ⟨-, name, value⟩ := hw entry hi
      have name := name c special
      have value := value c special
      simp only [List.mem_cons, List.not_mem_nil, not_or] at other
      simp [attributeText, other, name, value] at hm
  exact ⟨each (by decide) (by decide), each (by decide) (by decide)⟩

theorem attributeLists_append {text : List Char} (plain : '<' ∉ text) (rest : List Char) :
    attributeLists (text ++ rest) = attributeLists rest := by
  rw [attributeLists, tags_append plain, attributeLists]

theorem attributeLists_tagText {name : String} (plain : Plain name.toList)
    {list : List (String × String)} (hw : ∀ entry ∈ list, WellFormed entry)
    (rest : List Char) :
    attributeLists ('<' :: (tagText name list ++ '>' :: rest)) =
      [list].filter (· ≠ []) ++ attributeLists rest := by
  obtain ⟨hs, hstop⟩ := not_mem_tagText plain hw
  rw [attributeLists, tags_tag hs hstop, List.map_cons, tagText,
    attributes_append (plain '"' (by decide)) hw, attributeLists, List.filter_cons,
    List.filter_cons]
  split <;> rfl

end Html

namespace Text

theorem plain_dataEntity {c : Char} (hq : c ≠ '"') : Html.Plain (dataEntity c) := by
  unfold dataEntity
  split
  case h_4 ha hs hstop =>
    simp [Ne.symm hq, Ne.symm hs, Ne.symm hstop]
  all_goals simp

theorem plain_quotedEntity (c : Char) : Html.Plain (quotedEntity c) := by
  unfold quotedEntity
  split
  case h_1 => simp
  case h_2 hq => exact plain_dataEntity hq

theorem plain_escapeQuoted (text : String) : Html.Plain (escapeQuoted text).toList := by
  intro c special hm
  rw [escapeQuoted, String.toList_ofList, List.mem_flatMap] at hm
  obtain ⟨original, -, hm⟩ := hm
  exact plain_quotedEntity original c special hm

theorem not_mem_escapeData (text : String) : '<' ∉ (escapeData text).toList := by
  rw [escapeData, String.toList_ofList, List.mem_flatMap]
  rintro ⟨c, -, hm⟩
  by_cases quote : c = '"'
  · simp [quote, dataEntity] at hm
  · exact plain_dataEntity quote '<' (by decide) hm

theorem isDigit_of_mem_toString {n : Nat} {c : Char} (hm : c ∈ (toString n).toList) :
    c.isDigit = true :=
  Nat.isDigit_of_mem_toDigits (by omega) (Nat.le_refl 10) (Nat.toList_repr ▸ hm)

theorem plain_toString (n : Nat) : Html.Plain (toString n).toList := by
  intro c special hm
  have digit := isDigit_of_mem_toString hm
  revert digit
  simp only [Html.specials, List.mem_cons, List.not_mem_nil, or_false] at special
  rcases special with rfl | rfl | rfl <;> decide

end Text

open Text (escapeQuoted)

/-- The attributes of the span of a unit. -/
def MarkupUnit.attributes (unit : MarkupUnit) : List (String × String) :=
  [("class", escapeQuoted unit.label), ("title", escapeQuoted unit.shownTitle),
    ("data-unit", toString unit.id)]

theorem MarkupUnit.wellFormed_attributes (unit : MarkupUnit) :
    ∀ entry ∈ unit.attributes, Html.WellFormed entry := by
  unfold MarkupUnit.attributes
  simp only [List.forall_mem_cons]
  refine ⟨⟨?_, ?_, Text.plain_escapeQuoted _⟩, ⟨?_, ?_, Text.plain_escapeQuoted _⟩,
    ⟨?_, ?_, Text.plain_toString _⟩, nofun⟩
  all_goals simp

namespace Fragment

theorem startTag_append (unit : MarkupUnit) (rest : List Char) :
    (startTag unit.id unit.label unit.shownTitle).toList ++ rest =
      '<' :: (Html.tagText "span" unit.attributes ++ '>' :: rest) := by
  unfold startTag MarkupUnit.attributes
  simp [Html.tagText, Html.attributeText]

theorem attributeLists_startTag (unit : MarkupUnit) (rest : List Char) :
    Html.attributeLists ((startTag unit.id unit.label unit.shownTitle).toList ++ rest) =
      unit.attributes :: Html.attributeLists rest := by
  rw [startTag_append, Html.attributeLists_tagText (by simp) unit.wellFormed_attributes]
  rfl

theorem attributeLists_endTag (rest : List Char) :
    Html.attributeLists ("</span>".toList ++ rest) = Html.attributeLists rest := by
  have tag : "</span>".toList ++ rest = '<' :: (Html.tagText "/span" [] ++ '>' :: rest) := by
    simp [Html.tagText]
  rw [tag, Html.attributeLists_tagText (by simp) (List.forall_mem_nil _)]
  rfl

mutual

/-- Each unit of a fragment is one tag, in the order of the units. -/
theorem attributeLists_html (parent : Option Nat) (rest : List Char) :
    ∀ fragment : Fragment,
      Html.attributeLists (fragment.html.toList ++ rest) =
        (fragment.units parent).map MarkupUnit.attributes ++ Html.attributeLists rest
  | .text content => by
    rw [html, units, Html.attributeLists_append (Text.not_mem_escapeData content)]
    rfl
  | .unit id label title node children => by
    have start := attributeLists_startTag ⟨id, label, title, node, parent, children⟩
    simp only [MarkupUnit.shownTitle] at start
    rw [html, units, String.toList_append, String.toList_append, List.append_assoc,
      List.append_assoc, start, attributeLists_htmlOf (some id), attributeLists_endTag,
      List.map_cons, List.cons_append]

theorem attributeLists_htmlOf (parent : Option Nat) (rest : List Char) :
    ∀ fragments : List Fragment,
      Html.attributeLists ((htmlOf fragments).toList ++ rest) =
        (unitsOf parent fragments).map MarkupUnit.attributes ++ Html.attributeLists rest
  | [] => rfl
  | fragment :: others => by
    rw [htmlOf, unitsOf, String.toList_append, List.append_assoc,
      attributeLists_html parent _ fragment, attributeLists_htmlOf parent rest others,
      List.map_append, List.append_assoc]

end

end Fragment

def stylesheetAttributes (href : String) : List (String × String) :=
  [("rel", "stylesheet"), ("href", escapeQuoted href)]

def containerAttributes (generation : Nat) : List (String × String) :=
  [("class", "squirrel-pie"), ("data-generation", toString generation)]

theorem wellFormed_stylesheetAttributes (href : String) :
    ∀ entry ∈ stylesheetAttributes href, Html.WellFormed entry := by
  unfold stylesheetAttributes
  simp only [List.forall_mem_cons]
  refine ⟨⟨?_, ?_, ?_⟩, ⟨?_, ?_, Text.plain_escapeQuoted _⟩, nofun⟩
  all_goals simp

theorem wellFormed_containerAttributes (generation : Nat) :
    ∀ entry ∈ containerAttributes generation, Html.WellFormed entry := by
  unfold containerAttributes
  simp only [List.forall_mem_cons]
  refine ⟨⟨?_, ?_, ?_⟩, ⟨?_, ?_, Text.plain_toString _⟩, nofun⟩
  all_goals simp

namespace Document

theorem stylesheetLink_append (href : String) (rest : List Char) :
    (stylesheetLink href).toList ++ rest =
      '<' :: (Html.tagText "link" (stylesheetAttributes href) ++ '>' :: rest) := by
  unfold stylesheetLink stylesheetAttributes
  simp [Html.tagText, Html.attributeText]

theorem attributeLists_stylesheetLink (href : String) (rest : List Char) :
    Html.attributeLists ((stylesheetLink href).toList ++ rest) =
      stylesheetAttributes href :: Html.attributeLists rest := by
  rw [stylesheetLink_append,
    Html.attributeLists_tagText (by simp) (wellFormed_stylesheetAttributes href)]
  rfl

/-- The start of the element that holds the markup. -/
def containerTag (generation : Nat) : String :=
  "<code class=\"squirrel-pie\" data-generation=\"" ++ toString generation ++ "\">"

theorem html_eq (document : Document) (generation : Nat) (stylesheet : Option String) :
    document.html generation stylesheet =
      stylesheet.elim "" stylesheetLink ++
        (containerTag generation ++ (Fragment.htmlOf document.roots ++ "</code>")) := by
  unfold html containerTag
  simp only [String.append_assoc]

theorem containerTag_append (generation : Nat) (rest : List Char) :
    (containerTag generation).toList ++ rest =
      '<' :: (Html.tagText "code" (containerAttributes generation) ++ '>' :: rest) := by
  unfold containerTag containerAttributes
  simp [Html.tagText, Html.attributeText]

theorem attributeLists_containerTag (generation : Nat) (rest : List Char) :
    Html.attributeLists ((containerTag generation).toList ++ rest) =
      containerAttributes generation :: Html.attributeLists rest := by
  rw [containerTag_append,
    Html.attributeLists_tagText (by simp) (wellFormed_containerAttributes generation)]
  rfl

/-- The tags of a document are the link to its stylesheet, its container and one for each unit. -/
theorem attributeLists_html (document : Document) (generation : Nat) (stylesheet : Option String) :
    Html.attributeLists (document.html generation stylesheet).toList =
      stylesheet.toList.map stylesheetAttributes ++ containerAttributes generation ::
        document.units.map MarkupUnit.attributes := by
  have stop : Html.attributeLists "</code>".toList = [] := by decide +kernel
  have container : Html.attributeLists ((containerTag generation).toList ++
      ((Fragment.htmlOf document.roots).toList ++ "</code>".toList)) =
      containerAttributes generation :: document.units.map MarkupUnit.attributes := by
    rw [attributeLists_containerTag, Fragment.attributeLists_htmlOf none, stop, List.append_nil,
      units]
  rw [html_eq, String.toList_append, String.toList_append, String.toList_append]
  cases stylesheet with
  | none =>
    rw [Option.elim_none, String.toList_empty, List.nil_append, container, Option.toList_none,
      List.map_nil, List.nil_append]
  | some href =>
    rw [Option.elim_some, attributeLists_stylesheetLink, container]
    rfl

theorem filterMap_lookup_eq_nil {α : Type} {name : String} {list : α → List (String × String)}
    (ha : ∀ a, (list a).lookup name = none) (items : List α) :
    (items.map list).filterMap (List.lookup name) = [] := by
  rw [List.filterMap_map]
  exact List.filterMap_eq_nil_iff.mpr fun a _ => ha a

variable (document : Document) (generation : Nat) (stylesheet : Option String)

theorem values_unit :
    Html.values "data-unit" (document.html generation stylesheet) =
      document.units.map fun unit => toString unit.id := by
  have unit : List.lookup "data-unit" ∘ MarkupUnit.attributes =
      some ∘ fun unit => toString unit.id := rfl
  rw [Html.values, attributeLists_html, List.filterMap_append,
    filterMap_lookup_eq_nil (fun _ => rfl), List.nil_append, List.filterMap_cons_none (by rfl),
    List.filterMap_map, unit, List.filterMap_eq_map]

theorem values_generation :
    Html.values "data-generation" (document.html generation stylesheet) =
      [toString generation] := by
  rw [Html.values, attributeLists_html, List.filterMap_append,
    filterMap_lookup_eq_nil (fun _ => rfl), List.nil_append, List.filterMap_cons_some (by rfl),
    filterMap_lookup_eq_nil (fun _ => rfl)]

end Document

end SyntaxMarkup

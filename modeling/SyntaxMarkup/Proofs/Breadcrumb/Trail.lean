import SyntaxMarkup.Breadcrumb
import SyntaxMarkup.Proofs.Markup.Tokens
import Std.Data.String.ToNat

namespace SyntaxMarkup

namespace Html

/-- An item of a trail as a page shows it. -/
structure TrailItem where
  classes : List String
  current : Option String
  index : Nat
  url : String
  label : String
  deriving DecidableEq

/-- The names in an attribute that holds any number of them. -/
def names (value : String) : List String :=
  (value.toList.splitOn ' ').map String.ofList

/-- An item from its tags and the text of its button. -/
def trailItem? (item button endButton endItem label : List Char) : Option TrailItem :=
  if tagName item = "li" ∧ tagName button = "button" ∧ tagName endButton = "/button" ∧
      tagName endItem = "/li" then do
    return {
      classes := ← (value? item "class").map names
      current := value? item "aria-current"
      index := ← (← value? button "data-index").toNat?
      url := ← value? button "data-url"
      label := String.ofList (Text.decode label) }
  else none

/-- The items up to the end of the list; a button without a label has no text. -/
def trailItems? : List Token → Option (List TrailItem)
  | .tag item :: .tag button :: .text label :: .tag endButton :: .tag endItem :: rest => do
    return (← trailItem? item button endButton endItem label) :: (← trailItems? rest)
  | .tag item :: .tag button :: .tag endButton :: .tag endItem :: rest => do
    return (← trailItem? item button endButton endItem []) :: (← trailItems? rest)
  | [.tag endList, .tag endTrail] =>
    if tagName endList = "/ol" ∧ tagName endTrail = "/nav" then some [] else none
  | _ => none

def trail? (text : String) : Option (List TrailItem) :=
  match tokens text.toList with
  | .tag trail :: .tag list :: rest =>
    if tagName trail = "nav" ∧ tagName list = "ol" then trailItems? rest else none
  | _ => none

def shownValue? (name : String) : Token → Option String
  | .tag inside => value? inside name
  | .text _ => none

/-- The values of an attribute in the tags of a text, in their order. -/
def shownValues (name text : String) : List String :=
  (tokens text.toList).filterMap (shownValue? name)

theorem value?_tagText_eq_none {name key : String} (plain : Plain name.toList)
    {list : List (String × String)} (hw : ∀ entry ∈ list, WellFormed entry)
    (ha : list.lookup key = none) : value? (tagText name list) key = none := by
  rw [value?, tagText, attributes_append (plain '"' (by decide)) hw, ha, Option.map_none]

end Html

open Html
open Text (escapeQuoted escapeData)

theorem Text.escapeQuoted_append (first second : String) :
    escapeQuoted (first ++ second) = escapeQuoted first ++ escapeQuoted second := by
  rw [escapeQuoted, String.toList_append, List.flatMap_append, String.ofList_append, escapeQuoted,
    escapeQuoted]

namespace Breadcrumb

/-- The style that tells a page what to draw between the items. -/
def style (separator : String) : String :=
  "--breadcrumb-divider: " ++ divider separator

def trailAttributes (separator : String) : List (String × String) :=
  [("aria-label", "breadcrumb"), ("style", escapeQuoted (style separator))]

def listAttributes : List (String × String) :=
  [("class", "breadcrumb")]

def itemAttributes (last : Bool) : List (String × String) :=
  if last then [("class", "breadcrumb-item active"), ("aria-current", "page")]
  else [("class", "breadcrumb-item")]

def buttonAttributes (index : Nat) (crumb : Crumb) : List (String × String) :=
  [("data-index", toString index), ("data-url", escapeQuoted crumb.url)]

theorem wellFormed_trailAttributes (separator : String) :
    ∀ entry ∈ trailAttributes separator, WellFormed entry := by
  unfold trailAttributes
  simp only [List.forall_mem_cons]
  refine ⟨⟨?_, ?_, ?_⟩, ⟨?_, ?_, Text.plain_escapeQuoted _⟩, nofun⟩
  all_goals simp

theorem wellFormed_listAttributes : ∀ entry ∈ listAttributes, WellFormed entry := by
  unfold listAttributes
  simp only [List.forall_mem_cons]
  refine ⟨⟨?_, ?_, ?_⟩, nofun⟩
  all_goals simp

theorem wellFormed_itemAttributes (last : Bool) :
    ∀ entry ∈ itemAttributes last, WellFormed entry := by
  unfold itemAttributes
  split
  all_goals
    simp only [List.forall_mem_cons]
  · refine ⟨⟨?_, ?_, ?_⟩, ⟨?_, ?_, ?_⟩, nofun⟩
    all_goals simp
  · refine ⟨⟨?_, ?_, ?_⟩, nofun⟩
    all_goals simp

theorem wellFormed_buttonAttributes (index : Nat) (crumb : Crumb) :
    ∀ entry ∈ buttonAttributes index crumb, WellFormed entry := by
  unfold buttonAttributes
  simp only [List.forall_mem_cons]
  refine ⟨⟨?_, ?_, Text.plain_toString _⟩, ⟨?_, ?_, Text.plain_escapeQuoted _⟩, nofun⟩
  all_goals simp

/-- The text of all items, each with its place in the trail. -/
def itemsHtml (breadcrumb : Breadcrumb) : List Char :=
  breadcrumb.items.zipIdx.flatMap fun (crumb, index) =>
    (itemHtml index (index + 1 == breadcrumb.items.length) crumb).toList

theorem html_eq (breadcrumb : Breadcrumb) :
    breadcrumb.html.toList =
      '<' :: (tagText "nav" (trailAttributes breadcrumb.separator) ++ '>' ::
        '<' :: (tagText "ol" listAttributes ++ '>' ::
          (breadcrumb.itemsHtml ++ "</ol></nav>".toList))) := by
  have plain : escapeQuoted "--breadcrumb-divider: " = "--breadcrumb-divider: " := by
    decide +kernel
  unfold html trailAttributes style listAttributes itemsHtml
  rw [Text.escapeQuoted_append, plain]
  simp [tagText, attributeText, List.flatMap, Function.comp_def]

theorem itemHtml_append (index : Nat) (last : Bool) (crumb : Crumb) (rest : List Char) :
    (itemHtml index last crumb).toList ++ rest =
      '<' :: (tagText "li" (itemAttributes last) ++ '>' ::
        '<' :: (tagText "button" (buttonAttributes index crumb) ++ '>' ::
          ((escapeData crumb.label).toList ++ ("</button></li>".toList ++ rest)))) := by
  unfold itemHtml itemAttributes buttonAttributes
  cases last with
  | false =>
    rw [if_neg Bool.false_ne_true, if_neg Bool.false_ne_true]
    simp [tagText, attributeText]
  | true =>
    rw [if_pos rfl, if_pos rfl]
    simp [tagText, attributeText]

/-- The tokens of the text on a button, which has none if it is empty. -/
def labelTokens (label : String) : List Token :=
  if label = "" then [] else [.text (escapeData label).toList]

def itemTokens (index : Nat) (last : Bool) (crumb : Crumb) : List Token :=
  .tag (tagText "li" (itemAttributes last)) ::
    .tag (tagText "button" (buttonAttributes index crumb)) ::
      (labelTokens crumb.label ++ [.tag "/button".toList, .tag "/li".toList])

theorem tokens_endItem (rest : List Char) :
    tokens ("</button></li>".toList ++ rest) =
      .tag "/button".toList :: .tag "/li".toList :: tokens rest := by
  have button := tokens_cons_tag (by decide : '>' ∉ "/button".toList) ("</li>".toList ++ rest)
  have item := tokens_cons_tag (by decide : '>' ∉ "/li".toList) rest
  exact button.trans (congrArg _ item)

theorem tokens_label (label : String) (rest : List Char) :
    tokens ((escapeData label).toList ++ ("</button></li>".toList ++ rest)) =
      labelTokens label ++ .tag "/button".toList :: .tag "/li".toList :: tokens rest := by
  have stop := tokens_endItem rest
  unfold labelTokens
  split
  next empty =>
    rw [empty]
    exact stop
  next nonempty =>
    have text := tokens_append_text (Text.escapeData_ne_nil nonempty)
      (Text.not_mem_escapeData label) ("/button></li>".toList ++ rest)
    exact text.trans (congrArg _ stop)

theorem tokens_itemHtml (index : Nat) (last : Bool) (crumb : Crumb) (rest : List Char) :
    tokens ((itemHtml index last crumb).toList ++ rest) =
      itemTokens index last crumb ++ tokens rest := by
  rw [itemHtml_append, tokens_tagText (by simp) (wellFormed_itemAttributes last),
    tokens_tagText (by simp) (wellFormed_buttonAttributes index crumb), tokens_label, itemTokens]
  simp

/-- The tokens of all items, each with its place in the trail. -/
def itemsTokens (breadcrumb : Breadcrumb) : List Token :=
  breadcrumb.items.zipIdx.flatMap fun (crumb, index) =>
    itemTokens index (index + 1 == breadcrumb.items.length) crumb

theorem tokens_flatMap {α : Type} {text : α → List Char} {parts : α → List Token}
    (each : ∀ item rest, tokens (text item ++ rest) = parts item ++ tokens rest) (items : List α)
    (rest : List Char) :
    tokens (items.flatMap text ++ rest) = items.flatMap parts ++ tokens rest := by
  induction items with
  | nil => rfl
  | cons item others ih =>
    rw [List.flatMap_cons, List.flatMap_cons, List.append_assoc, each, ih, List.append_assoc]

theorem tokens_itemsHtml (breadcrumb : Breadcrumb) (rest : List Char) :
    tokens (breadcrumb.itemsHtml ++ rest) = breadcrumb.itemsTokens ++ tokens rest :=
  tokens_flatMap (fun (crumb, index) rest => tokens_itemHtml index _ crumb rest) _ rest

theorem tokens_html (breadcrumb : Breadcrumb) :
    tokens breadcrumb.html.toList =
      .tag (tagText "nav" (trailAttributes breadcrumb.separator)) ::
        .tag (tagText "ol" listAttributes) ::
          (breadcrumb.itemsTokens ++ [.tag "/ol".toList, .tag "/nav".toList]) := by
  have stop : tokens "</ol></nav>".toList = [.tag "/ol".toList, .tag "/nav".toList] := by
    decide +kernel
  rw [html_eq, tokens_tagText (by simp) (wellFormed_trailAttributes _),
    tokens_tagText (by simp) wellFormed_listAttributes, tokens_itemsHtml, stop]

theorem shownValue?_of_mem_itemTokens {index : Nat} {last : Bool} {crumb : Crumb} {token : Token}
    (hm : token ∈ itemTokens index last crumb) : shownValue? "style" token = none := by
  have item : (itemAttributes last).lookup "style" = none := by cases last <;> rfl
  rw [itemTokens, List.mem_cons, List.mem_cons, List.mem_append] at hm
  rcases hm with rfl | rfl | hm | hm
  · exact value?_tagText_eq_none (by simp) (wellFormed_itemAttributes last) item
  · exact value?_tagText_eq_none (by simp) (wellFormed_buttonAttributes index crumb) rfl
  · unfold labelTokens at hm
    split at hm
    · exact nomatch hm
    · rw [List.mem_singleton.mp hm]
      rfl
  · simp only [List.mem_cons, List.not_mem_nil, or_false] at hm
    rcases hm with rfl | rfl <;> decide +kernel

/-- A breadcrumb tells its style, and no other tag has one. -/
theorem shownValues_style (breadcrumb : Breadcrumb) :
    shownValues "style" breadcrumb.html = [style breadcrumb.separator] := by
  have trail : shownValue? "style" (.tag (tagText "nav" (trailAttributes breadcrumb.separator))) =
      some (style breadcrumb.separator) :=
    value?_tagText (by simp) (wellFormed_trailAttributes _) rfl (Text.decode_escapeQuoted _)
  have list : shownValue? "style" (.tag (tagText "ol" listAttributes)) = none :=
    value?_tagText_eq_none (by simp) wellFormed_listAttributes rfl
  have items : breadcrumb.itemsTokens.filterMap (shownValue? "style") = [] := by
    refine List.filterMap_eq_nil_iff.mpr fun token hm => ?_
    obtain ⟨entry, -, hm⟩ := List.mem_flatMap.mp hm
    exact shownValue?_of_mem_itemTokens hm
  have ends :
      [Token.tag "/ol".toList, .tag "/nav".toList].filterMap (shownValue? "style") = [] := by
    decide +kernel
  rw [shownValues, tokens_html, List.filterMap_cons_some trail, List.filterMap_cons_none list,
    List.filterMap_append, items, ends, List.append_nil]

/-- The item of a crumb as a page shows it. -/
def shownItem (index : Nat) (last : Bool) (crumb : Crumb) : TrailItem where
  classes := if last then ["breadcrumb-item", "active"] else ["breadcrumb-item"]
  current := if last then some "page" else none
  index
  url := crumb.url
  label := crumb.label

theorem value?_itemAttributes (last : Bool) :
    tagName (tagText "li" (itemAttributes last)) = "li" ∧
    (value? (tagText "li" (itemAttributes last)) "class").map names =
      some (if last then ["breadcrumb-item", "active"] else ["breadcrumb-item"]) ∧
    value? (tagText "li" (itemAttributes last)) "aria-current" =
      if last then some "page" else none := by
  cases last <;> decide +kernel

theorem trailItem?_eq (index : Nat) (last : Bool) (crumb : Crumb) {label : List Char}
    (hd : Text.decode label = crumb.label.toList) :
    trailItem? (tagText "li" (itemAttributes last))
      (tagText "button" (buttonAttributes index crumb)) "/button".toList "/li".toList label =
      some (shownItem index last crumb) := by
  obtain ⟨item, classes, current⟩ := value?_itemAttributes last
  have button : tagName (tagText "button" (buttonAttributes index crumb)) = "button" :=
    tagName_tagText (by decide) _ _
  have value (key : String) {value text : String}
      (hf : (buttonAttributes index crumb).lookup key = some value)
      (hd : Text.decode value.toList = text.toList) :
      value? (tagText "button" (buttonAttributes index crumb)) key = some text :=
    value?_tagText (by simp) (wellFormed_buttonAttributes index crumb) hf hd
  have number := value "data-index" rfl (Text.decode_toString index)
  have url := value "data-url" rfl (Text.decode_escapeQuoted crumb.url)
  rw [trailItem?, if_pos ⟨item, button, by decide, by decide⟩, classes, current, number, url,
    hd, String.ofList_toList]
  simp [shownItem, Nat.toNat?_repr]

theorem trailItems?_itemTokens (index : Nat) (last : Bool) (crumb : Crumb) (rest : List Token) :
    trailItems? (itemTokens index last crumb ++ rest) =
      (trailItems? rest).map (shownItem index last crumb :: ·) := by
  have item {label : List Char} (hd : Text.decode label = crumb.label.toList) :=
    trailItem?_eq index last crumb hd
  unfold itemTokens labelTokens
  split
  next empty =>
    have unlabelled : Text.decode [] = crumb.label.toList := by rw [empty]; rfl
    rw [List.nil_append, List.cons_append, List.cons_append, List.cons_append, List.cons_append,
      List.nil_append, trailItems?, item unlabelled]
    cases trailItems? rest <;> rfl
  next nonempty =>
    rw [List.cons_append, List.cons_append, List.cons_append, List.nil_append, List.cons_append,
      List.cons_append, List.cons_append, List.nil_append, trailItems?,
      item (Text.decode_escapeData crumb.label)]
    cases trailItems? rest <;> rfl

theorem trailItems?_flatMap {α : Type} {parts : α → List Token} {shown : α → TrailItem}
    (each : ∀ item rest,
      trailItems? (parts item ++ rest) = (trailItems? rest).map (shown item :: ·))
    (items : List α) (rest : List Token) :
    trailItems? (items.flatMap parts ++ rest) = (trailItems? rest).map (items.map shown ++ ·) := by
  induction items with
  | nil => exact (Option.map_id' ..).symm
  | cons item others ih =>
    rw [List.flatMap_cons, List.append_assoc, each, ih, Option.map_map]
    rfl

def shownItems (breadcrumb : Breadcrumb) : List TrailItem :=
  breadcrumb.items.zipIdx.map fun (crumb, index) =>
    shownItem index (index + 1 == breadcrumb.items.length) crumb

theorem trailItems?_itemsTokens (breadcrumb : Breadcrumb) (rest : List Token) :
    trailItems? (breadcrumb.itemsTokens ++ rest) =
      (trailItems? rest).map (breadcrumb.shownItems ++ ·) :=
  trailItems?_flatMap (fun (crumb, index) rest => trailItems?_itemTokens index _ crumb rest) _ rest

/-- The items of a trail are read back from its text. -/
theorem trail?_html (breadcrumb : Breadcrumb) :
    trail? breadcrumb.html = some breadcrumb.shownItems := by
  have trail : tagName (tagText "nav" (trailAttributes breadcrumb.separator)) = "nav" :=
    tagName_tagText (by decide) _ _
  have list : tagName (tagText "ol" listAttributes) = "ol" := tagName_tagText (by decide) _ _
  have ends : trailItems? [.tag "/ol".toList, .tag "/nav".toList] = some [] := by decide +kernel
  rw [trail?, tokens_html]
  dsimp only
  rw [if_pos ⟨trail, list⟩, trailItems?_itemsTokens, ends, Option.map_some, List.append_nil]

end Breadcrumb

end SyntaxMarkup

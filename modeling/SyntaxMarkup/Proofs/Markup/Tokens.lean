import SyntaxMarkup.Proofs.Markup.Tags

namespace SyntaxMarkup

namespace Text

/-- Text whose entities are characters again. -/
def decode : List Char → List Char
  | '&' :: 'a' :: 'm' :: 'p' :: ';' :: rest => '&' :: decode rest
  | '&' :: 'l' :: 't' :: ';' :: rest => '<' :: decode rest
  | '&' :: 'g' :: 't' :: ';' :: rest => '>' :: decode rest
  | '&' :: 'q' :: 'u' :: 'o' :: 't' :: ';' :: rest => '"' :: decode rest
  | c :: rest => c :: decode rest
  | [] => []

theorem decode_cons {c : Char} (other : c ≠ '&') (rest : List Char) :
    decode (c :: rest) = c :: decode rest := by
  rw [decode]
  all_goals
    rintro _ rfl
    exact absurd rfl other

theorem decode_dataEntity (c : Char) (rest : List Char) :
    decode (dataEntity c ++ rest) = c :: decode rest := by
  unfold dataEntity
  split
  case h_4 other _ _ => exact decode_cons other rest
  all_goals rfl

theorem decode_quotedEntity (c : Char) (rest : List Char) :
    decode (quotedEntity c ++ rest) = c :: decode rest := by
  unfold quotedEntity
  split
  · rfl
  · exact decode_dataEntity c rest

/-- What is decoded character by character is decoded. -/
theorem decode_flatMap {encode : Char → List Char}
    (each : ∀ c rest, decode (encode c ++ rest) = c :: decode rest) (text : List Char) :
    decode (text.flatMap encode) = text := by
  induction text with
  | nil => rfl
  | cons c rest ih => rw [List.flatMap_cons, each, ih]

theorem decode_escapeData (text : String) : decode (escapeData text).toList = text.toList := by
  rw [escapeData, String.toList_ofList, decode_flatMap decode_dataEntity]

theorem decode_escapeQuoted (text : String) : decode (escapeQuoted text).toList = text.toList := by
  rw [escapeQuoted, String.toList_ofList, decode_flatMap decode_quotedEntity]

theorem decode_eq_self {text : List Char} (plain : '&' ∉ text) : decode text = text := by
  induction text with
  | nil => rfl
  | cons c rest ih =>
    rw [List.mem_cons, not_or] at plain
    rw [decode_cons (Ne.symm plain.1), ih plain.2]

theorem decode_toString (n : Nat) : decode (toString n).toList = (toString n).toList :=
  decode_eq_self fun hm => absurd (isDigit_of_mem_toString hm) (by decide)

theorem escapeData_ne_nil {text : String} (h : text ≠ "") : (escapeData text).toList ≠ [] := by
  intro empty
  have same := decode_escapeData text
  rw [empty] at same
  exact h (String.toList_inj.mp same.symm)

end Text

namespace Html

inductive Token where
  /-- A tag without its angle brackets. -/
  | tag (inside : List Char)
  | text (content : List Char)
  deriving DecidableEq

/-- A tag ends at the first closing bracket, text at the next opening one. -/
def tokens : List Char → List Token
  | [] => []
  | c :: rest =>
    if c = '<' then .tag (rest.takeWhile (· ≠ '>')) :: tokens (rest.dropWhile (· ≠ '>')).tail
    else .text (c :: rest.takeWhile (· ≠ '<')) :: tokens (rest.dropWhile (· ≠ '<'))
termination_by text => text.length
decreasing_by
  · have shorter := (List.dropWhile_suffix (· ≠ '>') (l := rest)).length_le
    rw [List.length_tail, List.length_cons]
    omega
  · exact Nat.lt_succ_of_le (List.dropWhile_suffix _).length_le

theorem dropWhile_append_cons {stop : Char} {before : List Char} (other : stop ∉ before)
    (rest : List Char) : (before ++ stop :: rest).dropWhile (· ≠ stop) = stop :: rest := by
  rw [List.dropWhile_append_of_pos fun c hm => by
    simpa using fun eq : c = stop => other (eq ▸ hm)]
  simp

theorem tokens_cons_tag {inside : List Char} (hstop : '>' ∉ inside) (rest : List Char) :
    tokens ('<' :: (inside ++ '>' :: rest)) = .tag inside :: tokens rest := by
  rw [tokens, if_pos rfl, takeWhile_append_cons hstop, dropWhile_append_cons hstop, List.tail_cons]

/-- Text is one token up to the next tag. -/
theorem tokens_append_text {content : List Char} (nonempty : content ≠ []) (hs : '<' ∉ content)
    (rest : List Char) :
    tokens (content ++ '<' :: rest) = .text content :: tokens ('<' :: rest) := by
  cases content with
  | nil => exact absurd rfl nonempty
  | cons c content =>
    rw [List.mem_cons, not_or] at hs
    rw [List.cons_append, tokens, if_neg (Ne.symm hs.1), takeWhile_append_cons hs.2,
      dropWhile_append_cons hs.2]

/-- The name that a tag starts with. -/
def tagName (inside : List Char) : String :=
  String.ofList (inside.takeWhile (· ≠ ' '))

def value? (inside : List Char) (name : String) : Option String :=
  ((attributes inside).lookup name).map fun value => String.ofList (Text.decode value.toList)

theorem tagName_tagText {name : String} (hs : ' ' ∉ name.toList)
    (entry : String × String) (rest : List (String × String)) :
    tagName (tagText name (entry :: rest)) = name := by
  have tag : tagText name (entry :: rest) =
      name.toList ++ ' ' :: ((attributeText entry).tail ++ rest.flatMap attributeText) := rfl
  rw [tagName, tag, takeWhile_append_cons hs, String.ofList_toList]

theorem value?_tagText {name key value text : String} (plain : Plain name.toList)
    {list : List (String × String)} (hw : ∀ entry ∈ list, WellFormed entry)
    (hf : list.lookup key = some value) (hd : Text.decode value.toList = text.toList) :
    value? (tagText name list) key = some text := by
  rw [value?, tagText, attributes_append (plain '"' (by decide)) hw, hf, Option.map_some,
    hd, String.ofList_toList]

theorem tokens_tagText {name : String} (plain : Plain name.toList) {list : List (String × String)}
    (hw : ∀ entry ∈ list, WellFormed entry) (rest : List Char) :
    tokens ('<' :: (tagText name list ++ '>' :: rest)) = .tag (tagText name list) :: tokens rest :=
  tokens_cons_tag (not_mem_tagText plain hw).2 rest

/-- The text outside all tags. -/
def outside : List Token → List Char :=
  List.flatMap fun
    | .tag _ => []
    | .text content => Text.decode content

end Html

end SyntaxMarkup

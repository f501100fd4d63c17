import SyntaxMarkup.Proofs.Markup.Calls
import SyntaxMarkup.Proofs.Markup.Tokens
import Std.Data.String.ToNat

namespace SyntaxMarkup

namespace Html

/-- Markup as a page shows it. -/
inductive Shown where
  | text (content : String)
  | unit (id : Nat) (label title : String) (children : List Shown)

structure Heading where
  id : Nat
  label : String
  title : String

structure Contents where
  stylesheet : Option String
  generation : Nat
  forest : List Shown

/-- The start of a unit. -/
def heading? (inside : List Char) : Option Heading :=
  if tagName inside = "span" then do
    return ⟨← (← value? inside "data-unit").toNat?, ← value? inside "class",
      ← value? inside "title"⟩
  else none

/-- Reads up to the end of the container, which closes after all its spans; `done` is what was read
of the innermost open span, the newest first. -/
def forest? (spans : List (Heading × List Shown)) (done : List Shown) :
    List Token → Option (List Shown)
  | [] => none
  | .text content :: rest =>
    forest? spans (.text (String.ofList (Text.decode content)) :: done) rest
  | .tag inside :: rest =>
    if tagName inside = "/span" then
      match spans with
      | [] => none
      | (heading, before) :: outer =>
        forest? outer (.unit heading.id heading.label heading.title done.reverse :: before) rest
    else if tagName inside = "/code" then
      if spans.isEmpty && rest.isEmpty then some done.reverse else none
    else (heading? inside).bind fun heading => forest? ((heading, done) :: spans) [] rest

def container? : List Token → Option (Nat × List Shown)
  | .tag inside :: rest =>
    if tagName inside = "code" then do
      return (← (← value? inside "data-generation").toNat?, ← forest? [] [] rest)
    else none
  | _ => none

/-- The container may come after a link to a stylesheet. -/
def read? (text : String) : Option Contents :=
  match tokens text.toList with
  | .tag inside :: rest =>
    if tagName inside = "link" then do
      let (generation, forest) ← container? rest
      return ⟨some (← value? inside "href"), generation, forest⟩
    else do
      let (generation, forest) ← container? (.tag inside :: rest)
      return ⟨none, generation, forest⟩
  | _ => none

end Html

open Html

namespace Fragment

mutual

def shown : Fragment → Shown
  | .text content => .text content
  | .unit id label title _ children => .unit id label (title.getD label) (shownOf children)

def shownOf : List Fragment → List Shown
  | [] => []
  | fragment :: rest => fragment.shown :: shownOf rest

end

mutual

/-- The tokens of the HTML text of a fragment. -/
def tokens : Fragment → List Token
  | .text content => [.text (Text.escapeData content).toList]
  | .unit id label title node children =>
    .tag (tagText "span" (MarkupUnit.mk id label title node none children).attributes) ::
      (tokensOf children ++ [.tag "/span".toList])

def tokensOf : List Fragment → List Token
  | [] => []
  | fragment :: rest => fragment.tokens ++ tokensOf rest

end

theorem html_unit_append (unit : MarkupUnit) (rest : List Char) :
    (html (.unit unit.id unit.label unit.title unit.node unit.children)).toList ++ rest =
      '<' :: (tagText "span" unit.attributes ++
        '>' :: ((htmlOf unit.children).toList ++ ("</span>".toList ++ rest))) := by
  rw [html, String.toList_append, String.toList_append, List.append_assoc, List.append_assoc]
  exact startTag_append unit _

/-- What comes after text starts with a tag. -/
theorem exists_htmlOf_eq {fragments : List Fragment}
    (htext : ∀ fragment ∈ fragments.head?, fragment.isText = false) (rest : List Char) :
    ∃ tail, (htmlOf fragments).toList ++ '<' :: rest = '<' :: tail := by
  cases fragments with
  | nil => exact ⟨rest, rfl⟩
  | cons fragment others =>
    cases fragment with
    | text => cases htext _ rfl
    | unit id label title node children =>
      have unit := html_unit_append ⟨id, label, title, node, none, children⟩
      exact ⟨_, by rw [htmlOf, String.toList_append, List.append_assoc, unit]⟩

mutual

/-- The HTML text of a fragment is cut into its tags and texts if text is followed by a tag. -/
theorem tokens_html : ∀ fragment : Fragment, fragment.Tidy →
    ∀ rest, (fragment.isText = true → ∃ tail, rest = '<' :: tail) →
    Html.tokens (fragment.html.toList ++ rest) = fragment.tokens ++ Html.tokens rest
  | .text content, ht, rest, ends => by
    obtain ⟨tail, rfl⟩ := ends rfl
    rw [html, tokens]
    exact tokens_append_text (Text.escapeData_ne_nil ht) (Text.not_mem_escapeData content) tail
  | .unit id label title node children, ht, rest, _ => by
    have unit := html_unit_append ⟨id, label, title, node, none, children⟩ rest
    have inner := tokens_htmlOf children (allTidy_iff.mp ht.1) ht.2 ("/span>".toList ++ rest)
    have stop : Html.tokens ("</span>".toList ++ rest) =
        .tag "/span".toList :: Html.tokens rest :=
      tokens_cons_tag (by decide : '>' ∉ "/span".toList) rest
    rw [unit, tokens_tagText (by simp) (MarkupUnit.wellFormed_attributes _), tokens,
      List.cons_append, List.append_assoc]
    exact congrArg _ (inner.trans (congrArg _ stop))

theorem tokens_htmlOf : ∀ fragments : List Fragment, (∀ fragment ∈ fragments, fragment.Tidy) →
    Apart fragments → ∀ rest,
    Html.tokens ((htmlOf fragments).toList ++ '<' :: rest) =
      tokensOf fragments ++ Html.tokens ('<' :: rest)
  | [], _, _, _ => rfl
  | fragment :: others, ht, ha, rest => by
    obtain ⟨here, later⟩ := List.forall_mem_cons.mp ht
    obtain ⟨next, ha⟩ := List.isChain_cons.mp ha
    have ends (text : fragment.isText = true) :
        ∃ tail, (htmlOf others).toList ++ '<' :: rest = '<' :: tail :=
      exists_htmlOf_eq (fun other hm => (next other hm).resolve_left (by simp [text])) rest
    rw [htmlOf, tokensOf, String.toList_append, List.append_assoc, List.append_assoc,
      ← tokens_htmlOf others later ha rest]
    exact tokens_html fragment here _ ends

end

mutual

theorem outside_tokens : ∀ fragment : Fragment,
    outside fragment.tokens = fragment.content.toList
  | .text content => by
    rw [tokens, Fragment.content, ← Text.decode_escapeData content]
    exact List.append_nil _
  | .unit id label title node children => by
    rw [tokens, Fragment.content, ← outside_tokensOf children, outside, List.flatMap_cons,
      List.flatMap_append]
    exact List.append_nil _

theorem outside_tokensOf : ∀ fragments : List Fragment,
    outside (tokensOf fragments) = (contents fragments).toList
  | [] => rfl
  | fragment :: others => by
    rw [tokensOf, contents, String.toList_append, ← outside_tokens fragment,
      ← outside_tokensOf others, outside, List.flatMap_append]

end

theorem tagName_attributes (unit : MarkupUnit) :
    tagName (tagText "span" unit.attributes) = "span" :=
  tagName_tagText (by decide) _ _

theorem heading?_attributes (unit : MarkupUnit) :
    heading? (tagText "span" unit.attributes) = some ⟨unit.id, unit.label, unit.shownTitle⟩ := by
  have value (key : String) {value text : String} (hf : unit.attributes.lookup key = some value)
      (hd : Text.decode value.toList = text.toList) :
      value? (tagText "span" unit.attributes) key = some text :=
    value?_tagText (by simp) unit.wellFormed_attributes hf hd
  have number := value "data-unit" rfl (Text.decode_toString unit.id)
  have label := value "class" rfl (Text.decode_escapeQuoted unit.label)
  have title := value "title" rfl (Text.decode_escapeQuoted unit.shownTitle)
  rw [heading?, if_pos (tagName_attributes unit), number, label, title]
  simp [Nat.toNat?_repr]

theorem forest?_startSpan (unit : MarkupUnit) (spans : List (Heading × List Shown))
    (done : List Shown) (rest : List Token) :
    forest? spans done (.tag (tagText "span" unit.attributes) :: rest) =
      forest? ((⟨unit.id, unit.label, unit.shownTitle⟩, done) :: spans) [] rest := by
  rw [forest?.eq_def]
  dsimp only
  rw [tagName_attributes, if_neg (by decide), if_neg (by decide), heading?_attributes,
    Option.bind_some]

theorem forest?_endSpan (heading : Heading) (before done : List Shown)
    (outer : List (Heading × List Shown)) (rest : List Token) :
    forest? ((heading, before) :: outer) done (.tag "/span".toList :: rest) =
      forest? outer (.unit heading.id heading.label heading.title done.reverse :: before) rest := by
  rw [forest?.eq_def]
  exact if_pos (by decide)

mutual

/-- Reading the tokens of a fragment adds the fragment to what is read. -/
theorem forest?_tokens (spans : List (Heading × List Shown)) (done : List Shown)
    (rest : List Token) : ∀ fragment : Fragment,
    forest? spans done (fragment.tokens ++ rest) = forest? spans (fragment.shown :: done) rest
  | .text content => by
    rw [tokens, shown, List.singleton_append, forest?, Text.decode_escapeData, String.ofList_toList]
  | .unit id label title node children => by
    rw [tokens, shown, List.cons_append, forest?_startSpan, List.append_assoc,
      forest?_tokensOf _ _ _ children, List.singleton_append, forest?_endSpan,
      List.append_nil, List.reverse_reverse]
    rfl

theorem forest?_tokensOf (spans : List (Heading × List Shown)) (done : List Shown)
    (rest : List Token) : ∀ fragments : List Fragment,
    forest? spans done (tokensOf fragments ++ rest) =
      forest? spans ((shownOf fragments).reverse ++ done) rest
  | [] => rfl
  | fragment :: others => by
    rw [tokensOf, shownOf, List.append_assoc, forest?_tokens spans done _ fragment,
      forest?_tokensOf spans _ rest others, List.reverse_cons, List.append_assoc,
      List.singleton_append]

end

end Fragment

namespace Document

theorem forest?_end (done : List Shown) :
    forest? [] done [.tag "/code".toList] = some done.reverse := by
  rw [forest?.eq_def]
  exact (if_neg (by decide)).trans (if_pos (by decide))

theorem tokens_html {document : Document} (hm : Fragment.Merged document.roots)
    (generation : Nat) (stylesheet : Option String) :
    Html.tokens (document.html generation stylesheet).toList =
      stylesheet.toList.map (fun href => .tag (tagText "link" (stylesheetAttributes href))) ++
        .tag (tagText "code" (containerAttributes generation)) ::
          (Fragment.tokensOf document.roots ++ [.tag "/code".toList]) := by
  have stop : Html.tokens "</code>".toList = [.tag "/code".toList] := by decide +kernel
  have inner := Fragment.tokens_htmlOf document.roots hm.tidy hm.apart "/code>".toList
  have container : Html.tokens ((containerTag generation).toList ++
      ((Fragment.htmlOf document.roots).toList ++ "</code>".toList)) =
      .tag (tagText "code" (containerAttributes generation)) ::
        (Fragment.tokensOf document.roots ++ [.tag "/code".toList]) := by
    rw [containerTag_append, tokens_tagText (by simp) (wellFormed_containerAttributes _), ← stop]
    exact congrArg _ inner
  rw [html_eq, String.toList_append, String.toList_append, String.toList_append]
  cases stylesheet with
  | none => exact container
  | some href =>
    rw [Option.elim_some, stylesheetLink_append, tokens_tagText (by simp)
      (wellFormed_stylesheetAttributes _), container]
    rfl

theorem outside_html {document : Document} (hm : Fragment.Merged document.roots)
    (generation : Nat) (stylesheet : Option String) :
    outside (Html.tokens (document.html generation stylesheet).toList) = document.text.toList := by
  have inner : outside (.tag (tagText "code" (containerAttributes generation)) ::
      (Fragment.tokensOf document.roots ++ [.tag "/code".toList])) = document.text.toList := by
    rw [Document.text, ← Fragment.outside_tokensOf, outside, List.flatMap_cons, List.flatMap_append]
    exact List.append_nil _
  rw [tokens_html hm]
  cases stylesheet with
  | none => exact inner
  | some href => exact inner

theorem tagName_container (generation : Nat) :
    tagName (tagText "code" (containerAttributes generation)) = "code" :=
  tagName_tagText (by decide) _ _

theorem container?_tokens (generation : Nat) (roots : List Fragment) :
    container? (.tag (tagText "code" (containerAttributes generation)) ::
      (Fragment.tokensOf roots ++ [.tag "/code".toList])) =
      some (generation, Fragment.shownOf roots) := by
  have number : value? (tagText "code" (containerAttributes generation)) "data-generation" =
      some (toString generation) :=
    value?_tagText (by simp) (wellFormed_containerAttributes generation) rfl
      (Text.decode_toString generation)
  rw [container?, if_pos (tagName_container generation), number, Fragment.forest?_tokensOf,
    forest?_end]
  simp [Nat.toNat?_repr]

theorem read?_html {document : Document} (hm : Fragment.Merged document.roots)
    (generation : Nat) (stylesheet : Option String) :
    read? (document.html generation stylesheet) =
      some ⟨stylesheet, generation, Fragment.shownOf document.roots⟩ := by
  have container := container?_tokens generation document.roots
  rw [read?, tokens_html hm]
  cases stylesheet with
  | none =>
    rw [Option.toList_none, List.map_nil, List.nil_append]
    dsimp only
    rw [tagName_container, if_neg (by decide), container]
    rfl
  | some href =>
    have link : tagName (tagText "link" (stylesheetAttributes href)) = "link" :=
      tagName_tagText (by decide) _ _
    have value : value? (tagText "link" (stylesheetAttributes href)) "href" = some href :=
      value?_tagText (by simp) (wellFormed_stylesheetAttributes href) rfl
        (Text.decode_escapeQuoted href)
    rw [Option.toList_some, List.map_singleton, List.singleton_append]
    dsimp only
    rw [link, if_pos rfl, value, container]
    rfl

/-- Whatever calls built a document, all that its HTML text shows is read back from it. -/
theorem contents_of_html (calls : List MarkupCall) (generation : Nat)
    (stylesheet : Option String) :
    let document := (Builder.after calls).finish
    let text := document.html generation stylesheet
    read? text = some ⟨stylesheet, generation, Fragment.shownOf document.roots⟩ ∧
      values "data-unit" text = (List.range document.unitCount).map toString ∧
      outside (Html.tokens text.toList) = document.text.toList := by
  have hm := (Builder.merged_after calls).finish
  refine ⟨read?_html hm generation stylesheet, ?_, outside_html hm generation stylesheet⟩
  rw [values_unit, ← Builder.map_id_finish (Builder.counted_after calls), List.map_map]
  rfl

end Document

end SyntaxMarkup

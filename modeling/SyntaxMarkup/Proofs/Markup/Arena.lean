import SyntaxMarkup.Proofs.Layout.Standing
import SyntaxMarkup.Proofs.Markup.Storage

namespace SyntaxMarkup

open Arena (Entry Cell Visitor Writer)

variable {σ : Type}

namespace Fragment

mutual

/-- A visitor goes through nested markup. -/
def walk (visitor : Visitor σ) (parent : Option Nat) : Fragment → σ → σ
  | .text content, state => visitor.text content state
  | .unit id label title node children, state =>
    let unit : MarkupUnit := ⟨id, label, title, node, parent, children⟩
    visitor.leave (walkAll visitor (some id) children (visitor.enter id unit.cell state))

def walkAll (visitor : Visitor σ) (parent : Option Nat) : List Fragment → σ → σ
  | [], state => state
  | fragment :: rest, state => walkAll visitor parent rest (fragment.walk visitor parent state)

end

mutual

theorem walk_textVisitor (parent : Option Nat) : ∀ (fragment : Fragment) (out : String),
    fragment.walk Arena.textVisitor parent out = out ++ fragment.content
  | .text _, _ => rfl
  | .unit id _ _ _ children, out => walkAll_textVisitor (some id) children out

theorem walkAll_textVisitor (parent : Option Nat) : ∀ (fragments : List Fragment) (out : String),
    walkAll Arena.textVisitor parent fragments out = out ++ contents fragments
  | [], out => by rw [walkAll, contents, String.append_empty]
  | fragment :: rest, out => by
    rw [walkAll, walk_textVisitor parent fragment, walkAll_textVisitor parent rest, contents,
      String.append_assoc]

end

mutual

theorem walk_htmlVisitor (parent : Option Nat) : ∀ (fragment : Fragment) (out : String),
    fragment.walk Arena.htmlVisitor parent out = out ++ fragment.html
  | .text _, _ => rfl
  | .unit id label title node children, out => by
    rw [walk, walkAll_htmlVisitor (some id) children, html]
    simp only [Arena.htmlVisitor, Cell.shownTitle, MarkupUnit.cell, String.append_assoc]

theorem walkAll_htmlVisitor (parent : Option Nat) : ∀ (fragments : List Fragment) (out : String),
    walkAll Arena.htmlVisitor parent fragments out = out ++ htmlOf fragments
  | [], out => by rw [walkAll, htmlOf, String.append_empty]
  | fragment :: rest, out => by
    rw [walkAll, walk_htmlVisitor parent fragment, walkAll_htmlVisitor parent rest, htmlOf,
      String.append_assoc]

end

mutual

theorem walk_idVisitor (parent : Option Nat) : ∀ (fragment : Fragment) (ids : List Nat),
    fragment.walk Arena.idVisitor parent ids = ids ++ (fragment.units parent).map MarkupUnit.id
  | .text _, ids => (List.append_nil ids).symm
  | .unit id label title node children, ids => by
    rw [walk, walkAll_idVisitor (some id) children, units]
    simp only [Arena.idVisitor, List.map_cons, List.append_assoc, List.singleton_append]

theorem walkAll_idVisitor (parent : Option Nat) : ∀ (fragments : List Fragment) (ids : List Nat),
    walkAll Arena.idVisitor parent fragments ids =
      ids ++ (unitsOf parent fragments).map MarkupUnit.id
  | [], ids => (List.append_nil ids).symm
  | fragment :: rest, ids => by
    rw [walkAll, walk_idVisitor parent fragment, walkAll_idVisitor parent rest, unitsOf,
      List.map_append, List.append_assoc]

end

mutual

/-- What is in a unit of some markup is in that markup. -/
theorem mem_units_of_mem {parent : Option Nat} {unit inner : MarkupUnit} : ∀ fragment : Fragment,
    unit ∈ fragment.units parent → inner ∈ unitsOf (some unit.id) unit.children →
      inner ∈ fragment.units parent
  | .unit id label title node children, hu, hi => by
    rcases List.mem_cons.mp hu with rfl | hu
    · exact List.mem_cons_of_mem _ hi
    · exact List.mem_cons_of_mem _ (mem_unitsOf_of_mem children hu hi)

theorem mem_unitsOf_of_mem {parent : Option Nat} {unit inner : MarkupUnit} :
    ∀ fragments : List Fragment, unit ∈ unitsOf parent fragments →
      inner ∈ unitsOf (some unit.id) unit.children → inner ∈ unitsOf parent fragments
  | fragment :: rest, hu, hi => by
    rcases List.mem_append.mp hu with hu | hu
    · exact List.mem_append_left _ (mem_units_of_mem fragment hu hi)
    · exact List.mem_append_right _ (mem_unitsOf_of_mem rest hu hi)

end

mutual

theorem merged_of_mem_units {parent : Option Nat} {unit : MarkupUnit} : ∀ fragment : Fragment,
    fragment.Tidy → unit ∈ fragment.units parent → Merged unit.children
  | .unit id label title node children, ht, hu => by
    obtain ⟨ha, hc⟩ := ht
    rcases List.mem_cons.mp hu with rfl | hu
    · exact ⟨allTidy_iff.mp ha, hc⟩
    · exact merged_of_mem_unitsOf children ha hu

theorem merged_of_mem_unitsOf {parent : Option Nat} {unit : MarkupUnit} :
    ∀ fragments : List Fragment, AllTidy fragments → unit ∈ unitsOf parent fragments →
      Merged unit.children
  | fragment :: rest, ⟨hf, hr⟩, hu => by
    rcases List.mem_append.mp hu with hu | hu
    · exact merged_of_mem_units fragment hf hu
    · exact merged_of_mem_unitsOf rest hr hu

end

theorem exists_unit_of_mem_entries (parent : Option Nat) {id : Nat} {fragments : List Fragment}
    (hi : Entry.unit id ∈ (entries fragments).toList) :
    ∃ unit ∈ unitsOf parent fragments, unit.id = id := by
  obtain ⟨fragment, hf, he⟩ := List.mem_map.mp hi
  cases fragment with
  | text => cases he
  | unit other label title node children =>
    cases he
    refine ⟨⟨id, label, title, node, parent, children⟩, ?_, rfl⟩
    obtain ⟨first, rest, rfl⟩ := List.append_of_mem hf
    rw [unitsOf_append, unitsOf, units]
    exact List.mem_append_right _ (List.mem_append_left _ List.mem_cons_self)

theorem count_entries (id : Nat) (fragments : List Fragment) :
    (entries fragments).count (.unit id) = (fragments.filterMap unitId?).count id := by
  induction fragments with
  | nil => rfl
  | cons fragment rest ih =>
    simp only [entries, List.count_toArray] at ih ⊢
    rw [List.map_cons, List.count_cons, ih]
    cases fragment with
    | text content => simp [entry, unitId?, List.filterMap_cons]
    | unit other label title node children =>
      simp [entry, unitId?, List.count_cons]

end Fragment

namespace Document

variable {document : Document} {arena : Arena}

namespace StoredIn

section Readers

variable (hs : document.StoredIn arena)
include hs

theorem unitCount : arena.unitCount = document.unitCount := by
  rw [Arena.unitCount, hs.cells, List.size_toArray, List.length_map, Document.unitCount]

theorem unit? (id : Nat) : arena.unit? id = (document.unit? id).map MarkupUnit.cell := by
  rw [Arena.unit?, hs.cells, List.getElem?_toArray, List.getElem?_map, Document.unit?]

theorem unitFor? (node : Nat) : arena.unitFor? node = document.unitFor? node :=
  congrArg (fun units : NodeUnits => units[node]?) hs.nodeUnits

theorem nodeCount : arena.nodeCount = document.nodeCount :=
  congrArg Std.TreeMap.size hs.nodeUnits

/-- The fragments in a unit, or those at the top, are stored as they stand. -/
theorem entriesIn (container : Option Nat) : arena.entriesIn container =
    Fragment.entries (container.elim document.roots fun id =>
      (document.unit? id).elim [] MarkupUnit.children) := by
  cases container with
  | none => exact hs.roots
  | some id =>
    rw [Arena.entriesIn, hs.unit?, Option.elim_some]
    cases document.unit? id <;> rfl

theorem unitsIn (container : Option Nat) :
    (arena.unitsIn container).toList = document.unitsIn container := by
  have hf (fragments : List Fragment) :
      ((Fragment.entries fragments).filterMap Entry.unit?).toList =
        fragments.filterMap Fragment.unitId? := by
    simp only [Fragment.entries, List.filterMap_toArray, List.filterMap_map]
    refine congrArg (fragments.filterMap ·) (funext fun fragment => ?_)
    cases fragment <;> rfl
  rw [Arena.unitsIn, hs.entriesIn, hf]
  cases container with
  | none => rfl
  | some id =>
    rw [Option.elim_some, Document.unitsIn]
    cases document.unit? id <;> rfl

/-- The entries in a container are those of fragments whose units are in the document. -/
theorem exists_entriesIn (container : Option Nat) : ∃ parent fragments,
    arena.entriesIn container = Fragment.entries fragments ∧
      (∀ unit ∈ Fragment.unitsOf parent fragments, unit ∈ document.units) ∧
      (Fragment.Merged document.roots → Fragment.Merged fragments) := by
  rw [hs.entriesIn]
  cases container with
  | none => exact ⟨none, document.roots, rfl, fun _ hu => hu, fun hm => hm⟩
  | some id =>
    rw [Option.elim_some]
    cases hf : document.unit? id with
    | none => exact ⟨none, [], rfl, nofun, fun _ => .nil⟩
    | some unit =>
      have hu : unit ∈ document.units := List.mem_of_getElem? hf
      exact ⟨some unit.id, unit.children, rfl,
        fun _ hi => Fragment.mem_unitsOf_of_mem document.roots hu hi, fun hm =>
          Fragment.merged_of_mem_unitsOf _ (Fragment.allTidy_iff.mpr hm.tidy) hu⟩

end Readers

mutual

/-- By the numbers that are stored a visitor comes to what nested markup holds. -/
theorem walk_entry (hs : document.StoredIn arena) (hn : document.Numbered)
    (visitor : Visitor σ) (parent : Option Nat) : ∀ fragment : Fragment,
      (∀ unit ∈ fragment.units parent, unit ∈ document.units) → ∀ state,
      arena.walk visitor fragment.entry state = some (fragment.walk visitor parent state)
  | .text content, _, state => by rw [Fragment.entry, Arena.walk, Fragment.walk]
  | .unit id label title node children, hu, state => by
    obtain ⟨hh, hc⟩ := List.forall_mem_cons.mp hu
    have hf := hn.unit?_of_mem hh
    rw [Fragment.entry, Arena.walk, hs.unit?, hf, Option.map_some]
    have hi := walkAll_entries hs hn visitor (some id) children hc
      (visitor.enter id (MarkupUnit.cell ⟨id, label, title, node, parent, children⟩) state)
    rw [Arena.walkAll] at hi
    simp only [MarkupUnit.cell] at hi ⊢
    rw [hi]
    rfl

theorem walkAll_entries (hs : document.StoredIn arena) (hn : document.Numbered)
    (visitor : Visitor σ) (parent : Option Nat) : ∀ fragments : List Fragment,
      (∀ unit ∈ Fragment.unitsOf parent fragments, unit ∈ document.units) → ∀ state,
      arena.walkAll visitor (Fragment.entries fragments) state =
        some (Fragment.walkAll visitor parent fragments state)
  | [], _, _ => rfl
  | fragment :: rest, hu, state => by
    obtain ⟨hh, hr⟩ := List.forall_mem_append.mp hu
    have hf := walk_entry hs hn visitor parent fragment hh state
    have hi := walkAll_entries hs hn visitor parent rest hr (fragment.walk visitor parent state)
    rw [Arena.walkAll, Fragment.entries, List.foldlM_toArray] at hi ⊢
    rw [List.map_cons, List.foldlM_cons, hf]
    exact hi

end

section Walks

variable (hs : document.StoredIn arena) (hn : document.Numbered)
include hs hn

/-- A unit is named once: among the entries of its parent. -/
theorem count_entriesIn {id : Nat} {unit : MarkupUnit} (hf : document.unit? id = some unit)
    (container : Option Nat) :
    (arena.entriesIn container).count (.unit id) = if unit.parent = container then 1 else 0 := by
  rw [← hn.count_unitsIn hf container, hs.entriesIn, Fragment.count_entries]
  cases container with
  | none => rfl
  | some outer =>
    rw [Option.elim_some, Document.unitsIn]
    cases document.unit? outer <;> rfl

theorem lt_unitCount_of_mem {container : Option Nat} {id : Nat}
    (hi : Entry.unit id ∈ (arena.entriesIn container).toList) : id < arena.unitCount := by
  obtain ⟨parent, fragments, he, hu, -⟩ := hs.exists_entriesIn container
  rw [he] at hi
  obtain ⟨unit, hf, rfl⟩ := Fragment.exists_unit_of_mem_entries parent hi
  rw [hs.unitCount]
  exact (List.getElem?_eq_some_iff.mp (hn.unit?_of_mem (hu unit hf))).1

theorem walkAll_roots (visitor : Visitor σ) (state : σ) :
    arena.walkAll visitor arena.roots state =
      some (Fragment.walkAll visitor none document.roots state) := by
  rw [hs.roots]
  exact hs.walkAll_entries hn visitor none document.roots (fun _ hu => hu) state

theorem ids : arena.ids = some (List.range arena.unitCount) := by
  rw [Arena.ids, hs.walkAll_roots hn, Fragment.walkAll_idVisitor, List.nil_append, hs.unitCount,
    ← hn]
  rfl

theorem text : arena.text = some document.text := by
  rw [Arena.text, hs.walkAll_roots hn, Fragment.walkAll_textVisitor, String.empty_append,
    Document.text]

theorem html (generation : Nat) (stylesheet : Option String) :
    arena.html generation stylesheet = some (document.html generation stylesheet) := by
  rw [Arena.html, hs.walkAll_roots hn, Fragment.walkAll_htmlVisitor, Document.html]
  simp only [Option.bind_eq_bind, Option.bind_some, String.append_assoc]
  rfl

theorem unitText (id : Nat) : arena.unitText id = some (document.unitText id) := by
  rw [Arena.unitText, hs.entriesIn, Option.elim_some, Document.unitText]
  cases hu : document.unit? id with
  | none => rfl
  | some unit =>
    have hm : unit ∈ document.units := List.mem_of_getElem? hu
    have hw := hs.walkAll_entries hn Arena.textVisitor (some unit.id) unit.children
      (fun _ hi => Fragment.mem_unitsOf_of_mem document.roots hm hi) ""
    rw [Fragment.walkAll_textVisitor, String.empty_append] at hw
    exact hw

end Walks

end StoredIn

end Document

namespace Arena

/-- No text is empty or next to other text. -/
structure Merged (entries : List Entry) : Prop where
  nonempty : ∀ content, Entry.text content ∈ entries → content ≠ ""
  apart : entries.IsChain fun first second => first.unit?.isSome ∨ second.unit?.isSome

theorem merged_entries {fragments : List Fragment} (hm : Fragment.Merged fragments) :
    Merged (Fragment.entries fragments).toList where
  nonempty content hc := by
    obtain ⟨fragment, hf, he⟩ := List.mem_map.mp hc
    cases fragment with
    | text other =>
      cases he
      exact hm.tidy _ hf
    | unit => cases he
  apart := by
    refine List.isChain_map_of_isChain Fragment.entry ?_ hm.apart
    intro first second hn
    cases first <;> cases second <;> simp_all [Fragment.isText, Fragment.entry, Entry.unit?]

/-- What an arena shows of the calls that it was written by. -/
structure Records (arena : Arena) (calls : List MarkupCall) : Prop where
  /-- Each unit stands in one place, among the entries of its parent, which comes before it. -/
  placed : ∀ id < arena.unitCount, ∃ cell, arena.unit? id = some cell ∧
    (∀ container, (arena.entriesIn container).count (.unit id) =
      if cell.parent = container then 1 else 0) ∧
    ∀ parent, cell.parent = some parent → parent < id
  /-- No other units are named. -/
  known : ∀ container id, Entry.unit id ∈ (arena.entriesIn container).toList → id < arena.unitCount
  /-- On the way through the document the units are met by number. -/
  ids : arena.ids = some (List.range arena.unitCount)
  /-- The units are the ones that were opened. -/
  opened : arena.cells.toList.map (fun cell => (cell.label, cell.title)) =
    (calls.filterMap MarkupCall.opened?).map fun opened => (opened.1, opened.2.1)
  merged : ∀ container, Merged (arena.entriesIn container).toList
  text : arena.text = some (String.join (calls.filterMap MarkupCall.text?))
  unitText : ∀ id, arena.unitText id = some (String.join (MarkupCall.textsIn id 0 [] calls))
  /-- A node is shown by the unit that was named for it last. -/
  unitFor : ∀ node, arena.unitFor? node = (MarkupCall.named 0 calls).reverse.lookup node
  /-- A unit keeps the node that it was opened for. -/
  nodeFor : ∀ id, arena.nodeFor? id =
    ((calls.filterMap MarkupCall.opened?)[id]?).bind fun opened => opened.2.2

/-- Whatever calls write an arena, in whatever order, each goes to a unit that is there, and the
arena shows them. -/
theorem records_of_calls (calls : List MarkupCall) :
    (Writer.after calls).InBounds ∧ (Writer.after calls).finish.Records calls := by
  have hs := (Builder.storedBy_after calls).finish
  have hn := Builder.numbered_after calls
  have hm := Builder.marks_after calls
  have ho := Builder.opened_of_marks hm
  have ht := (Builder.merged_after calls).finish
  refine ⟨Writer.inBounds_after calls, fun id hid => ?_,
    fun _ _ hi => hs.lt_unitCount_of_mem hn hi, hs.ids hn, ?_,
    fun container => ?_, ?_, fun id => ?_, fun node => ?_, fun id => ?_⟩
  · rw [hs.unitCount] at hid
    obtain ⟨unit, hf, rfl⟩ := hn.exists_unit hid
    refine ⟨unit.cell, by rw [hs.unit?, hf, Option.map_some], hs.count_entriesIn hn hf,
      fun parent hp => ?_⟩
    refine Document.parentsFirst_of_marks hm hn unit.id parent ?_
    rw [hf, Option.bind_some]
    exact hp
  · rw [hs.cells, ← ho, List.map_map, List.map_map]
    rfl
  · obtain ⟨parent, fragments, he, -, hk⟩ := hs.exists_entriesIn container
    rw [he]
    exact merged_entries (hk ht)
  · rw [hs.text hn, Builder.text_of_marks hm]
  · rw [hs.unitText hn, Builder.unitText_of_marks hm hn]
  · rw [hs.unitFor?]
    refine (Builder.unitFor?_performed {} calls node).trans ?_
    simp [Builder.unitFor?]
  · rw [hs.nodeFor, ← ho, List.getElem?_map, Document.nodeFor?, Document.unit?]
    cases (Builder.after calls).finish.units[id]? <;> rfl

end Arena

namespace Tree

/-- The text that a tree is rendered to can be read from the arena. -/
theorem text_store (tree : Tree) (options : RenderOptions) :
    (tree.store options).text = some (tree.render options).text :=
  (tree.storedIn_store options).text (tree.numbered_render options)

theorem html_store (tree : Tree) (options : RenderOptions) (generation : Nat)
    (stylesheet : Option String) : (tree.store options).html generation stylesheet =
      some ((tree.render options).html generation stylesheet) :=
  (tree.storedIn_store options).html (tree.numbered_render options) generation stylesheet

end Tree

end SyntaxMarkup

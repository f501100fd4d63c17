import SyntaxMarkup.Layout.Rendering
import SyntaxMarkup.Proofs.Markup.Marks
import SyntaxMarkup.Proofs.Tree.Traversal
import Mathlib.Data.List.Forall2
import Mathlib.Data.List.Nodup

namespace SyntaxMarkup

/-- A unit as it is opened, with the node of the unit around it. -/
structure Opening where
  label : String
  title : Option String
  node : Nat
  owner : Option Nat

namespace Event

/-- The openings of events inside units for the given nodes, the innermost first. -/
def openings : List Nat → List Event → List Opening
  | _, [] => []
  | around, .openUnit label title node :: rest =>
    ⟨label, title, node, around.head?⟩ :: openings (node :: around) rest
  | around, .close :: rest => openings around.tail rest
  | around, _ :: rest => openings around rest

/-- The nodes that an event gives a unit, as its own or as that of another node. -/
def named : Event → List Nat
  | .openUnit _ _ node => [node]
  | .share node _ => [node]
  | _ => []

theorem named_shares (nodes : List Nat) (target : Nat) :
    (nodes.map fun node => share node target).flatMap named = nodes := by
  rw [List.flatMap_map]
  exact List.flatMap_singleton' nodes

/-- Events that leave as many units open as they found. -/
def Balanced (events : List Event) : Prop :=
  ∀ around rest, openings around (events ++ rest) = openings around events ++ openings around rest

theorem openings_flatMap {α : Type} {items : List α} {f : α → List Event}
    (h : ∀ item ∈ items, Balanced (f item)) (around : List Nat) :
    openings around (items.flatMap f) = items.flatMap fun item => openings around (f item) := by
  induction items with
  | nil => rfl
  | cons item rest ih =>
    rw [List.flatMap_cons, List.flatMap_cons, h item List.mem_cons_self,
      ih fun other hm => h other (.tail _ hm)]

theorem openings_unit {inside : List Event} (h : Balanced inside) (label : String)
    (title : Option String) (node : Nat) (around : List Nat) (rest : List Event) :
    openings around (.openUnit label title node :: inside ++ .close :: rest) =
      ⟨label, title, node, around.head?⟩ :: openings (node :: around) inside ++
        openings around rest := by
  rw [List.cons_append, openings, h, openings, List.cons_append, List.tail_cons]

/-- Events in which each unit that is opened is closed again, and no other one. -/
inductive Closed : List Event → Prop
  | nil : Closed []
  | text (content : String) : Closed [.text content]
  | pad (level : Nat) : Closed [.pad level]
  | share (node target : Nat) : Closed [.share node target]
  | unit (label : String) (title : Option String) (node : Nat) {inside : List Event}
      (closed : Closed inside) : Closed (.openUnit label title node :: inside ++ [.close])
  | append {first later : List Event} (closed : Closed first) (closed' : Closed later) :
      Closed (first ++ later)

theorem closed_flatMap {α : Type} {items : List α} {f : α → List Event}
    (h : ∀ item ∈ items, Closed (f item)) : Closed (items.flatMap f) := by
  induction items with
  | nil => exact .nil
  | cons item rest ih =>
    rw [List.flatMap_cons]
    exact .append (h item List.mem_cons_self) (ih fun other hm => h other (.tail _ hm))

theorem Closed.balanced {events : List Event} (hclosed : Closed events) : Balanced events := by
  induction hclosed with
  | nil | text | pad | share => exact fun around rest => rfl
  | append _ _ first later =>
    intro around rest
    rw [List.append_assoc, first, later, first around, List.append_assoc]
  | unit label title node _ inside =>
    intro around rest
    rw [List.append_assoc, List.singleton_append, openings_unit inside, openings_unit inside,
      openings, List.append_nil]

end Event

def Opening.Describes (opening : Opening) (opened : List MarkupUnit) (unit : MarkupUnit) : Prop :=
  unit.label = opening.label ∧ unit.title = opening.title ∧ unit.node = some opening.node ∧
    match opening.owner with
    | none => unit.parent = none
    | some owner => ∃ outer ∈ opened, unit.parent = some outer.id ∧ outer.node = some owner

namespace Builder

variable {indent : String}

theorem Sound.apply {builder : Builder} (hs : builder.Sound) (event : Event) :
    (builder.apply indent event).Sound := by
  cases event with
  | openUnit label title node => exact hs.openUnit label title node
  | text content => exact hs.text content
  | pad level => exact hs.text _
  | close => exact hs.close
  | share node target => exact hs.share node target

theorem Sound.run {builder : Builder} (hs : builder.Sound) (events : List Event) :
    (events.foldl (Builder.apply indent) builder).Sound := by
  induction events generalizing builder with
  | nil => exact hs
  | cons event rest ih => exact ih (hs.apply event)

theorem Sound.unit?_finish {builder : Builder} (hs : builder.Sound) {id : Nat}
    {unit : MarkupUnit} (h : builder.finish.unit? id = some unit) :
    unit.heading ∈ builder.opened ∧ unit.id = id := by
  have hopened : builder.opened[id]? = some unit.heading := by
    rw [← headings_finish, List.getElem?_map]
    exact congrArg (Option.map MarkupUnit.heading) h
  exact (getElem?_eq_some_iff_of_range hs.ids).mp hopened

theorem Sound.nodeFor?_finish {builder : Builder} (hs : builder.Sound) {id node : Nat} :
    builder.finish.nodeFor? id = some node ↔
      ∃ unit ∈ builder.opened, unit.id = id ∧ unit.node = some node := by
  have hnumber : builder.opened[id]? = (builder.finish.unit? id).map MarkupUnit.heading := by
    rw [← headings_finish, List.getElem?_map]
    rfl
  have hf : builder.finish.nodeFor? id = (builder.opened[id]?).bind MarkupUnit.node := by
    rw [hnumber, Document.nodeFor?]
    cases builder.finish.unit? id <;> rfl
  rw [hf, Option.bind_eq_some_iff]
  simp only [getElem?_eq_some_iff_of_range hs.ids, and_assoc]

theorem Sound.unitCount_finish {builder : Builder} (hs : builder.Sound) :
    builder.finish.unitCount = builder.next := by
  have lengths := congrArg List.length hs.ids
  rwa [← headings_finish, List.length_map, List.length_map, List.length_range] at lengths

/-- A run opens the units that the openings of its events tell. -/
theorem opened_run {builder : Builder} (hs : builder.Sound) {around : List Nat}
    (frame : builder.frame.map Prod.snd = around.map some) (events : List Event) :
    ∃ added, (events.foldl (Builder.apply indent) builder).opened = builder.opened ++ added ∧
      List.Forall₂ (fun opening unit =>
          opening.Describes (events.foldl (Builder.apply indent) builder).opened unit)
        (Event.openings around events) added := by
  induction events generalizing builder around with
  | nil => exact ⟨[], (List.append_nil _).symm, .nil⟩
  | cons event rest ih =>
    have soundNext : (builder.apply indent event).Sound := hs.apply event
    rw [List.foldl_cons]
    cases event with
    | openUnit label title node =>
      have frameNext : (builder.openUnit label title (some node)).frame.map Prod.snd =
          (node :: around).map some := by
        rw [frame_openUnit, List.map_cons, List.map_cons, frame]
      obtain ⟨added, hopened, hd⟩ := ih soundNext frameNext
      rw [show builder.apply indent (.openUnit label title node) =
        builder.openUnit label title (some node) from rfl] at *
      rw [opened_openUnit, List.append_assoc, List.singleton_append] at hopened
      refine ⟨_, hopened, .cons ⟨rfl, rfl, rfl, ?_⟩ hd⟩
      cases around with
      | nil => simp_all
      | cons owner others =>
        obtain ⟨entry, entries, frameEq, howned, -⟩ := List.map_eq_cons_iff.mp frame
        obtain ⟨outer, hk, eq⟩ := hs.frame entry (by simp [frameEq])
        refine ⟨outer, ?_, ?_, ?_⟩
        · rw [hopened]
          exact List.mem_append_left _ hk
        · simp [frameEq, ← eq]
        · rw [← howned, ← eq]
    | text content =>
      obtain ⟨added, hopened, hd⟩ := ih soundNext ((congrArg _ (frame_text _ _)).trans frame)
      exact ⟨added, hopened.trans (by rw [Builder.apply, opened_text]), hd⟩
    | pad level =>
      obtain ⟨added, hopened, hd⟩ := ih soundNext ((congrArg _ (frame_text _ _)).trans frame)
      exact ⟨added, hopened.trans (by rw [Builder.apply, opened_text]), hd⟩
    | close =>
      have frameNext : (builder.apply indent .close).frame.map Prod.snd = around.tail.map some := by
        rw [Builder.apply, frame_close, List.map_tail, frame, List.map_tail]
      obtain ⟨added, hopened, hd⟩ := ih soundNext frameNext
      exact ⟨added, hopened.trans (by rw [Builder.apply, opened_close]), hd⟩
    | share node target =>
      obtain ⟨added, hopened, hd⟩ := ih soundNext ((congrArg _ (frame_share _ _ _)).trans frame)
      exact ⟨added, hopened.trans (by rw [Builder.apply, opened_share]), hd⟩

theorem unitFor?_apply (builder : Builder) {event : Event} {node : Nat}
    (h : node ∉ event.named) :
    (builder.apply indent event).unitFor? node = builder.unitFor? node := by
  cases event with
  | openUnit label title other =>
    have ne : other ≠ node := by simpa [Event.named, eq_comm] using h
    rw [Builder.apply, unitFor?_openUnit, if_neg ne]
  | text content => exact unitFor?_text _ _ _
  | pad level => exact unitFor?_text _ _ _
  | close => exact unitFor?_close _ _
  | share other target =>
    have ne : other ≠ node := by simpa [Event.named, eq_comm] using h
    rw [Builder.apply, unitFor?_share, if_neg ne]

theorem unitFor?_run (builder : Builder) {events : List Event} {node : Nat}
    (h : node ∉ events.flatMap Event.named) :
    (events.foldl (Builder.apply indent) builder).unitFor? node = builder.unitFor? node := by
  induction events generalizing builder with
  | nil => rfl
  | cons event rest ih =>
    rw [List.flatMap_cons, List.mem_append, not_or] at h
    rw [List.foldl_cons, ih _ h.2, unitFor?_apply builder h.1]

def Assigned (builder : Builder) : Prop :=
  ∀ unit ∈ builder.opened, ∀ node, unit.node = some node →
    builder.unitFor? node = some unit.id

theorem assigned_empty : ({} : Builder).Assigned := by
  intro unit hm
  cases hm

theorem Assigned.apply {builder : Builder} (ha : builder.Assigned) {event : Event}
    (new : ∀ node ∈ event.named, ∀ unit ∈ builder.opened, unit.node ≠ some node) :
    (builder.apply indent event).Assigned := by
  have hkept : ∀ unit ∈ builder.opened, ∀ node, unit.node = some node →
      (builder.apply indent event).unitFor? node = some unit.id := by
    intro unit hk node eq
    rw [unitFor?_apply builder fun hn => new node hn unit hk eq]
    exact ha unit hk node eq
  cases event with
  | openUnit label title other =>
    intro unit hk node eq
    rw [Builder.apply, opened_openUnit] at hk
    rcases List.mem_append.mp hk with hk | hk
    · exact hkept unit hk node eq
    · cases List.mem_singleton.mp hk
      cases eq
      rw [Builder.apply, unitFor?_openUnit, if_pos rfl]
  | text content => rwa [Assigned, Builder.apply, opened_text]
  | pad level => rwa [Assigned, Builder.apply, opened_text]
  | close => rwa [Assigned, Builder.apply, opened_close]
  | share other target => rwa [Assigned, Builder.apply, opened_share]

theorem opened_nodes_apply (indent : String) (builder : Builder) (event : Event) :
    ∃ nodes, (builder.apply indent event).opened.filterMap MarkupUnit.node =
        builder.opened.filterMap MarkupUnit.node ++ nodes ∧ nodes.Sublist event.named := by
  cases event with
  | openUnit label title node =>
    refine ⟨[node], ?_, .refl _⟩
    rw [Builder.apply, opened_openUnit, List.filterMap_append]
    rfl
  | text content => exact ⟨[], by rw [Builder.apply, opened_text, List.append_nil], .refl _⟩
  | pad level => exact ⟨[], by rw [Builder.apply, opened_text, List.append_nil], .refl _⟩
  | close => exact ⟨[], by rw [Builder.apply, opened_close, List.append_nil], .refl _⟩
  | share node target =>
    exact ⟨[], by rw [Builder.apply, opened_share, List.append_nil], List.nil_sublist _⟩

/-- If no node is named twice, then no later event takes the unit of a node away from it. -/
theorem Assigned.run {builder : Builder} (ha : builder.Assigned) {events : List Event}
    (hd : (builder.opened.filterMap MarkupUnit.node ++ events.flatMap Event.named).Nodup) :
    (events.foldl (Builder.apply indent) builder).Assigned := by
  induction events generalizing builder with
  | nil => exact ha
  | cons event rest ih =>
    obtain ⟨nodes, hopened, sublist⟩ := builder.opened_nodes_apply indent event
    rw [List.flatMap_cons] at hd
    refine ih (ha.apply fun node hn unit hk eq => ?_) ?_
    · have ho : node ∈ builder.opened.filterMap MarkupUnit.node :=
        List.mem_filterMap.mpr ⟨unit, hk, eq⟩
      exact (List.nodup_append.mp hd).2.2 node ho node
        (List.mem_append_left _ hn) rfl
    · rw [hopened, List.append_assoc]
      exact hd.sublist ((sublist.append_right _).append_left _)

end Builder

end SyntaxMarkup

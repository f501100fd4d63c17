import SyntaxMarkup.Proofs.Layout.Enclosure
import SyntaxMarkup.Proofs.Layout.Skeleton
import SyntaxMarkup.Proofs.Tree.Ancestors

namespace SyntaxMarkup

/-- Indentation without brackets and semicolons. -/
def RenderOptions.IsNeutral (options : RenderOptions) : Prop :=
  Brackets.isNeutral options.indent.toList = true

instance (options : RenderOptions) : Decidable options.IsNeutral :=
  inferInstanceAs (Decidable (_ = _))

theorem Kind.isLeafLabel_heading (kind : Kind) : isLeafLabel kind.heading.1 = kind.isLeaf := by
  cases kind <;> rfl

namespace Event

open Brackets

variable {indent : String}

theorem skeleton_text (content : String) :
    skeleton indent 0 [.text content] = content.toList :=
  List.append_nil _

theorem isNeutral_skeleton_pad (hneutral : isNeutral indent.toList = true) (level : Nat) :
    isNeutral (skeleton indent 0 [.pad level]) = true := by
  rw [isNeutral_iff] at hneutral ⊢
  intro c hm
  rw [skeleton, if_pos rfl, skeleton, List.append_nil, String.toList_join] at hm
  obtain ⟨copy, hc, hm⟩ := List.mem_flatMap.mp hm
  rw [List.eq_of_mem_replicate hc] at hm
  exact hneutral c hm

end Event

namespace Piece

open Brackets

section Nests

variable {options : RenderOptions} (hneutral : options.IsNeutral) {quiet : Bool}
  {inside : Part → List Char → Prop} {level : Nat}

/-- The children among pieces end the brackets that they start, and quiet pieces hold no child with
semicolons outside of brackets. -/
structure Fine (options : RenderOptions) (quiet : Bool) (inside : Part → List Char → Prop)
    (level : Nat) (pieces : List Piece) : Prop where
  closed : ∀ piece ∈ pieces, Event.Closed (piece.events level)
  balanced : ∀ part place deeper, .child part place deeper ∈ pieces →
    Balanced (Event.skeleton options.indent 0 (part.value place (level + deeper)))
  silent : quiet = true → ∀ part place deeper, .child part place deeper ∈ pieces →
    inside part [] →
      ';' ∉ outside [] (Event.skeleton options.indent 0 (part.value place (level + deeper)))

theorem Fine.sublist {pieces pieces' : List Piece} (hfine : Fine options quiet inside level pieces)
    (sublist : pieces'.Sublist pieces) : Fine options quiet inside level pieces' where
  closed piece hm := hfine.closed piece (sublist.subset hm)
  balanced part place deeper hm := hfine.balanced part place deeper (sublist.subset hm)
  silent hq part place deeper hm := hfine.silent hq part place deeper (sublist.subset hm)

include hneutral

/-- What pieces write leaves open what they were to leave open. -/
theorem Nests.exists_after {around : List Char} {pieces : List Piece} {post : List Char → Prop}
    (hnests : Nests quiet inside around pieces post)
    (hfine : Fine options quiet inside level pieces) :
    ∃ later, after? around (Event.skeleton options.indent 0 (pieces.flatMap (events level))) =
        some later ∧ post later ∧
      (quiet = true → ';' ∉ outside around
        (Event.skeleton options.indent 0 (pieces.flatMap (events level)))) := by
  induction pieces generalizing around with
  | nil => exact ⟨around, rfl, hnests, fun _ => List.not_mem_nil⟩
  | cons piece pieces ih =>
    -- the first piece leaves some brackets open, in which the others are written
    suffices here : ∃ middle, after? around (Event.skeleton options.indent 0 (piece.events level)) =
        some middle ∧ Nests quiet inside middle pieces post ∧ (quiet = true →
          ';' ∉ outside around (Event.skeleton options.indent 0 (piece.events level))) by
      obtain ⟨middle, first, hnests, hsilent⟩ := here
      have hclosed := hfine.closed piece List.mem_cons_self
      obtain ⟨later, rest, hh, hsilent'⟩ := ih hnests (hfine.sublist (List.sublist_cons_self _ _))
      rw [List.flatMap_cons, hclosed.skeleton_append]
      refine ⟨later, by rw [after?_append_of_eq first, rest], hh, fun hq hm => ?_⟩
      rw [outside_append first] at hm
      rcases List.mem_append.mp hm with hm | hm
      · exact hsilent hq hm
      · exact hsilent' hq hm
    cases piece with
    | text content =>
      obtain ⟨hsilent, middle, first, hnests⟩ := hnests
      rw [events, Event.skeleton_text]
      exact ⟨middle, first, hnests, hsilent⟩
    | pad deeper =>
      have plain := Event.isNeutral_skeleton_pad hneutral (level + deeper)
      exact ⟨around, (balanced_of_isNeutral plain).after? around, hnests,
        fun _ hm => not_mem_of_isNeutral plain (mem_of_mem_outside hm)⟩
    | child part place deeper =>
      have hb := hfine.balanced part place deeper List.mem_cons_self
      refine ⟨around, hb.after? around, hnests.2, fun hq hm => ?_⟩
      cases around with
      | nil => exact hfine.silent hq part place deeper List.mem_cons_self hnests.1 hm
      | cons bracket others =>
        rw [events, hb.outside_eq_nil (List.cons_ne_nil _ _)] at hm
        cases hm
    | share => exact ⟨around, rfl, hnests, fun _ => List.not_mem_nil⟩

/-- The brackets around a child are as the pieces say. -/
theorem Nests.exists_around {first rest : List Piece} {part : Part} {place : Place} {deeper : Nat}
    {post : List Char → Prop}
    (hnests : Nests quiet inside [] (first ++ .child part place deeper :: rest) post)
    (hfine : Fine options quiet inside level (first ++ .child part place deeper :: rest)) :
    ∃ around, after? [] (Event.skeleton options.indent 0 (first.flatMap (events level))) =
      some around ∧ inside part around := by
  rw [nests_append] at hnests
  obtain ⟨around, after, hh, -⟩ := hnests.exists_after hneutral
    (hfine.sublist (List.sublist_append_left _ _))
  exact ⟨around, after, hh.1⟩

end Nests

/-- Pieces that are quiet are written as others are. -/
theorem Nests.forget {quiet : Bool} {inside : Part → List Char → Prop} {around : List Char}
    {pieces : List Piece} {post : List Char → Prop}
    (hnests : Nests quiet inside around pieces post) : Nests false inside around pieces post := by
  induction pieces generalizing around with
  | nil => exact hnests
  | cons piece pieces ih =>
    cases piece with
    | text content =>
      obtain ⟨-, later, after, hnests⟩ := hnests
      exact ⟨nofun, later, after, ih hnests⟩
    | pad | share => exact ih hnests
    | child => exact ⟨hnests.1, ih hnests.2⟩

end Piece

namespace Node

open Brackets

variable {options : RenderOptions} (hneutral : options.IsNeutral) {node : Node Nat}

/-- A leaf writes nothing outside of leaves; the other nodes write what is inside of them. -/
theorem skeleton_events {place : Place} {level : Nat}
    (hclosed : ∀ piece ∈ node.pieces node.parts place, Event.Closed (piece.events level)) :
    Event.skeleton options.indent 0 (node.events place level) =
      if node.kind.isLeaf then []
      else Event.skeleton options.indent 0
        ((node.pieces node.parts place).flatMap (Piece.events level)) := by
  rw [events_eq, framed_eq]
  split
  next program =>
    rw [if_neg]
    unfold Kind.isProgram at program
    split at program
    next hk => simp [hk, Kind.isLeaf]
    next => cases program
  next => rw [(Event.closed_flatMap hclosed).skeleton_unit, Kind.isLeafLabel_heading]

theorem fine_pieces (hr : ∀ below ∈ node.preorder, below.Regular) {place : Place}
    {level : Nat} {inside : Part → List Char → Prop}
    (hb : ∀ child ∈ node.children, ∀ place level,
      Balanced (Event.skeleton options.indent 0 (child.events place level))) :
    Piece.Fine options false inside level (node.pieces node.parts place) where
  closed := closed_pieces (hr node node.self_mem_preorder) place level fun child hc =>
    child.closed_events fun below h => hr below (mem_preorder_of_child hc h)
  balanced part at_ deeper hm := by
    obtain ⟨child, hc, rfl⟩ :=
      part_mem_children (hr node node.self_mem_preorder) hm
    exact hb child hc _ _
  silent := nofun

include hneutral

/-- The brackets in the text of a node are balanced. -/
theorem balanced_events (node : Node Nat) (hr : ∀ below ∈ node.preorder, below.Regular)
    (place : Place) (level : Nat) :
    Balanced (Event.skeleton options.indent 0 (node.events place level)) := by
  induction node using induction generalizing place level with
  | step node ih =>
    have hfine : Piece.Fine options false (fun _ _ => True) level (node.pieces node.parts place) :=
      fine_pieces hr fun child hc place level =>
        ih child hc (fun below h => hr below (mem_preorder_of_child hc h)) place level
    rw [skeleton_events hfine.closed]
    split
    · exact balanced_nil
    · next hleaf =>
      have hnests := @nests_pieces node (fun _ _ => True) (hr node node.self_mem_preorder)
        (fun _ _ _ _ => trivial) (by simpa using hleaf) place
      obtain ⟨later, after, rfl, -⟩ := hnests.forget.exists_after hneutral hfine
      exact after

end Node

namespace Node

/-- Whether a node further down, or the node itself, is written outside of all brackets in the
node: no place on the way to it encloses it. -/
inductive Exposes {ι : Type} : Node ι → Node ι → Prop
  | refl (node : Node ι) : node.Exposes node
  | step {node below : Node ι} {edge : Edge (Node ι)} (isEdge : edge ∈ node.edges)
      (bare : node.kind.encloses edge.key edge.child = false)
      (exposes : edge.child.Exposes below) : node.Exposes below

/-- The numbers of the nodes at and below a node are distinct. -/
def Distinct (node : Node Nat) : Prop :=
  (node.preorder.map id).Nodup

variable {node : Node Nat}

theorem child_of_edge (hr : node.Regular) {edge : Edge (Node Nat)}
    (he : edge ∈ node.edges) : edge.child ∈ node.children := by
  rw [← map_child_edges hr]
  exact List.mem_map_of_mem he

theorem Exposes.mem_preorder {below : Node Nat} (hexposes : node.Exposes below)
    (hr : ∀ other ∈ node.preorder, other.Regular) : below ∈ node.preorder := by
  induction hexposes with
  | refl node => exact node.self_mem_preorder
  | @step node below edge he _ _ ih =>
    have hc := child_of_edge (hr node node.self_mem_preorder) he
    exact mem_preorder_of_child hc
      (ih fun other hm => hr other (mem_preorder_of_child hc hm))

theorem Distinct.child (hd : node.Distinct) {child : Node Nat}
    (hc : child ∈ node.children) : child.Distinct := by
  refine hd.sublist (List.Sublist.map id ?_)
  rw [preorder_eq node]
  exact (List.sublist_flatten_of_mem (List.mem_map_of_mem hc)).cons node

theorem Distinct.of_mem (hd : node.Distinct) {below : Node Nat}
    (hm : below ∈ node.preorder) : below.Distinct := by
  induction node using induction with
  | step node ih =>
    rw [preorder_eq] at hm
    rcases List.mem_cons.mp hm with rfl | hm
    · exact hd
    · obtain ⟨child, hc, hm⟩ := List.mem_flatMap.mp hm
      exact ih child hc (hd.child hc) hm

theorem Distinct.ne_of_child (hd : node.Distinct) {child below : Node Nat}
    (hc : child ∈ node.children) (hm : below ∈ child.preorder) : below.id ≠ node.id := by
  intro same
  rw [Distinct, preorder_eq, List.map_cons, List.nodup_cons] at hd
  exact hd.1 (same ▸ List.mem_map_of_mem (List.mem_flatMap_of_mem hc hm))

theorem Distinct.eq_of_id (hd : node.Distinct) {first second : Node Nat}
    (hm : first ∈ node.preorder) (hm' : second ∈ node.preorder) (same : first.id = second.id) :
    first = second :=
  List.inj_on_of_nodup_map hd hm hm' same

/-- A node is below one child only. -/
theorem Distinct.eq_of_edge (hd : node.Distinct) (hr : node.Regular)
    {first second : Edge (Node Nat)} (hedge : first ∈ node.edges) (hedge' : second ∈ node.edges)
    {below : Node Nat} (hm : below ∈ first.child.preorder)
    (hm' : below ∈ second.child.preorder) : first = second := by
  rw [Distinct, preorder_eq, ← map_child_edges hr] at hd
  have hd := (List.nodup_cons.mp (hd.of_map _)).2
  rw [List.flatMap_map] at hd
  have ha := List.pairwise_iff_getElem.mp (List.nodup_flatMap.mp hd).2
  obtain ⟨place, inside, rfl⟩ := List.mem_iff_getElem.mp hedge
  obtain ⟨place', inside', rfl⟩ := List.mem_iff_getElem.mp hedge'
  rcases Nat.lt_trichotomy place place' with before | rfl | after
  · exact absurd hm' (ha place place' inside inside' before hm)
  · rfl
  · exact absurd hm (ha place' place inside' inside after hm')

theorem Distinct.eq_of_child (hd : node.Distinct) (hr : node.Regular)
    {first second : Node Nat} (hchild : first ∈ node.children) (hchild' : second ∈ node.children)
    {below : Node Nat} (hm : below ∈ first.preorder) (hm' : below ∈ second.preorder) :
    first = second := by
  rw [← map_child_edges hr] at hchild hchild'
  obtain ⟨edge, hedge, rfl⟩ := List.mem_map.mp hchild
  obtain ⟨edge', hedge', rfl⟩ := List.mem_map.mp hchild'
  rw [hd.eq_of_edge hr hedge hedge' hm hm']

/-- An opening for a node is that of the node itself or of one below. -/
theorem exists_of_openUnit (hr : ∀ below ∈ node.preorder, below.Regular) {place : Place}
    {level : Nat} {label : String} {title : Option String} {number : Nat}
    (hopened : .openUnit label title number ∈ node.events place level) :
    ∃ below ∈ node.preorder, below.id = number := by
  have hn : number ∈ (node.events place level).flatMap Event.named :=
    List.mem_flatMap.mpr ⟨_, hopened, List.mem_singleton_self number⟩
  exact List.mem_map.mp ((node.named_events hr place level).subset hn)

theorem exposes_child_iff (hd : node.Distinct)
    (hr : ∀ below ∈ node.preorder, below.Regular) {edge : Edge (Node Nat)}
    (hedge : edge ∈ node.edges) :
    node.Exposes edge.child ↔ node.kind.encloses edge.key edge.child = false := by
  have ho := hr node node.self_mem_preorder
  have hc := child_of_edge ho hedge
  constructor
  · intro hexposes
    cases hexposes with
    | refl => exact absurd rfl (hd.ne_of_child hc edge.child.self_mem_preorder)
    | step hedge' bare hexposes =>
      have below := hexposes.mem_preorder fun other hm =>
        hr other (mem_preorder_of_child (child_of_edge ho hedge') hm)
      obtain rfl := hd.eq_of_edge ho hedge hedge' edge.child.self_mem_preorder below
      exact bare
  · exact fun bare => .step hedge bare (.refl edge.child)

theorem openUnit_mem_pieces {place : Place} {level : Nat} {label : String} {title : Option String}
    {number : Nat} (hopened : .openUnit label title number ∈ node.events place level)
    (other : number ≠ node.id) : .openUnit label title number ∈
      (node.pieces node.parts place).flatMap (Piece.events level) := by
  rw [events_eq, framed_eq] at hopened
  split at hopened
  · exact hopened
  · rcases List.mem_append.mp hopened with hopened | last
    · rcases List.mem_cons.mp hopened with ho | hopened
      · exact absurd (Event.openUnit.inj ho).2.2 other
      · exact hopened
    · simp at last

/-- A leaf writes no children. -/
theorem isLeaf_of_child {place at_ : Place} {part : Part} {deeper : Nat}
    (hm : .child part at_ deeper ∈ node.pieces node.parts place) : node.kind.isLeaf = false := by
  unfold Kind.isLeaf
  split
  case h_3 raw regex bigint hk =>
    cases regex <;> simp [pieces, hk, Template.pieces, Piece.lit] at hm
  all_goals simp_all [pieces, Template.pieces, Piece.lit]

/-- Where the unit of a node further down is opened, a child is written that holds the node. -/
theorem exists_piece_of_below (hr : ∀ other ∈ node.preorder, other.Regular)
    (hd : node.Distinct) {below : Node Nat} (hm : below ∈ node.preorder)
    (other : below ≠ node) {place : Place} {level : Nat} {label : String} {title : Option String}
    (hopened : .openUnit label title below.id ∈ node.events place level) :
    ∃ child ∈ node.children, ∃ at_ deeper,
      .child child.part at_ deeper ∈ node.pieces node.parts place ∧ below ∈ child.preorder ∧
      .openUnit label title below.id ∈ child.events at_ (level + deeper) := by
  have hopened := openUnit_mem_pieces hopened fun number =>
    other (hd.eq_of_id hm node.self_mem_preorder number)
  obtain ⟨piece, hpiece, hopened⟩ := List.mem_flatMap.mp hopened
  cases piece with
  | text | pad | share => simp [Piece.events] at hopened
  | child part at_ deeper =>
    obtain ⟨child, hc, rfl⟩ := part_mem_children (hr node node.self_mem_preorder) hpiece
    obtain ⟨met, hmet, number⟩ := exists_of_openUnit (fun other h =>
      hr other (mem_preorder_of_child hc h)) hopened
    obtain rfl := hd.eq_of_id (mem_preorder_of_child hc hmet) hm number
    exact ⟨child, hc, at_, deeper, hpiece, hmet, hopened⟩

section Path

open Brackets

variable {options : RenderOptions} (hneutral : options.IsNeutral) {place : Place} {level : Nat}
include hneutral

/-- The brackets around what a child writes are those around it in the child, and then those that
the pieces of the node have around the child. -/
theorem exists_before_of_piece (hr : ∀ below ∈ node.preorder, below.Regular)
    {inside : Part → List Char → Prop} {post : List Char → Prop}
    (hnests : Piece.Nests false inside [] (node.pieces node.parts place) post) {child : Node Nat}
    {at_ : Place} {deeper : Nat}
    (hpiece : .child child.part at_ deeper ∈ node.pieces node.parts place)
    {before after : List Event} {event : Event} {around : List Char}
    (events : child.events at_ (level + deeper) = before ++ event :: after)
    (met : after? [] (Event.skeleton options.indent 0 before) = some around) :
    ∃ before after outer, node.events place level = before ++ event :: after ∧
      after? [] (Event.skeleton options.indent 0 before) = some (around ++ outer) ∧
      inside child.part outer := by
  have hleaf := isLeaf_of_child hpiece
  have hfine : Piece.Fine options false inside level (node.pieces node.parts place) :=
    fine_pieces hr fun child hc place level => child.balanced_events hneutral
      (fun below h => hr below (mem_preorder_of_child hc h)) place level
  obtain ⟨first, rest, split⟩ := List.append_of_mem hpiece
  rw [split] at hnests hfine
  obtain ⟨outer, hopened, hh⟩ := hnests.exists_around hneutral hfine
  have hclosed : Event.Closed (first.flatMap (Piece.events level)) :=
    Event.closed_flatMap fun piece hm => hfine.closed piece (List.mem_append_left _ hm)
  have hreached : after? [] (Event.skeleton options.indent 0
      (first.flatMap (Piece.events level) ++ before)) = some (around ++ outer) := by
    rw [hclosed.skeleton_append, after?_append_of_eq hopened]
    exact after?_frame met outer
  have hw : node.events place level = node.framed (first.flatMap (Piece.events level) ++
      (before ++ event :: after ++ rest.flatMap (Piece.events level))) := by
    rw [events_eq, split, List.flatMap_append, List.flatMap_cons, ← events]
    rfl
  rw [framed_eq] at hw
  split at hw
  · refine ⟨_, after ++ rest.flatMap (Piece.events level), outer, ?_, hreached, hh⟩
    rw [hw]
    simp
  · -- a node that is no leaf has its unit around the rest
    have unit (events : List Event) : Event.skeleton options.indent 0
        (.openUnit node.kind.heading.1 node.kind.heading.2 node.id :: events) =
          Event.skeleton options.indent 0 events := by
      rw [Event.skeleton, leafDepth, Kind.isLeafLabel_heading, if_pos ⟨rfl, hleaf⟩]
    refine ⟨_ :: (first.flatMap (Piece.events level) ++ before),
      after ++ rest.flatMap (Piece.events level) ++ [.close], outer, ?_, (unit _).symm ▸ hreached,
      hh⟩
    rw [hw]
    simp

/-- The brackets around a node further down: there are none exactly if it is exposed. -/
theorem exists_before (hr : ∀ other ∈ node.preorder, other.Regular) (hd : node.Distinct)
    {below : Node Nat} (hm : below ∈ node.preorder) (hp : below.kind.isProgram = false)
    {label : String} {title : Option String}
    (hopened : .openUnit label title below.id ∈ node.events place level) :
    ∃ before after label title around,
      node.events place level = before ++ .openUnit label title below.id :: after ∧
      after? [] (Event.skeleton options.indent 0 before) = some around ∧
      (around = [] ↔ node.Exposes below) := by
  induction node using induction generalizing place level with
  | step node ih =>
    by_cases same : below = node
    · subst same
      rw [events_of_not_program hp]
      exact ⟨[], _, _, _, [], rfl, rfl, iff_of_true rfl (.refl below)⟩
    · have ho := hr node node.self_mem_preorder
      obtain ⟨child, hc, at_, deeper, hpiece, hm, hopened⟩ :=
        exists_piece_of_below hr hd hm same hopened
      obtain ⟨before, after, label, title, around, events, met, hexposed⟩ := ih child hc
        (fun other h => hr other (mem_preorder_of_child hc h)) (hd.child hc)
        hm hopened
      have hnests := follows_pieces ho (isLeaf_of_child hpiece) place
      obtain ⟨before', after', outer, events', met', edge, hedge, part, bare⟩ :=
        exists_before_of_piece hneutral hr hnests.forget hpiece events met
      obtain rfl : edge.child = child := congrArg Computed.node part
      refine ⟨before', after', label, title, around ++ outer, events', met', ?_⟩
      rw [List.append_eq_nil_iff, hexposed, bare]
      constructor
      · exact fun ⟨hexposes, bare⟩ => .step hedge bare hexposes
      · intro hexposes
        cases hexposes with
        | refl => exact absurd rfl same
        | step hedge' bare hexposes =>
          have hm' := hexposes.mem_preorder fun other h =>
            hr other (mem_preorder_of_child (child_of_edge ho hedge') h)
          obtain rfl := hd.eq_of_edge ho hedge hedge' hm hm'
          exact ⟨hexposes, bare⟩

end Path

end Node

namespace Tree

variable {tree : Tree} {options : RenderOptions}

/-- Every unit is opened for a node. -/
theorem exists_openUnit_of_unit? {u : Nat} {unit : MarkupUnit}
    (hf : (tree.render options).unit? u = some unit) :
    ∃ id label title, unit.node = some id ∧ .openUnit label title id ∈ tree.events := by
  have hm := List.mem_map_of_mem (f := fun unit => (unit.label, unit.title, unit.node))
    (List.mem_of_getElem? hf)
  rw [opened_render] at hm
  obtain ⟨event, hevent, eq⟩ := List.mem_filterMap.mp hm
  cases event with
  | openUnit label title id =>
    have hn := congrArg (·.2.2) (Option.some.inj eq)
    exact ⟨id, label, title, hn.symm, hevent⟩
  | text | pad | close | share => cases eq

/-- A child that is written stands. -/
theorem Stands.of_piece (hr : tree.Regular) {node child : Node Nat} {place at_ : Place}
    {level deeper : Nat} (hs : tree.Stands node place level)
    (hm : .child child.part at_ deeper ∈ node.pieces node.parts place) :
    tree.Stands child at_ (level + deeper) := by
  obtain ⟨edge, he, hkept, eq⟩ :=
    (Node.keeps_pieces (hr node (hs.mem_preorder hr)) place _ _ _).mp hm
  obtain ⟨part, rfl, rfl⟩ := Piece.child.inj eq
  obtain rfl : child = edge.child := congrArg Computed.node part
  exact .child hs he hkept

/-- On the way to the opening of a unit every node stands. -/
theorem Stands.of_below (hr : tree.Regular) {upper node below : Node Nat} {place : Place}
    {level : Nat} (hs : tree.Stands upper place level) (hu : node ∈ upper.preorder)
    (hb : below ∈ node.preorder) {label : String} {title : Option String}
    (hopened : .openUnit label title below.id ∈ upper.events place level) :
    ∃ place level, tree.Stands node place level ∧
      .openUnit label title below.id ∈ node.events place level := by
  induction upper using Node.induction generalizing place level with
  | step upper ih =>
    by_cases same : node = upper
    · exact ⟨place, level, same ▸ hs, same ▸ hopened⟩
    have ht := hs.mem_preorder hr
    have hd : upper.Distinct := Node.Distinct.of_mem tree.nodup_ids ht
    rw [Node.preorder_eq] at hu
    obtain ⟨child, hc, hin⟩ := List.mem_flatMap.mp (List.mem_of_ne_of_mem same hu)
    have hin' := Node.mem_preorder_trans hin hb
    have other : below ≠ upper := fun eq =>
      hd.ne_of_child hc hin' (congrArg Node.id eq)
    obtain ⟨written, hw, at_, deeper, hpiece, hwritten, hopened⟩ :=
      Node.exists_piece_of_below (fun other h => hr other (Node.mem_preorder_trans ht h))
        hd (Node.mem_preorder_of_child hc hin') other hopened
    obtain rfl := hd.eq_of_child (hr upper ht) hw hc hwritten hin'
    exact ih _ hw (hs.of_piece hr hpiece) hin hopened

variable (hr : tree.Regular) {node : Node Nat} (hm : node ∈ tree.root.preorder)
include hr hm

theorem not_isProgram_of_nodeFor? {u : Nat}
    (ho : (tree.render options).nodeFor? u = some node.id) : node.kind.isProgram = false := by
  obtain ⟨other, place, level, hs, same, hp⟩ := exists_stands_of_nodeFor? hr ho
  have hf := node?_id (hs.mem_preorder hr)
  rw [same, node?_id hm] at hf
  rwa [Option.some.inj hf]

/-- A node stands where the unit of a node below it is opened. -/
theorem exists_stands_of_below {below : Node Nat} (hb : below ∈ node.preorder) {v : Nat}
    (ho : (tree.render options).nodeFor? v = some below.id) :
    ∃ place level label title, tree.Stands node place level ∧
      .openUnit label title below.id ∈ node.events place level := by
  obtain ⟨unit, hf, hnode⟩ := Option.bind_eq_some_iff.mp ho
  obtain ⟨id, label, title, hnode', hopened⟩ := exists_openUnit_of_unit? hf
  obtain rfl : below.id = id := Option.some.inj (hnode.symm.trans hnode')
  obtain ⟨place, level, hs, hopened⟩ := Stands.of_below hr .root hm hb hopened
  exact ⟨place, level, label, title, hs, hopened⟩

/-- The brackets around the unit of a node in that of a node above it: there are none exactly if
the node is exposed. -/
theorem exists_bracketsAround? (hneutral : options.IsNeutral) {below : Node Nat}
    (hb : below ∈ node.preorder) {u v : Nat}
    (hown : (tree.render options).nodeFor? u = some node.id)
    (hown' : (tree.render options).nodeFor? v = some below.id) :
    ∃ around, (tree.render options).bracketsAround? u v = some around ∧
      (around = [] ↔ node.Exposes below) := by
  obtain ⟨place, level, label, title, hs, hopened⟩ :=
    exists_stands_of_below hr hm hb hown'
  have hprogram := not_isProgram_of_nodeFor? hr hm hown
  have hprogram' := not_isProgram_of_nodeFor? hr (Node.mem_preorder_trans hm hb) hown'
  obtain ⟨before, after, label, title, around, events, outside, hexposed⟩ :=
    Node.exists_before hneutral (fun other h => hr other (Node.mem_preorder_trans hm h))
      (Node.Distinct.of_mem tree.nodup_ids hm) hb hprogram' hopened
  exact ⟨around, by rw [hs.bracketsAround?_eq hr hprogram hown hown' events, outside], hexposed⟩

omit hm in
/-- Apart from its leaves the text of every unit has balanced brackets. -/
theorem balanced_skeleton (hneutral : options.IsNeutral) {u : Nat} {unit : MarkupUnit}
    (hfound : (tree.render options).unit? u = some unit) : Brackets.Balanced unit.skeleton := by
  obtain ⟨id, -, -, hn, -⟩ := exists_openUnit_of_unit? hfound
  have ho : (tree.render options).nodeFor? u = some id := by
    rw [Document.nodeFor?, hfound]
    exact hn
  obtain ⟨node, place, level, hs, rfl, hp⟩ := exists_stands_of_nodeFor? hr ho
  obtain ⟨unit', hfound', skeleton⟩ := hs.exists_skeleton hr hp ho
  obtain rfl := Option.some.inj (hfound.symm.trans hfound')
  rw [skeleton]
  exact node.balanced_events hneutral (fun below h =>
    hr below (Node.mem_preorder_trans (hs.mem_preorder hr) h)) place level

end Tree

end SyntaxMarkup

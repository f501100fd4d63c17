import SyntaxMarkup.Proofs.Layout.Nesting
import SyntaxMarkup.Proofs.Tree.Grammar

namespace SyntaxMarkup

namespace Kind

/-- Whether the text of a type has no semicolon outside of brackets, if what it writes outside of
them has none. -/
def isSilent (kind : Kind) : Bool :=
  kind.isQuiet || kind.isLeaf

theorem isSilent_of_isExpression {kind : Kind} (hexp : kind.isExpression = true) :
    kind.isSilent = true := by
  cases kind <;> first | rfl | cases hexp

theorem isSilent_of_isPattern {kind : Kind} (hp : kind.isPattern = true) :
    kind.isSilent = true := by
  cases kind <;> first | rfl | cases hp

/-- What may stand in a field that does not hold statements is silent. -/
theorem isSilent_of_admits {role : Role} {kind : Kind} (ha : role.admits kind = true)
    (hh : role ≠ .header) (he : role ≠ .defaultExport) (hf : role ≠ .free) :
    kind.isSilent = true := by
  have term (ht : (kind.isExpression || kind.isPattern) = true) : kind.isSilent = true := by
    rcases Bool.or_eq_true_iff.mp ht with hexp | hp
    · exact isSilent_of_isExpression hexp
    · exact isSilent_of_isPattern hp
  cases role with
  | expression | target | name | pattern | template => exact term ha
  | declarator | functionBody | classBody =>
    rw [beq_iff_eq.mp ha]
    rfl
  | arrowBody =>
    rcases Bool.or_eq_true_iff.mp ha with ht | hb
    · exact term ht
    · rw [beq_iff_eq.mp hb]
      rfl
  | templateText =>
    rcases Bool.or_eq_true_iff.mp ha with ht | htext
    · exact term ht
    · split at htext
      · rfl
      · cases htext
  | header => exact absurd rfl hh
  | defaultExport => exact absurd rfl he
  | free => exact absurd rfl hf

/-- The fields of a quiet type that may hold statements are in brackets. -/
theorem brackets_of_roleOf {kind : Kind} (quiet : kind.isQuiet = true) {field : String}
    (child : Kind) (hf : kind.fields? ≠ some [])
    (hrole : kind.roleOf field = .header ∨ kind.roleOf field = .defaultExport ∨
      kind.roleOf field = .free) : kind.brackets field child = true := by
  cases kind <;> cases quiet <;> simp only [roleOf, brackets] at hrole ⊢ <;>
    (try split at hrole) <;> (try split at hrole) <;> simp [fields?] at hrole hf

end Kind

namespace Piece

open Brackets

/-- What pieces write apart from leaves. -/
def skeleton (options : RenderOptions) (level : Nat) (pieces : List Piece) : List Char :=
  Event.skeleton options.indent 0 (pieces.flatMap (events level))

/-- Pieces that end the brackets that they start, and write so many semicolons outside of them. -/
structure Counted (options : RenderOptions) (level : Nat) (pieces : List Piece) (semicolons : Nat) :
    Prop where
  closed : Event.Closed (pieces.flatMap (events level))
  balanced : Balanced (skeleton options level pieces)
  count : (outside [] (skeleton options level pieces)).count ';' = semicolons

variable {options : RenderOptions} {level : Nat}

theorem skeleton_append {first : List Piece} (hclosed : Event.Closed (first.flatMap (events level)))
    (rest : List Piece) : skeleton options level (first ++ rest) =
      skeleton options level first ++ skeleton options level rest := by
  rw [skeleton, List.flatMap_append, hclosed.skeleton_append]
  rfl

theorem skeleton_lit (content : String) :
    skeleton options level (lit content) = content.toList :=
  Event.skeleton_text content

theorem closed_lit (content : String) : Event.Closed ((lit content).flatMap (events level)) :=
  .text content

theorem counted_nil : Counted options level [] 0 :=
  ⟨.nil, balanced_nil, rfl⟩

theorem counted_lit {content : String} (hb : Balanced content.toList) :
    Counted options level (lit content) ((outside [] content.toList).count ';') where
  closed := closed_lit content
  balanced := by rwa [skeleton_lit]
  count := by rw [skeleton_lit]

theorem Counted.append {first rest : List Piece} {n m : Nat} (hc : Counted options level first n)
    (hc' : Counted options level rest m) : Counted options level (first ++ rest) (n + m) where
  closed := by
    rw [List.flatMap_append]
    exact hc.closed.append hc'.closed
  balanced := by
    rw [skeleton_append hc.closed]
    exact hc.balanced.append hc'.balanced
  count := by
    rw [skeleton_append hc.closed, hc.balanced.outside_append, List.count_append,
      hc.count, hc'.count]

/-- Inside of parentheses no semicolon counts. -/
theorem Counted.parenthesized {pieces : List Piece} {n : Nat}
    (hcounted : Counted options level pieces n) :
    Counted options level (lit "(" ++ pieces ++ lit ")") 0 := by
  have inner : after? ['('] (skeleton options level pieces) = some ['('] :=
    hcounted.balanced.after? _
  have hw : skeleton options level (lit "(" ++ pieces ++ lit ")") =
      '(' :: (skeleton options level pieces ++ [')']) := by
    rw [List.append_assoc, skeleton_append (closed_lit "("), skeleton_append hcounted.closed,
      skeleton_lit, skeleton_lit]
    rfl
  refine ⟨?_, ?_, ?_⟩
  · rw [List.flatMap_append, List.flatMap_append]
    exact ((closed_lit "(").append hcounted.closed).append (closed_lit ")")
  · rw [hw, Brackets.Balanced, after?_cons]
    exact (after?_append_of_eq inner [')']).trans rfl
  · have outer : outside ['('] (skeleton options level pieces ++ [')']) = [] := by
      rw [outside_append inner, hcounted.balanced.outside_eq_nil (List.cons_ne_nil _ _)]
      rfl
    rw [hw, outside]
    exact congrArg (List.count ';') outer

theorem counted_atLeast {part : Part} (hcounted : Counted options level (plain part) 0)
    (least : Strength) : Counted options level (atLeast least part) 0 := by
  unfold atLeast
  split
  · exact hcounted.parenthesized
  · exact hcounted

theorem counted_given {part : Option Part} {write : Part → List Piece}
    (each : ∀ given ∈ part.toList, Counted options level (write given) 0) :
    Counted options level (given " " write part) 0 := by
  cases part with
  | none => exact counted_nil
  | some part => exact (counted_lit (by decide)).append (each part (by simp))

end Piece

namespace Node

open Brackets

variable {options : RenderOptions} (hneutral : options.IsNeutral) {node : Node Nat}

/-- A child that a quiet node, or a declaration, writes outside of brackets is silent. -/
theorem isSilent_of_bare (hr : node.Regular) (hobeys : node.Obeys Role.admits)
    (quiet : node.kind.isQuiet = true ∨ node.kind.isVariableDeclaration = true)
    {edge : Edge (Node Nat)} (he : edge ∈ node.edges)
    (bare : node.kind.encloses edge.key edge.child = false) : edge.child.kind.isSilent = true := by
  have ha := hobeys node node.self_mem_preorder edge he
  have open_ := (Kind.encloses_eq_false.mp bare).1
  rcases quiet with quiet | hd
  · have hf : node.kind.fields? ≠ some [] := by
      intro hl
      rw [edges_eq_zip hr hl] at he
      cases he
    have enclosed := @Kind.brackets_of_roleOf node.kind quiet edge.key edge.child.kind hf
    rw [open_] at enclosed
    refine Kind.isSilent_of_admits ha ?_ ?_ ?_ <;> simp_all
  · refine Kind.isSilent_of_admits ha ?_ ?_ ?_ <;>
      cases hk : node.kind <;> simp_all [Kind.isVariableDeclaration, Kind.roleOf]

include hneutral

/-- Outside of all brackets a silent node writes no semicolon, and neither does a declaration in the
header of a loop. -/
theorem silent_events (node : Node Nat) (hr : ∀ below ∈ node.preorder, below.Regular)
    (hobeys : node.Obeys Role.admits) {place : Place} (level : Nat)
    (hs : node.kind.isSilent = true ∨
      place = .header ∧ node.kind.isVariableDeclaration = true) :
    ';' ∉ outside [] (Event.skeleton options.indent 0 (node.events place level)) := by
  induction node using induction generalizing place level with
  | step node ih =>
    have ho := hr node node.self_mem_preorder
    have hfine : Piece.Fine options false node.Follows level (node.pieces node.parts place) :=
      fine_pieces hr fun child hc => child.balanced_events hneutral fun below hm =>
        hr below (mem_preorder_of_child hc hm)
    rw [skeleton_events hfine.closed]
    split
    · nofun
    next hleaf =>
    have hleaf : node.kind.isLeaf = false := by simpa using hleaf
    have quiet : node.kind.isQuiet = true ∨
        place = .header ∧ node.kind.isVariableDeclaration = true := by
      simpa [Kind.isSilent, hleaf] using hs
    have hnests : Piece.Nests true node.Follows [] (node.pieces node.parts place) (· = []) := by
      rcases quiet with quiet | ⟨rfl, hd⟩
      · exact quiet ▸ follows_pieces ho hleaf place
      · cases hk : node.kind <;> rw [hk] at hd <;> cases hd
        exact follows_declaration ho hk true
    have hfine' : Piece.Fine options true node.Follows level (node.pieces node.parts place) := by
      refine ⟨hfine.closed, hfine.balanced, fun _ part at_ deeper hm hf => ?_⟩
      obtain ⟨edge, he, rfl, bare⟩ := hf
      have hc := child_of_edge ho he
      exact ih edge.child hc (fun below hm => hr below (mem_preorder_of_child hc hm))
        (hobeys.of_mem (child_mem_preorder hc)) (level + deeper)
        (.inl (isSilent_of_bare ho hobeys (quiet.imp_right And.right) he (bare.mp rfl)))
    obtain ⟨later, -, -, hs⟩ := hnests.exists_after hneutral hfine'
    exact hs rfl

end Node

/-- Text that starts with a header: so many semicolons stand in it outside of further brackets. -/
def HasHeader (text : List Char) (opening : String) (semicolons : Nat) : Prop :=
  ∃ header rest, text = opening.toList ++ header ++ ')' :: rest ∧ Brackets.Balanced header ∧
    (Brackets.outside [] header).count ';' = semicolons

/-- A header ends at the parenthesis that its own starts, so its semicolons are so many and no
others. -/
theorem HasHeader.unique {text : List Char} {opening : String} {n m : Nat}
    (hn : HasHeader text opening n) (hm : HasHeader text opening m) : n = m := by
  obtain ⟨header, rest, ht, hb, rfl⟩ := hn
  obtain ⟨header', rest', ht', hb', rfl⟩ := hm
  have hs : header ++ ')' :: rest = header' ++ ')' :: rest' := by
    rw [ht, List.append_assoc, List.append_assoc] at ht'
    exact List.append_cancel_left ht'
  rcases List.append_eq_append_iff.mp hs with ⟨more, rfl, hr⟩ | ⟨more, rfl, hr⟩
  · cases more with
    | nil => rw [List.append_nil]
    | cons c more =>
      obtain ⟨rfl, -⟩ := List.cons.inj hr
      exact absurd hb' (hb.not_balanced_append more)
  · cases more with
    | nil => rw [List.append_nil]
    | cons c more =>
      obtain ⟨rfl, -⟩ := List.cons.inj hr
      exact absurd hb (hb'.not_balanced_append more)

theorem Piece.Counted.hasHeader {options : RenderOptions} {level : Nat} {header : List Piece}
    {semicolons : Nat} (hcounted : Counted options level header semicolons) (opening : String)
    (rest : List Piece) : HasHeader
      (skeleton options level (lit opening ++ header ++ lit ") " ++ rest)) opening semicolons := by
  refine ⟨skeleton options level header, ' ' :: skeleton options level rest, ?_, hcounted.balanced,
    hcounted.count⟩
  rw [List.append_assoc, List.append_assoc, skeleton_append (closed_lit opening),
    skeleton_append hcounted.closed, skeleton_append (closed_lit ") "), skeleton_lit, skeleton_lit,
    List.append_assoc]
  rfl

namespace Node

variable {options : RenderOptions} (hneutral : options.IsNeutral) {node : Node Nat}
  (hr : ∀ below ∈ node.preorder, below.Regular) (hobeys : node.Obeys Role.admits) {level : Nat}
include hneutral hr hobeys

theorem counted_child {edge : Edge (Node Nat)} (he : edge ∈ node.edges) {place : Place}
    (hs : edge.child.kind.isSilent = true ∨
      place = .header ∧ edge.child.kind.isVariableDeclaration = true) :
    Piece.Counted options level [.child edge.child.part place 0] 0 := by
  have hc := child_of_edge (hr node node.self_mem_preorder) he
  have hr' (below) (hm : below ∈ edge.child.preorder) : below.Regular :=
    hr below (mem_preorder_of_child hc hm)
  have hw : Piece.skeleton options level [.child edge.child.part place 0] =
      Event.skeleton options.indent 0 (edge.child.events place level) := by
    rw [Piece.skeleton, List.flatMap_singleton]
    rfl
  refine ⟨?_, ?_, ?_⟩
  · rw [List.flatMap_singleton]
    exact edge.child.closed_events hr' place level
  · rw [hw]
    exact edge.child.balanced_events hneutral hr' place level
  · rw [hw, List.count_eq_zero]
    exact edge.child.silent_events hneutral hr' (hobeys.of_mem (child_mem_preorder hc)) level hs

section Parts

variable {fields : List (String × Arity)} (hl : node.kind.fields? = some fields) (index : Nat)
  {field : String × Arity} (hn : fields[index]? = some field) {slot : Slot Part}
  (hfilled : node.parts[index]? = some slot) {written : Part} (hslot : written ∈ slot.children)
include hl hn hfilled hslot

omit hneutral hobeys in
theorem exists_edge_of_index :
    ∃ edge ∈ node.edges, edge.key = field.1 ∧ edge.child.part = written := by
  have hm : (field, slot) ∈ fields.zip node.parts :=
    List.mem_of_getElem? (List.getElem?_zip_eq_some.mpr ⟨hn, hfilled⟩)
  exact exists_edge_of_part (hr node node.self_mem_preorder) hl hm hslot

theorem counted_expression (hrole : node.kind.roleOf field.1 = .expression) (least : Strength) :
    Piece.Counted options level (Piece.atLeast least written) 0 := by
  obtain ⟨edge, he, key, rfl⟩ := exists_edge_of_index hr hl index hn hfilled hslot
  have ha := hobeys node node.self_mem_preorder edge he
  rw [key, hrole] at ha
  have hs := Kind.isSilent_of_admits ha nofun nofun nofun
  exact Piece.counted_atLeast (counted_child hneutral hr hobeys he (.inl hs)) least

theorem counted_header (hrole : node.kind.roleOf field.1 = .header) :
    Piece.Counted options level (Piece.header written) 0 := by
  obtain ⟨edge, he, key, rfl⟩ := exists_edge_of_index hr hl index hn hfilled hslot
  have ha := hobeys node node.self_mem_preorder edge he
  rw [key, hrole] at ha
  unfold Piece.header
  split
  next kind hk =>
    exact counted_child hneutral hr hobeys he
      (.inr ⟨rfl, by rw [show edge.child.kind = _ from hk]; rfl⟩)
  next hdec =>
    have hs : edge.child.kind.isSilent = true := by
      rcases Bool.or_eq_true_iff.mp ha with ht | hd
      · exact @Kind.isSilent_of_admits .expression _ ht nofun nofun nofun
      · split at hd
        next hk => exact absurd hk (hdec _)
        next => cases hd
    exact Piece.counted_atLeast (counted_child hneutral hr hobeys he (.inl hs)) .sequence

end Parts

omit hneutral hobeys in
theorem hasHeader_events {place : Place} (hleaf : node.kind.isLeaf = false) {opening : String}
    {header rest : List Piece} {semicolons : Nat}
    (hcounted : Piece.Counted options level header semicolons)
    (eq : node.pieces node.parts place = Piece.lit opening ++ header ++ Piece.lit ") " ++ rest) :
    HasHeader (Event.skeleton options.indent 0 (node.events place level)) opening semicolons := by
  have hclosed := closed_pieces (hr node node.self_mem_preorder) place level fun child hc =>
    child.closed_events fun below h => hr below (mem_preorder_of_child hc h)
  rw [skeleton_events hclosed, if_neg (by simp [hleaf]), eq]
  exact hcounted.hasHeader opening rest

/-- A semicolon stands after the first and after the second part of the header, whichever parts
there are. -/
theorem hasHeader_forStatement (hk : node.kind = .forStatement) (place : Place) :
    HasHeader (Event.skeleton options.indent 0 (node.events place level)) "for (" 2 := by
  have ho := hr node node.self_mem_preorder
  have hl : node.kind.fields? =
      some [("init", .maybe), ("test", .maybe), ("update", .maybe), ("body", .one)] :=
    congrArg Kind.fields? hk
  obtain ⟨init, test, update, body, shape⟩ : ∃ init test update body,
      node.parts = [.maybe init, .maybe test, .maybe update, .one body] := by
    have hf := fits_parts ho hl
    generalize node.parts = slots at hf
    repeat cases ‹Slot.Fits _ _›
    exact ⟨_, _, _, _, rfl⟩
  have hfilled (index : Nat) := congrArg (·[index]?) shape
  have first : Piece.Counted options level (init.elim [] Piece.header) 0 := by
    cases init with
    | none => exact Piece.counted_nil
    | some init =>
      exact counted_header hneutral hr hobeys hl 0 rfl (hfilled 0)
        (List.mem_singleton_self init) (by rw [hk]; rfl)
  have second : Piece.Counted options level
      (Piece.given " " (Piece.atLeast .sequence) test) 0 := by
    exact Piece.counted_given fun part hg => counted_expression hneutral hr hobeys hl 1 rfl
      (hfilled 1) hg (by rw [hk]; rfl) .sequence
  have third : Piece.Counted options level
      (Piece.given " " (Piece.atLeast .sequence) update) 0 := by
    exact Piece.counted_given fun part hg => counted_expression hneutral hr hobeys hl 2 rfl
      (hfilled 2) hg (by rw [hk]; rfl) .sequence
  have semicolon : Piece.Counted options level (Piece.lit ";") 1 :=
    Piece.counted_lit (by decide)
  have hcounted := (((first.append semicolon).append second).append semicolon).append third
  have eq : node.pieces node.parts place = Piece.lit "for (" ++
      (init.elim [] Piece.header ++ Piece.lit ";" ++
        Piece.given " " (Piece.atLeast .sequence) test ++ Piece.lit ";" ++
        Piece.given " " (Piece.atLeast .sequence) update) ++
      Piece.lit ") " ++ Piece.plain body := by
    simp [pieces, hk, shape, Template.pieces]
  exact hasHeader_events hr (by rw [hk]; rfl) hcounted eq

/-- No semicolon stands in the header of a loop over what an object holds. -/
theorem hasHeader_loop {opening word : String} {least : Strength}
    (hleaf : node.kind.isLeaf = false)
    (hl : node.kind.fields? = some [("left", .one), ("right", .one), ("body", .one)])
    (roles : node.kind.roleOf "left" = .header ∧ node.kind.roleOf "right" = .expression)
    (hb : Brackets.Balanced word.toList)
    (hs : (Brackets.outside [] word.toList).count ';' = 0) {place : Place}
    (eq : ∀ left right body : Part, node.pieces [.one left, .one right, .one body] place =
      Piece.lit opening ++ (Piece.header left ++ Piece.lit word ++ Piece.atLeast least right) ++
        Piece.lit ") " ++ Piece.plain body) :
    HasHeader (Event.skeleton options.indent 0 (node.events place level)) opening 0 := by
  have ho := hr node node.self_mem_preorder
  obtain ⟨left, right, body, shape⟩ : ∃ left right body,
      node.parts = [.one left, .one right, .one body] := by
    have hf := fits_parts ho hl
    generalize node.parts = slots at hf
    repeat cases ‹Slot.Fits _ _›
    exact ⟨_, _, _, rfl⟩
  have hfilled (index : Nat) := congrArg (·[index]?) shape
  have first : Piece.Counted options level (Piece.header left) 0 := by
    exact counted_header hneutral hr hobeys hl 0 rfl (hfilled 0) List.mem_cons_self roles.1
  have second : Piece.Counted options level (Piece.atLeast least right) 0 := by
    exact counted_expression hneutral hr hobeys hl 1 rfl (hfilled 1) List.mem_cons_self roles.2
      least
  have between : Piece.Counted options level (Piece.lit word) 0 :=
    hs ▸ Piece.counted_lit hb
  exact hasHeader_events hr hleaf ((first.append between).append second) (shape ▸ eq _ _ _)

theorem hasHeader_forInStatement (hk : node.kind = .forInStatement) (place : Place) :
    HasHeader (Event.skeleton options.indent 0 (node.events place level)) "for (" 0 := by
  have eq (left right body : Part) : node.pieces [.one left, .one right, .one body] place =
      Piece.lit "for (" ++
        (Piece.header left ++ Piece.lit " in " ++ Piece.atLeast .sequence right) ++
        Piece.lit ") " ++ Piece.plain body := by
    simp [pieces, hk, Template.pieces]
  refine hasHeader_loop hneutral hr hobeys ?_ ?_ ⟨?_, ?_⟩ (by decide) (by decide) eq <;>
    rw [hk] <;> rfl

theorem hasHeader_forOfStatement {await : Bool} (hk : node.kind = .forOfStatement await)
    (place : Place) : HasHeader (Event.skeleton options.indent 0 (node.events place level))
      (if await then "for await (" else "for (") 0 := by
  have eq (left right body : Part) : node.pieces [.one left, .one right, .one body] place =
      Piece.lit (if await then "for await (" else "for (") ++
        (Piece.header left ++ Piece.lit " of " ++ Piece.atLeast .assignment right) ++
        Piece.lit ") " ++ Piece.plain body := by
    simp [pieces, hk, Template.pieces]
  refine hasHeader_loop hneutral hr hobeys ?_ ?_ ⟨?_, ?_⟩ (by decide) (by decide) eq <;>
    rw [hk] <;> rfl

end Node

namespace Tree

variable {tree : Tree}

/-- Where each node stands where it may, the brackets are balanced in every unit, and the header of
a loop has the semicolons of its type and no others, whatever is in it. The texts of templates are
among the nodes that have to stand where they may. -/
theorem balanced_and_hasHeader_of_ofJson {value : Json} (h : Tree.ofJson value = .ok tree)
    (obeys : tree.obeys Role.admits = true) {options : RenderOptions} (neutral : options.IsNeutral)
    {u : Nat} {unit : MarkupUnit} (found : (tree.render options).unit? u = some unit) :
    Brackets.Balanced unit.skeleton ∧
    ∀ id node, tree.node? id = some node → (tree.render options).nodeFor? u = some id →
      (node.kind = .forStatement → HasHeader unit.skeleton "for (" 2) ∧
      (node.kind = .forInStatement → HasHeader unit.skeleton "for (" 0) ∧
      ∀ await, node.kind = .forOfStatement await →
        HasHeader unit.skeleton (if await then "for await (" else "for (") 0 := by
  have hr := regular_of_ofJson h
  refine ⟨balanced_skeleton hr neutral found, fun id node hnode ho => ?_⟩
  obtain ⟨other, place, level, hs, rfl, hp⟩ := exists_stands_of_nodeFor? hr ho
  have hm := hs.mem_preorder hr
  obtain rfl : other = node := Option.some.inj ((node?_id hm).symm.trans hnode)
  obtain ⟨unit', hf', skeleton⟩ := hs.exists_skeleton hr hp ho
  obtain rfl := Option.some.inj (found.symm.trans hf')
  have hr' (below) (hb : below ∈ other.preorder) : below.Regular :=
    hr below (Node.mem_preorder_trans hm hb)
  have hobeys' := obeys_of_mem obeys hm
  rw [skeleton]
  exact ⟨fun hk => Node.hasHeader_forStatement neutral hr' hobeys' hk place,
    fun hk => Node.hasHeader_forInStatement neutral hr' hobeys' hk place,
    fun _ hk => Node.hasHeader_forOfStatement neutral hr' hobeys' hk place⟩

def headerSample : Json :=
  .ofNode "Program" [("body", .array [.ofNode "ForStatement" [
    ("init", .ofNode "VariableDeclaration" [("kind", .string "var"), ("declarations", .array [
      .ofNode "VariableDeclarator" [("id", .ofNode "Identifier" [("name", .string "f")]),
        ("init", .ofNode "FunctionExpression" [("params", .array []), ("body",
          .ofNode "BlockStatement" [("body", .array [.ofNode "EmptyStatement" []])])])]])]),
    ("body", .ofNode "ForOfStatement" [("await", .bool true),
      ("left", .ofNode "Identifier" [("name", .string "x")]),
      ("right", .ofNode "Identifier" [("name", .string "y")]),
      ("body", .ofNode "EmptyStatement" [])])]])]

/-- The semicolon in a function that a header holds, `for (var f = function () { ; };;)`, is not
counted. -/
theorem hasHeader_of_headerSample :
    ∃ tree node unit, Tree.ofJson headerSample = .ok tree ∧ tree.obeys Role.admits = true ∧
      ({} : RenderOptions).IsNeutral ∧ (tree.render {}).unit? 0 = some unit ∧
      tree.node? 10 = some node ∧ node.kind = .forStatement ∧
      (tree.render {}).nodeFor? 0 = some 10 ∧ HasHeader unit.skeleton "for (" 2 := by
  obtain ⟨tree, hj, facts⟩ := exists_of_ofJson
    (f := fun tree => (tree.obeys Role.admits,
      (tree.node? 10).any fun node => node.kind == .forStatement, (tree.render {}).nodeFor? 0))
    (b := (true, true, some 10))
    (by decide +kernel : (ofJson headerSample).toOption.map _ = some _)
  simp only [Prod.mk.injEq, Option.any_eq_true, beq_iff_eq] at facts
  obtain ⟨hobeys, ⟨node, hnode, hk⟩, ho⟩ := facts
  have hneutral : ({} : RenderOptions).IsNeutral := by decide
  obtain ⟨unit, hf, -⟩ := Option.bind_eq_some_iff.mp ho
  obtain ⟨-, headers⟩ := balanced_and_hasHeader_of_ofJson hj hobeys hneutral hf
  exact ⟨tree, node, unit, hj, hobeys, hneutral, hf, hnode, hk, ho,
    (headers 10 node hnode ho).1 hk⟩

def quasiSample : Json :=
  .ofNode "Program" [("body", .array [.ofNode "ForStatement" [
    ("test", .ofNode "TemplateLiteral" [("quasis", .array [.ofNode "EmptyStatement" []]),
      ("expressions", .array [])]),
    ("body", .ofNode "EmptyStatement" [])]])]

/-- A statement as the text of a template puts its semicolon into the header, ``for (; `;`;) ;``. -/
theorem not_hasHeader_of_quasi :
    ¬ ∀ (value : Json) (tree : Tree), Tree.ofJson value = .ok tree →
      tree.obeys Role.admitsAnyText = true →
      ∀ u unit, (tree.render {}).unit? u = some unit →
      ∀ id node, tree.node? id = some node → (tree.render {}).nodeFor? u = some id →
        node.kind = .forStatement → HasHeader unit.skeleton "for (" 2 := by
  intro counts
  obtain ⟨tree, hj, facts⟩ := exists_of_ofJson
    (f := fun tree => (tree.obeys Role.admitsAnyText,
      (tree.node? 3).any fun node => node.kind == .forStatement, (tree.render {}).nodeFor? 0,
      ((tree.render {}).unit? 0).map MarkupUnit.skeleton))
    (b := (true, true, some 3, some "for (; `;`;) ;".toList))
    (by decide +kernel : (ofJson quasiSample).toOption.map _ = some _)
  simp only [Prod.mk.injEq, Option.any_eq_true, beq_iff_eq] at facts
  obtain ⟨hobeys, ⟨node, hnode, hk⟩, ho, hshown⟩ := facts
  obtain ⟨unit, hf, hw⟩ := Option.map_eq_some_iff.mp hshown
  have three : HasHeader unit.skeleton "for (" 3 :=
    ⟨"; `;`;".toList, " ;".toList, hw, by decide, by decide⟩
  have two := counts quasiSample tree hj hobeys 0 unit hf 3 node hnode ho hk
  exact absurd (two.unique three) (by decide)

end Tree

end SyntaxMarkup

import SyntaxMarkup.Proofs.Markup.Calls

namespace SyntaxMarkup

section Numbered

variable {α β : Type}

theorem filter_eq_getElem? {items : List α} {number : α → Nat} {start : Nat}
    (h : items.map number = List.range' start items.length) (place : Nat) :
    items.filter (number · = start + place) = (items[place]?).toList := by
  induction items generalizing start place with
  | nil => rfl
  | cons item rest ih =>
    rw [List.map_cons, List.length_cons, List.range'_succ] at h
    obtain ⟨here, later⟩ := List.cons.inj h
    cases place with
    | zero =>
      have others : rest.filter (number · = start + 0) = [] := by
        refine List.filter_eq_nil_iff.mpr fun other hm => ?_
        have above := List.mem_map_of_mem (f := number) hm
        rw [later, List.mem_range'_1] at above
        simp
        omega
      rw [List.filter_cons_of_pos (by simp [here]), others]
      rfl
    | succ place =>
      have same : start + (place + 1) = start + 1 + place := by omega
      rw [List.filter_cons_of_neg (by simp [here]), same, ih later]
      rfl

/-- The last entry counts where no other one does. -/
theorem lookup_append_singleton (entries : List (Nat × β)) (key other : Nat) (value : β)
    (found : Option β) :
    ((entries ++ [(key, value)]).lookup other).or found =
      (entries.lookup other).or (if key = other then some value else found) := by
  rw [List.lookup_append, Option.or_assoc, List.lookup_cons]
  by_cases same : key = other
  · simp [same]
  · rw [if_neg same, beq_false_of_ne (Ne.symm same)]
    rfl

end Numbered

namespace Mark

/-- The characters met while a unit is open; of the open units the innermost comes first. -/
def within (unit : Nat) : List Nat → List Mark → List Char
  | _, [] => []
  | around, .char c :: rest => (if unit ∈ around then [c] else []) ++ within unit around rest
  | around, .start opened :: rest => within unit (opened.id :: around) rest
  | around, .stop :: rest => within unit around.tail rest

theorem within_chars (unit : Nat) (around : List Nat) (chars : List Char) (rest : List Mark) :
    within unit around (chars.map .char ++ rest) =
      (if unit ∈ around then chars else []) ++ within unit around rest := by
  induction chars with
  | nil => simp
  | cons c chars ih =>
    rw [List.map_cons, List.cons_append, within, ih]
    split <;> rfl

theorem within_stops (unit : Nat) (around : List Nat) (marks : List Mark) (stops : Nat) :
    within unit around (marks ++ List.replicate stops .stop) = within unit around marks := by
  induction marks generalizing around with
  | nil =>
    induction stops generalizing around with
    | zero => rfl
    | succ stops ih => exact ih around.tail
  | cons mark rest ih => cases mark <;> simp only [List.cons_append, within, ih]

theorem start?_chars (chars : List Char) : (chars.map Mark.char).filterMap start? = [] := by
  rw [List.filterMap_map]
  exact List.filterMap_eq_nil_iff.mpr fun _ _ => rfl

end Mark

namespace Fragment

/-- The text of the units with a number. -/
def textOf (id : Nat) (units : List MarkupUnit) : List Char :=
  (units.filter (·.id = id)).flatMap fun unit => (contents unit.children).toList

theorem textOf_eq_nil {id : Nat} {units : List MarkupUnit} (h : id ∉ units.map MarkupUnit.id) :
    textOf id units = [] := by
  have none : units.filter (·.id = id) = [] := by
    refine List.filter_eq_nil_iff.mpr fun unit hm same => h ?_
    exact List.mem_map.mpr ⟨unit, hm, of_decide_eq_true same⟩
  rw [textOf, none, List.flatMap_nil]

mutual

/-- All that is met inside an open unit is met while it is open. -/
theorem within_marks_of_mem {id : Nat} {around : List Nat} (h : id ∈ around) (rest : List Mark)
    (parent : Option Nat) : ∀ fragment : Fragment,
      Mark.within id around (fragment.marks parent ++ rest) =
        fragment.content.toList ++ Mark.within id around rest
  | .text content => by
    rw [marks, Mark.within_chars, if_pos h, Fragment.content]
  | .unit other label title node children => by
    rw [marks, Fragment.content, List.cons_append, List.cons_append, List.append_assoc, Mark.within,
      within_marksOf_of_mem (List.mem_cons_of_mem _ h)]
    rfl

theorem within_marksOf_of_mem {id : Nat} {around : List Nat} (h : id ∈ around) (rest : List Mark)
    (parent : Option Nat) : ∀ fragments : List Fragment,
      Mark.within id around (marksOf parent fragments ++ rest) =
        (contents fragments).toList ++ Mark.within id around rest
  | [] => rfl
  | fragment :: others => by
    rw [marksOf, contents, List.append_assoc, within_marks_of_mem h, within_marksOf_of_mem h,
      String.toList_append, List.append_assoc]

end

mutual

theorem within_marks {id : Nat} {around : List Nat} (outside : id ∉ around) (rest : List Mark)
    (parent : Option Nat) : ∀ fragment : Fragment,
      ((fragment.units parent).map MarkupUnit.id).Nodup →
      Mark.within id around (fragment.marks parent ++ rest) =
        textOf id (fragment.units parent) ++ Mark.within id around rest
  | .text content, _ => by
    rw [marks, Mark.within_chars, if_neg outside]
    rfl
  | .unit other label title node children, hd => by
    obtain ⟨new, below⟩ := List.nodup_cons.mp hd
    rw [marks, units, List.cons_append, List.cons_append, List.append_assoc, Mark.within, textOf]
    by_cases same : other = id
    · subst same
      rw [within_marksOf_of_mem List.mem_cons_self, List.filter_cons_of_pos (by simp),
        List.flatMap_cons, ← textOf, textOf_eq_nil new, List.append_nil]
      rfl
    · have outside : id ∉ other :: around := by simp [outside, Ne.symm same]
      rw [within_marksOf outside _ _ children below, List.filter_cons_of_neg (by simp [same])]
      rfl

theorem within_marksOf {id : Nat} {around : List Nat} (outside : id ∉ around) (rest : List Mark)
    (parent : Option Nat) : ∀ fragments : List Fragment,
      ((unitsOf parent fragments).map MarkupUnit.id).Nodup →
      Mark.within id around (marksOf parent fragments ++ rest) =
        textOf id (unitsOf parent fragments) ++ Mark.within id around rest
  | [], _ => rfl
  | fragment :: others, hd => by
    rw [unitsOf, List.map_append] at hd
    obtain ⟨first, later, -⟩ := List.nodup_append.mp hd
    rw [marksOf, unitsOf, List.append_assoc, within_marks outside _ _ fragment first,
      within_marksOf outside _ _ others later, textOf, textOf, textOf, List.filter_append,
      List.flatMap_append, List.append_assoc]

end

/-- How many of the units with a number have a parent. -/
def placed (id : Nat) (parent : Option Nat) (units : List MarkupUnit) : Nat :=
  units.countP fun unit => unit.id = id ∧ unit.parent = parent

/-- How often a unit is among those that a unit holds. -/
def held (id : Nat) (container : Option Nat) (units : List MarkupUnit) : Nat :=
  ((units.filter (some ·.id = container)).flatMap MarkupUnit.childUnits).count id

theorem placed_cons (id : Nat) (parent : Option Nat) (unit : MarkupUnit) (units : List MarkupUnit) :
    placed id parent (unit :: units) =
      (if unit.id = id ∧ unit.parent = parent then 1 else 0) + placed id parent units := by
  simp [placed, List.countP_cons, Nat.add_comm]

theorem held_cons (id : Nat) (container : Option Nat) (unit : MarkupUnit)
    (units : List MarkupUnit) : held id container (unit :: units) =
      (if some unit.id = container then unit.childUnits.count id else 0) +
        held id container units := by
  unfold held
  rw [List.filter_cons]
  split <;> simp_all

mutual

/-- The units with a number that have a parent are as many as the occurrences of the number in
it. -/
theorem placed_units (id : Nat) (container parent : Option Nat) : ∀ fragment : Fragment,
    placed id container (fragment.units parent) =
      (if parent = container then fragment.unitId?.toList.count id else 0) +
        held id container (fragment.units parent)
  | .text content => by simp [units, placed, held, unitId?]
  | .unit other label title node children => by
    rw [units, placed_cons, held_cons, placed_unitsOf id container (some other) children]
    simp only [unitId?, Option.toList_some, List.count_singleton, MarkupUnit.childUnits, beq_iff_eq]
    split_ifs <;> simp_all

theorem placed_unitsOf (id : Nat) (container parent : Option Nat) : ∀ fragments : List Fragment,
    placed id container (unitsOf parent fragments) =
      (if parent = container then (fragments.filterMap unitId?).count id else 0) +
        held id container (unitsOf parent fragments)
  | [] => by simp [unitsOf, placed, held]
  | fragment :: others => by
    have first : (fragment :: others).filterMap unitId? =
        fragment.unitId?.toList ++ others.filterMap unitId? := by
      cases fragment <;> rfl
    have here := placed_units id container parent fragment
    have later := placed_unitsOf id container parent others
    simp only [placed, held] at here later ⊢
    rw [unitsOf, List.countP_append, List.filter_append, List.flatMap_append, List.count_append,
      first, List.count_append, here, later]
    split <;> omega

end

end Fragment

namespace Document

variable {document : Document} {id : Nat}

/-- The units directly inside a unit, or inside none. -/
def unitsIn (document : Document) : Option Nat → List Nat
  | none => document.topLevelUnits
  | some id => (document.unit? id).elim [] MarkupUnit.childUnits

def Numbered (document : Document) : Prop :=
  document.units.map MarkupUnit.id = List.range document.unitCount

theorem Numbered.filter_units (hn : document.Numbered) (id : Nat) :
    document.units.filter (·.id = id) = (document.unit? id).toList := by
  have hcounted : document.units.map MarkupUnit.id = List.range' 0 document.units.length := by
    rw [← List.range_eq_range']
    exact hn
  have filtered := filter_eq_getElem? hcounted id
  rwa [Nat.zero_add] at filtered

theorem Numbered.exists_unit (hn : document.Numbered) (hk : id < document.unitCount) :
    ∃ unit, document.unit? id = some unit ∧ unit.id = id := by
  have hf : document.unit? id = some document.units[id] := List.getElem?_eq_getElem hk
  have hm := List.mem_singleton_self document.units[id]
  rw [← Option.toList_some, ← hf, ← hn.filter_units] at hm
  exact ⟨_, hf, of_decide_eq_true (List.mem_filter.mp hm).2⟩

theorem Numbered.unit?_of_mem (hn : document.Numbered) {unit : MarkupUnit}
    (hu : unit ∈ document.units) : document.unit? unit.id = some unit := by
  have hf : unit ∈ document.units.filter (·.id = unit.id) :=
    List.mem_filter.mpr ⟨hu, decide_eq_true rfl⟩
  rw [hn.filter_units] at hf
  exact Option.mem_toList.mp hf

/-- A unit is met once: among the units of its parent. -/
theorem Numbered.count_unitsIn (hn : document.Numbered) {unit : MarkupUnit}
    (hf : document.unit? id = some unit) (container : Option Nat) :
    (document.unitsIn container).count id = if unit.parent = container then 1 else 0 := by
  have ho : Fragment.placed id container document.units =
      if unit.parent = container then 1 else 0 := by
    have both := @List.countP_filter _ (fun unit => decide (unit.parent = container))
      (fun unit => decide (unit.id = id)) document.units
    rw [hn.filter_units, hf, Option.toList_some, List.countP_singleton] at both
    simp only [decide_eq_true_eq] at both
    rw [both, Fragment.placed]
    exact List.countP_congr fun unit _ => by simp [and_comm]
  rw [← ho, units, Fragment.placed_unitsOf, ← units]
  cases container with
  | none => simp [Fragment.held, unitsIn, topLevelUnits]
  | some outer =>
    have holder := hn.filter_units outer
    simp only [Fragment.held, Option.some.injEq, holder, unitsIn]
    cases document.unit? outer <;> simp

/-- What a unit holds is what is met while it is open. -/
theorem Numbered.toList_unitText (hn : document.Numbered) (id : Nat) :
    (document.unitText id).toList = Mark.within id [] (Fragment.marksOf none document.roots) := by
  have hd : (document.units.map MarkupUnit.id).Nodup := hn ▸ List.nodup_range
  have met := Fragment.within_marksOf (List.not_mem_nil (a := id)) [] none document.roots hd
  rw [List.append_nil] at met
  rw [met, ← units, Fragment.textOf, hn.filter_units, unitText]
  cases document.unit? id <;> simp [Mark.within]

end Document

namespace MarkupCall

/-- The marks that calls leave; `next` is the number of the next unit, and of the units `around`
that are open the innermost comes first. -/
def marks : (next : Nat) → (around : List Nat) → List MarkupCall → List Mark
  | _, _, [] => []
  | next, around, .openUnit label title node :: rest =>
    .start ⟨next, label, title, node, around.head?, []⟩ :: marks (next + 1) (next :: around) rest
  | next, around, .text content :: rest => content.toList.map .char ++ marks next around rest
  | next, around, .close :: rest =>
    (if around.isEmpty then [] else [.stop]) ++ marks next around.tail rest
  | next, around, .assign _ _ :: rest => marks next around rest

/-- The texts that are passed while a unit is open. -/
def textsIn (unit : Nat) : (next : Nat) → (around : List Nat) → List MarkupCall → List String
  | _, _, [] => []
  | next, around, .openUnit _ _ _ :: rest => textsIn unit (next + 1) (next :: around) rest
  | next, around, .text content :: rest =>
    (if unit ∈ around then [content] else []) ++ textsIn unit next around rest
  | next, around, .close :: rest => textsIn unit next around.tail rest
  | next, around, .assign _ _ :: rest => textsIn unit next around rest

/-- The nodes that are named, each with the unit that is to show it. -/
def named : (next : Nat) → List MarkupCall → List (Nat × Nat)
  | _, [] => []
  | next, .openUnit _ _ node :: rest => (node.map (·, next)).toList ++ named (next + 1) rest
  | next, .assign node unit :: rest => (node, unit) :: named next rest
  | next, _ :: rest => named next rest

def text? : MarkupCall → Option String
  | .text content => some content
  | _ => none

/-- The label, the title and the node of a unit that is opened. -/
def opened? : MarkupCall → Option (String × Option String × Option Nat)
  | .openUnit label title node => some (label, title, node)
  | _ => none

section Marks

variable (next : Nat) (around : List Nat) (calls : List MarkupCall)

theorem within_marks (unit : Nat) :
    Mark.within unit around (marks next around calls) =
      (textsIn unit next around calls).flatMap String.toList := by
  induction calls generalizing next around with
  | nil => rfl
  | cons call rest ih =>
    cases call with
    | openUnit => exact ih (next + 1) (next :: around)
    | text content =>
      rw [marks, textsIn, Mark.within_chars, List.flatMap_append, ih]
      split <;> simp
    | close =>
      cases around with
      | nil => exact ih next []
      | cons innermost others => exact ih next others
    | assign => exact ih next around

theorem char?_marks :
    (marks next around calls).filterMap Mark.char? =
      (calls.filterMap text?).flatMap String.toList := by
  induction calls generalizing next around with
  | nil => rfl
  | cons call rest ih =>
    cases call with
    | openUnit => exact ih (next + 1) (next :: around)
    | text content =>
      rw [marks, List.filterMap_append, List.filterMap_map, ih]
      exact congrArg (· ++ _) List.filterMap_some
    | close =>
      rw [marks, List.filterMap_append, ih]
      split <;> rfl
    | assign => exact ih next around

theorem start?_marks :
    ((marks next around calls).filterMap Mark.start?).map
        (fun unit => (unit.label, unit.title, unit.node)) = calls.filterMap opened? := by
  induction calls generalizing next around with
  | nil => rfl
  | cons call rest ih =>
    cases call with
    | openUnit label title node => exact congrArg _ (ih (next + 1) (next :: around))
    | text content =>
      rw [marks, List.filterMap_append, Mark.start?_chars]
      exact ih next around
    | close =>
      rw [marks, List.filterMap_append, List.map_append, ih]
      split <;> rfl
    | assign => exact ih next around

/-- A unit is opened after the one around it. -/
theorem parent_lt_id {next : Nat} {around : List Nat} (earlier : ∀ id ∈ around, id < next) :
    ∀ unit ∈ (marks next around calls).filterMap Mark.start?, ∀ parent,
      unit.parent = some parent → parent < unit.id := by
  induction calls generalizing next around with
  | nil => exact nofun
  | cons call rest ih =>
    cases call with
    | openUnit label title node =>
      refine List.forall_mem_cons.mpr ⟨fun parent innermost => ?_, ih ?_⟩
      · exact earlier parent (List.mem_of_head? innermost)
      · exact List.forall_mem_cons.mpr ⟨Nat.lt_succ_self next, fun id hm =>
          Nat.lt_succ_of_lt (earlier id hm)⟩
    | text content =>
      rw [marks, List.filterMap_append, Mark.start?_chars]
      exact ih earlier
    | close =>
      have none : (if around.isEmpty then [] else [Mark.stop]).filterMap Mark.start? = [] := by
        split <;> rfl
      rw [marks, List.filterMap_append, none]
      exact ih fun id hm => earlier id (List.mem_of_mem_tail hm)
    | assign => exact ih earlier

end Marks

end MarkupCall

namespace Builder

/-- What a call adds to the marks is the first part of what the calls from it on add. -/
theorem marks_perform (builder : Builder) (call : MarkupCall) (rest : List MarkupCall) :
    (builder.perform call).marks ++ MarkupCall.marks (builder.perform call).next
        ((builder.perform call).frame.map Prod.fst) rest =
      builder.marks ++
        MarkupCall.marks builder.next (builder.frame.map Prod.fst) (call :: rest) := by
  cases call with
  | openUnit label title node =>
    rw [perform, marks_openUnit, frame_openUnit, List.append_assoc, ← List.head?_map]
    rfl
  | text content =>
    rw [perform, marks_text, next_text, frame_text, List.append_assoc]
    rfl
  | close =>
    rw [perform, marks_close, next_close, frame_close, List.append_assoc, List.map_tail,
      MarkupCall.marks, List.isEmpty_map]
  | assign => rfl

theorem marks_performed (builder : Builder) (calls : List MarkupCall) :
    (calls.foldl perform builder).marks =
      builder.marks ++ MarkupCall.marks builder.next (builder.frame.map Prod.fst) calls := by
  induction calls generalizing builder with
  | nil => exact (List.append_nil _).symm
  | cons call rest ih => rw [List.foldl_cons, ih, marks_perform]

theorem unitFor?_performed (builder : Builder) (calls : List MarkupCall) (node : Nat) :
    (calls.foldl perform builder).unitFor? node =
      ((MarkupCall.named builder.next calls).reverse.lookup node).or (builder.unitFor? node) := by
  induction calls generalizing builder with
  | nil => rfl
  | cons call rest ih =>
    rw [List.foldl_cons, ih]
    cases call with
    | openUnit label title shown =>
      cases shown with
      | none => rfl
      | some shown =>
        rw [perform, unitFor?_openUnit, MarkupCall.named, Option.map_some, Option.toList_some,
          List.singleton_append, List.reverse_cons, lookup_append_singleton]
        rfl
    | text content =>
      rw [perform, unitFor?_text, next_text]
      rfl
    | close =>
      rw [perform, unitFor?_close, next_close]
      rfl
    | assign shown unit =>
      have ha : (builder.assign shown unit).unitFor? node =
          if shown = node then some unit else builder.unitFor? node := by
        simp [assign, unitFor?, Std.TreeMap.getElem?_insert]
      rw [perform, MarkupCall.named, List.reverse_cons, lookup_append_singleton, ha]
      rfl

section Finish

variable {builder : Builder} {calls : List MarkupCall}
  (marks : builder.marks = MarkupCall.marks 0 [] calls)
include marks

theorem headings_of_marks : builder.finish.units.map MarkupUnit.heading =
    (MarkupCall.marks 0 [] calls).filterMap Mark.start? := by
  rw [headings_finish, opened, marks]

theorem opened_of_marks :
    builder.finish.units.map (fun unit => (unit.label, unit.title, unit.node)) =
      calls.filterMap MarkupCall.opened? := by
  rw [← MarkupCall.start?_marks 0 [] calls, ← headings_of_marks marks, List.map_map]
  rfl

theorem text_of_marks : builder.finish.text = String.join (calls.filterMap MarkupCall.text?) := by
  rw [← String.toList_inj, text_finish, chars, marks, MarkupCall.char?_marks, String.toList_join]

theorem unitText_of_marks (hn : builder.finish.Numbered) (id : Nat) :
    builder.finish.unitText id = String.join (MarkupCall.textsIn id 0 [] calls) := by
  rw [← String.toList_inj, hn.toList_unitText, marks_finish, Mark.within_stops, marks,
    MarkupCall.within_marks, String.toList_join]

end Finish

variable (calls : List MarkupCall)

theorem marks_after : (after calls).marks = MarkupCall.marks 0 [] calls :=
  marks_performed {} calls

theorem numbered_after : (after calls).finish.Numbered :=
  map_id_finish (counted_after calls)

end Builder

namespace Document

/-- Every unit has a greater number than the one around it. -/
def ParentsFirst (document : Document) : Prop :=
  ∀ id parent, (document.unit? id).bind MarkupUnit.parent = some parent → parent < id

/-- Whatever the calls are that build a document, a unit is opened after the one around it. -/
theorem parentsFirst_of_marks {builder : Builder} {calls : List MarkupCall}
    (marks : builder.marks = MarkupCall.marks 0 [] calls) (hn : builder.finish.Numbered) :
    builder.finish.ParentsFirst := by
  intro id parent around
  obtain ⟨unit, hfound, inside⟩ := Option.bind_eq_some_iff.mp around
  have hk : id < builder.finish.unitCount := (List.getElem?_eq_some_iff.mp hfound).1
  obtain ⟨unit', hfound', rfl⟩ := hn.exists_unit hk
  cases hfound.symm.trans hfound'
  have hm := List.mem_map_of_mem (f := MarkupUnit.heading) (List.mem_of_getElem? hfound)
  rw [Builder.headings_of_marks marks] at hm
  exact MarkupCall.parent_lt_id calls (List.forall_mem_nil _) _ hm parent inside

end Document

end SyntaxMarkup

import SyntaxMarkup.Layout.Rendering
import SyntaxMarkup.Proofs.Markup.Forest

namespace SyntaxMarkup

open Arena (Entry Cell Writer)

theorem eq_length_of_append_eq_range {first rest : List Nat} {item count : Nat}
    (h : first ++ item :: rest = List.range count) : item = first.length := by
  have hl : first.length < count := by
    have hc := congrArg List.length h
    rw [List.length_append, List.length_cons, List.length_range] at hc
    omega
  have hi := congrArg (·[first.length]?) h
  simpa [hl] using hi

theorem getElem?_concat_of_ne {α : Type} {items : List α} {item : α} {i : Nat}
    (h : i ≠ items.length) : (items ++ [item])[i]? = items[i]? := by
  rcases Nat.lt_or_gt_of_ne h with h | h
  · exact List.getElem?_append_left h
  · rw [List.getElem?_eq_none (Nat.le_of_lt h), List.getElem?_eq_none]
    rw [List.length_append, List.length_singleton]
    exact h

theorem modify_append_cons {α : Type} (first rest : List α) (item : α) (change : α → α) :
    (first ++ item :: rest).modify first.length change = first ++ change item :: rest := by
  induction first with
  | nil => rfl
  | cons other others ih => exact congrArg _ ih

namespace Fragment

def entry : Fragment → Entry
  | .text content => .text content
  | .unit id _ _ _ _ => .unit id

def entries (fragments : List Fragment) : Array Entry :=
  (fragments.map entry).toArray

end Fragment

def MarkupUnit.cell (unit : MarkupUnit) : Cell :=
  ⟨unit.label, unit.title, unit.parent, Fragment.entries unit.children⟩

namespace Fragment

/-- The cells of the units in fragments, each before those inside it. -/
def cellsOf (parent : Option Nat) (fragments : List Fragment) : List Cell :=
  (unitsOf parent fragments).map MarkupUnit.cell

theorem unitsOf_append (parent : Option Nat) (first rest : List Fragment) :
    unitsOf parent (first ++ rest) = unitsOf parent first ++ unitsOf parent rest := by
  induction first with
  | nil => rfl
  | cons fragment others ih => rw [List.cons_append, unitsOf, unitsOf, ih, List.append_assoc]

theorem cellsOf_append (parent : Option Nat) (first rest : List Fragment) :
    cellsOf parent (first ++ rest) = cellsOf parent first ++ cellsOf parent rest := by
  rw [cellsOf, unitsOf_append, List.map_append, cellsOf, cellsOf]

theorem entries_append (first rest : List Fragment) :
    entries (first ++ rest) = entries first ++ entries rest := by
  simp [entries]

theorem entries_appendText (text : String) (fragments : List Fragment) :
    entries (Builder.appendText text fragments).reverse =
      Writer.appendText text (entries fragments.reverse) := by
  cases fragments with
  | nil => rfl
  | cons fragment others =>
    cases fragment <;> simp [Builder.appendText, Writer.appendText, entries, entry]

theorem cellsOf_appendText (parent : Option Nat) (text : String) (fragments : List Fragment) :
    cellsOf parent (Builder.appendText text fragments).reverse =
      cellsOf parent fragments.reverse := by
  cases fragments with
  | nil => rfl
  | cons fragment others =>
    cases fragment <;> simp [Builder.appendText, cellsOf_append] <;> simp [cellsOf, unitsOf, units]

end Fragment

namespace OpenUnit

/-- The cell of an open unit, which already names the open unit inside it. -/
def cell (unit : OpenUnit) (parent inner : Option Nat) : Cell :=
  ⟨unit.label, unit.title, parent,
    Fragment.entries unit.children.reverse ++ (inner.map Entry.unit).toArray⟩

/-- The cells of open units and of all units in them. -/
def cells (inner : Option Nat) : List OpenUnit → List Cell
  | [] => []
  | unit :: others =>
    cells (some unit.id) others ++ unit.cell (others.head?.map id) inner ::
      Fragment.cellsOf (some unit.id) unit.children.reverse

theorem length_cells (inner : Option Nat) (stack : List OpenUnit) :
    (cells inner stack).length = ((marks stack).filterMap Mark.start?).length := by
  induction stack generalizing inner with
  | nil => rfl
  | cons unit others ih =>
    rw [cells, marks, List.length_append, ih, List.filterMap_append, List.length_append,
      List.filterMap_cons_some (by rfl), Fragment.start?_marksOf]
    simp [Fragment.cellsOf]

theorem cellsOf_close (parent : Option Nat) (unit : OpenUnit) :
    Fragment.cellsOf parent [unit.close] =
      unit.cell parent none :: Fragment.cellsOf (some unit.id) unit.children.reverse := by
  simp [Fragment.cellsOf, Fragment.unitsOf, Fragment.units, close, MarkupUnit.cell, cell]

theorem entries_close (unit : OpenUnit) :
    Fragment.entries [unit.close] = #[Entry.unit unit.id] :=
  rfl

end OpenUnit

namespace Builder

/-- The cells of the units that are opened, by their numbers. -/
def cells (builder : Builder) : List Cell :=
  Fragment.cellsOf none builder.roots.reverse ++ OpenUnit.cells none builder.stack

/-- The entries at the top, with the outermost open unit. -/
def entries (builder : Builder) : Array Entry :=
  Fragment.entries builder.roots.reverse ++
    (builder.frame.getLast?.map fun unit => Entry.unit unit.1).toArray

theorem length_cells (builder : Builder) : builder.cells.length = builder.opened.length := by
  rw [cells, opened, marks, List.length_append, List.filterMap_append, List.length_append,
    OpenUnit.length_cells, Fragment.start?_marksOf, Fragment.cellsOf, List.length_map,
    List.length_map]

theorem Counted.length_opened {builder : Builder} (hc : builder.Counted) :
    builder.opened.length = builder.next := by
  rw [← List.length_map (f := MarkupUnit.id), hc, List.length_range]

/-- The cell of the innermost open unit stands where the number of the unit says. -/
theorem Counted.length_before {builder : Builder} (hc : builder.Counted) {unit : OpenUnit}
    {others : List OpenUnit} (hs : builder.stack = unit :: others) :
    (Fragment.cellsOf none builder.roots.reverse ++
      OpenUnit.cells (some unit.id) others).length = unit.id := by
  unfold Counted opened marks at hc
  rw [hs, OpenUnit.marks, ← List.append_assoc, List.filterMap_append,
    List.filterMap_cons_some (by rfl), List.map_append, List.map_cons] at hc
  have hl : unit.id = _ := eq_length_of_append_eq_range hc
  rw [hl, List.length_map, List.filterMap_append, List.length_append, List.length_append,
    OpenUnit.length_cells, Fragment.start?_marksOf, Fragment.cellsOf, List.length_map,
    List.length_map]

theorem cells_cons {builder : Builder} {unit : OpenUnit} {others : List OpenUnit}
    (hs : builder.stack = unit :: others) :
    builder.cells =
      (Fragment.cellsOf none builder.roots.reverse ++ OpenUnit.cells (some unit.id) others) ++
        unit.cell (others.head?.map OpenUnit.id) none ::
          Fragment.cellsOf (some unit.id) unit.children.reverse := by
  rw [cells, hs, OpenUnit.cells, List.append_assoc]

theorem cells_openUnit (builder : Builder) (label : String) (title : Option String)
    (node : Option Nat) : (builder.openUnit label title node).cells =
      Fragment.cellsOf none builder.roots.reverse ++
        OpenUnit.cells (some builder.next) builder.stack ++
          [⟨label, title, builder.stack.head?.map OpenUnit.id, #[]⟩] := by
  simp [cells, openUnit, OpenUnit.cells, OpenUnit.cell, Fragment.cellsOf, Fragment.unitsOf,
    Fragment.entries]

/-- Closing a unit stores nothing: its cell is there already, and named by the one around it. -/
theorem cells_close (builder : Builder) : builder.close.cells = builder.cells := by
  cases hs : builder.stack with
  | nil => simp [close, hs]
  | cons unit others =>
    rw [cells_cons hs, close, hs]
    cases others with
    | nil =>
      simp [update, cells, OpenUnit.cells, Fragment.cellsOf_append, OpenUnit.cellsOf_close]
    | cons outer others =>
      simp [update, cells, OpenUnit.cells, Fragment.cellsOf_append, OpenUnit.cellsOf_close,
        OpenUnit.cell, Fragment.entries_append, OpenUnit.entries_close]

theorem entries_close (builder : Builder) : builder.close.entries = builder.entries := by
  cases hs : builder.stack with
  | nil => simp [close, hs]
  | cons unit others =>
    rw [close, hs]
    cases others with
    | nil => simp [update, entries, frame, hs, Fragment.entries_append, OpenUnit.entries_close]
    | cons outer others => simp [update, entries, frame, hs]

end Builder

namespace Arena.Writer

variable {writer : Writer} {store : Array Entry → Array Entry}

theorem update_top (h : writer.around.back? = none) :
    writer.update store = { writer with arena.roots := store writer.arena.roots } := by
  rw [update, h]

theorem update_inside {id : Nat} (h : writer.around.back? = some id) :
    writer.update store =
      { writer with arena.cells := writer.arena.cells.modify id fun cell =>
          { cell with children := store cell.children } } := by
  rw [update, h]

theorem around_update : (writer.update store).around = writer.around := by
  unfold update
  split <;> rfl

theorem nodeUnits_update : (writer.update store).arena.nodeUnits = writer.arena.nodeUnits := by
  unfold update
  split <;> rfl

theorem unitNodes_update : (writer.update store).arena.unitNodes = writer.arena.unitNodes := by
  unfold update
  split <;> rfl

theorem size_update : (writer.update store).arena.cells.size = writer.arena.cells.size := by
  unfold update
  split
  · exact Array.size_modify
  · rfl

def perform (writer : Writer) : MarkupCall → Writer
  | .openUnit label title node => writer.openUnit label title node
  | .text content => writer.text content
  | .close => writer.close
  | .assign node unit => writer.assign node unit

def after (calls : List MarkupCall) : Writer :=
  calls.foldl perform {}

section OpenUnit

variable (writer) (label : String) (title : Option String) (node : Option Nat)

theorem cells_openUnit : (writer.openUnit label title node).arena.cells =
    ((writer.addCell label title).update (·.push (.unit writer.arena.cells.size))).arena.cells := by
  cases node <;> rfl

theorem roots_openUnit : (writer.openUnit label title node).arena.roots =
    ((writer.addCell label title).update (·.push (.unit writer.arena.cells.size))).arena.roots := by
  cases node <;> rfl

theorem around_openUnit : (writer.openUnit label title node).around =
    writer.around.push writer.arena.cells.size := by
  cases node <;> simp [openUnit, associate, addCell, around_update]

theorem nodeUnits_openUnit : (writer.openUnit label title node).arena.nodeUnits =
    node.elim writer.arena.nodeUnits (writer.arena.nodeUnits.insert · writer.arena.cells.size) := by
  cases node <;> simp [openUnit, associate, addCell, nodeUnits_update]

theorem unitNodes_openUnit : (writer.openUnit label title node).arena.unitNodes =
    node.elim writer.arena.unitNodes (writer.arena.unitNodes.insert writer.arena.cells.size) := by
  cases node <;> simp [openUnit, associate, addCell, unitNodes_update]

end OpenUnit

/-- Every open unit is stored, so that what is appended goes to a unit that is there. -/
def InBounds (writer : Writer) : Prop :=
  ∀ id ∈ writer.around, id < writer.arena.cells.size

theorem InBounds.perform (hw : writer.InBounds) (call : MarkupCall) :
    (writer.perform call).InBounds := by
  cases call with
  | openUnit label title node =>
    have hs : (writer.openUnit label title node).arena.cells.size =
        writer.arena.cells.size + 1 := by
      rw [cells_openUnit, size_update, addCell, Array.size_push]
    intro id hi
    rw [Writer.perform, hs]
    rw [Writer.perform, around_openUnit, Array.mem_push] at hi
    rcases hi with hi | rfl
    · exact Nat.lt_succ_of_lt (hw id hi)
    · exact Nat.lt_succ_self _
  | text content =>
    rw [Writer.perform, Writer.text]
    split
    next => exact hw
    next =>
      intro id hi
      rw [size_update]
      rw [around_update] at hi
      exact hw id hi
  | close =>
    intro id hi
    rw [Writer.perform, close, ← Array.mem_toList_iff, Array.toList_pop] at hi
    exact hw id (Array.mem_toList_iff.mp (List.dropLast_subset _ hi))
  | assign node unit => exact hw

theorem inBounds_after (calls : List MarkupCall) : (after calls).InBounds := by
  have hw : ({} : Writer).InBounds := fun id hi => absurd hi (Array.not_mem_empty id)
  exact List.foldlRecOn calls Writer.perform hw fun _ hs call _ => hs.perform call

end Arena.Writer

namespace Builder

/-- What a writer stores when a builder stands where it does. -/
structure StoredBy (builder : Builder) (writer : Writer) : Prop where
  counted : builder.Counted
  cells : writer.arena.cells = builder.cells.toArray
  roots : writer.arena.roots = builder.entries
  around : writer.around = (builder.frame.map Prod.fst).reverse.toArray
  nodeUnits : writer.arena.nodeUnits = builder.nodeUnits
  unitNodes : ∀ unit : Nat, writer.arena.unitNodes[unit]? =
    (builder.opened[unit]?).bind MarkupUnit.node
  associations : writer.arena.unitNodes.size = builder.opened.countP (·.node.isSome)

namespace StoredBy

variable {builder : Builder} {writer : Writer}

theorem empty : ({} : Builder).StoredBy {} where
  counted := rfl
  cells := rfl
  roots := rfl
  around := rfl
  nodeUnits := rfl
  unitNodes _ := by simp [Builder.opened, Builder.marks, Fragment.marksOf, OpenUnit.marks]
  associations := rfl

theorem back?_around (hs : builder.StoredBy writer) :
    writer.around.back? = builder.stack.head?.map OpenUnit.id := by
  rw [hs.around, List.back?_toArray, List.getLast?_reverse, frame, List.map_map, List.head?_map]
  rfl

theorem back?_addCell (hs : builder.StoredBy writer) (label : String) (title : Option String) :
    (writer.addCell label title).around.back? = builder.stack.head?.map OpenUnit.id :=
  hs.back?_around

section Update

variable {change : List Fragment → List Fragment} {store : Array Entry → Array Entry}

theorem cells_update (hs : builder.StoredBy writer)
    (he : ∀ fragments, Fragment.entries (change fragments).reverse =
      store (Fragment.entries fragments.reverse))
    (hc : ∀ parent fragments, Fragment.cellsOf parent (change fragments).reverse =
      Fragment.cellsOf parent fragments.reverse) :
    (writer.update store).arena.cells = (builder.update change).cells.toArray := by
  have hw := hs.back?_around
  cases hb : builder.stack with
  | nil =>
    rw [hb] at hw
    rw [Writer.update_top hw, hs.cells, Builder.update, hb]
    simp [Builder.cells, hb, hc]
  | cons unit others =>
    rw [hb] at hw
    rw [Writer.update_inside hw]
    have hl := hs.counted.length_before hb
    have hm := modify_append_cons (Fragment.cellsOf none builder.roots.reverse ++
      OpenUnit.cells (some unit.id) others) (Fragment.cellsOf (some unit.id) unit.children.reverse)
      (unit.cell (others.head?.map OpenUnit.id) none)
      fun cell => { cell with children := store cell.children }
    rw [hl, ← cells_cons hb] at hm
    rw [hs.cells, List.modify_toArray, hm, Builder.update, hb]
    simp [Builder.cells, OpenUnit.cells, OpenUnit.cell, hc, he]

theorem roots_update (hs : builder.StoredBy writer)
    (he : ∀ fragments, Fragment.entries (change fragments).reverse =
      store (Fragment.entries fragments.reverse)) :
    (writer.update store).arena.roots = (builder.update change).entries := by
  have hw := hs.back?_around
  cases hb : builder.stack with
  | nil =>
    rw [hb] at hw
    rw [Writer.update_top hw, hs.roots, Builder.update, hb]
    simp [Builder.entries, frame, hb, he]
  | cons unit others =>
    have hr : (builder.update change).roots = builder.roots := by rw [Builder.update, hb]
    rw [Builder.entries, frame_update, hr, ← Builder.entries, ← hs.roots]
    rw [hb] at hw
    rw [Writer.update_inside hw]

end Update

theorem text (hs : builder.StoredBy writer) (text : String) :
    (builder.text text).StoredBy (writer.text text) := by
  have hn : (builder.text text).Counted := hs.counted.perform (.text text)
  have ho := builder.opened_text text
  have hf := builder.frame_text text
  unfold Builder.text at hn ho hf
  unfold Builder.text Writer.text
  split
  next => exact hs
  next hne =>
    rw [if_neg hne] at hn ho hf
    refine ⟨hn, hs.cells_update (Fragment.entries_appendText text)
      (fun parent => Fragment.cellsOf_appendText parent text),
      hs.roots_update (Fragment.entries_appendText text), ?_, ?_, ?_, ?_⟩
    · rw [Writer.around_update, hf, hs.around]
    · rw [Writer.nodeUnits_update, nodeUnits_update, hs.nodeUnits]
    · rw [Writer.unitNodes_update, ho]
      exact hs.unitNodes
    · rw [Writer.unitNodes_update, ho]
      exact hs.associations

theorem close (hs : builder.StoredBy writer) : builder.close.StoredBy writer.close where
  counted := hs.counted.perform .close
  cells := by rw [cells_close, ← hs.cells]; rfl
  roots := by rw [entries_close, ← hs.roots]; rfl
  around := by
    rw [frame_close, Writer.close, hs.around, List.pop_toArray, List.map_tail,
      List.dropLast_reverse]
  nodeUnits := by rw [nodeUnits_close, ← hs.nodeUnits]; rfl
  unitNodes unit := by rw [opened_close, ← hs.unitNodes]; rfl
  associations := by rw [opened_close, ← hs.associations]; rfl

theorem size_cells (hs : builder.StoredBy writer) : writer.arena.cells.size = builder.next := by
  rw [hs.cells, List.size_toArray, length_cells, hs.counted.length_opened]

section OpenUnit

variable (hs : builder.StoredBy writer) (label : String) (title : Option String)
  (node : Option Nat)
include hs

/-- The new cell goes to the end, where its number says, and the unit around it names it. -/
theorem cells_openUnit : (writer.openUnit label title node).arena.cells =
    (builder.openUnit label title node).cells.toArray := by
  have hw := hs.back?_addCell label title
  have ha : (writer.addCell label title).arena.cells =
      (builder.cells ++
        [Cell.mk label title (builder.stack.head?.map OpenUnit.id) #[]]).toArray := by
    rw [Writer.addCell, hs.cells, hs.back?_around, List.push_toArray]
  rw [Writer.cells_openUnit, hs.size_cells, Builder.cells_openUnit]
  cases hb : builder.stack with
  | nil =>
    rw [hb] at hw
    rw [Writer.update_top hw, ha, Builder.cells, hb]
    rfl
  | cons unit others =>
    rw [hb] at hw
    have hm := modify_append_cons (Fragment.cellsOf none builder.roots.reverse ++
      OpenUnit.cells (some unit.id) others)
      (Fragment.cellsOf (some unit.id) unit.children.reverse ++
        [⟨label, title, some unit.id, #[]⟩])
      (unit.cell (others.head?.map OpenUnit.id) none)
      fun cell => { cell with children := cell.children.push (.unit builder.next) }
    rw [hs.counted.length_before hb] at hm
    rw [Writer.update_inside hw, ha, hb, List.head?_cons, Option.map_some, cells_cons hb,
      List.modify_toArray, List.append_assoc, List.cons_append, hm]
    simp [OpenUnit.cells, OpenUnit.cell]

theorem roots_openUnit : (writer.openUnit label title node).arena.roots =
    (builder.openUnit label title node).entries := by
  have hw := hs.back?_addCell label title
  rw [Writer.roots_openUnit, hs.size_cells]
  cases hb : builder.stack with
  | nil =>
    rw [hb] at hw
    rw [Writer.update_top hw]
    simp [Writer.addCell, hs.roots, Builder.entries, frame, hb, Builder.openUnit]
  | cons unit others =>
    rw [hb] at hw
    rw [Writer.update_inside hw]
    simp [Writer.addCell, hs.roots, Builder.entries, frame, hb, Builder.openUnit]

theorem unitNodes_openUnit (unit : Nat) :
    (writer.openUnit label title node).arena.unitNodes[unit]? =
      ((builder.openUnit label title node).opened[unit]?).bind MarkupUnit.node := by
  have hu := hs.unitNodes unit
  have hl := hs.counted.length_opened
  rw [Writer.unitNodes_openUnit, hs.size_cells, opened_openUnit]
  by_cases h : unit = builder.next
  · subst h
    rw [List.getElem?_eq_none (by omega), Option.bind_none] at hu
    rw [← hl, List.getElem?_concat_length, hl]
    cases node with
    | none => exact hu
    | some node => exact Std.TreeMap.getElem?_insert_self
  · rw [getElem?_concat_of_ne (by omega), ← hu]
    cases node with
    | none => rfl
    | some node =>
      have hc : compare builder.next unit ≠ .eq := fun hc => h (Std.compare_eq_iff_eq.mp hc).symm
      rw [Option.elim_some, Std.TreeMap.getElem?_insert, if_neg hc]

theorem size_unitNodes_openUnit :
    (writer.openUnit label title node).arena.unitNodes.size =
      (builder.openUnit label title node).opened.countP (·.node.isSome) := by
  rw [Writer.unitNodes_openUnit, hs.size_cells, opened_openUnit, List.countP_append,
    ← hs.associations]
  cases node with
  | none => rfl
  | some node =>
    have hn : builder.next ∉ writer.arena.unitNodes := by
      have hl := hs.counted.length_opened
      have hu := hs.unitNodes builder.next
      rw [List.getElem?_eq_none (by omega), Option.bind_none] at hu
      simpa using hu
    rw [Option.elim_some, Std.TreeMap.size_insert, if_neg (by simpa using hn)]
    rfl

theorem openUnit :
    (builder.openUnit label title node).StoredBy (writer.openUnit label title node) where
  counted := hs.counted.perform (.openUnit label title node)
  cells := hs.cells_openUnit label title node
  roots := hs.roots_openUnit label title node
  around := by
    rw [Writer.around_openUnit, hs.size_cells, hs.around, frame_openUnit]
    simp
  nodeUnits := by
    rw [Writer.nodeUnits_openUnit, hs.size_cells, hs.nodeUnits]
    cases node <;> rfl
  unitNodes := hs.unitNodes_openUnit label title node
  associations := hs.size_unitNodes_openUnit label title node

end OpenUnit

theorem assign (hs : builder.StoredBy writer) (node unit : Nat) :
    (builder.assign node unit).StoredBy (writer.assign node unit) where
  counted := hs.counted
  cells := hs.cells
  roots := hs.roots
  around := hs.around
  nodeUnits := by rw [Builder.assign, Writer.assign, hs.nodeUnits]
  unitNodes := hs.unitNodes
  associations := hs.associations

theorem share (hs : builder.StoredBy writer) (node target : Nat) :
    (builder.share node target).StoredBy (writer.share node target) := by
  have hu : writer.unitFor? target = builder.unitFor? target :=
    congrArg (fun units : NodeUnits => units[target]?) hs.nodeUnits
  rw [Builder.share, Writer.share, hu]
  cases builder.unitFor? target with
  | none => exact hs
  | some unit => exact hs.assign node unit

theorem perform (hs : builder.StoredBy writer) (call : MarkupCall) :
    (builder.perform call).StoredBy (writer.perform call) := by
  cases call with
  | openUnit label title node => exact hs.openUnit label title node
  | text content => exact hs.text content
  | close => exact hs.close
  | assign node unit => exact hs.assign node unit

theorem apply (hs : builder.StoredBy writer) (indent : String) (event : Event) :
    (builder.apply indent event).StoredBy (writer.apply indent event) := by
  cases event with
  | openUnit label title node => exact hs.openUnit label title (some node)
  | text content => exact hs.text content
  | pad level => exact hs.text _
  | close => exact hs.close
  | share node target => exact hs.share node target

/-- What every step keeps holds of every run. -/
theorem foldl {α : Type} {build : Builder → α → Builder} {write : Writer → α → Writer}
    (step : ∀ {builder writer}, builder.StoredBy writer → ∀ item,
      (build builder item).StoredBy (write writer item))
    (items : List α) (hs : builder.StoredBy writer) :
    (items.foldl build builder).StoredBy (items.foldl write writer) := by
  induction items generalizing builder writer with
  | nil => exact hs
  | cons item rest ih => exact ih (step hs item)

end StoredBy

theorem storedBy_after (calls : List MarkupCall) : (after calls).StoredBy (Writer.after calls) :=
  .foldl .perform calls .empty

theorem finish_close (builder : Builder) : builder.close.finish = builder.finish := by
  cases hb : builder.stack with
  | nil => simp [close, hb]
  | cons unit others =>
    rw [close, hb]
    cases others <;> simp [finish, closeAll, update, hb]

/-- What is true of a builder with no open unit, and before a unit is closed if it is after, is
true of every builder. -/
theorem close_induction {motive : Builder → Prop}
    (top : ∀ builder : Builder, builder.stack = [] → motive builder)
    (step : ∀ builder : Builder, motive builder.close → motive builder) (builder : Builder) :
    motive builder := by
  induction hn : builder.frame.length generalizing builder with
  | zero =>
    refine top builder ?_
    rwa [frame, List.length_map, List.length_eq_zero_iff] at hn
  | succ depth ih =>
    refine step builder (ih _ ?_)
    rw [frame_close, List.length_tail, hn, Nat.add_sub_cancel]

theorem map_cell_finish (builder : Builder) :
    builder.finish.units.map MarkupUnit.cell = builder.cells := by
  induction builder using close_induction with
  | top builder hb =>
    simp [Document.units, finish, closeAll, hb, cells, OpenUnit.cells, Fragment.cellsOf]
  | step builder ih => rw [← finish_close, ih, cells_close]

theorem entries_finish (builder : Builder) :
    Fragment.entries builder.finish.roots = builder.entries := by
  induction builder using close_induction with
  | top builder hb => simp [finish, closeAll, hb, entries, frame]
  | step builder ih => rw [← finish_close, ih, entries_close]

end Builder

/-- The document and the arena show the same. -/
structure Document.StoredIn (document : Document) (arena : Arena) : Prop where
  cells : arena.cells = (document.units.map MarkupUnit.cell).toArray
  roots : arena.roots = Fragment.entries document.roots
  nodeUnits : arena.nodeUnits = document.nodeUnits
  nodeFor : ∀ unit, arena.nodeFor? unit = document.nodeFor? unit
  associations : arena.associationCount = document.associationCount

theorem Builder.StoredBy.finish {builder : Builder} {writer : Writer}
    (hs : builder.StoredBy writer) : builder.finish.StoredIn writer.finish where
  cells := by rw [map_cell_finish, ← hs.cells]; rfl
  roots := by rw [entries_finish, ← hs.roots]; rfl
  nodeUnits := hs.nodeUnits
  nodeFor unit := by
    refine (hs.unitNodes unit).trans ?_
    rw [← headings_finish, List.getElem?_map, Document.nodeFor?, Document.unit?, Option.bind_map]
    rfl
  associations := by
    refine hs.associations.trans ?_
    rw [← headings_finish, List.countP_map]
    rfl

/-- Rendering a tree into an arena gives what rendering it into nested markup gives. -/
theorem Tree.storedIn_store (tree : Tree) (options : RenderOptions) :
    (tree.render options).StoredIn (tree.store options) :=
  (Builder.StoredBy.foldl (fun hs => hs.apply options.indent) tree.events .empty).finish

end SyntaxMarkup

import SyntaxMarkup.CommandLine.FileSystem
import SyntaxMarkup.Proofs.Tree.Regular
import Mathlib.Data.List.DropRight

namespace SyntaxMarkup.CommandLine

namespace Name

theorem isInside_iff {name directory : Name} : name.isInside directory = true ↔
    name.base = directory.base ∧ directory.parts.length < name.parts.length ∧
      directory.parts <+: name.parts := by
  simp [isInside, and_assoc]

theorem isInside_trans {inner middle outer : Name} (h : inner.isInside middle = true)
    (h' : middle.isInside outer = true) : inner.isInside outer = true := by
  rw [isInside_iff] at h h' ⊢
  obtain ⟨base, shorter, same⟩ := h
  obtain ⟨base', shorter', same'⟩ := h'
  exact ⟨base.trans base', shorter'.trans shorter, same'.trans same⟩

theorem isInside_of_isEmpty {name : Name} (top : name.parts = []) (directory : Name) :
    name.isInside directory = false := by
  rw [← Bool.not_eq_true, isInside_iff, top]
  simp

/-- Where a path goes on from a directory. -/
def step (directory : Name) (component : String) : Name :=
  if component = "" ∨ component = "." then directory
  else if component = ".." then directory.parent
  else ⟨directory.base, directory.parts ++ [component]⟩

theorem step_of_plain (directory : Name) {component : String} (full : component ≠ "")
    (point : component ≠ ".") (points : component ≠ "..") :
    directory.step component = ⟨directory.base, directory.parts ++ [component]⟩ := by
  simp [step, full, point, points]

theorem isInside_parent {directory : Name} (inner : directory.parts ≠ []) :
    directory.isInside directory.parent = true ∧
      directory.parent = ⟨directory.base, directory.parts.dropLast⟩ := by
  obtain ⟨base, parts⟩ := directory
  have parent : parent ⟨base, parts⟩ = ⟨base, parts.dropLast⟩ := by
    unfold Name.parent
    split
    next eq => exact absurd (congrArg Name.parts eq) inner
    next eq => exact absurd (congrArg Name.parts eq) inner
    next eq =>
      cases eq
      rfl
  rw [parent, isInside_iff]
  have positive := List.length_pos_of_ne_nil inner
  refine ⟨⟨rfl, ?_, List.dropLast_prefix _⟩, rfl⟩
  rw [List.length_dropLast]
  exact Nat.sub_lt positive Nat.one_pos

theorem parts_parent {directory : Name} (top : directory.parts = []) :
    directory.parent.parts = [] := by
  obtain ⟨base, parts⟩ := directory
  cases top
  cases base <;> rfl

/-- What a name below a directory is in: the directory, and what that is in. -/
theorem isInside_append {directory outer : Name} {component : String}
    (h : Name.isInside ⟨directory.base, directory.parts ++ [component]⟩ outer = true) :
    outer = directory ∨ directory.isInside outer = true := by
  obtain ⟨base, shorter, before⟩ := isInside_iff.mp h
  rw [List.length_append, List.length_singleton] at shorter
  have before : outer.parts <+: directory.parts :=
    List.prefix_of_prefix_length_le before (List.prefix_append _ _) (by omega)
  rcases Nat.lt_or_ge outer.parts.length directory.parts.length with less | all
  · exact .inr (isInside_iff.mpr ⟨base, less, before⟩)
  · have parts := before.eq_of_length_le all
    obtain ⟨_, _⟩ := outer
    obtain ⟨_, _⟩ := directory
    cases base
    cases parts
    exact .inl rfl

end Name

namespace FileSystem

variable {files after : FileSystem} {name : Name}

section Entries

theorem eq_directory_of_isEmpty (top : name.parts = []) : files.entry? name = some .directory := by
  unfold entry?
  rw [top]
  rfl

theorem find_of_ne_nil (inner : name.parts ≠ []) :
    files.entry? name = (files.entries.lookup name).or
      (if files.entries.any (·.1.isInside name) then some .directory else none) := by
  unfold entry?
  rw [if_neg (by simpa using inner)]
  cases files.entries.lookup name <;> rfl

theorem lookup_put (name other : Name) (entry : Entry) :
    (files.put name entry).entries.lookup other =
      if other = name then some entry else files.entries.lookup other := by
  have hkept (entries : List (Name × Entry)) :
      (entries.filter (·.1 != name)).lookup other =
        if other = name then none else entries.lookup other := by
    induction entries with
    | nil => simp
    | cons first rest ih =>
      obtain ⟨key, value⟩ := first
      by_cases ho : key = name
      · rw [List.filter_cons_of_neg (by simpa using ho), ih]
        split
        next => rfl
        next ha => rw [List.lookup_cons, beq_false_of_ne (fun eq => ha (eq.trans ho))]
      · rw [List.filter_cons_of_pos (by simpa using ho), List.lookup_cons, ih, List.lookup_cons]
        split
        next same =>
          rw [if_neg]
          exact fun eq => ho ((eq_of_beq same).symm.trans eq)
        next => rfl
  rw [put, List.lookup_append, hkept]
  by_cases same : other = name
  · simp [same]
  · rw [if_neg same, if_neg same, List.lookup_cons, beq_false_of_ne same, List.lookup_nil,
      Option.or_none]

theorem any_put (name directory : Name) (entry : Entry) :
    (files.put name entry).entries.any (·.1.isInside directory) =
      (files.entries.any (·.1.isInside directory) || name.isInside directory) := by
  rw [Bool.eq_iff_iff]
  simp only [put, List.any_append, List.any_filter, List.any_cons, List.any_nil, Bool.or_false,
    Bool.or_eq_true, List.any_eq_true, Bool.and_eq_true, bne_iff_ne]
  constructor
  · rintro (⟨listed, hm, -, inside⟩ | inside)
    · exact .inl ⟨listed, hm, inside⟩
    · exact .inr inside
  · rintro (⟨listed, hm, inside⟩ | inside)
    · by_cases ho : listed.1 = name
      · exact .inr (ho ▸ inside)
      · exact .inl ⟨listed, hm, ho, inside⟩
    · exact .inr inside

/-- Whether all that a name is in is a directory. -/
def Settled (files : FileSystem) (name : Name) : Prop :=
  ∀ outer, name.isInside outer = true → files.entry? outer = some .directory

theorem settled_of_isEmpty (top : name.parts = []) : files.Settled name := by
  intro outer inside
  rw [Name.isInside_of_isEmpty top] at inside
  cases inside

theorem Settled.step {directory : Name} (hs : files.Settled directory)
    (hk : files.entry? directory = some .directory) (component : String) :
    files.Settled (directory.step component) := by
  unfold Name.step
  split
  · exact hs
  · split
    · by_cases top : directory.parts = []
      · exact settled_of_isEmpty (Name.parts_parent top)
      · exact fun outer inside =>
          hs outer (Name.isInside_trans (Name.isInside_parent top).1 inside)
    · intro outer inside
      rcases Name.isInside_append inside with rfl | inside
      · exact hk
      · exact hs outer inside

/-- A parent of a directory is one. -/
theorem Settled.parent {directory : Name} (hs : files.Settled directory) :
    files.entry? directory.parent = some .directory := by
  by_cases top : directory.parts = []
  · exact eq_directory_of_isEmpty (Name.parts_parent top)
  · exact hs _ (Name.isInside_parent top).1

/-- What a file system is after a file was put at a place. -/
structure Replaced (files : FileSystem) (name : Name) (content : ByteArray) (after : FileSystem) :
    Prop where
  here : after.entry? name = some (.file content)
  others : ∀ other ≠ name, after.entry? other = files.entry? other

theorem Settled.replaced (hs : files.Settled name)
    (hf : files.entry? name ≠ some .directory) (content : ByteArray) :
    files.Replaced name content (files.put name (.file content)) where
  here := by
    have inner : name.parts ≠ [] := fun top => hf (eq_directory_of_isEmpty top)
    rw [find_of_ne_nil inner, lookup_put, if_pos rfl, Option.some_or]
  others other ha := by
    by_cases top : other.parts = []
    · rw [eq_directory_of_isEmpty top, eq_directory_of_isEmpty top]
    · cases inside : name.isInside other with
      | true =>
        -- what the file is in is a directory before and after, whether an entry says so or not
        have hk := hs other inside
        rw [hk, find_of_ne_nil top, lookup_put, if_neg ha, any_put, inside, Bool.or_true,
          if_pos rfl]
        rw [find_of_ne_nil top] at hk
        cases hl : files.entries.lookup other with
        | none => rfl
        | some entry =>
          rw [hl, Option.some_or] at hk
          rw [Option.some_or, hk]
      | false =>
        rw [find_of_ne_nil top, find_of_ne_nil top, lookup_put, if_neg ha, any_put, inside,
          Bool.or_false]

end Entries

section Walks

theorem expectDirectory_eq_ok {directory : Name} :
    files.expectDirectory directory = .ok () ↔ files.entry? directory = some .directory := by
  unfold expectDirectory
  split
  next hk => simp [hk]
  next hk => simp [hk]
  next hk => simp [hk]

theorem enter_eq_ok {directory : Name} {component : String} :
    files.enter directory component = .ok name ↔
      files.entry? directory = some .directory ∧ component.utf8ByteSize ≤ longestComponent ∧
        name = directory.step component := by
  rw [← expectDirectory_eq_ok, enter]
  cases files.expectDirectory directory with
  | error fault => exact iff_of_false nofun (by simp)
  | ok =>
    simp only [bind, Except.bind, true_and, Name.step, pure, Except.pure, throw, throwThe,
      MonadExceptOf.throw]
    split
    next short =>
      have : component.utf8ByteSize ≤ longestComponent := by
        rcases short with rfl | rfl <;> decide
      simp [this, eq_comm]
    next =>
      split
      next up =>
        have : component.utf8ByteSize ≤ longestComponent := by
          subst up
          decide
        simp [this, eq_comm]
      next =>
        split
        next long => exact iff_of_false nofun (by omega)
        next short => simp [Nat.le_of_not_lt short, eq_comm]

theorem walk_concat (start : Name) (components : List String) (last : String) :
    files.walk start (components ++ [last]) =
      (files.walk start components).bind (files.enter · last) := by
  rw [walk, List.foldlM_append]
  refine bind_congr fun directory => ?_
  simp [List.foldlM]

theorem walk_concat_eq_ok {start : Name} {components : List String} {last : String} :
    files.walk start (components ++ [last]) = .ok name ↔
      ∃ directory, files.walk start components = .ok directory ∧
        files.enter directory last = .ok name := by
  rw [walk_concat]
  cases files.walk start components <;> simp [Except.bind]

theorem settled_of_walk {start : Name} (hs : files.Settled start) {components : List String}
    (hreached : files.walk start components = .ok name) : files.Settled name := by
  induction components using List.reverseRecOn generalizing name with
  | nil =>
    cases hreached
    exact hs
  | append_singleton components last ih =>
    obtain ⟨directory, before, he⟩ := walk_concat_eq_ok.mp hreached
    obtain ⟨hk, -, rfl⟩ := enter_eq_ok.mp he
    exact (ih before).step hk last

/-- A walk leads to the same place after another one got a file: it goes through directories. -/
theorem Replaced.walk {content : ByteArray} (hrep : files.Replaced name content after)
    (hf : files.entry? name ≠ some .directory) {start last : Name} {components : List String}
    (hreached : files.walk start components = .ok last) :
    after.walk start components = .ok last := by
  induction components using List.reverseRecOn generalizing last with
  | nil => exact hreached
  | append_singleton components component ih =>
    obtain ⟨directory, before, he⟩ := walk_concat_eq_ok.mp hreached
    obtain ⟨hk, short, eq⟩ := enter_eq_ok.mp he
    refine walk_concat_eq_ok.mpr ⟨directory, ih before, enter_eq_ok.mpr ⟨?_, short, eq⟩⟩
    rw [hrep.others directory fun same => hf (same ▸ hk), hk]

end Walks

section Paths

/-- The place that a path leads to. -/
def locate (files : FileSystem) (path : String) : Except FileFault Name :=
  (resolve path).bind (files.walk (.origin path))

variable {path : String}

theorem resolve_eq_ok {parts : List String} : resolve path = .ok parts ↔
    path.utf8ByteSize ≤ longestPath ∧ parts = components path := by
  unfold resolve
  split
  next long => exact iff_of_false nofun (by omega)
  next short => simp [Nat.le_of_not_lt short, eq_comm]

theorem locate_eq_ok : files.locate path = .ok name ↔
    path.utf8ByteSize ≤ longestPath ∧
      files.walk (.origin path) (components path) = .ok name := by
  unfold locate resolve
  split
  next long => exact iff_of_false nofun (by omega)
  next short => simp [Nat.le_of_not_lt short, Except.bind]

theorem parts_origin (path : String) : (Name.origin path).parts = [] := by
  unfold Name.origin
  split <;> rfl

theorem settled_of_locate (hl : files.locate path = .ok name) : files.Settled name :=
  settled_of_walk (settled_of_isEmpty (parts_origin path)) (locate_eq_ok.mp hl).2

theorem read_eq_ok {content : ByteArray} : files.read path = .ok content ↔
    ∃ name, files.locate path = .ok name ∧ files.entry? name = some (.file content) := by
  unfold read locate
  cases resolve path with
  | error fault => exact iff_of_false nofun nofun
  | ok parts =>
    change (files.walk (.origin path) parts).bind _ = _ ↔ _
    cases hreached : files.walk (.origin path) parts with
    | error fault => simp [Except.bind, hreached]
    | ok name =>
      simp only [Except.bind, hreached, Except.ok.injEq, exists_eq_left']
      split
      next same => simp [same, pure, Except.pure]
      next same => simp [same, throw, throwThe, MonadExceptOf.throw]
      next same => simp [same, throw, throwThe, MonadExceptOf.throw]

/-- A write succeeds exactly where a path leads to a place that is no directory. -/
theorem write_eq_ok {content : ByteArray} : files.write path content = .ok after ↔
    ∃ name, files.locate path = .ok name ∧ files.entry? name ≠ some .directory ∧
      after = files.put name (.file content) := by
  simp only [locate_eq_ok]
  constructor
  · intro h
    obtain ⟨parts, hres, h⟩ := bind_eq_ok h
    obtain ⟨short, rfl⟩ := resolve_eq_ok.mp hres
    obtain ⟨directory, hreached, h⟩ := bind_eq_ok h
    obtain ⟨_, -, h⟩ := bind_eq_ok h
    split at h
    next => cases h
    next component last =>
      dsimp only at h
      split at h
      next => cases h
      next all =>
        obtain ⟨name, he, h⟩ := bind_eq_ok h
        split at h
        next => cases h
        next hf =>
          cases h
          have whole := (List.rdropWhile_prefix String.isEmpty (components path)).eq_of_length_le
            (Nat.le_of_not_lt all)
          rw [show (List.dropWhile String.isEmpty (components path).reverse).reverse = _ from
            whole] at hreached last
          refine ⟨name, ⟨short, ?_⟩, hf, rfl⟩
          rw [← List.dropLast_append_getLast? component last]
          exact walk_concat_eq_ok.mpr ⟨directory, hreached, he⟩
  · rintro ⟨name, ⟨short, hreached⟩, hf, rfl⟩
    rcases List.eq_nil_or_concat (components path) with none | ⟨before, last, parts⟩
    · rw [none] at hreached
      cases hreached
      exact absurd (eq_directory_of_isEmpty (parts_origin path)) hf
    · rw [List.concat_eq_append] at parts
      rw [parts] at hreached
      obtain ⟨directory, hreached, he⟩ := walk_concat_eq_ok.mp hreached
      obtain ⟨hk, -, eq⟩ := enter_eq_ok.mp he
      have full : last.isEmpty = false := by
        rw [Bool.eq_false_iff, ne_eq, String.isEmpty_iff]
        rintro rfl
        exact hf (eq ▸ hk)
      have whole : ((before ++ [last]).reverse.dropWhile String.isEmpty).reverse =
          before ++ [last] := by
        simp [full]
      have hres : resolve path = .ok (before ++ [last]) := resolve_eq_ok.mpr ⟨short, parts.symm⟩
      rw [write, hres]
      simp only [bind, Except.bind, whole, List.dropLast_concat, hreached,
        expectDirectory_eq_ok.mpr hk, List.getLast?_concat, Nat.lt_irrefl, if_false, he,
        if_neg hf]
      rfl

section Replaced

variable {content : ByteArray} (hrep : files.Replaced name content after)
  (hf : files.entry? name ≠ some .directory)
include hrep hf

theorem Replaced.locate {last : Name} (hl : files.locate path = .ok last) :
    after.locate path = .ok last := by
  obtain ⟨short, hreached⟩ := locate_eq_ok.mp hl
  exact locate_eq_ok.mpr ⟨short, hrep.walk hf hreached⟩

theorem Replaced.read_self (hl : files.locate path = .ok name) :
    after.read path = .ok content :=
  read_eq_ok.mpr ⟨name, hrep.locate hf hl, hrep.here⟩

/-- What could be read at another place is still read there. -/
theorem Replaced.read_of_ne {other : ByteArray} (hk : files.read path = .ok other)
    (ha : files.locate path ≠ .ok name) : after.read path = .ok other := by
  obtain ⟨place, hl, held⟩ := read_eq_ok.mp hk
  refine read_eq_ok.mpr ⟨place, hrep.locate hf hl, ?_⟩
  rw [hrep.others place fun same => ha (same ▸ hl), held]

end Replaced

theorem exists_replaced {content : ByteArray} (hw : files.write path content = .ok after) :
    ∃ name, files.locate path = .ok name ∧ files.entry? name ≠ some .directory ∧
      files.Replaced name content after := by
  obtain ⟨name, hl, hf, rfl⟩ := write_eq_ok.mp hw
  exact ⟨name, hl, hf, (settled_of_locate hl).replaced hf content⟩

end Paths

end FileSystem

end SyntaxMarkup.CommandLine

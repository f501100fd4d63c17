import SyntaxMarkup.Proofs.CommandLine.Effects

namespace SyntaxMarkup.CommandLine

section Names

theorem splitSlashes_ne_nil (text : List Char) : splitSlashes text ≠ [] := by
  fun_cases splitSlashes text <;> exact List.cons_ne_nil _ _

theorem splitSlashes_cons_of_ne {c : Char} (other : c ≠ '/') (rest : List Char) :
    splitSlashes (c :: rest) = (splitSlashes rest).modifyHead (c :: ·) := by
  obtain ⟨part, others, eq⟩ := List.exists_cons_of_ne_nil (splitSlashes_ne_nil rest)
  rw [splitSlashes.eq_def]
  split
  next none => cases none
  next start => cases start; exact absurd rfl other
  next start =>
    cases start
    simp only [eq, List.modifyHead_cons]

theorem splitSlashes_of_not_mem {text : List Char} (plain : '/' ∉ text) :
    splitSlashes text = [text] := by
  induction text with
  | nil => rfl
  | cons c rest ih =>
    have other : c ≠ '/' := fun eq => plain (eq ▸ List.mem_cons_self)
    rw [splitSlashes_cons_of_ne other, ih fun hm => plain (List.mem_cons_of_mem c hm)]
    rfl

theorem splitSlashes_append (text rest : List Char) :
    splitSlashes (text ++ '/' :: rest) = splitSlashes text ++ splitSlashes rest := by
  induction text with
  | nil => rfl
  | cons c text ih =>
    rw [List.cons_append]
    by_cases slash : c = '/'
    · subst slash
      exact congrArg ([] :: ·) ih
    · obtain ⟨part, others, eq⟩ := List.exists_cons_of_ne_nil (splitSlashes_ne_nil text)
      rw [splitSlashes_cons_of_ne slash, splitSlashes_cons_of_ne slash, ih, eq]
      rfl

/-- A path as what leads to a directory and the name of something in there. -/
structure Splits (path : String) (directory name : List Char) : Prop where
  whole : path.toList = directory ++ name
  closed : directory = [] ∨ ∃ before, directory = before ++ ['/']
  plain : '/' ∉ name

variable {path : String} {directory name : List Char}

theorem exists_splits (path : String) : ∃ directory name, Splits path directory name := by
  have parts (text : List Char) : ∃ directory name, text = directory ++ name ∧
      (directory = [] ∨ ∃ before, directory = before ++ ['/']) ∧ '/' ∉ name := by
    induction text using List.reverseRecOn with
    | nil => exact ⟨[], [], rfl, .inl rfl, List.not_mem_nil⟩
    | append_singleton text c ih =>
      obtain ⟨directory, name, rfl, hclosed, plain⟩ := ih
      by_cases slash : c = '/'
      · subst slash
        exact ⟨_, [], (List.append_nil _).symm, .inr ⟨_, rfl⟩, List.not_mem_nil⟩
      · refine ⟨directory, name ++ [c], List.append_assoc .., hclosed, ?_⟩
        simp [plain, Ne.symm slash]
  obtain ⟨directory, name, whole, hclosed, plain⟩ := parts path.toList
  exact ⟨directory, name, whole, hclosed, plain⟩

theorem Splits.splitPath_eq (split : Splits path directory name) :
    splitPath path = (directory, name) := by
  obtain ⟨whole, hclosed, plain⟩ := split
  have last : (path.toList.reverse.takeWhile (· != '/')).reverse = name := by
    rw [whole, List.reverse_append, List.takeWhile_append_of_pos, List.reverse_append]
    · rcases hclosed with rfl | ⟨before, rfl⟩ <;> simp
    · intro c hm
      rw [List.mem_reverse] at hm
      simpa using fun eq : c = '/' => plain (eq ▸ hm)
  unfold splitPath
  rw [last, ← String.length_toList, whole]
  simp

/-- The steps of a path to something in a directory, up to the last one. -/
def leadingParts (directory : List Char) : List String :=
  ((splitSlashes directory).map String.ofList).dropLast

theorem Splits.components_eq (split : Splits path directory name) :
    components path = leadingParts directory ++ [String.ofList name] := by
  rw [components, split.whole, leadingParts]
  rcases split.closed with rfl | ⟨before, rfl⟩
  · rw [List.nil_append, splitSlashes_of_not_mem split.plain]
    rfl
  · rw [List.append_assoc, List.singleton_append, splitSlashes_append, splitSlashes_append,
      splitSlashes_of_not_mem split.plain]
    simp [splitSlashes]

theorem Splits.origin_eq (split : Splits path directory name) :
    Name.origin path = if directory.head? = some '/' then ⟨.root, []⟩ else .below [] := by
  have start : path.startsWith "/" = true ↔ directory.head? = some '/' := by
    rw [String.startsWith_string_iff, split.whole]
    rcases eq : directory with _ | ⟨c, rest⟩
    · subst eq
      refine iff_of_false (fun before => split.plain ?_) nofun
      exact before.subset List.mem_cons_self
    · subst eq
      simp [eq_comm]
  rw [Name.origin]
  split
  next h => rw [if_pos (start.mp h)]
  next h => rw [if_neg fun slash => h (start.mpr slash)]

end Names

section Places

open FileSystem

variable {files : FileSystem} {path other : String} {directory name name' : List Char}
  {place place' : Name}

/-- Paths with the same directory part go the same way up to the last step. -/
theorem Splits.exists_directory (split : Splits path directory name)
    (split' : Splits other directory name') (hlocated : files.locate path = .ok place)
    (hlocated' : files.locate other = .ok place') :
    ∃ above, files.entry? above = some .directory ∧ files.Settled above ∧
      place = above.step (String.ofList name) ∧ place' = above.step (String.ofList name') := by
  have hr := (locate_eq_ok.mp hlocated).2
  have hr' := (locate_eq_ok.mp hlocated').2
  have hs : files.Settled (.origin path) := settled_of_isEmpty (parts_origin path)
  rw [split.components_eq] at hr
  rw [split'.components_eq, split'.origin_eq, ← split.origin_eq] at hr'
  obtain ⟨above, walked, hentered⟩ := walk_concat_eq_ok.mp hr
  obtain ⟨above', walked', hentered'⟩ := walk_concat_eq_ok.mp hr'
  cases walked.symm.trans walked'
  obtain ⟨hk, -, eq⟩ := enter_eq_ok.mp hentered
  exact ⟨above, hk, settled_of_walk hs walked, eq, (enter_eq_ok.mp hentered').2.2⟩

/-- The last step to what is no directory is neither a stay nor a way up. -/
theorem plain_of_free {above : Name} {component : String}
    (hk : files.entry? above = some .directory) (hs : files.Settled above)
    (hf : files.entry? (above.step component) ≠ some .directory) :
    component ≠ "" ∧ component ≠ "." ∧ component ≠ ".." := by
  refine ⟨?_, ?_, ?_⟩
  · rintro rfl
    exact hf hk
  · rintro rfl
    exact hf hk
  · rintro rfl
    exact hf hs.parent

theorem Splits.name_ne (split : Splits path directory name)
    (hl : files.locate path = .ok place) (hf : files.entry? place ≠ some .directory) :
    name ≠ ['.', '.'] := by
  rintro rfl
  obtain ⟨above, hk, hs, rfl, -⟩ := split.exists_directory split hl hl
  exact (plain_of_free hk hs hf).2.2 rfl

/-- What is no directory has one name in the directory that it is in. -/
theorem Splits.name_eq (split : Splits path directory name)
    (split' : Splits other directory name') (hlocated : files.locate path = .ok place)
    (hlocated' : files.locate other = .ok place) (hf : files.entry? place ≠ some .directory) :
    name = name' := by
  obtain ⟨above, hk, hs, rfl, same⟩ := split.exists_directory split' hlocated hlocated'
  obtain ⟨full, point, points⟩ := plain_of_free hk hs hf
  obtain ⟨full', point', points'⟩ := plain_of_free hk hs (same ▸ hf)
  rw [Name.step_of_plain _ full point points, Name.step_of_plain _ full' point' points'] at same
  exact String.ofList_injective (by simpa using same)

end Places

section Extensions

variable {path : String} {directory name : List Char}

theorem stem_append {base ending : List Char} (plain : '.' ∉ ending) (full : base ≠ []) :
    stem (base ++ '.' :: ending) = base := by
  have before : ((base ++ '.' :: ending).reverse.dropWhile (· != '.')).drop 1 = base.reverse := by
    rw [List.reverse_append, List.reverse_cons, List.append_assoc, List.dropWhile_append_of_pos]
    · simp
    · intro c hm
      rw [List.mem_reverse] at hm
      simpa using fun eq : c = '.' => plain (eq ▸ hm)
  unfold stem
  rw [before, if_neg (by simpa using full), List.reverse_reverse]

theorem stem_subset (name : List Char) : stem name ⊆ name := by
  unfold stem
  dsimp only
  split
  · exact List.Subset.refl _
  · intro c hm
    rw [List.mem_reverse] at hm
    exact List.mem_reverse.mp ((List.dropWhile_sublist _).subset (List.mem_of_mem_drop hm))

theorem eq_nil_of_stem (none : stem name = []) : name = [] := by
  unfold stem at none
  dsimp only at none
  split at none
  next => exact none
  next full => exact absurd (List.reverse_eq_nil_iff.mp none) (by simpa using full)

/-- The name that the page of a file gets. -/
def pageName (name : List Char) : List Char :=
  if stem name = ['.'] then "..".toList else stem name ++ ".html".toList

theorem pageName_append {base : List Char} (full : base ≠ []) (more : base ≠ ['.']) :
    pageName (base ++ ".html".toList) = base ++ ".html".toList := by
  have eq : stem (base ++ ".html".toList) = base := stem_append (by decide) full
  rw [pageName, eq, if_neg more]

theorem Splits.splits_defaultOutput (split : Splits path directory name) :
    Splits (defaultOutput path) directory (pageName name) where
  whole := by
    rw [defaultOutput, split.splitPath_eq]
    dsimp only [pageName]
    split <;> simp
  closed := split.closed
  plain := by
    have plain : '/' ∉ stem name := fun hm => split.plain (stem_subset name hm)
    unfold pageName
    split <;> simp [plain]

/-- A path to a name that has the extension of a page and more than a point before it. -/
def HasPageExtension (path : String) : Prop :=
  ∃ directory base, Splits path directory (base ++ ".html".toList) ∧ base ≠ [] ∧ base ≠ ['.']

theorem pageName_eq_self_iff (split : Splits path directory name) (hf : name ≠ ['.', '.']) :
    pageName name = name ↔ HasPageExtension path := by
  constructor
  · intro same
    unfold pageName at same
    split at same
    next => exact absurd same.symm hf
    next more =>
      refine ⟨directory, stem name, same.symm ▸ split, fun none => ?_, more⟩
      rw [none, eq_nil_of_stem none] at same
      cases same
  · rintro ⟨directory', base, split', full, more⟩
    cases split.splitPath_eq.symm.trans split'.splitPath_eq
    exact pageName_append full more

theorem defaultOutput_eq_self (he : HasPageExtension path) : defaultOutput path = path := by
  obtain ⟨directory, base, split, full, more⟩ := he
  rw [← String.toList_inj, split.splits_defaultOutput.whole, split.whole,
    pageName_append full more]

end Extensions

section Input

variable {files : FileSystem} {path : String} {tree : Tree}

theorem readDocument?_of_tag {text : String} {rest : List Char}
    (start : text.toList = '<' :: rest) : Json.readDocument? text = none := by
  have first : Json.Token.first? ('<' :: rest) = none := by
    simp [Json.Token.first?, Json.isNumeralChar]
  have none : Json.Token.all? ('<' :: rest) = none := by
    rw [Json.Token.all?, if_neg (by decide)]
    split
    next => rfl
    next hr => cases first.symm.trans hr
  rw [Json.readDocument?, Json.read?, start, none]
  rfl

theorem fromUTF8?_toUTF8 (text : String) : String.fromUTF8? text.toUTF8 = some text := by
  unfold String.fromUTF8?
  rw [String.toUTF8_eq_toByteArray, dif_pos text.isValidUTF8]
  rfl

theorem exists_page_eq_tag (document : Document) (title : String) (stylesheet : Option String) :
    ∃ rest, (document.page title stylesheet).toList = '<' :: rest := by
  have start : ['<'] <+: (document.page title stylesheet).toList := by
    unfold Document.page
    simp only [String.append_assoc]
    rw [String.toList_append]
    exact List.IsPrefix.trans (by decide) (List.prefix_append _ _)
  obtain ⟨rest, eq⟩ := start
  exact ⟨rest, eq.symm⟩

/-- No page is the text of a tree. -/
theorem FileSystem.Holds.read_ne_page (hh : files.Holds path tree) (shown : Tree)
    (title : String) (stylesheet : Option String) :
    files.read path ≠ .ok (page shown title stylesheet).toUTF8 := by
  obtain ⟨bytes, text, value, hr, hd, hp, -⟩ := hh
  intro same
  cases hr.symm.trans same
  cases hd.symm.trans (fromUTF8?_toUTF8 _)
  obtain ⟨rest, start⟩ := exists_page_eq_tag (shown.render {}) title stylesheet
  cases hp.symm.trans (readDocument?_of_tag start)

/-- A rendering that names no output keeps its input, unless it ends well and the name of the
input has the extension of a page. In that case the page of the tree takes the place of the text
that it was made from. -/
theorem input_kept_iff {arguments : List String} {stylesheet : Option String}
    (asked : Request.ofArguments? arguments = some (.run (.render path none stylesheet)))
    (files : FileSystem) :
    let done := run arguments files
    (done.2.read path = files.read path ↔
      (done.1.exitCode = 0 → ¬HasPageExtension path)) ∧
    (done.1.exitCode = 0 → HasPageExtension path → ∃ tree, files.Holds path tree ∧
      done.2.read path = .ok (page tree (title path) stylesheet).toUTF8) := by
  intro done
  have renders : Renders files path (defaultOutput path) stylesheet done.1.exitCode done.2 :=
    (affects_run arguments files).renders path none stylesheet asked
  by_cases well : done.1.exitCode = 0
  · obtain ⟨tree, place, hh, hlocated, hrep, hw⟩ := renders.writes well
    by_cases he : HasPageExtension path
    · rw [defaultOutput_eq_self he] at hw
      refine ⟨iff_of_false ?_ fun never => never well he, fun _ _ => ⟨tree, hh, hw⟩⟩
      rw [hw]
      exact Ne.symm (hh.read_ne_page tree _ _)
    · refine ⟨iff_of_true ?_ fun _ => he, fun _ hk => absurd hk he⟩
      obtain ⟨bytes, -, -, hr, -⟩ := hh
      obtain ⟨directory, name, split⟩ := exists_splits path
      obtain ⟨source, hf, held⟩ := FileSystem.read_eq_ok.mp hr
      obtain ⟨-, target, hlocated', hfree⟩ := renders.ends.mp well
      cases hlocated.symm.trans hlocated'
      have file : files.entry? source ≠ some .directory := by
        rw [held]
        nofun
      rw [hr]
      -- input and output are in one directory, so at one place they would have one name
      refine hrep.read_of_ne hfree hr fun same => he ?_
      cases hf.symm.trans same
      have ho := split.name_eq split.splits_defaultOutput hf hlocated file
      exact (pageName_eq_self_iff split (split.name_ne hf file)).mp ho.symm
  · rw [renders.fails well]
    exact ⟨iff_of_true rfl fun zero => absurd zero well, fun zero => absurd zero well⟩

/-- A file with an empty program under the name of a page and under another name. -/
def pagesSample : FileSystem :=
  ⟨[(.below ["page.html"], .file "\x7b\"type\":\"Program\",\"body\":[]\x7d".toUTF8),
    (.below ["tree.json"], .file "\x7b\"type\":\"Program\",\"body\":[]\x7d".toUTF8)]⟩

theorem input_kept_of_pagesSample :
    (run ["render", "tree.json"] pagesSample).2.read "tree.json" =
      pagesSample.read "tree.json" ∧
    ∃ tree, pagesSample.Holds "page.html" tree ∧
      (run ["render", "page.html"] pagesSample).2.read "page.html" =
        .ok (page tree (title "page.html") none).toUTF8 := by
  have hasked (path : String) (plain : path = "tree.json" ∨ path = "page.html") :
      Request.ofArguments? ["render", path] = some (.run (.render path none none)) := by
    rcases plain with rfl | rfl <;> decide +kernel
  have bare : ¬HasPageExtension "tree.json" := by
    rintro ⟨directory, base, split, -⟩
    have parts : splitPath "tree.json" = ([], "tree.json".toList) := by decide +kernel
    have last := congrArg (·.2.getLast?) (split.splitPath_eq.symm.trans parts)
    have ending : ".html".toList.getLast? = some 'l' := by decide
    rw [List.getLast?_append, ending, Option.some_or] at last
    exact absurd last (by decide)
  have he : HasPageExtension "page.html" :=
    ⟨[], "page".toList, ⟨by decide, .inl rfl, by decide⟩, by decide, by decide⟩
  exact ⟨(input_kept_iff (hasked _ (.inl rfl)) pagesSample).1.mpr fun _ => bare,
    (input_kept_iff (hasked _ (.inr rfl)) pagesSample).2 (by decide +kernel) he⟩

/-- An input under the name of a page is lost, and the run ends well. -/
theorem input_lost_of_pagesSample :
    Request.ofArguments? ["render", "page.html"] =
      some (.run (.render "page.html" none none)) ∧
    (run ["render", "page.html"] pagesSample).1.exitCode = 0 ∧
    (run ["render", "page.html"] pagesSample).2.read "page.html" ≠
      pagesSample.read "page.html" := by
  decide +kernel

end Input

end SyntaxMarkup.CommandLine

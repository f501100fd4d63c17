import SyntaxMarkup.Proofs.Operators.Phrase

namespace SyntaxMarkup

/-- The characters that stand between the names of an access. -/
def isMark (c : Char) : Bool :=
  c ∈ ['.', '?', '(', ')', ',', ';', ' ']

/-- A name without marks. -/
structure PlainName where
  text : String
  nonempty : text.toList ≠ []
  chars : text.toList.all (!isMark ·)
  deriving DecidableEq

theorem PlainName.exists_cons (name : PlainName) :
    ∃ c rest, name.text.toList = c :: rest ∧ isMark c = false := by
  cases chars : name.text.toList with
  | nil => exact absurd chars name.nonempty
  | cons c rest =>
    have plain := List.all_eq_true.mp name.chars c (by simp [chars])
    exact ⟨c, rest, rfl, by simpa using plain⟩

/-- An access; an optional one ends at the next `chain` around it if what it starts from is
missing. -/
inductive Access where
  | name (name : PlainName)
  | member (object : Access) (property : PlainName) (optional : Bool)
  | call (callee : Access) (arguments : List Access) (optional : Bool)
  | chain (content : Access)

namespace Access

@[induction_eliminator]
theorem induction {motive : Access → Prop}
    (name : ∀ name, motive (.name name))
    (member : ∀ object property optional, motive object → motive (.member object property optional))
    (call : ∀ callee arguments optional, motive callee → (∀ item ∈ arguments, motive item) →
      motive (.call callee arguments optional))
    (chain : ∀ content, motive content → motive (.chain content)) (access : Access) :
    motive access :=
  @Access.rec motive (fun items => ∀ item ∈ items, motive item) name member call chain nofun
    (fun _ _ first others => List.forall_mem_cons.mpr ⟨first, others⟩) access

section Fold

variable {α : Type} (name : PlainName → α) (member : α → PlainName → Bool → α)
  (call : α → List α → Bool → α) (chain : α → α)

mutual

def fold : Access → α
  | .name text => name text
  | .member object property optional => member (fold object) property optional
  | .call callee arguments optional => call (fold callee) (foldList arguments) optional
  | .chain content => chain (fold content)

def foldList : List Access → List α
  | [] => []
  | item :: rest => fold item :: foldList rest

end

theorem foldList_eq_map (items : List Access) :
    foldList name member call chain items = items.map (fold name member call chain) := by
  induction items with
  | nil => rfl
  | cons item rest ih => rw [foldList, ih, List.map_cons]

theorem fold_call (callee : Access) (arguments : List Access) (optional : Bool) :
    fold name member call chain (.call callee arguments optional) =
      call (fold name member call chain callee) (arguments.map (fold name member call chain))
        optional := by
  rw [fold, foldList_eq_map]

end Fold

def kind : Access → Kind
  | name content => .identifier content.text
  | member _ _ optional => .memberExpression false optional
  | call _ _ optional => .callExpression optional
  | chain _ => .chainExpression

def nameNode (name : PlainName) : Node Unit :=
  .mk () (.identifier name.text) none []

def node : Access → Node Unit :=
  fold nameNode
    (fun object property optional => .mk () (.memberExpression false optional) none
      [⟨"object", .one object⟩, ⟨"property", .one (nameNode property)⟩])
    (fun callee arguments optional => .mk () (.callExpression optional) none
      [⟨"callee", .one callee⟩, ⟨"arguments", .many arguments⟩])
    fun content => .mk () .chainExpression none [⟨"expression", .one content⟩]

theorem node_call (callee : Access) (arguments : List Access) (optional : Bool) :
    (call callee arguments optional).node = .mk () (.callExpression optional) none
      [⟨"callee", .one callee.node⟩, ⟨"arguments", .many (arguments.map node)⟩] :=
  fold_call _ _ _ _ callee arguments optional

theorem kind_node (access : Access) : access.node.kind = access.kind := by
  cases access with
  | call callee arguments optional =>
    rw [node_call]
    rfl
  | name | member | chain => rfl

/-- Whether a part of an access, back to the last end of a chain, is optional. -/
def linked : Access → Bool
  | name _ => false
  | member object _ optional => optional || object.linked
  | call callee _ optional => optional || callee.linked
  | chain _ => false

def isChain : Access → Bool
  | chain _ => true
  | _ => false

/-- What is optional is inside a chain, and a chain ends what has an optional part. -/
inductive Formed : (inside : Bool) → Access → Prop
  | name {inside : Bool} (name : PlainName) : Formed inside (.name name)
  | member {inside optional : Bool} {object : Access} (property : PlainName)
      (objectFormed : Formed inside object) (within : optional → inside) :
      Formed inside (.member object property optional)
  | call {inside optional : Bool} {callee : Access} {arguments : List Access}
      (calleeFormed : Formed inside callee) (each : ∀ item ∈ arguments, Formed false item)
      (within : optional → inside) : Formed inside (.call callee arguments optional)
  | chain {inside : Bool} {content : Access} (formed : Formed true content)
      (linked : content.linked) : Formed inside (.chain content)

/-- No access goes on from the end of a chain. -/
inductive Apart : Access → Prop
  | name (name : PlainName) : Apart (.name name)
  | member {object : Access} (property : PlainName) (optional : Bool) (objectApart : Apart object)
      (goesOn : object.isChain = false) : Apart (.member object property optional)
  | call {callee : Access} {arguments : List Access} (optional : Bool) (calleeApart : Apart callee)
      (each : ∀ item ∈ arguments, Apart item) (goesOn : callee.isChain = false) :
      Apart (.call callee arguments optional)
  | chain {content : Access} (apart : Apart content) : Apart (.chain content)

/-- An access without the ends of its chains. -/
def unchained : Access → Access :=
  fold .name .member .call fun content => content

theorem unchained_call (callee : Access) (arguments : List Access) (optional : Bool) :
    (call callee arguments optional).unchained =
      .call callee.unchained (arguments.map unchained) optional :=
  fold_call _ _ _ _ callee arguments optional

/-- An access with the end of a chain around it if it has an open one. -/
def closed (access : Access) : Access :=
  if access.linked then .chain access else access

/-- An access whose chains in arguments end where the arguments end. -/
def restored : Access → Access :=
  fold .name .member (fun callee arguments optional => .call callee (arguments.map closed) optional)
    fun content => content

theorem restored_call (callee : Access) (arguments : List Access) (optional : Bool) :
    (call callee arguments optional).restored =
      .call callee.restored (arguments.map fun item => item.restored.closed) optional := by
  rw [restored, fold_call, List.map_map]
  rfl

theorem restored_unchained (access : Access) : access.unchained.restored = access.restored := by
  induction access with
  | name => rfl
  | member object property optional ih => exact congrArg (member · property optional) ih
  | call callee arguments optional ih each =>
    rw [unchained_call, restored_call, restored_call, ih, List.map_map]
    refine congrArg (call callee.restored · optional) (List.map_congr_left fun item hm => ?_)
    exact congrArg closed (each item hm)
  | chain content ih => exact ih

theorem Formed.linked_eq_false {access : Access} (hf : access.Formed false) :
    access.linked = false := by
  induction access with
  | name | chain => rfl
  | member object property optional ih =>
    cases hf with
    | member _ objectFormed within => simpa [linked, ih objectFormed] using within
  | call callee arguments optional ih =>
    cases hf with
    | call calleeFormed _ within => simpa [linked, ih calleeFormed] using within

theorem isChain_eq_false {access : Access} (h : access.linked) : access.isChain = false := by
  cases access with
  | chain => cases h
  | name | member | call => rfl

/-- An access without the end of a chain around it. -/
def content : Access → Access
  | chain content => content
  | access => access

theorem content_eq {access : Access} (h : access.isChain = false) : access.content = access := by
  cases access with
  | chain => cases h
  | name | member | call => rfl

theorem closed_content {access : Access} (hf : access.Formed false) :
    access.content.closed = access := by
  cases access with
  | chain content =>
    cases hf with
    | chain _ hl => exact if_pos hl
  | name | member | call =>
    rw [content_eq rfl, closed, hf.linked_eq_false]
    rfl

/-- Where no access goes on from the end of a chain, the ends are known from what is optional. -/
theorem restored_eq {inside : Bool} {access : Access} (ha : access.Apart)
    (hf : access.Formed inside) : access.restored = access.content := by
  induction access generalizing inside with
  | name => rfl
  | member object property optional ih =>
    cases ha with
    | member _ _ objectApart goesOn =>
      cases hf with
      | member _ objectFormed =>
        have same := (ih objectApart objectFormed).trans (content_eq goesOn)
        exact congrArg (member · property optional) same
  | call callee arguments optional ih each =>
    cases ha with
    | call _ calleeApart argumentsApart goesOn =>
      cases hf with
      | call calleeFormed argumentsFormed =>
        have same := (ih calleeApart calleeFormed).trans (content_eq goesOn)
        have items : arguments.map (fun item => item.restored.closed) = arguments := by
          refine (List.map_congr_left fun item hm => ?_).trans (List.map_id' arguments)
          rw [each item hm (argumentsApart item hm) (argumentsFormed item hm),
            closed_content (argumentsFormed item hm)]
        rw [restored_call, same, items]
        rfl
  | chain content ih =>
    cases ha with
    | chain contentApart =>
      cases hf with
      | chain contentFormed hl =>
        exact (ih contentApart contentFormed).trans (content_eq (isChain_eq_false hl))

theorem eq_of_unchained_eq {access other : Access} (hformed : access.Formed false)
    (hapart : access.Apart) (hformed' : other.Formed false) (hapart' : other.Apart)
    (same : access.unchained = other.unchained) : access = other := by
  have restored : access.restored = other.restored := by
    rw [← restored_unchained, same, restored_unchained]
  rw [restored_eq hapart hformed, restored_eq hapart' hformed'] at restored
  rw [← closed_content hformed, restored, closed_content hformed']

theorem unchained_closed (access : Access) : access.closed.unchained = access.unchained := by
  unfold closed
  split <;> rfl

theorem unchained_restored (access : Access) : access.restored.unchained = access.unchained := by
  induction access with
  | name => rfl
  | member object property optional ih => exact congrArg (member · property optional) ih
  | call callee arguments optional ih each =>
    rw [restored_call, unchained_call, unchained_call, ih, List.map_map]
    refine congrArg (call callee.unchained · optional) (List.map_congr_left fun item hm => ?_)
    exact (unchained_closed _).trans (each item hm)
  | chain content ih => exact ih

theorem Formed.outside {inside : Bool} {access : Access} (hf : access.Formed inside)
    (unlinked : access.linked = false) : access.Formed false := by
  induction access with
  | name => exact .name _
  | member object property optional ih =>
    obtain ⟨ho, objectUnlinked⟩ := Bool.or_eq_false_iff.mp unlinked
    cases hf with
    | member _ objectFormed =>
      exact .member property (ih objectFormed objectUnlinked) (by simp [ho])
  | call callee arguments optional ih =>
    obtain ⟨ho, calleeUnlinked⟩ := Bool.or_eq_false_iff.mp unlinked
    cases hf with
    | call calleeFormed each =>
      exact .call (ih calleeFormed calleeUnlinked) each (by simp [ho])
  | chain content =>
    cases hf with
    | chain contentFormed hl => exact .chain contentFormed hl

theorem Formed.closed {access : Access} (hf : access.Formed true) :
    access.closed.Formed false := by
  unfold Access.closed
  split
  next hl => exact .chain hf hl
  next unlinked => exact hf.outside (by simpa using unlinked)

theorem Apart.closed {access : Access} (ha : access.Apart) : access.closed.Apart := by
  unfold Access.closed
  split
  · exact .chain ha
  · exact ha

/-- Whatever the ends of the chains are, there is a way to place them as late as can be. -/
theorem formed_restored (access : Access) :
    access.restored.Formed true ∧ access.restored.Apart ∧ access.restored.isChain = false := by
  induction access with
  | name content => exact ⟨.name content, .name content, rfl⟩
  | member object property optional ih =>
    obtain ⟨hf, ha, goesOn⟩ := ih
    exact ⟨.member property hf fun _ => rfl, .member property optional ha goesOn, rfl⟩
  | call callee arguments optional ih each =>
    obtain ⟨hf, ha, goesOn⟩ := ih
    rw [restored_call]
    refine ⟨.call hf ?_ fun _ => rfl, .call optional ha ?_ goesOn, rfl⟩
    · exact List.forall_mem_map.mpr fun item hm => (each item hm).1.closed
    · exact List.forall_mem_map.mpr fun item hm => (each item hm).2.1.closed
  | chain content ih => exact ih

/-- There is one way to place the ends of chains such that no access goes on from them. -/
theorem exists_apart (access : Access) :
    ∃ other : Access, other.Formed false ∧ other.Apart ∧ other.unchained = access.unchained := by
  obtain ⟨hf, ha, -⟩ := access.formed_restored
  exact ⟨access.restored.closed, hf.closed, ha.closed,
    (unchained_closed _).trans access.unchained_restored⟩

end Access

end SyntaxMarkup

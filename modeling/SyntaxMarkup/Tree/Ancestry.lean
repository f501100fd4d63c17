import SyntaxMarkup.Tree.Node

namespace SyntaxMarkup

structure ParentLink where
  parent : Nat
  key : String
  index : Option Nat
  deriving DecidableEq, Repr

/-- The field, and the place in it in square brackets. -/
def ParentLink.accessor (link : ParentLink) : String :=
  match link.index with
  | some index => link.key ++ "[" ++ toString index ++ "]"
  | none => link.key

/-- The way from the root of a tree to a node. -/
structure NodePath where
  typePath : List String := []
  fieldPath : List String := []
  deriving DecidableEq, Repr

namespace NodePath

def astPath (path : NodePath) (separator : String) : String :=
  separator.intercalate path.typePath

def arrayPath (path : NodePath) : String :=
  ".".intercalate path.fieldPath

def nodeType (path : NodePath) : Option String :=
  path.typePath.getLast?

def append (path rest : NodePath) : NodePath :=
  ⟨path.typePath ++ rest.typePath, path.fieldPath ++ rest.fieldPath⟩

def extend (path : NodePath) (accessor typeName : String) : NodePath :=
  path.append ⟨[typeName], [accessor]⟩

def line (path : NodePath) (separator : String) : String :=
  let fields := path.arrayPath
  (if fields.isEmpty then "(root)" else fields) ++ "\t" ++ path.astPath separator

end NodePath

structure AnnotatedTree where
  tree : Tree
  nodes : Array (Node Nat)
  annotations : Array (Option ParentLink)

def Node.annotateChildren (annotations : Array (Option ParentLink)) (node : Node Nat) :
    Array (Option ParentLink) :=
  node.edges.foldl
    (fun all edge => all.setIfInBounds edge.child.id (some ⟨node.id, edge.key, edge.index⟩))
    annotations

def Tree.annotate (tree : Tree) : AnnotatedTree :=
  let nodes := tree.nodes
  { tree
    nodes
    annotations := tree.root.preorder.foldl Node.annotateChildren (.replicate nodes.size none) }

namespace AnnotatedTree

def link? (tree : AnnotatedTree) (id : Nat) : Option ParentLink :=
  (tree.annotations[id]?).join

def annotatedCount (tree : AnnotatedTree) : Nat :=
  tree.annotations.countP Option.isSome

def typeName (tree : AnnotatedTree) (id : Nat) : String :=
  (tree.nodes[id]?).elim "" Node.typeName

/-- The way to a node along at most `steps` annotations, and on along `below`. -/
def climb (tree : AnnotatedTree) : (steps : Nat) → (id : Nat) → (below : NodePath) → NodePath
  | 0, id, below => ⟨tree.typeName id :: below.typePath, below.fieldPath⟩
  | steps + 1, id, below =>
    match tree.link? id with
    | some link =>
      tree.climb steps link.parent
        ⟨tree.typeName id :: below.typePath, link.accessor :: below.fieldPath⟩
    | none => ⟨tree.typeName id :: below.typePath, below.fieldPath⟩

theorem climb_append (tree : AnnotatedTree) (steps id : Nat) (below rest : NodePath) :
    tree.climb steps id (below.append rest) = (tree.climb steps id below).append rest := by
  induction steps generalizing id below with
  | zero => rfl
  | succ steps ih =>
    simp only [climb]
    cases tree.link? id with
    | none => rfl
    | some link => exact ih link.parent ⟨_ :: below.typePath, _ :: below.fieldPath⟩

theorem climb_succ {tree : AnnotatedTree} {id : Nat} {link : ParentLink}
    (h : tree.link? id = some link) (steps : Nat) :
    tree.climb (steps + 1) id {} =
      (tree.climb steps link.parent {}).extend link.accessor (tree.typeName id) := by
  rw [climb, h]
  exact climb_append tree steps link.parent {} ⟨[tree.typeName id], [link.accessor]⟩

/-- The way from the root to a node; it has fewer steps than the tree has nodes. -/
def path (tree : AnnotatedTree) (id : Nat) : NodePath :=
  tree.climb tree.nodes.size id {}

end AnnotatedTree

def Tree.pathLines (tree : Tree) (options : RenderOptions) : List String :=
  let annotated := tree.annotate
  tree.root.preorder.map fun node => (annotated.path node.id).line options.pathSeparator

end SyntaxMarkup

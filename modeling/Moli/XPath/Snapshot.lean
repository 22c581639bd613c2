import Mathlib.Data.List.Basic

/-!
# Snapshots of a document for XPath

A builder appends nodes one by one; a node knows its parent, and its parent lists it unless it is an
attribute. A node is named by its number. The axes walk these links, or scan all nodes; the loops
get as much fuel as there are nodes.
-/

namespace Moli.XPath

inductive SnapshotNodeKind where
  | document
  | element (attributes : List Nat)
  | attributeNode
  | text
  | comment
deriving DecidableEq

structure SnapshotNodeData where
  parent : Option Nat
  children : List Nat
  order : Nat
  kind : SnapshotNodeKind

structure Snapshot where
  nodes : List SnapshotNodeData
  root : Nat

structure SnapshotBuilder where
  nodes : List SnapshotNodeData

/-! ## Building -/

namespace SnapshotBuilder

def new : SnapshotBuilder := ⟨[]⟩

variable (builder : SnapshotBuilder)

def pushNode (parent : Option Nat) (kind : SnapshotNodeKind) : Nat × SnapshotBuilder :=
  let id := builder.nodes.length
  (id, ⟨builder.nodes ++ [⟨parent, [], id, kind⟩]⟩)

def appendDocument : Nat × SnapshotBuilder :=
  builder.pushNode none .document

/-- The new node and its place among the children of the parent. -/
def appendChild (parent : Nat) (kind : SnapshotNodeKind) : Nat × SnapshotBuilder :=
  let (id, builder) := builder.pushNode (some parent) kind
  (id, ⟨builder.nodes.modify parent fun data => { data with children := data.children ++ [id] }⟩)

def appendElement (parent : Nat) : Nat × SnapshotBuilder :=
  builder.appendChild parent (.element [])

def appendText (parent : Nat) : Nat × SnapshotBuilder :=
  builder.appendChild parent .text

def appendComment (parent : Nat) : Nat × SnapshotBuilder :=
  builder.appendChild parent .comment

def addAttribute (id : Nat) (data : SnapshotNodeData) : SnapshotNodeData :=
  match data.kind with
  | .element attributes => { data with kind := .element (attributes ++ [id]) }
  | _ => data

def appendAttribute (element : Nat) : Nat × SnapshotBuilder :=
  let (id, builder) := builder.pushNode (some element) .attributeNode
  (id, ⟨builder.nodes.modify element (addAttribute id)⟩)

def finish (root : Nat) : Snapshot := ⟨builder.nodes, root⟩

end SnapshotBuilder

/-! ## Nodes -/

namespace Snapshot

variable (s : Snapshot)

def parent (id : Nat) : Option Nat := s.nodes[id]?.bind (·.parent)

def childNodes (id : Nat) : List Nat := (s.nodes[id]?.map (·.children)).getD []

def order (id : Nat) : Nat := (s.nodes[id]?.map (·.order)).getD 0

def kind? (id : Nat) : Option SnapshotNodeKind := s.nodes[id]?.map (·.kind)

def isAttribute (id : Nat) : Bool := s.kind? id == some .attributeNode

def allNodesInOrder : List Nat := List.range s.nodes.length

def climbsTo (target : Nat) : Nat → Option Nat → Bool
  | 0, _ => false
  | _ + 1, none => false
  | fuel + 1, some id => if id = target then true else climbsTo target fuel (s.parent id)

def isAncestorOf (id other : Nat) : Bool := s.climbsTo id s.nodes.length (s.parent other)

def collectPreorder : Nat → Nat → List Nat
  | 0, _ => []
  | fuel + 1, id => id :: (s.childNodes id).flatMap (collectPreorder fuel)

def traversePreorder (id : Nat) : List Nat := s.collectPreorder s.nodes.length id

def ancestorsFrom : Nat → Option Nat → List Nat
  | 0, _ => []
  | _ + 1, none => []
  | fuel + 1, some id => id :: ancestorsFrom fuel (s.parent id)

def inclusiveAncestors (id : Nat) : List Nat :=
  s.ancestorsFrom s.nodes.length (some id)

def precedingNodes (id : Nat) : List Nat :=
  (s.allNodesInOrder.filter fun node =>
    s.order node ≤ s.order id && !s.isAttribute node && !s.isAncestorOf node id).reverse

def followingNodes (id : Nat) : List Nat :=
  s.allNodesInOrder.filter fun node =>
    s.order node ≥ s.order id && !s.isAttribute node && !s.isAncestorOf id node

def precedingSiblings (id : Nat) : List Nat :=
  match s.parent id with
  | none => []
  | some parent => ((s.childNodes parent).takeWhile (· != id)).reverse

/-- What comes once the node was seen. -/
def afterSelf (id : Nat) : List Nat → List Nat
  | [] => []
  | node :: rest => if node = id then rest else afterSelf id rest

def followingSiblings (id : Nat) : List Nat :=
  match s.parent id with
  | none => []
  | some parent => afterSelf id (s.childNodes parent)

def attributes (id : Nat) : List Nat :=
  match s.kind? id with
  | some (.element attributes) => attributes
  | _ => []

end Snapshot

/-! ## Location steps -/

inductive Axis where
  | child
  | descendant
  | parent
  | ancestor
  | followingSibling
  | precedingSibling
  | following
  | preceding
  | attributes
  | namespaces
  | self
  | descendantOrSelf
  | ancestorOrSelf
deriving DecidableEq

/-- The nodes of these axes come in tree order, those of the others in the inverse order. -/
def Axis.inTreeOrder : Axis → Bool
  | .child | .descendant | .parent | .following | .followingSibling | .attributes | .self
  | .descendantOrSelf => true
  | .ancestor | .preceding | .precedingSibling | .ancestorOrSelf | .namespaces => false

inductive KindTest where
  | processingInstruction
  | comment
  | text
  | node
deriving DecidableEq

namespace Snapshot

variable (s : Snapshot)

def axisNodes (id : Nat) : Axis → List Nat
  | .child => s.childNodes id
  | .descendant => (s.traversePreorder id).drop 1
  | .parent => (s.parent id).toList
  | .ancestor => (s.inclusiveAncestors id).drop 1
  | .following => (s.followingNodes id).drop 1
  | .preceding => (s.precedingNodes id).drop 1
  | .followingSibling => s.followingSiblings id
  | .precedingSibling => s.precedingSiblings id
  | .attributes => s.attributes id
  | .self => [id]
  | .descendantOrSelf => s.traversePreorder id
  | .ancestorOrSelf => s.inclusiveAncestors id
  | .namespaces => []

/-- A snapshot has no processing instructions. -/
def applyNodeTest (test : KindTest) (id : Nat) : Bool :=
  match test with
  | .processingInstruction => false
  | .comment => s.kind? id == some .comment
  | .text => s.kind? id == some .text
  | .node => true

/-- A step without predicates. -/
def evaluateStep (id : Nat) (axis : Axis) (test : KindTest) : List Nat :=
  let nodes := (s.axisNodes id axis).filter (s.applyNodeTest test)
  if axis.inTreeOrder then nodes else nodes.reverse

end Snapshot

/-! ## Document order -/

open SnapshotBuilder in
/-- The builder was filled in document order under one document. The list names the nodes that are
still open, the innermost first; an append under one of them closes those within. -/
inductive Built : SnapshotBuilder → List Nat → Prop where
  | document : Built (appendDocument .new).2 [0]
  | element {builder : SnapshotBuilder} {inner outer : List Nat} {parent : Nat}
      (h : Built builder (inner ++ parent :: outer)) :
      Built (builder.appendElement parent).2 ((builder.appendElement parent).1 :: parent :: outer)
  | text {builder : SnapshotBuilder} {inner outer : List Nat} {parent : Nat}
      (h : Built builder (inner ++ parent :: outer)) :
      Built (builder.appendText parent).2 (parent :: outer)
  | comment {builder : SnapshotBuilder} {inner outer : List Nat} {parent : Nat}
      (h : Built builder (inner ++ parent :: outer)) :
      Built (builder.appendComment parent).2 (parent :: outer)
  | attributeNode {builder : SnapshotBuilder} {outer : List Nat} {element : Nat}
      {attributes : List Nat} (h : Built builder (element :: outer))
      (helement : (builder.finish 0).kind? element = some (.element attributes))
      (hfirst : (builder.finish 0).childNodes element = []) :
      Built (builder.appendAttribute element).2 (element :: outer)

end Moli.XPath

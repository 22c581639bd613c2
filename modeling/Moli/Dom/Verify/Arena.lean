import Moli.Lib.ChildLinks
import Moli.Lib.Ensures
import Moli.Lib.Forest
import Moli.Dom.OwnerLifecycle

/-!
# What the writes of the arena change

The tree operations write single nodes. This file says once what each kind of write does to the link
maps (`links_setNextSibling` and its neighbours) and what it leaves alone (`Keeps`), so that later
proofs compare states through `links`, `element`, `fragment` and `nodeType` and never look inside a
node again.
-/

namespace Moli.Dom.NativeDom

open Lib

variable {dom dom' dom'' : NativeDom} {i x : NativeNodeId} {f : Node → Node}

def links (dom : NativeDom) : ChildLinks NativeNodeId where
  parent := dom.parentNode
  first := dom.firstChild
  last := dom.lastChild
  next := dom.nextSibling
  prev := dom.previousSibling

/-- One step of the host-including ancestor walk. -/
def up (dom : NativeDom) (nodeId : NativeNodeId) : Option NativeNodeId :=
  dom.parentNode nodeId <|> dom.host nodeId

def fragment (dom : NativeDom) (nodeId : NativeNodeId) : Option DocumentFragment :=
  (dom.node nodeId).bind fun node => node.data.asDocumentFragment

def nodeType (dom : NativeDom) (nodeId : NativeNodeId) : Option NodeType :=
  (dom.node nodeId).map Node.nodeType

/-! ## Reading nodes -/

theorem node_isSome : (dom.node x).isSome ↔ x < dom.nodes.length := by
  simp [node]

theorem exists_node (h : x < dom.nodes.length) : ∃ n, dom.node x = some n :=
  Option.isSome_iff_exists.1 (node_isSome.2 h)

theorem lt_length_of_node {n : Node} (h : dom.node x = some n) : x < dom.nodes.length :=
  node_isSome.1 (by simp [h])

theorem lt_length_of_parentNode {p : NativeNodeId} (h : dom.parentNode x = some p) :
    x < dom.nodes.length := by
  obtain ⟨n, hn, -⟩ := Option.bind_eq_some_iff.1 h
  exact lt_length_of_node hn

theorem lt_length_of_nodeType {t : NodeType} (h : dom.nodeType x = some t) :
    x < dom.nodes.length := by
  obtain ⟨n, hn, -⟩ := Option.map_eq_some_iff.1 h
  exact lt_length_of_node hn

theorem host_eq : dom.host x = (dom.fragment x).bind DocumentFragment.host := by
  unfold host fragment Node.host
  cases dom.node x <;> rfl

theorem isDocument_eq : dom.isDocument x = (dom.nodeType x == some .document) := by
  unfold isDocument nodeType
  cases h : dom.node x with
  | none => rfl
  | some n => cases hd : n.data <;> simp [Node.isDocument, Node.asDocument, Node.nodeType, hd,
      NodeData.asDocument, NodeData.nodeType]

theorem exists_document (h : dom.isDocument x = true) :
    ∃ n data, dom.node x = some n ∧ n.data = .document data := by
  unfold isDocument at h
  cases hn : dom.node x with
  | none => simp [hn] at h
  | some n =>
    cases hd : n.data <;>
      simp [hn, Node.isDocument, Node.asDocument, hd, NodeData.asDocument] at h ⊢

theorem isDocumentFragment_eq : dom.isDocumentFragment x = (dom.fragment x).isSome := by
  unfold isDocumentFragment fragment Node.isDocumentFragment
  cases dom.node x <;> rfl

theorem fragment_isSome : (dom.fragment x).isSome ↔ dom.nodeType x = some .documentFragment := by
  unfold fragment nodeType
  cases h : dom.node x with
  | none => simp
  | some n => cases hd : n.data <;> simp [Node.nodeType, hd, NodeData.asDocumentFragment,
      NodeData.nodeType]

theorem isDocumentFragment_iff :
    dom.isDocumentFragment x = true ↔ dom.nodeType x = some .documentFragment := by
  rw [isDocumentFragment_eq, fragment_isSome]

theorem isDocument_of_fragment (h : (dom.fragment x).isSome) : dom.isDocument x = false := by
  rw [fragment_isSome] at h
  simp [isDocument_eq, h]

theorem templateContentsFragment_eq : dom.templateContentsFragment x =
    (dom.element x).bind fun element => element.templateContents.bind fun contents =>
      (dom.fragment contents).bind fun data =>
        if data.host = some x then some contents else none := by
  unfold templateContentsFragment element fragment
  simp only [bind, Option.bind_assoc]

/-! ## Writing a node -/

theorem node_modifyNode :
    (dom.modifyNode i f).node x = if x = i then (dom.node x).map f else dom.node x := by
  unfold modifyNode node
  rw [List.getElem?_modify]
  rcases eq_or_ne i x with rfl | hne
  · simp
  · cases hx : dom.nodes[x]? <;> simp [hne, hne.symm]

@[simp] theorem length_modifyNode : (dom.modifyNode i f).nodes.length = dom.nodes.length := by
  simp [modifyNode]

theorem expectNode_eq {message : String} (h : i < dom.nodes.length) :
    dom.expectNode message i f = .ok (dom.modifyNode i f) :=
  if_pos (node_isSome.2 h)

/-- A field that the write keeps. -/
theorem bind_node_modifyNode_keep {β : Type} {get : Node → Option β}
    (hget : ∀ n, get (f n) = get n) :
    ((dom.modifyNode i f).node x).bind get = (dom.node x).bind get := by
  rw [node_modifyNode]
  split
  · cases dom.node x <;> simp [hget]
  · rfl

theorem any_node_modifyNode_keep {get : Node → Bool} (hget : ∀ n, get (f n) = get n) :
    ((dom.modifyNode i f).node x).any get = (dom.node x).any get := by
  rw [node_modifyNode]
  split
  · cases dom.node x <;> simp [hget]
  · rfl

/-- A field that the write sets. -/
private theorem bind_node_modifyNode_set {β : Type} {get : Node → Option β} {v : Option β}
    (hi : i < dom.nodes.length) (hget : ∀ n, get (f n) = v) :
    ((dom.modifyNode i f).node x).bind get =
      if x = i then v else (dom.node x).bind get := by
  obtain ⟨n, hn⟩ := exists_node hi
  rw [node_modifyNode]
  rcases eq_or_ne x i with rfl | hne
  · simp [hn, hget]
  · simp [hne]

section

variable (h : i < dom.nodes.length) (v : Option NativeNodeId)
include h

theorem links_setFirstChild : (dom.modifyNode i (Node.setFirstChild v)).links =
    { dom.links with first := fun x => if x = i then v else dom.links.first x } := by
  refine ChildLinks.mk.injEq .. ▸ ⟨?_, ?_, ?_, ?_, ?_⟩ <;> funext x <;>
    first
    | exact bind_node_modifyNode_keep fun _ => rfl
    | exact bind_node_modifyNode_set h fun _ => rfl

theorem links_setLastChild : (dom.modifyNode i (Node.setLastChild v)).links =
    { dom.links with last := fun x => if x = i then v else dom.links.last x } := by
  refine ChildLinks.mk.injEq .. ▸ ⟨?_, ?_, ?_, ?_, ?_⟩ <;> funext x <;>
    first
    | exact bind_node_modifyNode_keep fun _ => rfl
    | exact bind_node_modifyNode_set h fun _ => rfl

theorem links_setNextSibling : (dom.modifyNode i (Node.setNextSibling v)).links =
    { dom.links with next := fun x => if x = i then v else dom.links.next x } := by
  refine ChildLinks.mk.injEq .. ▸ ⟨?_, ?_, ?_, ?_, ?_⟩ <;> funext x <;>
    first
    | exact bind_node_modifyNode_keep fun _ => rfl
    | exact bind_node_modifyNode_set h fun _ => rfl

theorem links_setPrevSibling : (dom.modifyNode i (Node.setPrevSibling v)).links =
    { dom.links with prev := fun x => if x = i then v else dom.links.prev x } := by
  refine ChildLinks.mk.injEq .. ▸ ⟨?_, ?_, ?_, ?_, ?_⟩ <;> funext x <;>
    first
    | exact bind_node_modifyNode_keep fun _ => rfl
    | exact bind_node_modifyNode_set h fun _ => rfl

theorem links_adoptInto (p : NativeNodeId) (w : Option NativeNodeId) :
    (dom.modifyNode i (Node.adoptInto p v w)).links =
      { dom.links with
        parent := fun x => if x = i then some p else dom.links.parent x
        prev := fun x => if x = i then v else dom.links.prev x
        next := fun x => if x = i then w else dom.links.next x } := by
  refine ChildLinks.mk.injEq .. ▸ ⟨?_, ?_, ?_, ?_, ?_⟩ <;> funext x <;>
    first
    | exact bind_node_modifyNode_keep fun _ => rfl
    | exact bind_node_modifyNode_set h fun _ => rfl

omit v

theorem links_clearTreeLinks : (dom.modifyNode i Node.clearTreeLinks).links =
    { dom.links with
      parent := fun x => if x = i then none else dom.links.parent x
      prev := fun x => if x = i then none else dom.links.prev x
      next := fun x => if x = i then none else dom.links.next x } := by
  refine ChildLinks.mk.injEq .. ▸ ⟨?_, ?_, ?_, ?_, ?_⟩ <;> funext x <;>
    first
    | exact bind_node_modifyNode_keep fun _ => rfl
    | exact bind_node_modifyNode_set h fun _ => rfl

end

theorem links_modifyNode (hf : ∀ n, (f n).parentNode = n.parentNode ∧
    (f n).firstChild = n.firstChild ∧ (f n).lastChild = n.lastChild ∧
    (f n).nextSibling = n.nextSibling ∧ (f n).prevSibling = n.prevSibling) :
    (dom.modifyNode i f).links = dom.links := by
  refine ChildLinks.mk.injEq .. ▸ ⟨?_, ?_, ?_, ?_, ?_⟩ <;> funext x <;>
    refine bind_node_modifyNode_keep fun n => ?_ <;> simp [hf n]

/-! ## Adding a node -/

/-- The arena with one more node. -/
def push (dom : NativeDom) (node : Node) : NativeDom := { dom with nodes := dom.nodes ++ [node] }

theorem createNode_spec (dom : NativeDom) (data : NodeData) (ownerDocument : Option NativeNodeId)
    (connected inDocumentTree : Bool) :
    Ensures (· = .nodeLimit) (dom.createNode data ownerDocument connected inDocumentTree)
      fun created => created = (dom.nodes.length,
        dom.push (Node.new none ownerDocument { inDocumentTree, connected } data)) := by
  unfold createNode
  split
  · rfl
  · rfl

@[simp] theorem length_push (node : Node) :
    (dom.push node).nodes.length = dom.nodes.length + 1 := by
  simp [push]

theorem node_push (node : Node) :
    (dom.push node).node x = if x = dom.nodes.length then some node else dom.node x := by
  unfold push NativeDom.node
  rcases Nat.lt_trichotomy x dom.nodes.length with hlt | rfl | hgt
  · simp [List.getElem?_append_left hlt, Nat.ne_of_lt hlt]
  · simp
  · have hold : dom.nodes[x]? = none := List.getElem?_eq_none (by omega)
    have hnew : (dom.nodes ++ [node])[x]? = none := List.getElem?_eq_none (by simp; omega)
    rw [hnew, if_neg (Nat.ne_of_gt hgt), hold]

theorem node_length : dom.node dom.nodes.length = none :=
  List.getElem?_eq_none (Nat.le_refl _)

/-- Reading a field that the new node does not have. -/
theorem bind_node_push {β : Type} {get : Node → Option β} {node : Node} (hget : get node = none) :
    ((dom.push node).node x).bind get = (dom.node x).bind get := by
  rw [node_push]
  split
  next hx =>
    simp [hx, node_length, hget]
  · rfl

theorem any_node_push {get : Node → Bool} {node : Node} (hget : get node = false) :
    ((dom.push node).node x).any get = (dom.node x).any get := by
  rw [node_push]
  split
  next hx => simp [hx, node_length, hget]
  · rfl

theorem links_push {ownerDocument : Option NativeNodeId} {flags : NodeFlags} {data : NodeData} :
    (dom.push (Node.new none ownerDocument flags data)).links = dom.links := by
  refine ChildLinks.mk.injEq .. ▸ ⟨?_, ?_, ?_, ?_, ?_⟩ <;> funext x <;>
    exact bind_node_push rfl

/-! ## What is kept -/

/-- The second state has the same nodes, up to links, owners, flags and the inner state of
documents, and perhaps further documents. -/
structure Keeps (dom dom' : NativeDom) : Prop where
  length_le : dom.nodes.length ≤ dom'.nodes.length
  element : dom'.element = dom.element
  fragment : dom'.fragment = dom.fragment
  nodeType : ∀ x, x < dom.nodes.length → dom'.nodeType x = dom.nodeType x
  added : ∀ x, dom.nodes.length ≤ x → x < dom'.nodes.length → dom'.nodeType x = some .document
  documentNodeId : dom'.documentNodeId = dom.documentNodeId

namespace Keeps

theorem refl (dom : NativeDom) : Keeps dom dom where
  length_le := Nat.le_refl _
  element := rfl
  fragment := rfl
  nodeType _ _ := rfl
  added x h h' := absurd h (by omega)
  documentNodeId := rfl

theorem trans (h : Keeps dom dom') (h' : Keeps dom' dom'') : Keeps dom dom'' where
  length_le := h.length_le.trans h'.length_le
  element := h'.element.trans h.element
  fragment := h'.fragment.trans h.fragment
  nodeType x hx := (h'.nodeType x (hx.trans_le h.length_le)).trans (h.nodeType x hx)
  added x hx hx' := by
    rcases Nat.lt_or_ge x dom'.nodes.length with hlt | hge
    · rw [h'.nodeType x hlt]
      exact h.added x hx hlt
    · exact h'.added x hge hx'
  documentNodeId := h'.documentNodeId.trans h.documentNodeId

theorem modifyNode (hf : ∀ n, (f n).asElement = n.asElement ∧
    (f n).data.asDocumentFragment = n.data.asDocumentFragment ∧ (f n).nodeType = n.nodeType) :
    Keeps dom (dom.modifyNode i f) where
  length_le := by simp
  element := funext fun x => bind_node_modifyNode_keep fun n => (hf n).1
  fragment := funext fun x => bind_node_modifyNode_keep fun n => (hf n).2.1
  nodeType x _ := by
    unfold NativeDom.nodeType
    rw [node_modifyNode]
    split
    · cases dom.node x <;> simp [hf]
    · rfl
  added x h h' := absurd h (by simp at h'; omega)
  documentNodeId := rfl

theorem withCandidates (h : Keeps dom dom')
    (registry : Std.TreeMap NativeNodeId (List NativeNodeId)) :
    Keeps dom { dom' with candidatesByTreeScope := registry } :=
  ⟨h.length_le, h.element, h.fragment, h.nodeType, h.added, h.documentNodeId⟩

variable (h : Keeps dom dom')
include h

theorem host : dom'.host = dom.host := by
  funext x
  rw [host_eq, host_eq, h.fragment]

theorem templateContentsFragment :
    dom'.templateContentsFragment = dom.templateContentsFragment := by
  funext x
  simp only [templateContentsFragment_eq, h.element, h.fragment]

theorem isStylesheetCandidate : dom'.isStylesheetCandidate = dom.isStylesheetCandidate := by
  unfold NativeDom.isStylesheetCandidate
  rw [h.element]

theorem isDocumentFragment : dom'.isDocumentFragment = dom.isDocumentFragment := by
  funext x
  rw [isDocumentFragment_eq, isDocumentFragment_eq, h.fragment]

theorem isDocument (hx : x < dom.nodes.length) : dom'.isDocument x = dom.isDocument x := by
  rw [isDocument_eq, isDocument_eq, h.nodeType x hx]

end Keeps

end Moli.Dom.NativeDom

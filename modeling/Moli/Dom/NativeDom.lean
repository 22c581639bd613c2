import Mathlib.Algebra.Order.Ring.Int
import Mathlib.Data.Finset.Basic
import Moli.Lib.Follow
import Moli.Dom.Node

/-!
# The node arena

`NativeDom` of `moli-dom/src/native/mod.rs`: node storage, node creation, the walks along parent,
host and sibling links, and document order (`Node::compare_document_position`).

The source's walks are unbounded loops. Here each has `NativeDom.fuel` steps, one more than there
are nodes: a walk along a link that takes more steps comes back to a node and never ends, which is
the fault `diverges`. A `debug_assert!`, which release builds leave out, is not a fault.
-/

namespace Moli.Dom

/-- What stops a call: a panic of the source, or a loop that does not end. -/
inductive Fault
  /-- `NativeNodeId::new`: "native DOM exceeds the u32 node limit". -/
  | nodeLimit
  /-- An `expect` on a missing node, with its message. -/
  | expected (message : String)
  /-- "stylesheet candidate batch is missing from its old tree scope". -/
  | candidateBatchMissing (treeScope firstOwner lastOwner batchLen registryLen : Nat)
  /-- "stylesheet candidate batch is not contiguous in tree order". -/
  | candidateBatchNotContiguous
      (treeScope firstOwner lastOwner batchLen start stop registryLen : Nat)
  | diverges
deriving DecidableEq

structure NativeDom where
  nodes : List Node
  documentNodeId : NativeNodeId
  candidatesByTreeScope : Std.TreeMap NativeNodeId (List NativeNodeId)

namespace NativeDom

def newWith (document : Document) : NativeDom where
  nodes := [Node.new none none (.new true) (.document document)]
  documentNodeId := 0
  candidatesByTreeScope := ∅

def newHtml : NativeDom := newWith .newHtml

def newXml : NativeDom := newWith .newXml

variable (dom : NativeDom)

def node (nodeId : NativeNodeId) : Option Node := dom.nodes[nodeId]?

/-- An assignment through `node_mut`; nothing happens if the node does not exist. -/
def modifyNode (nodeId : NativeNodeId) (f : Node → Node) : NativeDom :=
  { dom with nodes := dom.nodes.modify nodeId f }

/-- An assignment through `node_mut(node_id).expect(message)`. -/
def expectNode (message : String) (nodeId : NativeNodeId) (f : Node → Node) :
    Except Fault NativeDom :=
  if (dom.node nodeId).isSome then .ok (dom.modifyNode nodeId f) else .error (.expected message)

def fuel : Nat := dom.nodes.length + 1

def element (nodeId : NativeNodeId) : Option Element := (dom.node nodeId).bind Node.asElement

def parentNode (nodeId : NativeNodeId) : Option NativeNodeId :=
  (dom.node nodeId).bind Node.parentNode

def firstChild (nodeId : NativeNodeId) : Option NativeNodeId :=
  (dom.node nodeId).bind Node.firstChild

def lastChild (nodeId : NativeNodeId) : Option NativeNodeId :=
  (dom.node nodeId).bind Node.lastChild

def nextSibling (nodeId : NativeNodeId) : Option NativeNodeId :=
  (dom.node nodeId).bind Node.nextSibling

def previousSibling (nodeId : NativeNodeId) : Option NativeNodeId :=
  (dom.node nodeId).bind Node.prevSibling

def ownerDocument (nodeId : NativeNodeId) : Option NativeNodeId :=
  (dom.node nodeId).bind Node.ownerDocument

def host (nodeId : NativeNodeId) : Option NativeNodeId :=
  (dom.node nodeId).bind Node.host

def connected (nodeId : NativeNodeId) : Bool :=
  (dom.node nodeId).any (·.flags.connected)

def isDocument (nodeId : NativeNodeId) : Bool := (dom.node nodeId).any Node.isDocument

def isDocumentFragment (nodeId : NativeNodeId) : Bool :=
  (dom.node nodeId).any Node.isDocumentFragment

def canHaveChildren (nodeId : NativeNodeId) : Bool := (dom.node nodeId).any Node.canHaveChildren

/-- Everything one walk visits, or `diverges`. -/
def collect (next : NativeNodeId → Option NativeNodeId) (start : Option NativeNodeId) :
    Except Fault (List NativeNodeId) :=
  match Lib.follow next dom.fuel start with
  | some visited => .ok visited
  | none => .error .diverges

def childIds (nodeId : NativeNodeId) : Except Fault (List NativeNodeId) :=
  dom.collect dom.nextSibling (dom.firstChild nodeId)

def childIdsReversed (nodeId : NativeNodeId) : Except Fault (List NativeNodeId) :=
  dom.collect dom.previousSibling (dom.lastChild nodeId)

/-! ## Creating nodes -/

def createNode (data : NodeData) (ownerDocument : Option NativeNodeId)
    (connected inDocumentTree : Bool) : Except Fault (NativeNodeId × NativeDom) :=
  if dom.nodes.length + 1 < 2 ^ 32 then
    let flags := { NodeFlags.new inDocumentTree with connected }
    .ok (dom.nodes.length,
      { dom with nodes := dom.nodes ++ [Node.new none ownerDocument flags data] })
  else
    .error .nodeLimit

/-- The document that owns the contents of `documentHandle`'s templates, created on first use. -/
def appropriateTemplateContentsOwnerDocument (documentHandle : NativeNodeId) :
    Except Fault (NativeNodeId × NativeDom) := do
  let document := (dom.node documentHandle).bind Node.asDocument
  if document.any Document.isInertTemplateDocument then
    return (documentHandle, dom)
  match document.bind Document.associatedInertTemplateDocument with
  | some owner => return (owner, dom)
  | none =>
    let kind := (document.map Document.kind).getD .html
    let (owner, dom) ← dom.createNode (.document (.newInertTemplate kind)) none false false
    let setAssociated := NodeData.modifyDocument fun document =>
      { document with associatedInertTemplateDocument := some owner }
    return (owner, dom.modifyNode documentHandle (Node.modifyData setAssociated))

def createTemplateContentsFragmentForDocument (documentHandle : NativeNodeId)
    (host : Option NativeNodeId) : Except Fault (NativeNodeId × NativeDom) := do
  let (ownerDocument, dom) ← dom.appropriateTemplateContentsOwnerDocument documentHandle
  dom.createNode (.documentFragment { host }) (some ownerDocument) false false

def allocateElementForDocument (documentHandle : NativeNodeId) (element : Element) :
    Except Fault (NativeNodeId × NativeDom) := do
  let (handle, dom) ← dom.createNode (.element element) (some documentHandle) false false
  if element.isHtmlElement "template" then
    let (fragment, dom) ←
      dom.createTemplateContentsFragmentForDocument documentHandle (some handle)
    let setContents := NodeData.modifyElement fun element =>
      { element with templateContents := some fragment }
    return (handle, dom.modifyNode handle (Node.modifyData setContents))
  else
    return (handle, dom)

def setDocumentFragmentHost (fragment host : NativeNodeId) : Bool × NativeDom :=
  match (dom.node fragment).bind fun node => node.data.asDocumentFragment with
  | none => (false, dom)
  | some data =>
    if data.host = some host then (false, dom)
    else
      let setHost :=
        NodeData.modifyDocumentFragment fun fragment => { fragment with host := some host }
      (true, dom.modifyNode fragment (Node.modifyData setHost))

/-- The contents fragment a template still owns: its slot names a fragment that it hosts. -/
def templateContentsFragment (template : NativeNodeId) : Option NativeNodeId := do
  let contents ← (← (← dom.node template).asElement).templateContents
  let fragment ← (← dom.node contents).data.asDocumentFragment
  if fragment.host = some template then some contents else none

/-! ## Ancestors -/

def isHostIncludingInclusiveAncestorLoop (candidateAncestor : NativeNodeId) :
    Nat → Option NativeNodeId → Except Fault Bool
  | _, none => .ok false
  | 0, some _ => .error .diverges
  | fuel + 1, some handle =>
    if handle = candidateAncestor then .ok true
    else
      match dom.node handle with
      | none => .ok false
      | some node =>
        isHostIncludingInclusiveAncestorLoop candidateAncestor fuel (node.parentNode <|> node.host)

def isHostIncludingInclusiveAncestor (candidateAncestor nodeId : NativeNodeId) :
    Except Fault Bool :=
  dom.isHostIncludingInclusiveAncestorLoop candidateAncestor dom.fuel (some nodeId)

def rootNodeIdLoop : Nat → NativeNodeId → Except Fault NativeNodeId
  | 0, _ => .error .diverges
  | fuel + 1, current =>
    match dom.parentNode current with
    | none => .ok current
    | some parent => rootNodeIdLoop fuel parent

def rootNodeId (nodeId : NativeNodeId) : Except Fault NativeNodeId :=
  dom.rootNodeIdLoop dom.fuel nodeId

def ancestorChain (nodeId : NativeNodeId) : Except Fault (List NativeNodeId) := do
  let chain ← dom.collect dom.parentNode (some nodeId)
  return chain.reverse

def canInsertChildType : (parentType childType : NodeType) → Bool
  | .document, childType =>
    match childType with
    | .document | .text | .cdataSection => false
    | _ => true
  | .documentFragment, childType | .element, childType =>
    match childType with
    | .document | .documentType => false
    | _ => true
  | _, _ => false

/-! ## Document order -/

def documentPositionDisconnected : UInt16 := 0x01
def documentPositionPreceding : UInt16 := 0x02
def documentPositionFollowing : UInt16 := 0x04
def documentPositionContains : UInt16 := 0x08
def documentPositionContainedBy : UInt16 := 0x10
def documentPositionImplementationSpecific : UInt16 := 0x20

def siblingDocumentOrder (left right : NativeNodeId) : Except Fault UInt16 :=
  match dom.parentNode left with
  | none => .ok 0
  | some parent => do
    let children ← dom.childIds parent
    match children.find? fun child => child == left || child == right with
    | none => return 0
    | some child =>
      return if child = left then documentPositionFollowing else documentPositionPreceding

/-- The two chains without their shared beginning. -/
def dropShared : List NativeNodeId → List NativeNodeId → List NativeNodeId × List NativeNodeId
  | left :: lefts, right :: rights =>
    if left = right then dropShared lefts rights else (left :: lefts, right :: rights)
  | lefts, rights => (lefts, rights)

def compareDocumentPosition (self other : NativeNodeId) : Except Fault UInt16 := do
  if self = other then
    return 0
  let leftRoot ← dom.rootNodeId self
  let rightRoot ← dom.rootNodeId other
  if leftRoot ≠ rightRoot then
    let bits := documentPositionDisconnected ||| documentPositionImplementationSpecific
    return bits |||
      (if leftRoot < rightRoot then documentPositionFollowing else documentPositionPreceding)
  let leftChain ← dom.ancestorChain self
  let rightChain ← dom.ancestorChain other
  match dropShared leftChain rightChain with
  | ([], _) => return documentPositionContainedBy ||| documentPositionFollowing
  | (_, []) => return documentPositionContains ||| documentPositionPreceding
  | (left :: _, right :: _) => dom.siblingDocumentOrder left right

end NativeDom

end Moli.Dom

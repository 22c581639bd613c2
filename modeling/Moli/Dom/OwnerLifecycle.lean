import Moli.Dom.StylesheetCandidates

/-!
# Tree mutation

`moli-dom/src/native/host/mutation/owner_lifecycle.rs`: insertion, removal and the traversal that
retargets a moved subtree, which assigns its owner document and flags, follows the contents of
templates into the inert document of the new owner and keeps the stylesheet candidate registries.

Base URL and referrer policy processing only writes document metadata and is not part of the model.
-/

namespace Moli.Dom

inductive StylesheetCandidateRegistryMutation
  | none
  | register
  | unregister
deriving DecidableEq

structure OwnerLifecycleChanges where
  stylesheetCandidates : StylesheetCandidateChanges := {}
  stylesheetOwners : List NativeNodeId := []

def OwnerLifecycleChanges.merge (changes other : OwnerLifecycleChanges) :
    OwnerLifecycleChanges where
  stylesheetCandidates := changes.stylesheetCandidates.merge other.stylesheetCandidates
  stylesheetOwners := changes.stylesheetOwners ++ other.stylesheetOwners

structure OwnerLifecycleTraversal where
  registryMutation : StylesheetCandidateRegistryMutation
  candidateTreeScope : Option NativeNodeId
  collectStylesheetOwners : Bool
  changes : OwnerLifecycleChanges := {}

namespace OwnerLifecycleTraversal

/-- Recording one visited candidate. -/
def record (traversal : OwnerLifecycleTraversal)
    (registryMutation : StylesheetCandidateRegistryMutation) (handle : NativeNodeId) :
    OwnerLifecycleTraversal :=
  let changes := traversal.changes
  let stylesheetOwners :=
    if traversal.collectStylesheetOwners then changes.stylesheetOwners ++ [handle]
    else changes.stylesheetOwners
  let stylesheetCandidates :=
    match registryMutation, traversal.candidateTreeScope with
    | .register, some treeScope => changes.stylesheetCandidates.recordRegistered handle treeScope
    | .unregister, some treeScope =>
      changes.stylesheetCandidates.recordUnregistered handle treeScope
    | _, _ => changes.stylesheetCandidates
  { traversal with changes := { stylesheetCandidates, stylesheetOwners } }

end OwnerLifecycleTraversal

/-- One entry of the retargeting stack. -/
structure RetargetItem where
  handle : NativeNodeId
  ownerDocument : Option NativeNodeId
  connected : Bool
  inDocumentTree : Bool
  trackCandidates : Bool

namespace NativeDom

variable (dom : NativeDom)

/-- The contents an adoption has to follow: those of a template whose owner document changes. -/
def adoptedContents (item : RetargetItem) : Option NativeNodeId :=
  if dom.ownerDocument item.handle ≠ item.ownerDocument then
    dom.templateContentsFragment item.handle
  else
    none

def recordCandidate (traversal : OwnerLifecycleTraversal) (item : RetargetItem) :
    OwnerLifecycleTraversal :=
  let registryMutation := if item.trackCandidates then traversal.registryMutation else .none
  let maintainsCandidates := traversal.collectStylesheetOwners || registryMutation ≠ .none
  if maintainsCandidates && dom.isStylesheetCandidate item.handle then
    traversal.record registryMutation item.handle
  else
    traversal

/-- The stack entry for the contents of an adopted template. -/
def contentsItem (ownerDocument contents : Option NativeNodeId) :
    Except Fault (List RetargetItem × NativeDom) :=
  match ownerDocument, contents with
  | some document, some contents => do
    let (document, dom) ← dom.appropriateTemplateContentsOwnerDocument document
    return ([{ handle := contents, ownerDocument := some document, connected := false
               inDocumentTree := false, trackCandidates := false }], dom)
  | _, _ => return ([], dom)

/-- Retargets one node and returns the entries it pushes, the next one to visit first. -/
def retargetNode (traversal : OwnerLifecycleTraversal) (item : RetargetItem) :
    Except Fault (List RetargetItem × OwnerLifecycleTraversal × NativeDom) := do
  let traversal := dom.recordCandidate traversal item
  let contents := dom.adoptedContents item
  let dom ← dom.expectNode "node must exist" item.handle
    (Node.setTreeScope item.ownerDocument item.connected item.inDocumentTree)
  let childrenReversed ← dom.childIdsReversed item.handle
  let children := (childrenReversed.map fun child => { item with handle := child }).reverse
  let (pushed, dom) ← dom.contentsItem item.ownerDocument contents
  return (pushed ++ children, traversal, dom)

/-- The traversal stack is a list with its top first. -/
def retargetLoop : Nat → NativeDom → OwnerLifecycleTraversal → List RetargetItem →
    Except Fault (OwnerLifecycleTraversal × NativeDom)
  | _, dom, traversal, [] => .ok (traversal, dom)
  | 0, _, _, _ :: _ => .error .diverges
  | fuel + 1, dom, traversal, item :: stack => do
    let (pushed, traversal, dom) ← dom.retargetNode traversal item
    retargetLoop fuel dom traversal (pushed ++ stack)

def retargetOwnerLifecycleSubtree (root : NativeNodeId) (ownerDocument : Option NativeNodeId)
    (connected inDocumentTree : Bool) (traversal : OwnerLifecycleTraversal) :
    Except Fault (OwnerLifecycleTraversal × NativeDom) :=
  retargetLoop dom.fuel dom traversal
    [{ handle := root, ownerDocument, connected, inDocumentTree, trackCandidates := true }]

def retargetSubtreeAndRegisterStylesheetCandidates (root : NativeNodeId)
    (ownerDocument : Option NativeNodeId) (connected inDocumentTree commitRegistration : Bool) :
    Except Fault (OwnerLifecycleChanges × NativeDom) := do
  let treeScope ← dom.stylesheetCandidateTreeScopeForNode root
  let registryMutation := if treeScope.isSome then .register else .none
  let (traversal, dom) ← dom.retargetOwnerLifecycleSubtree root ownerDocument connected
    inDocumentTree
    { registryMutation, candidateTreeScope := treeScope, collectStylesheetOwners := false }
  match commitRegistration, treeScope with
  | true, some treeScope =>
    let dom ← dom.registerStylesheetCandidates treeScope
      traversal.changes.stylesheetCandidates.registered
    return (traversal.changes, dom)
  | _, _ => return (traversal.changes, dom)

def retargetSubtreeAndUnregisterStylesheetCandidates (root : NativeNodeId)
    (ownerDocument : Option NativeNodeId) (connected inDocumentTree : Bool)
    (oldTreeScope : Option NativeNodeId) : Except Fault (OwnerLifecycleChanges × NativeDom) := do
  let registryMutation := if oldTreeScope.isSome then .unregister else .none
  let (traversal, dom) ← dom.retargetOwnerLifecycleSubtree root ownerDocument connected
    inDocumentTree
    { registryMutation, candidateTreeScope := oldTreeScope, collectStylesheetOwners := false }
  match oldTreeScope with
  | some treeScope =>
    let dom ← dom.unregisterStylesheetCandidates treeScope
      traversal.changes.stylesheetCandidates.unregistered
    return (traversal.changes, dom)
  | none => return (traversal.changes, dom)

def markSubtreeTreeScopeCollectingStylesheetOwners (nodeId : NativeNodeId)
    (ownerDocument : Option NativeNodeId) (connected inDocumentTree : Bool) :
    Except Fault (List NativeNodeId × NativeDom) := do
  let (traversal, dom) ← dom.retargetOwnerLifecycleSubtree nodeId ownerDocument connected
    inDocumentTree
    { registryMutation := .none, candidateTreeScope := none, collectStylesheetOwners := true }
  return (traversal.changes.stylesheetOwners, dom)

/-- Makes a fragment, such as a new shadow root, a tree scope of its own. -/
def registerStylesheetCandidateTreeScope (treeScope : NativeNodeId) : Except Fault NativeDom :=
  match dom.node treeScope with
  | none => .ok dom
  | some node =>
    if !node.isDocumentFragment || dom.candidatesByTreeScope.contains treeScope then .ok dom
    else do
      let registered :=
        { dom with candidatesByTreeScope := dom.candidatesByTreeScope.insert treeScope [] }
      let (_, dom) ← registered.retargetSubtreeAndRegisterStylesheetCandidates treeScope
        node.ownerDocument node.flags.connected false true
      return dom

/-! ## Detaching and inserting -/

/-- What follows `previous` in the child list of `parent`, or comes first, becomes `next`. -/
def setFollowing (parent : NativeNodeId) (previous next : Option NativeNodeId) :
    Except Fault NativeDom :=
  match previous with
  | some previous =>
    dom.expectNode "previous sibling must exist" previous (Node.setNextSibling next)
  | none => dom.expectNode "parent must exist" parent (Node.setFirstChild next)

/-- What precedes `next` in the child list of `parent`, or comes last, becomes `previous`. -/
def setPreceding (message : String) (parent : NativeNodeId) (next previous : Option NativeNodeId) :
    Except Fault NativeDom :=
  match next with
  | some next => dom.expectNode message next (Node.setPrevSibling previous)
  | none => dom.expectNode "parent must exist" parent (Node.setLastChild previous)

/-- The pointer updates of a removal: the siblings of `child`, or `parent`, skip it. -/
def unlinkChild (parent child : NativeNodeId) : Except Fault NativeDom := do
  let previous := dom.previousSibling child
  let next := dom.nextSibling child
  let dom ← dom.setFollowing parent previous next
  let dom ← dom.setPreceding "next sibling must exist" parent next previous
  dom.expectNode "child must exist" child Node.clearTreeLinks

def detachFromParentWithOwnerLifecycleChanges (child : NativeNodeId) :
    Except Fault (OwnerLifecycleChanges × NativeDom) :=
  match dom.parentNode child with
  | none => .ok ({}, dom)
  | some parent => do
    let oldTreeScope ← dom.stylesheetCandidateTreeScopeForNode child
    let ownerDocument := dom.ownerDocument child
    let dom ← dom.unlinkChild parent child
    dom.retargetSubtreeAndUnregisterStylesheetCandidates child ownerDocument false false
      oldTreeScope

/-- The child that an insertion before `referenceChild`, or at the end, comes after. -/
def previousForInsertion (parent : NativeNodeId) : Option NativeNodeId → Option NativeNodeId
  | some referenceChild => dom.previousSibling referenceChild
  | none => dom.lastChild parent

/-- The pointer updates of an insertion before `referenceChild`, or at the end. -/
def linkChild (parent child : NativeNodeId) (referenceChild : Option NativeNodeId) :
    Except Fault NativeDom := do
  let previous := dom.previousForInsertion parent referenceChild
  let dom ← dom.expectNode "child must exist" child
    (Node.adoptInto parent previous referenceChild)
  let dom ← dom.setFollowing parent previous (some child)
  let dom ← dom.setPreceding "reference child must exist" parent referenceChild (some child)
  if referenceChild.isSome && (dom.node parent).any (·.lastChild.isNone) then
    dom.expectNode "parent must exist" parent (Node.setLastChild (some child))
  else
    return dom

def commitValidatedNonFragmentInsertion (parent child : NativeNodeId)
    (referenceChild : Option NativeNodeId) (commitCandidateRegistration : Bool) :
    Except Fault (OwnerLifecycleChanges × NativeDom) := do
  let (changes, dom) ← dom.detachFromParentWithOwnerLifecycleChanges child
  let dom ← dom.linkChild parent child referenceChild
  let ownerDocument := if dom.isDocument parent then some parent else dom.ownerDocument parent
  let parentConnected := dom.connected parent
  let (insertedChanges, dom) ← dom.retargetSubtreeAndRegisterStylesheetCandidates child
    ownerDocument parentConnected parentConnected commitCandidateRegistration
  return (changes.merge insertedChanges, dom)

/-- The reference child an insertion works with; `none` if it is not a child of `parent`.
A self-reference becomes the node's next sibling before the node is removed. -/
def preInsertReference (parent child : NativeNodeId) :
    Option NativeNodeId → Option (Option NativeNodeId)
  | none => some none
  | some reference =>
    if dom.parentNode reference ≠ some parent then none
    else if reference = child then some (dom.nextSibling child)
    else some (some reference)

def fragmentChildIsInsertable (parent : NativeNodeId) (parentType : NodeType)
    (fragmentChild : NativeNodeId) : Except Fault Bool := do
  if ← dom.isHostIncludingInclusiveAncestor fragmentChild parent then
    return false
  return (dom.node fragmentChild).any fun node =>
    !node.isDocumentFragment && canInsertChildType parentType node.nodeType

/-- Moves validated fragment children one by one, without registering their candidates. -/
def commitFragmentChildren (parent : NativeNodeId) (referenceChild : Option NativeNodeId)
    (fragmentChildren : List NativeNodeId) : Except Fault (OwnerLifecycleChanges × NativeDom) :=
  fragmentChildren.foldlM (fun (changes, dom) fragmentChild => do
    let (more, dom) ← NativeDom.commitValidatedNonFragmentInsertion dom parent fragmentChild
      referenceChild false
    return (OwnerLifecycleChanges.merge changes more, dom)) ({}, dom)

def insertBeforeWithStylesheetCandidateChangesAndRegistration (parent child : NativeNodeId)
    (referenceChild : Option NativeNodeId) (commitCandidateRegistration : Bool) :
    Except Fault (Option OwnerLifecycleChanges × NativeDom) := do
  if !dom.canHaveChildren parent then
    return (none, dom)
  if ← dom.isHostIncludingInclusiveAncestor child parent then
    return (none, dom)
  match dom.node parent, dom.node child with
  | some parentNode, some childNode =>
    if !canInsertChildType parentNode.nodeType childNode.nodeType then
      return (none, dom)
    match dom.preInsertReference parent child referenceChild with
    | none => return (none, dom)
    | some referenceChild =>
      if childNode.isDocumentFragment then
        let fragmentChildren ← dom.childIds child
        let allChildrenAreInsertable ←
          fragmentChildren.allM (dom.fragmentChildIsInsertable parent parentNode.nodeType)
        if !allChildrenAreInsertable then
          return (none, dom)
        let (changes, dom) ← dom.commitFragmentChildren parent referenceChild fragmentChildren
        if !commitCandidateRegistration then
          return (some changes, dom)
        match ← dom.stylesheetCandidateTreeScopeForNode parent with
        | none => return (some changes, dom)
        | some treeScope =>
          let dom ← dom.registerStylesheetCandidates treeScope
            changes.stylesheetCandidates.registered
          return (some changes, dom)
      else
        let (changes, dom) ← dom.commitValidatedNonFragmentInsertion parent child referenceChild
          commitCandidateRegistration
        return (some changes, dom)
  | _, _ => return (none, dom)

/-! ## The operations of the arena -/

def insertBefore (parent child : NativeNodeId) (referenceChild : Option NativeNodeId) :
    Except Fault (Bool × NativeDom) := do
  let (changes, dom) ← dom.insertBeforeWithStylesheetCandidateChangesAndRegistration parent child
    referenceChild true
  return (changes.isSome, dom)

def appendChild (parent child : NativeNodeId) : Except Fault (Bool × NativeDom) :=
  dom.insertBefore parent child none

def detachFromParent (child : NativeNodeId) : Except Fault NativeDom := do
  let (_, dom) ← dom.detachFromParentWithOwnerLifecycleChanges child
  return dom

def removeChild (parent child : NativeNodeId) : Except Fault (Bool × NativeDom) :=
  if dom.parentNode child ≠ some parent then .ok (false, dom)
  else do
    let dom ← dom.detachFromParent child
    return (true, dom)

/-- `DomHost::adopt_node` (`host/clone.rs`) in a tree without shadow roots. -/
def adoptNode (documentHandle handle : NativeNodeId) : Except Fault (Bool × NativeDom) :=
  if !dom.isDocument documentHandle then .ok (false, dom)
  else if !(dom.node handle).any (!·.isDocument) then .ok (false, dom)
  else do
    let (_, dom) ← dom.markSubtreeTreeScopeCollectingStylesheetOwners handle (some documentHandle)
      false false
    return (true, dom)

end NativeDom

end Moli.Dom

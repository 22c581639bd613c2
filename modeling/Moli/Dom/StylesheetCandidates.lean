import Moli.Lib.PartitionPoint
import Moli.Dom.NativeDom

/-!
# Stylesheet candidate registries

`moli-dom/src/native/host/stylesheet_candidates.rs`: for every tree scope the registry keeps the
elements that can own a stylesheet, in tree order. Registration splices a batch at the position
found by bisection over document order; removal cuts out a batch that has to be contiguous.
-/

namespace Moli.Dom

structure StylesheetCandidateTransition where
  owner : NativeNodeId
  treeScope : NativeNodeId

structure StylesheetCandidateChanges where
  registered : List StylesheetCandidateTransition := []
  unregistered : List StylesheetCandidateTransition := []

namespace StylesheetCandidateChanges

def merge (changes other : StylesheetCandidateChanges) : StylesheetCandidateChanges where
  registered := changes.registered ++ other.registered
  unregistered := changes.unregistered ++ other.unregistered

def recordRegistered (changes : StylesheetCandidateChanges) (owner treeScope : NativeNodeId) :
    StylesheetCandidateChanges :=
  { changes with registered := changes.registered ++ [{ owner, treeScope }] }

def recordUnregistered (changes : StylesheetCandidateChanges) (owner treeScope : NativeNodeId) :
    StylesheetCandidateChanges :=
  { changes with unregistered := changes.unregistered ++ [{ owner, treeScope }] }

end StylesheetCandidateChanges

namespace NativeDom

variable (dom : NativeDom)

def isStylesheetCandidate (handle : NativeNodeId) : Bool :=
  (dom.element handle).any fun element =>
    element.isHtmlElement "link" || element.isInlineStyleElement

def handlePrecedes (left right : NativeNodeId) : Except Fault Bool :=
  match dom.node left with
  | none => .ok false
  | some _ => do
    let position ← dom.compareDocumentPosition left right
    return position &&& documentPositionFollowing != 0

/-- A document is a tree scope by itself, a shadow root because it has a registry. -/
def isStylesheetCandidateTreeScope (handle : NativeNodeId) : Bool :=
  dom.isDocument handle || dom.candidatesByTreeScope.contains handle

def stylesheetCandidateTreeScopeForNode (handle : NativeNodeId) :
    Except Fault (Option NativeNodeId) := do
  let root ← dom.rootNodeId handle
  return if dom.isStylesheetCandidateTreeScope root then some root else none

def stylesheetCandidateHandlesForTreeScope (treeScope : NativeNodeId) : List NativeNodeId :=
  if dom.isStylesheetCandidateTreeScope treeScope then
    (dom.candidatesByTreeScope[treeScope]?).getD []
  else
    []

/-- Where a batch that begins with `firstOwner` belongs in the registry. -/
def candidateInsertionIndex (treeScope firstOwner : NativeNodeId) : Except Fault Nat :=
  match dom.candidatesByTreeScope[treeScope]? with
  | some existingCandidates =>
    Lib.partitionPoint (fun existing => dom.handlePrecedes existing firstOwner) existingCandidates
  | none => .ok 0

def registerStylesheetCandidates (treeScope : NativeNodeId)
    (newCandidates : List StylesheetCandidateTransition) : Except Fault NativeDom :=
  match newCandidates with
  | [] => .ok dom
  | firstCandidate :: _ => do
    let insertionIndex ← dom.candidateInsertionIndex treeScope firstCandidate.owner
    let candidates := (dom.candidatesByTreeScope[treeScope]?).getD []
    let spliced := candidates.take insertionIndex ++
      newCandidates.map StylesheetCandidateTransition.owner ++ candidates.drop insertionIndex
    return { dom with
      candidatesByTreeScope := dom.candidatesByTreeScope.insert treeScope spliced }

def unregisterStylesheetCandidates (treeScope : NativeNodeId)
    (removedCandidates : List StylesheetCandidateTransition) : Except Fault NativeDom :=
  match removedCandidates with
  | [] => .ok dom
  | firstCandidate :: _ =>
    match dom.candidatesByTreeScope[treeScope]? with
    | none => .ok dom
    | some candidates =>
      let owners := removedCandidates.map StylesheetCandidateTransition.owner
      let firstOwner := firstCandidate.owner
      let lastOwner := owners.getLast?.getD firstOwner
      let batchLen := removedCandidates.length
      match candidates.findIdx? (· == firstOwner) with
      | none =>
        .error (.candidateBatchMissing treeScope firstOwner lastOwner batchLen candidates.length)
      | some start =>
        let stop := start + batchLen
        -- a range that leaves the registry is shorter than the batch
        if (candidates.drop start).take batchLen = owners then
          .ok { dom with
            candidatesByTreeScope := dom.candidatesByTreeScope.insert treeScope
              (candidates.take start ++ candidates.drop stop) }
        else
          .error (.candidateBatchNotContiguous treeScope firstOwner lastOwner batchLen start stop
            candidates.length)

end NativeDom

end Moli.Dom

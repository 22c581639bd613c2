import Moli.Dom.OwnerLifecycle

/-!
# Runs of the arena

The operations a caller can perform on a `NativeDom`, and the states that runs of them reach from a
new document. A run stops at a fault, so the states of a run are those before it.
-/

namespace Moli.Dom

inductive Op
  | createNode (data : NodeData) (ownerDocument : Option NativeNodeId)
      (connected inDocumentTree : Bool)
  /-- `create_element` and its variants, which also make the contents of a template. -/
  | createElement (documentHandle : NativeNodeId) (element : Element)
  | createTemplateContentsFragment (documentHandle : NativeNodeId) (host : Option NativeNodeId)
  | setDocumentFragmentHost (fragment host : NativeNodeId)
  | registerStylesheetCandidateTreeScope (treeScope : NativeNodeId)
  | insertBefore (parent child : NativeNodeId) (referenceChild : Option NativeNodeId)
  | appendChild (parent child : NativeNodeId)
  | removeChild (parent child : NativeNodeId)
  | detachFromParent (child : NativeNodeId)
  | adoptNode (documentHandle handle : NativeNodeId)

namespace Op

def run (dom : NativeDom) : Op → Except Fault NativeDom
  | createNode data ownerDocument connected inDocumentTree => do
    let (_, dom) ← dom.createNode data ownerDocument connected inDocumentTree
    return dom
  | createElement documentHandle element => do
    let (_, dom) ← dom.allocateElementForDocument documentHandle element
    return dom
  | createTemplateContentsFragment documentHandle host => do
    let (_, dom) ← dom.createTemplateContentsFragmentForDocument documentHandle host
    return dom
  | setDocumentFragmentHost fragment host => return (dom.setDocumentFragmentHost fragment host).2
  | registerStylesheetCandidateTreeScope treeScope =>
    dom.registerStylesheetCandidateTreeScope treeScope
  | insertBefore parent child referenceChild => do
    let (_, dom) ← dom.insertBefore parent child referenceChild
    return dom
  | appendChild parent child => do
    let (_, dom) ← dom.appendChild parent child
    return dom
  | removeChild parent child => do
    let (_, dom) ← dom.removeChild parent child
    return dom
  | detachFromParent child => dom.detachFromParent child
  | adoptNode documentHandle handle => do
    let (_, dom) ← dom.adoptNode documentHandle handle
    return dom

/-- Nothing hangs below the fragment: it has no children and hosts nothing. -/
def isFresh (dom : NativeDom) (fragment : NativeNodeId) : Bool :=
  (dom.firstChild fragment).isNone && dom.nodes.all fun node => node.host ≠ some fragment

/-- Hosts exist and are given to fresh fragments only. -/
def hostsFresh (dom : NativeDom) : Op → Bool
  | createNode (.documentFragment fragment) _ _ _ => fragment.host.all (· < dom.nodes.length)
  | createTemplateContentsFragment _ host => host.all (· < dom.nodes.length)
  | setDocumentFragmentHost fragment host =>
    decide (host < dom.nodes.length) && decide (host ≠ fragment) && isFresh dom fragment
  | _ => true

/-- Nodes come from the creators of `native/mod.rs`, which name an existing document and make
disconnected nodes; an adopted node has no parent (callers remove it first) and is not the contents
of a template. -/
def orderly (dom : NativeDom) (op : Op) : Bool :=
  hostsFresh dom op && match op with
  | createNode (.document document) _ _ _ =>
    !document.isInertTemplateDocument && document.associatedInertTemplateDocument.isNone
  | createNode (.element element) ownerDocument connected _ =>
    element.templateContents.isNone && !connected && ownerDocument.any dom.isDocument
  | createNode _ ownerDocument connected _ => !connected && ownerDocument.any dom.isDocument
  | createElement documentHandle element =>
    dom.isDocument documentHandle && element.templateContents.isNone
  | createTemplateContentsFragment documentHandle _ => dom.isDocument documentHandle
  | setDocumentFragmentHost fragment _ => (dom.host fragment).isNone
  | adoptNode _ handle => (dom.parentNode handle).isNone &&
    (List.range dom.nodes.length).all fun template =>
      dom.templateContentsFragment template ≠ some handle
  | _ => true

end Op

/-- The states that runs with admitted operations reach. -/
inductive Reachable (admits : NativeDom → Op → Bool) : NativeDom → Prop
  | newHtml : Reachable admits .newHtml
  | newXml : Reachable admits .newXml
  | step {dom dom' : NativeDom} (op : Op) (h : Reachable admits dom)
    (hadmits : admits dom op = true) (hrun : op.run dom = .ok dom') : Reachable admits dom'

/-- The state after a run, if every operation is admitted and none fails. -/
def runAll (admits : NativeDom → Op → Bool) (dom : NativeDom) : List Op → Option NativeDom
  | [] => some dom
  | op :: ops =>
    if admits dom op then
      match op.run dom with
      | .ok dom' => runAll admits dom' ops
      | .error _ => none
    else
      none

theorem Reachable.of_runAll {admits : NativeDom → Op → Bool} {dom dom' : NativeDom}
    (h : Reachable admits dom) (ops : List Op) (hrun : runAll admits dom ops = some dom') :
    Reachable admits dom' := by
  induction ops generalizing dom with
  | nil =>
    obtain rfl := Option.some.inj hrun
    exact h
  | cons op ops ih =>
    simp only [runAll] at hrun
    split at hrun
    next hadmits =>
      split at hrun
      next dom₁ hop => exact ih (.step op h hadmits hop) hrun
      · cases hrun
    · cases hrun

end Moli.Dom

import Moli.Dom.OwnerLifecycle

/-!
# Traversal of the light tree and orders of handles

The traversal of `moli-dom/src/native/queries.rs` that lists the nodes of the light tree below a
root, and the two orders of `moli-dom/src/native/host/document.rs`. What they read of a `DomHost` is
its arena and the hosts of its shadow roots.
-/

namespace Moli.Dom

namespace NativeDom

variable (dom : NativeDom)

/-- The next sibling of the closest ancestor below `root` that has one. -/
def climbToSibling (root : NativeNodeId) : Nat → NativeNodeId → Except Fault (Option NativeNodeId)
  | 0, _ => .error .diverges
  | fuel + 1, current =>
    if current = root then .ok none
    else
      match dom.nextSibling current with
      | some sibling => .ok (some sibling)
      | none =>
        match dom.parentNode current with
        | some parent => climbToSibling root fuel parent
        | none => .ok none

def lightSubtreeSuccessor (root handle : NativeNodeId) : Except Fault (Option NativeNodeId) :=
  match dom.firstChild handle with
  | some child => .ok (some child)
  | none => dom.climbToSibling root dom.fuel handle

def lightSubtreeStart (root : NativeNodeId) (includeRoot : Bool) : Option NativeNodeId :=
  (dom.node root).bind fun node => if includeRoot then some root else node.firstChild

def lightSubtreeLoop (root : NativeNodeId) :
    Nat → Option NativeNodeId → Except Fault (List NativeNodeId)
  | _, none => .ok []
  | 0, some _ => .error .diverges
  | fuel + 1, some handle => do
    let next ← dom.lightSubtreeSuccessor root handle
    let rest ← lightSubtreeLoop root fuel next
    return handle :: rest

def lightSubtreeHandles (root : NativeNodeId) (includeRoot : Bool) :
    Except Fault (List NativeNodeId) :=
  dom.lightSubtreeLoop root dom.fuel (dom.lightSubtreeStart root includeRoot)

end NativeDom

structure DomHost where
  dom : NativeDom
  shadowHostsByRoot : Std.TreeMap NativeNodeId NativeNodeId := ∅

namespace DomHost

def fromDom (dom : NativeDom) : DomHost := { dom }

variable (host : DomHost)

def isShadowRoot (handle : NativeNodeId) : Bool := host.shadowHostsByRoot.contains handle

def compareHandlesInDocumentOrder (left right : NativeNodeId) : Except Fault Ordering :=
  match host.dom.node left with
  | none => .ok .gt
  | some _ => do
    let position ← host.dom.compareDocumentPosition left right
    if position &&& NativeDom.documentPositionFollowing != 0 then
      return .lt
    else if position &&& NativeDom.documentPositionPreceding != 0 then
      return .gt
    else
      return compare left right

def shadowRootHost (root : NativeNodeId) : Option NativeNodeId := host.shadowHostsByRoot[root]?

def shadowIncludingParent (handle : NativeNodeId) : Option NativeNodeId :=
  host.dom.parentNode handle <|> host.shadowRootHost handle

/-- The nodes from the shadow-including root down to the handle. -/
def shadowIncludingPath (handle : NativeNodeId) : Except Fault (List NativeNodeId) := do
  let path ← host.dom.collect host.shadowIncludingParent (some handle)
  return path.reverse

def compareHandlesInShadowIncludingTreeOrder (left right : NativeNodeId) :
    Except Fault Ordering := do
  let leftPath ← host.shadowIncludingPath left
  let rightPath ← host.shadowIncludingPath right
  let common := ((leftPath.zip rightPath).takeWhile fun pair => pair.1 == pair.2).length
  if common = 0 then
    return compare left right
  match leftPath[common]?, rightPath[common]? with
  | some left, some right =>
    if host.isShadowRoot left then return .lt
    else if host.isShadowRoot right then return .gt
    else host.compareHandlesInDocumentOrder left right
  | _, _ => return compare leftPath.length rightPath.length

end DomHost

end Moli.Dom

import Mathlib.Data.Option.Basic

/-!
# Nodes of the native DOM

The records of `moli-dom/src/native/node` and the parts of `document.rs` and `element/mod.rs` that
the tree operations read: what a node is, its five tree links, its owner document and its
connectedness flags. A node's id is its index in the arena.
-/

namespace Moli.Dom

/-- The zero-based index of a node; storage refuses indexes that do not fit the encoded `u32`. -/
abbrev NativeNodeId := Nat

inductive NodeType
  | element
  | text
  | cdataSection
  | processingInstruction
  | comment
  | document
  | documentType
  | documentFragment
deriving DecidableEq

inductive DocumentKind
  | html
  | xml
deriving DecidableEq

structure Document where
  kind : DocumentKind
  isInertTemplateDocument : Bool := false
  associatedInertTemplateDocument : Option NativeNodeId := none

def Document.newHtml : Document := { kind := .html }

def Document.newXml : Document := { kind := .xml }

def Document.newInertTemplate (kind : DocumentKind) : Document :=
  { kind, isInertTemplateDocument := true }

structure DocumentFragment where
  host : Option NativeNodeId := none

structure Element where
  localName : String
  namespaceUri : String
  nsPrefix : Option String := none
  templateContents : Option NativeNodeId := none

def htmlNamespace : String := "http://www.w3.org/1999/xhtml"

def svgNamespace : String := "http://www.w3.org/2000/svg"

def toAsciiLowercase (name : String) : String := String.ofList (name.toList.map Char.toLower)

namespace Element

def newHtml (localName : String) : Element :=
  { localName := toAsciiLowercase localName, namespaceUri := htmlNamespace }

def isHtmlElement (element : Element) (localName : String) : Bool :=
  element.namespaceUri == htmlNamespace && element.localName == localName

def isInlineStyleElement (element : Element) : Bool :=
  element.localName == "style" &&
    (element.namespaceUri == htmlNamespace || element.namespaceUri == svgNamespace)

end Element

inductive NodeData
  | document (doc : Document)
  | documentType
  | element (elem : Element)
  | text
  | cdataSection
  | comment
  | processingInstruction
  | documentFragment (fragment : DocumentFragment)

namespace NodeData

def nodeType : NodeData → NodeType
  | document _ => .document
  | documentType => .documentType
  | element _ => .element
  | text => .text
  | cdataSection => .cdataSection
  | comment => .comment
  | processingInstruction => .processingInstruction
  | documentFragment _ => .documentFragment

def asDocument : NodeData → Option Document
  | document doc => some doc
  | _ => none

def asElement : NodeData → Option Element
  | element elem => some elem
  | _ => none

def asDocumentFragment : NodeData → Option DocumentFragment
  | documentFragment fragment => some fragment
  | _ => none

/-- An assignment through `as_document_mut`: other nodes are left alone. -/
def modifyDocument (f : Document → Document) : NodeData → NodeData
  | document doc => .document (f doc)
  | data => data

def modifyElement (f : Element → Element) : NodeData → NodeData
  | element elem => .element (f elem)
  | data => data

def modifyDocumentFragment (f : DocumentFragment → DocumentFragment) : NodeData → NodeData
  | documentFragment fragment => .documentFragment (f fragment)
  | data => data

end NodeData

structure NodeFlags where
  inDocumentTree : Bool
  connected : Bool

def NodeFlags.new (inDocumentTree : Bool) : NodeFlags :=
  { inDocumentTree, connected := inDocumentTree }

structure Node where
  parentNode : Option NativeNodeId
  firstChild : Option NativeNodeId
  lastChild : Option NativeNodeId
  prevSibling : Option NativeNodeId
  nextSibling : Option NativeNodeId
  ownerDocument : Option NativeNodeId
  flags : NodeFlags
  data : NodeData

namespace Node

def new (parentNode ownerDocument : Option NativeNodeId) (flags : NodeFlags) (data : NodeData) :
    Node :=
  { parentNode, ownerDocument, flags, data
    firstChild := none, lastChild := none, prevSibling := none, nextSibling := none }

def nodeType (node : Node) : NodeType := node.data.nodeType

def asDocument (node : Node) : Option Document := node.data.asDocument

def asElement (node : Node) : Option Element := node.data.asElement

def isDocument (node : Node) : Bool := node.asDocument.isSome

def isDocumentFragment (node : Node) : Bool := node.data.asDocumentFragment.isSome

/-- The host of a document fragment. -/
def host (node : Node) : Option NativeNodeId :=
  node.data.asDocumentFragment.bind DocumentFragment.host

def canHaveChildren (node : Node) : Bool :=
  match node.data with
  | .document _ | .documentFragment _ | .element _ => true
  | _ => false

def setFirstChild (firstChild : Option NativeNodeId) (node : Node) : Node :=
  { node with firstChild }

def setLastChild (lastChild : Option NativeNodeId) (node : Node) : Node :=
  { node with lastChild }

def setPrevSibling (prevSibling : Option NativeNodeId) (node : Node) : Node :=
  { node with prevSibling }

def setNextSibling (nextSibling : Option NativeNodeId) (node : Node) : Node :=
  { node with nextSibling }

def adoptInto (parentNode : NativeNodeId) (prevSibling nextSibling : Option NativeNodeId)
    (node : Node) : Node :=
  { node with parentNode := some parentNode, prevSibling, nextSibling }

def clearTreeLinks (node : Node) : Node :=
  { node with parentNode := none, prevSibling := none, nextSibling := none }

def setTreeScope (ownerDocument : Option NativeNodeId) (connected inDocumentTree : Bool)
    (node : Node) : Node :=
  { node with ownerDocument, flags := { connected, inDocumentTree } }

def modifyData (f : NodeData → NodeData) (node : Node) : Node :=
  { node with data := f node.data }

end Node

end Moli.Dom

import Moli.Dom.Verify.Mutation

/-!
# Creating nodes

A new node is a tree of its own, so that it disturbs neither the links nor the registries
(`Sound.push`); what it may disturb is the acyclicity of the host relation, which is why a host has
to exist when it is given to a fragment, and the owner documents (`Owned.push`). The slot of a
template names the fragment it hosts (`Slotted`).
-/

namespace Moli.Dom.NativeDom

open Lib

variable {dom dom' : NativeDom} {kids : Kids}
variable {f x : NativeNodeId} {n : Node}

/-- The links and the registries are in order. -/
structure Sound (dom : NativeDom) (kids : Kids) : Prop where
  linked : WellLinked dom kids
  registered : Registered dom kids []

/-- What no write to a single node and no new node changes for the nodes there are. -/
structure Grown (dom dom' : NativeDom) : Prop where
  length_le : dom.nodes.length ≤ dom'.nodes.length
  links : dom'.links = dom.links
  candidates : dom'.candidatesByTreeScope = dom.candidatesByTreeScope
  nodeType : ∀ x, x < dom.nodes.length → dom'.nodeType x = dom.nodeType x
  candidate : ∀ x, x < dom.nodes.length →
    dom'.isStylesheetCandidate x = dom.isStylesheetCandidate x

/-! ## Links and registries -/

theorem WellLinked.above_lt (h : WellLinked dom kids) {y : NativeNodeId}
    (hxy : Above dom.up x y) (hy : y < dom.nodes.length) : x < dom.nodes.length := by
  rcases hxy.child_or_eq with rfl | ⟨c, hc, -⟩
  · exact hy
  · exact h.up_lt c x hc

/-- Only `f` gets a new host, which is not below it. -/
theorem WellLinked.of_host (h : WellLinked dom kids) (hgrown : Grown dom dom')
    (hf : dom.parentNode f = none) (hhost : ∀ x, x ≠ f → dom'.host x = dom.host x)
    (hnew : ∀ host, dom'.host f = some host →
      host < dom'.nodes.length ∧ ¬ Above dom.up f host) : WellLinked dom' kids := by
  have hparent : dom'.parentNode = dom.parentNode := (links_congr hgrown.links).1
  refine ⟨hgrown.links ▸ h.represents, ?_, fun c p hp => ?_, fun x host hx => ?_, fun c p hp => ?_⟩
  · have hup : ∀ x, x ≠ f → dom'.up x = dom.up x := fun x hx => by
      rw [up, up, hparent, hhost x hx]
    have hupf : dom'.up f = dom'.host f := by simp [up, hparent, hf]
    cases hfh : dom'.host f with
    | none =>
      have hstop : Follows dom.up (dom'.up f) [] := hupf.trans hfh
      exact h.grounded.reroute hup hstop (by simp)
    | some host =>
      obtain ⟨l, hl⟩ := h.grounded host
      refine h.grounded.reroute hup ?_ fun hmem => (hnew host hfh).2 ⟨l, hl, hmem⟩
      rw [hupf, hfh]
      exact hl
  · rw [hparent] at hp
    exact (h.parent_lt c p hp).trans_le hgrown.length_le
  · rcases eq_or_ne x f with rfl | hne
    · exact (hnew host hx).1
    · rw [hhost x hne] at hx
      exact (h.host_lt x host hx).trans_le hgrown.length_le
  · rw [hparent] at hp
    rw [hgrown.nodeType c (lt_length_of_parentNode hp)]
    exact h.child_type c p hp

theorem Grown.isDocument (h : Grown dom dom') (hx : x < dom.nodes.length) :
    dom'.isDocument x = dom.isDocument x := by
  rw [isDocument_eq, isDocument_eq, h.nodeType x hx]

theorem not_isStylesheetCandidate_of_isDocument (h : dom.isDocument x = true) :
    dom.isStylesheetCandidate x = false := by
  obtain ⟨n, data, hn, hdata⟩ := exists_document h
  simp [isStylesheetCandidate, element, hn, Node.asElement, hdata, NodeData.asElement]

theorem Registered.of_grown (h : WellLinked dom kids) (hreg : Registered dom kids [])
    (hgrown : Grown dom dom') : Registered dom' kids [] := by
  have hkey : ∀ r ∈ dom'.candidatesByTreeScope, r < dom.nodes.length ∧
      r ∈ dom.candidatesByTreeScope := by
    intro r hr
    rw [hgrown.candidates] at hr
    rcases hreg.key r hr with hdoc | hfrag
    · exact ⟨lt_length_of_isDocument hdoc, hr⟩
    · rw [isDocumentFragment_eq, fragment_isSome] at hfrag
      exact ⟨lt_length_of_nodeType hfrag, hr⟩
  refine ⟨fun r l hr hpre => ?_, fun r hr => ?_⟩
  · rcases Nat.lt_or_ge r dom.nodes.length with hlt | hge
    · have hold : dom.isStylesheetCandidateTreeScope r = true := by
        rw [isStylesheetCandidateTreeScope_iff] at hr ⊢
        rwa [hgrown.isDocument hlt, hgrown.candidates] at hr
      rw [hgrown.candidates, hreg.registry r l hold hpre]
      refine List.filter_congr fun x hx => ?_
      rw [hgrown.candidate x]
      rcases hpre.mem_stack_or_kids hx with hx | ⟨p, hx⟩
      · rwa [List.mem_singleton.1 hx]
      · exact h.kids_lt hx
    · -- a new tree scope is an empty document
      have hnone : dom'.candidatesByTreeScope[r]? = none := Std.TreeMap.getElem?_eq_none fun hmem =>
        absurd (hkey r hmem).1 (Nat.not_lt.2 hge)
      rcases isStylesheetCandidateTreeScope_iff.1 hr with hdoc | hmem
      · cases hpre with
        | cons hpre =>
          rw [h.kids_eq_nil hge] at hpre
          cases hpre
          simp [hnone, candidatesIn, not_isStylesheetCandidate_of_isDocument hdoc]
      · exact absurd (hkey r hmem).1 (Nat.not_lt.2 hge)
  · obtain ⟨hlt, hmem⟩ := hkey r hr
    rw [hgrown.isDocument hlt, isDocumentFragment_iff, hgrown.nodeType r hlt,
      ← isDocumentFragment_iff]
    exact hreg.key r hmem

/-! ## One more node -/

theorem node_push_of_lt (hx : x < dom.nodes.length) : (dom.push n).node x = dom.node x := by
  rw [node_push, if_neg (Nat.ne_of_lt hx)]

variable {ownerDocument : Option NativeNodeId} {data : NodeData} {contents template : NativeNodeId}

theorem Grown.push {flags : NodeFlags} :
    Grown dom (dom.push (Node.new none ownerDocument flags data)) where
  length_le := by simp
  links := links_push
  candidates := rfl
  nodeType x hx := by rw [NativeDom.nodeType, NativeDom.nodeType, node_push_of_lt hx]
  candidate x hx := by simp only [isStylesheetCandidate, element, node_push_of_lt hx]

theorem parentNode_length : dom.parentNode dom.nodes.length = none := by
  rw [parentNode, node_length, Option.bind_none]

theorem Sound.push (h : Sound dom kids) {flags : NodeFlags}
    (hhost : ∀ host, data.asDocumentFragment.bind DocumentFragment.host = some host →
      host < dom.nodes.length) :
    Sound (dom.push (Node.new none ownerDocument flags data)) kids := by
  refine ⟨h.linked.of_host .push parentNode_length (fun x hx => ?_) fun host hnew => ?_,
    h.registered.of_grown h.linked .push⟩
  · rw [host, host, node_push, if_neg hx]
  · rw [NativeDom.host, node_push, if_pos rfl] at hnew
    have hlt := hhost host hnew
    refine ⟨by simpa using hlt.trans (Nat.lt_succ_self _), fun habove => ?_⟩
    exact absurd (h.linked.above_lt habove hlt) (Nat.lt_irrefl _)

/-! ## Owners -/

/-- The slot of a template names a fragment that it hosts. -/
def Slotted (dom : NativeDom) : Prop :=
  ∀ template element contents, dom.element template = some element →
    element.templateContents = some contents → dom.host contents = some template

/-- Owner documents and template slots are in order. -/
structure OwnedSlots (dom : NativeDom) : Prop where
  owned : Owned dom
  slotted : Slotted dom

theorem lt_length_of_host {host : NativeNodeId} (h : dom.host x = some host) :
    x < dom.nodes.length := by
  obtain ⟨n, hn, -⟩ := Option.bind_eq_some_iff.1 h
  exact lt_length_of_node hn

theorem exists_slot (h : dom.templateContentsFragment template = some contents) :
    ∃ element, dom.element template = some element ∧
      element.templateContents = some contents := by
  rw [templateContentsFragment_eq] at h
  obtain ⟨element, helement, h⟩ := Option.bind_eq_some_iff.1 h
  obtain ⟨c, hc, h⟩ := Option.bind_eq_some_iff.1 h
  obtain ⟨data, -, h⟩ := Option.bind_eq_some_iff.1 h
  split at h
  · obtain rfl := Option.some.inj h
    exact ⟨element, helement, hc⟩
  · cases h

theorem OwnedSlots.of_keeps (h : OwnedSlots dom) (hkeeps : Keeps dom dom') (howned : Owned dom') :
    OwnedSlots dom' := by
  refine ⟨howned, fun template element contents helement hslot => ?_⟩
  rw [hkeeps.element] at helement
  rw [hkeeps.host]
  exact h.slotted template element contents helement hslot

theorem templateContentsFragment_of_slot {element : Element}
    (helement : dom.element template = some element)
    (hslot : element.templateContents = some contents) (hhost : dom.host contents = some template) :
    dom.templateContentsFragment template = some contents := by
  rw [host_eq] at hhost
  obtain ⟨data, hdata, hhost⟩ := Option.bind_eq_some_iff.1 hhost
  simp [templateContentsFragment_eq, helement, hslot, hdata, hhost]

/-- Only nodes that are new or became the contents of a template have to be looked at. -/
theorem Owned.of_grown (h : Owned dom) (hlinked : WellLinked dom kids) (hgrown : Grown dom dom')
    (hsound : InertSound dom')
    (hinert : ∀ document inert, dom.inertOwner document = some inert →
      dom'.inertOwner document = some inert)
    (hvalues : ∀ x, x < dom.nodes.length → dom'.ownerDocument x = dom.ownerDocument x ∧
      dom'.connected x = dom.connected x)
    (hfits : ∀ x, x < dom'.nodes.length → (x < dom.nodes.length ∧
        ∀ template, dom'.templateContentsFragment template = some x →
          dom.templateContentsFragment template = some x) ∨
      Fits dom' x (dom'.ownerDocument x) (dom'.connected x)) : Owned dom' := by
  refine ⟨hsound, fun x hx _ => ?_⟩
  rcases hfits x hx with ⟨hlt, hcontents⟩ | hfits
  · rw [(hvalues x hlt).1, (hvalues x hlt).2]
    refine (h.fits hlt).of_agree hlt (congrFun (links_congr hgrown.links).1 x) (fun p hp => ?_)
      (fun template ht => ?_) hinert (fun _ => hgrown.isDocument) hcontents
    · have hplt := hlinked.parent_lt x p hp
      rw [ownerForChildren, hgrown.isDocument hplt, (hvalues p hplt).1, (hvalues p hplt).2]
      exact ⟨rfl, rfl⟩
    · obtain ⟨element, helement, -⟩ := exists_slot ht
      obtain ⟨n, hn, -⟩ := Option.bind_eq_some_iff.1 helement
      exact (hvalues template (lt_length_of_node hn)).1
  · exact hfits

theorem Keeps.grown (hkeeps : Keeps dom dom') (hlinks : dom'.links = dom.links)
    (hcandidates : dom'.candidatesByTreeScope = dom.candidatesByTreeScope) : Grown dom dom' :=
  ⟨hkeeps.length_le, hlinks, hcandidates, hkeeps.nodeType, fun x _ => by
    rw [hkeeps.isStylesheetCandidate]⟩

theorem parentNode_of_ge (h : dom.nodes.length ≤ x) : dom.parentNode x = none := by
  rw [parentNode, node, List.getElem?_eq_none h, Option.bind_none]

theorem OwnedSlots.inertAdded (h : OwnedSlots dom) (hlinked : WellLinked dom kids)
    (hadded : InertAdded dom dom') (hsound : InertSound dom → InertSound dom') :
    OwnedSlots dom' := by
  refine h.of_keeps hadded.keeps (h.owned.of_grown hlinked
    (hadded.keeps.grown hadded.links hadded.candidates)
    (hsound h.owned.inertSound) hadded.inertOwner
    (fun x _ => by rw [hadded.ownerDocument, hadded.connected]; exact ⟨rfl, rfl⟩) fun x hx => ?_)
  rcases Nat.lt_or_ge x dom.nodes.length with hlt | hge
  · exact .inl ⟨hlt, fun template ht => by rwa [hadded.keeps.templateContentsFragment] at ht⟩
  · refine .inr (.of_added hadded.keeps hge hx ?_)
    rw [(links_congr hadded.links).1]
    exact parentNode_of_ge hge

/-- What the creators of `native/mod.rs` give to `create_node`. -/
structure WellCreated (dom : NativeDom) (data : NodeData) (ownerDocument : Option NativeNodeId)
    (connected : Bool) : Prop where
  document : ∀ document, data = .document document → document.isInertTemplateDocument = false ∧
    document.associatedInertTemplateDocument = none
  other : data.nodeType ≠ .document → connected = false ∧
    ∃ document, ownerDocument = some document ∧ dom.isDocument document = true
  element : ∀ element, data = .element element → element.templateContents = none

theorem OwnedSlots.push (h : OwnedSlots dom) (hlinked : WellLinked dom kids)
    {connected inDocumentTree : Bool} (hcreated : WellCreated dom data ownerDocument connected) :
    OwnedSlots (dom.push (Node.new none ownerDocument ⟨inDocumentTree, connected⟩ data)) := by
  set dom' := dom.push (Node.new none ownerDocument ⟨inDocumentTree, connected⟩ data)
  have hgrown : Grown dom dom' := .push
  have hold : ∀ x, x < dom.nodes.length → dom'.node x = dom.node x := fun x hx =>
    node_push_of_lt hx
  have hnew : dom'.node dom.nodes.length =
      some (Node.new none ownerDocument ⟨inDocumentTree, connected⟩ data) := by
    rw [node_push, if_pos rfl]
  -- the new node has no slot, so every slot is an old one
  have hslot : ∀ template element contents, dom'.element template = some element →
      element.templateContents = some contents →
      dom.element template = some element ∧ dom.host contents = some template := by
    intro template element contents helement hcontents
    have hne : template ≠ dom.nodes.length := by
      rintro rfl
      rw [NativeDom.element, hnew] at helement
      have hdata : data = .element element := by
        cases data <;> simp_all [Node.new, Node.asElement, NodeData.asElement]
      rw [hcreated.element element hdata] at hcontents
      cases hcontents
    rw [NativeDom.element, node_push, if_neg hne] at helement
    exact ⟨helement, h.slotted template element contents helement hcontents⟩
  have hinertNew : dom'.inertOwner dom.nodes.length = none := by
    rw [inertOwner, hnew]
    cases data with
    | document document =>
      obtain ⟨hinert, hassociated⟩ := hcreated.document document rfl
      simp [Node.new, Node.asDocument, NodeData.asDocument, hinert, hassociated]
    | _ => rfl
  have hinertOld : ∀ d, d ≠ dom.nodes.length → dom'.inertOwner d = dom.inertOwner d := fun d hd =>
    inertOwner_push hd
  refine ⟨h.owned.of_grown hlinked hgrown (fun d o ho => ?_) (fun d o ho => ?_)
    (fun x hx => ?_) fun x hx => ?_, fun template element contents helement hcontents => ?_⟩
  · have hd : d ≠ dom.nodes.length := by
      rintro rfl
      rw [hinertNew] at ho
      cases ho
    rw [hinertOld d hd] at ho
    have ho' := h.owned.inertSound d o ho
    rwa [hinertOld o (Nat.ne_of_lt (lt_length_of_isDocument (isDocument_of_inertOwner ho')))]
  · rwa [hinertOld d (Nat.ne_of_lt (lt_length_of_isDocument (isDocument_of_inertOwner ho)))]
  · simp only [NativeDom.ownerDocument, NativeDom.connected, hold x hx, and_self]
  · rcases Nat.lt_or_ge x dom.nodes.length with hlt | hge
    · refine .inl ⟨hlt, fun template ht => ?_⟩
      obtain ⟨element, helement, hcontents⟩ := exists_slot ht
      obtain ⟨helement, hhost⟩ := hslot template element x helement hcontents
      exact templateContentsFragment_of_slot helement hcontents hhost
    · obtain rfl : x = dom.nodes.length := by
        have hlen : dom'.nodes.length = dom.nodes.length + 1 := length_push _
        omega
      have hparent : dom'.parentNode dom.nodes.length = none := by
        rw [(links_congr hgrown.links).1]
        exact parentNode_length
      have hdoc : dom'.isDocument dom.nodes.length = false → data.nodeType ≠ .document := by
        intro hfalse hdata
        simp [isDocument_eq, nodeType, hnew, Node.nodeType, Node.new, hdata] at hfalse
      refine .inr ⟨fun p hp => ?_, fun _ hfalse => ?_, fun template ht => ?_, fun hfalse => ?_⟩
      · rw [hparent] at hp
        cases hp
      · simpa [NativeDom.connected, hnew, Node.new] using (hcreated.other (hdoc hfalse)).1
      · obtain ⟨element, helement, hcontents⟩ := exists_slot ht
        have hhost := (hslot template element _ helement hcontents).2
        exact absurd (lt_length_of_host hhost) (Nat.lt_irrefl _)
      · obtain ⟨-, document, howner, hdocument⟩ := hcreated.other (hdoc hfalse)
        refine ⟨document, by simpa [NativeDom.ownerDocument, hnew, Node.new] using howner, ?_⟩
        rw [hgrown.isDocument (lt_length_of_isDocument hdocument), hdocument]
  · obtain ⟨helement, hhost⟩ := hslot template element contents helement hcontents
    rwa [NativeDom.host, hold contents (lt_length_of_host hhost)]

/-! ## Elements and the contents of templates -/

theorem Sound.of_keeps (h : Sound dom kids) (hkeeps : Keeps dom dom')
    (hlinks : dom'.links = dom.links)
    (hcandidates : dom'.candidatesByTreeScope = dom.candidatesByTreeScope) : Sound dom' kids :=
  ⟨h.linked.of_keeps hkeeps hlinks,
    h.registered.of_grown h.linked (hkeeps.grown hlinks hcandidates)⟩

/-- A new fragment for the contents of a template. -/
structure ContentsCreated (dom : NativeDom) (kids : Kids)
    (document : NativeNodeId) (host : Option NativeNodeId) (contents : NativeNodeId)
    (dom' : NativeDom) : Prop where
  sound : Sound dom' kids
  length_le : dom.nodes.length ≤ contents
  ownerDocument : ∀ x, x < dom.nodes.length → dom'.ownerDocument x = dom.ownerDocument x
  element : ∀ x, x < dom.nodes.length → dom'.element x = dom.element x
  fragment : dom'.fragment contents = some { host }
  owned : OwnedSlots dom → dom.isDocument document = true → OwnedSlots dom' ∧
    ∃ inert, dom'.inertOwner document = some inert ∧ dom'.ownerDocument contents = some inert

theorem createTemplateContentsFragment_spec (h : Sound dom kids) (document : NativeNodeId)
    {host : Option NativeNodeId} (hhost : ∀ x, host = some x → x < dom.nodes.length) :
    Ensures (· = .nodeLimit) (dom.createTemplateContentsFragmentForDocument document host)
      fun (contents, dom') => ContentsCreated dom kids document host contents dom' := by
  refine (dom.appropriateTemplateContentsOwnerDocument_spec document).bind ?_
  rintro ⟨inert, dom₁⟩ ⟨hadded, hinert, hsound⟩
  have h₁ := h.of_keeps hadded.keeps hadded.links hadded.candidates
  refine (createNode_spec ..).mono ?_
  rintro _ rfl
  have hlen := hadded.keeps.length_le
  have hnode : ∀ x, x < dom.nodes.length →
      (dom₁.push (Node.new none (some inert) ⟨false, false⟩ (.documentFragment { host }))).node x =
        dom₁.node x := fun x hx => node_push_of_lt (hx.trans_le hlen)
  refine ⟨h₁.push fun x hx => (hhost x hx).trans_le hlen, hlen, fun x hx => ?_, fun x hx => ?_, ?_,
    fun howned hdoc => ?_⟩
  · rw [NativeDom.ownerDocument, hnode x hx]
    exact congrFun hadded.ownerDocument x
  · rw [element, hnode x hx]
    exact congrFun hadded.keeps.element x
  · simp [fragment, node_push, Node.new, NodeData.asDocumentFragment]
  · have hinert := hinert hdoc
    have hsound₁ := hsound howned.owned.inertSound
    have hdocument := isDocument_of_inertOwner (hsound₁ document inert hinert)
    refine ⟨(howned.inertAdded h.linked hadded hsound).push h₁.linked ⟨fun _ hd => (by cases hd),
      fun _ => ⟨rfl, inert, rfl, hdocument⟩, fun _ he => (by cases he)⟩, inert, ?_, ?_⟩
    · rwa [inertOwner_push
        (Nat.ne_of_lt (lt_length_of_isDocument (isDocument_of_inertOwner hinert)))]
    · simp [NativeDom.ownerDocument, node_push, Node.new]

/-- The template's slot is set to its contents. -/
def setContents (dom : NativeDom) (template contents : NativeNodeId) : NativeDom :=
  dom.modifyNode template (Node.modifyData (NodeData.modifyElement fun element =>
    { element with templateContents := some contents }))

theorem element_setContents :
    (dom.setContents template contents).element x = if x = template then
      (dom.element x).map fun element => { element with templateContents := some contents }
    else dom.element x := by
  unfold setContents element
  rw [node_modifyNode]
  split
  · cases hn : dom.node x with
    | none => rfl
    | some n => cases hd : n.data <;> simp [Node.modifyData, Node.asElement, hd,
        NodeData.modifyElement, NodeData.asElement]
  · rfl

/-- A write to the data of a node that keeps the node's type and document. -/
theorem modifyData_spec {g : NodeData → NodeData} (i : NativeNodeId)
    (hdata : ∀ data, (g data).nodeType = data.nodeType ∧ (g data).asDocument = data.asDocument)
    (hcandidate : ∀ x, (dom.modifyNode i (Node.modifyData g)).isStylesheetCandidate x =
      dom.isStylesheetCandidate x) :
    Grown dom (dom.modifyNode i (Node.modifyData g)) ∧
      (dom.modifyNode i (Node.modifyData g)).ownerDocument = dom.ownerDocument ∧
      (dom.modifyNode i (Node.modifyData g)).connected = dom.connected ∧
      (dom.modifyNode i (Node.modifyData g)).inertOwner = dom.inertOwner := by
  refine ⟨⟨by simp, links_modifyNode fun n => ⟨rfl, rfl, rfl, rfl, rfl⟩, rfl, fun x _ => ?_,
    fun x _ => hcandidate x⟩, funext fun x => ?_, funext fun x => ?_, funext fun x => ?_⟩
  · rw [NativeDom.nodeType, NativeDom.nodeType, node_modifyNode]
    split
    · cases dom.node x <;> simp [Node.nodeType, Node.modifyData, hdata]
    · rfl
  · exact bind_node_modifyNode_keep fun n => rfl
  · exact any_node_modifyNode_keep fun n => rfl
  · exact congrArg (Option.bind · _) (bind_node_modifyNode_keep fun n => (hdata n.data).2)

theorem setContents_spec (template contents : NativeNodeId) :
    (dom.setContents template contents).host = dom.host ∧
      Grown dom (dom.setContents template contents) ∧
      (dom.setContents template contents).ownerDocument = dom.ownerDocument ∧
      (dom.setContents template contents).connected = dom.connected ∧
      (dom.setContents template contents).inertOwner = dom.inertOwner := by
  refine ⟨funext fun x => bind_node_modifyNode_keep fun n => ?_,
    modifyData_spec template (fun data => by cases data <;> exact ⟨rfl, rfl⟩) fun x => ?_⟩
  · rw [Node.host, Node.host, Node.modifyData]
    cases n.data <;> rfl
  · unfold isStylesheetCandidate
    rw [← setContents, element_setContents]
    split
    · cases dom.element x <;> rfl
    · rfl

theorem Sound.setContents (h : Sound dom kids) (template contents : NativeNodeId) :
    Sound (dom.setContents template contents) kids := by
  obtain ⟨hhosts, hgrown, -⟩ := dom.setContents_spec template contents
  exact ⟨h.linked.of_links hgrown.length_le hgrown.links hhosts hgrown.nodeType,
    h.registered.of_grown h.linked hgrown⟩

theorem OwnedSlots.setContents (h : OwnedSlots dom) (hlinked : WellLinked dom kids)
    {document inert : NativeNodeId} (hhost : dom.host contents = some template)
    (howner : dom.ownerDocument template = some document)
    (hinert : dom.inertOwner document = some inert)
    (hcontents : dom.ownerDocument contents = some inert) :
    OwnedSlots (dom.setContents template contents) := by
  obtain ⟨hhosts, hgrown, howners, hconnected, hinerts⟩ := dom.setContents_spec template contents
  have hlength : (dom.setContents template contents).nodes.length = dom.nodes.length := by
    simp [NativeDom.setContents]
  have hlt := lt_length_of_host hhost
  refine ⟨h.owned.of_grown hlinked hgrown ?_ (fun d o ho => hinerts ▸ ho) (fun x _ => by
    rw [howners, hconnected]; exact ⟨rfl, rfl⟩) fun x hx => ?_,
      fun t element c helement hslot => ?_⟩
  · intro d o ho
    rw [hinerts] at ho ⊢
    exact h.owned.inertSound d o ho
  · rcases eq_or_ne x contents with rfl | hne
    · have hfits := h.owned.fits hlt
      have hparent : (dom.setContents template x).parentNode x = none := by
        rw [(links_congr hgrown.links).1]
        refine hlinked.parentNode_eq_none_of_fragment ?_
        rw [host_eq] at hhost
        obtain ⟨data, hdata, -⟩ := Option.bind_eq_some_iff.1 hhost
        simp [hdata]
      refine .inr ⟨fun p hp => ?_, fun hnone hdoc => ?_, fun t ht => ?_, fun hdoc => ?_⟩
      · rw [hparent] at hp
        cases hp
      · rw [hconnected]
        rw [hgrown.isDocument hlt] at hdoc
        rw [(links_congr hgrown.links).1] at hnone
        exact hfits.root hnone hdoc
      · have ht' := (host_of_templateContentsFragment ht).1
        rw [hhosts, hhost] at ht'
        obtain rfl := Option.some.inj ht'
        rw [howners, hinerts]
        exact ⟨document, inert, howner, hinert, hcontents⟩
      · rw [howners]
        rw [hgrown.isDocument hlt] at hdoc
        obtain ⟨d, hd, hdocument⟩ := hfits.owned hdoc
        exact ⟨d, hd, (hgrown.isDocument (lt_length_of_isDocument hdocument)).trans hdocument⟩
    · refine .inl ⟨hlength ▸ hx, fun t ht => ?_⟩
      obtain ⟨element, helement, hslot⟩ := exists_slot ht
      have ht' := (host_of_templateContentsFragment ht).1
      rw [hhosts] at ht'
      rw [element_setContents] at helement
      split at helement
      · obtain ⟨e, -, rfl⟩ := Option.map_eq_some_iff.1 helement
        exact absurd (Option.some.inj hslot).symm hne
      · exact templateContentsFragment_of_slot helement hslot ht'
  · rw [hhosts]
    rw [element_setContents] at helement
    split at helement
    next heq =>
      obtain ⟨e, -, rfl⟩ := Option.map_eq_some_iff.1 helement
      obtain rfl := Option.some.inj hslot
      rw [heq]
      exact hhost
    · exact h.slotted t element c helement hslot

theorem allocateElementForDocument_spec (h : Sound dom kids) (document : NativeNodeId)
    (element : Element) :
    Ensures (· = .nodeLimit) (dom.allocateElementForDocument document element)
      fun (_, dom') => Sound dom' kids ∧ (OwnedSlots dom → dom.isDocument document = true →
        element.templateContents = none → OwnedSlots dom') := by
  refine (createNode_spec ..).bind ?_
  rintro _ rfl
  have h₁ :
      Sound (dom.push (Node.new none (some document) ⟨false, false⟩ (.element element))) kids :=
    h.push nofun
  have howned₁ : OwnedSlots dom → dom.isDocument document = true →
      element.templateContents = none →
      OwnedSlots (dom.push (Node.new none (some document) ⟨false, false⟩ (.element element))) :=
    fun howned hdoc hslot => howned.push h.linked ⟨nofun, fun _ => ⟨rfl, document, rfl, hdoc⟩,
      fun e he => by cases he; exact hslot⟩
  have howner₁ : (dom.push (Node.new none (some document) ⟨false, false⟩
      (.element element))).ownerDocument dom.nodes.length = some document := by
    simp [NativeDom.ownerDocument, node_push, Node.new]
  set dom₁ := dom.push (Node.new none (some document) ⟨false, false⟩ (.element element))
  have hlt : dom.nodes.length < dom₁.nodes.length := by simp [dom₁]
  cases htemplate : element.isHtmlElement "template" with
  | false => exact ⟨h₁, howned₁⟩
  | true =>
    refine (createTemplateContentsFragment_spec h₁ document fun x hx => ?_).bind ?_
    · obtain rfl := Option.some.inj hx
      exact hlt
    · rintro ⟨contents, dom₂⟩ hcreated
      refine ⟨hcreated.sound.setContents dom.nodes.length contents, fun howned hdoc hslot => ?_⟩
      have hdoc₁ : dom₁.isDocument document = true :=
        (Grown.push.isDocument (lt_length_of_isDocument hdoc)).trans hdoc
      obtain ⟨howned₂, inert, hinert, hcontents⟩ :=
        hcreated.owned (howned₁ howned hdoc hslot) hdoc₁
      refine howned₂.setContents hcreated.sound.linked ?_ ?_ hinert hcontents
      · rw [host_eq, hcreated.fragment]
        rfl
      · rw [hcreated.ownerDocument _ hlt, howner₁]

end Moli.Dom.NativeDom

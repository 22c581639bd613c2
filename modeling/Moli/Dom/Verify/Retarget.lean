import Moli.Dom.Verify.Tree

/-!
# Retargeting a subtree

The traversal that follows every insertion and removal changes no links. `RetargetStep` is what one
visit does, `retargetNode_spec` that it does so unless the arena is full, and `retargetLoop_rule`
the induction over the traversal: what every visit keeps holds when the stack is empty, and the
stack does get empty, because the children of a node and the contents of a template form a forest
(`below_isForest`).
-/

namespace Moli.Dom.NativeDom

open Lib List

variable {dom dom' dom'' : NativeDom} {kids : Kids}
variable {x : NativeNodeId} {l : List NativeNodeId}

def inDocumentTree (dom : NativeDom) (nodeId : NativeNodeId) : Bool :=
  (dom.node nodeId).any (·.flags.inDocumentTree)

/-- The document that owns the contents of a document's templates, once there is one. -/
def inertOwner (dom : NativeDom) (document : NativeNodeId) : Option NativeNodeId :=
  ((dom.node document).bind Node.asDocument).bind fun data =>
    if data.isInertTemplateDocument then some document else data.associatedInertTemplateDocument

theorem lt_length_of_isDocument (h : dom.isDocument x = true) : x < dom.nodes.length := by
  obtain ⟨n, -, hn, -⟩ := exists_document h
  exact lt_length_of_node hn

variable {owner document : NativeNodeId}

theorem isDocument_of_inertOwner (h : dom.inertOwner x = some owner) : dom.isDocument x = true := by
  obtain ⟨data, hdata, -⟩ := Option.bind_eq_some_iff.1 h
  obtain ⟨n, hn, hdata⟩ := Option.bind_eq_some_iff.1 hdata
  simp [isDocument, hn, Node.isDocument, hdata]

/-! ## The inert template document -/

/-- The same tree and registries; owners, flags and inert documents may differ. -/
structure Retargeted (dom dom' : NativeDom) : Prop where
  keeps : Keeps dom dom'
  candidates : dom'.candidatesByTreeScope = dom.candidatesByTreeScope
  links : dom'.links = dom.links

theorem Retargeted.refl (dom : NativeDom) : Retargeted dom dom := ⟨.refl dom, rfl, rfl⟩

theorem Retargeted.trans (h : Retargeted dom dom') (h' : Retargeted dom' dom'') :
    Retargeted dom dom'' :=
  ⟨h.keeps.trans h'.keeps, h'.candidates.trans h.candidates, h'.links.trans h.links⟩

theorem Retargeted.up (h : Retargeted dom dom') : dom'.up = dom.up := by
  funext x
  rw [NativeDom.up, (links_congr h.links).1, h.keeps.host]
  rfl

/-- Everything but inert documents is as before. -/
structure InertAdded (dom dom' : NativeDom) : Prop extends Retargeted dom dom' where
  ownerDocument : dom'.ownerDocument = dom.ownerDocument
  connected : dom'.connected = dom.connected
  inDocumentTree : dom'.inDocumentTree = dom.inDocumentTree
  inertOwner : ∀ document owner, dom.inertOwner document = some owner →
    dom'.inertOwner document = some owner

theorem InertAdded.refl (dom : NativeDom) : InertAdded dom dom :=
  ⟨.refl dom, rfl, rfl, rfl, fun _ _ h => h⟩

theorem InertAdded.trans (h : InertAdded dom dom') (h' : InertAdded dom' dom'') :
    InertAdded dom dom'' where
  toRetargeted := h.toRetargeted.trans h'.toRetargeted
  ownerDocument := h'.ownerDocument.trans h.ownerDocument
  connected := h'.connected.trans h.connected
  inDocumentTree := h'.inDocumentTree.trans h.inDocumentTree
  inertOwner document owner ho := h'.inertOwner document owner (h.inertOwner document owner ho)

theorem InertAdded.push {document : Document} :
    InertAdded dom (dom.push (.new none none ⟨false, false⟩ (.document document))) where
  keeps := {
    length_le := by simp
    element := funext fun x => bind_node_push rfl
    fragment := funext fun x => bind_node_push rfl
    nodeType x hx := by simp [nodeType, node_push, Nat.ne_of_lt hx]
    added x hx hx' := by
      obtain rfl : x = dom.nodes.length := by simp at hx'; omega
      simp [nodeType, node_push, Node.nodeType, Node.new, NodeData.nodeType]
    documentNodeId := rfl }
  candidates := rfl
  links := links_push
  ownerDocument := funext fun x => bind_node_push rfl
  connected := funext fun x => any_node_push rfl
  inDocumentTree := funext fun x => any_node_push rfl
  inertOwner d owner h := by
    have hne : d ≠ dom.nodes.length := by
      rintro rfl
      simp [NativeDom.inertOwner, node_length] at h
    simpa [NativeDom.inertOwner, node_push, hne] using h

/-- Associating an inert document with a document that has none yet. -/
def associate (dom : NativeDom) (document owner : NativeNodeId) : NativeDom :=
  dom.modifyNode document (Node.modifyData (NodeData.modifyDocument fun data =>
    { data with associatedInertTemplateDocument := some owner }))

theorem inertOwner_associate_of_ne {d : NativeNodeId} (hne : d ≠ document) :
    (dom.associate document owner).inertOwner d = dom.inertOwner d := by
  simp [inertOwner, associate, node_modifyNode, hne]

theorem inertOwner_associate_self {n : Node} {data : Document} (hn : dom.node document = some n)
    (hdata : n.data = .document data) :
    (dom.associate document owner).inertOwner document =
      if data.isInertTemplateDocument then some document else some owner := by
  simp [inertOwner, associate, node_modifyNode, hn, Node.asDocument, Node.modifyData, hdata,
    NodeData.modifyDocument, NodeData.asDocument]

theorem InertAdded.associate
    (h : ∀ o, dom.inertOwner document = some o →
      (dom.associate document owner).inertOwner document = some o) :
    InertAdded dom (dom.associate document owner) where
  keeps := .modifyNode fun n => by
    cases hd : n.data <;> simp [Node.modifyData, Node.asElement, Node.nodeType, hd,
      NodeData.modifyDocument, NodeData.asElement, NodeData.asDocumentFragment, NodeData.nodeType]
  candidates := rfl
  links := links_modifyNode fun n => ⟨rfl, rfl, rfl, rfl, rfl⟩
  ownerDocument := funext fun x => bind_node_modifyNode_keep fun n => rfl
  connected := funext fun x => any_node_modifyNode_keep fun n => rfl
  inDocumentTree := funext fun x => any_node_modifyNode_keep fun n => rfl
  inertOwner d o ho := by
    rcases eq_or_ne d document with rfl | hne
    · exact h o ho
    · rwa [inertOwner_associate_of_ne hne]

/-- Inert documents own the contents of their own templates. -/
def InertSound (dom : NativeDom) : Prop :=
  ∀ document owner, dom.inertOwner document = some owner → dom.inertOwner owner = some owner

theorem inertOwner_push {n : Node} (hne : x ≠ dom.nodes.length) :
    (dom.push n).inertOwner x = dom.inertOwner x := by
  simp [inertOwner, node_push, hne]

/-- The inert document that is made on first use. -/
theorem createInert_spec (kind : DocumentKind) (hnone : dom.inertOwner document = none) :
    Ensures (· = .nodeLimit)
      (do let (owner, dom) ← dom.createNode (.document (.newInertTemplate kind)) none false false
          return (owner, dom.associate document owner))
      fun (owner, dom') => InertAdded dom dom' ∧
        (dom.isDocument document → dom'.inertOwner document = some owner) ∧
        (InertSound dom → InertSound dom') := by
  refine (createNode_spec ..).bind ?_
  rintro _ rfl
  set dom₁ := dom.push (.new none none ⟨false, false⟩ (.document (.newInertTemplate kind)))
  have hnew : dom₁.inertOwner dom.nodes.length = some dom.nodes.length := by
    simp [dom₁, inertOwner, node_push, Node.new, Node.asDocument, NodeData.asDocument,
      Document.newInertTemplate]
  have hadded : InertAdded dom₁ (dom₁.associate document dom.nodes.length) := by
    refine .associate fun o ho => ?_
    rcases eq_or_ne document dom.nodes.length with rfl | hne
    · rw [inertOwner_associate_self ((node_push _).trans (if_pos rfl)) rfl]
      simpa [hnew] using ho
    · rw [inertOwner_push hne, hnone] at ho
      cases ho
  have hall := InertAdded.push.trans hadded
  have howner : dom.isDocument document →
      (dom₁.associate document dom.nodes.length).inertOwner document = some dom.nodes.length := by
    intro hdoc
    obtain ⟨n, data, hn, hdata⟩ := exists_document hdoc
    have hn₁ : dom₁.node document = some n := by
      simp [dom₁, node_push, hn, Nat.ne_of_lt (lt_length_of_node hn)]
    rw [inertOwner_associate_self hn₁ hdata, if_neg]
    intro hinert
    simp [inertOwner, hn, Node.asDocument, hdata, NodeData.asDocument, hinert] at hnone
  refine ⟨hall, howner, fun hsound d o ho => ?_⟩
  -- only `document` and the new document have got an owner
  rcases eq_or_ne d dom.nodes.length with rfl | hd
  · rw [hadded.inertOwner _ _ hnew] at ho
    obtain rfl := Option.some.inj ho
    exact hadded.inertOwner _ _ hnew
  · rcases eq_or_ne d document with rfl | hne
    · by_cases hdoc : dom.isDocument d
      · rw [howner hdoc] at ho
        obtain rfl := Option.some.inj ho
        exact hadded.inertOwner _ _ hnew
      · have hdoc' := isDocument_of_inertOwner ho
        have hlt : d < dom.nodes.length + 1 := by
          simpa [dom₁, associate] using lt_length_of_isDocument hdoc'
        have hlt' := Nat.lt_of_le_of_ne (Nat.le_of_lt_succ hlt) hd
        rw [hall.keeps.isDocument hlt'] at hdoc'
        exact absurd hdoc' hdoc
    · rw [inertOwner_associate_of_ne hne, inertOwner_push hd] at ho
      exact hall.inertOwner _ _ (hsound d o ho)

theorem appropriateTemplateContentsOwnerDocument_spec (dom : NativeDom) (document : NativeNodeId) :
    Ensures (· = .nodeLimit) (dom.appropriateTemplateContentsOwnerDocument document)
      fun (owner, dom') => InertAdded dom dom' ∧
        (dom.isDocument document → dom'.inertOwner document = some owner) ∧
        (InertSound dom → InertSound dom') := by
  unfold appropriateTemplateContentsOwnerDocument
  have hread : dom.inertOwner document = ((dom.node document).bind Node.asDocument).bind fun data =>
      if data.isInertTemplateDocument then some document
      else data.associatedInertTemplateDocument := rfl
  cases hdoc : (dom.node document).bind Node.asDocument with
  | none =>
    rw [hdoc] at hread
    exact createInert_spec _ hread
  | some data =>
    rw [hdoc, Option.bind_some] at hread
    by_cases hinert : data.isInertTemplateDocument
    · rw [if_pos hinert] at hread
      simp only [Option.any_some, hinert]
      exact ⟨.refl dom, fun _ => hread, id⟩
    · rw [if_neg hinert] at hread
      simp only [Option.any_some, hinert, Option.bind_some]
      cases hassociated : data.associatedInertTemplateDocument with
      | some owner => exact ⟨.refl dom, fun _ => hread.trans hassociated, id⟩
      | none => exact createInert_spec _ (hread.trans hassociated)

/-! ## One visit -/

/-- The entry pushed for the contents of a template whose owner document changes. -/
inductive ContentsPushed (dom dom' : NativeDom) (item : RetargetItem) : List RetargetItem → Prop
  | skipped (h : dom.adoptedContents item = none ∨ item.ownerDocument = none) :
    ContentsPushed dom dom' item []
  | adopted {contents document owner : NativeNodeId}
    (hcontents : dom.adoptedContents item = some contents)
    (hdocument : item.ownerDocument = some document)
    (howner : dom.isDocument document → dom'.inertOwner document = some owner) :
    ContentsPushed dom dom' item [⟨contents, some owner, false, false, false⟩]

/-- What the visit of `item` does. -/
structure RetargetStep (dom : NativeDom) (kids : Kids)
    (item : RetargetItem) (pushed : List RetargetItem) (dom' : NativeDom) : Prop
    extends Retargeted dom dom' where
  ownerDocument : ∀ x, dom'.ownerDocument x =
    if x = item.handle then item.ownerDocument else dom.ownerDocument x
  connected : ∀ x, dom'.connected x =
    if x = item.handle then item.connected else dom.connected x
  inDocumentTree : ∀ x, dom'.inDocumentTree x =
    if x = item.handle then item.inDocumentTree else dom.inDocumentTree x
  inertOwner : ∀ document owner, dom.inertOwner document = some owner →
    dom'.inertOwner document = some owner
  inertSound : InertSound dom → InertSound dom'
  pushed_eq : ∃ contents, ContentsPushed dom dom' item contents ∧
    pushed = contents ++ (kids item.handle).map fun child => { item with handle := child }

theorem setTreeScope_spec {i : NativeNodeId} (hi : i < dom.nodes.length)
    (owner : Option NativeNodeId) (conn inTree : Bool) :
    let dom' := dom.modifyNode i (Node.setTreeScope owner conn inTree)
    Keeps dom dom' ∧ dom'.links = dom.links ∧ dom'.inertOwner = dom.inertOwner ∧
      (∀ x, dom'.ownerDocument x = if x = i then owner else dom.ownerDocument x) ∧
      (∀ x, dom'.connected x = if x = i then conn else dom.connected x) ∧
      (∀ x, dom'.inDocumentTree x = if x = i then inTree else dom.inDocumentTree x) := by
  obtain ⟨n, hn⟩ := exists_node hi
  refine ⟨.modifyNode fun n => ⟨rfl, rfl, rfl⟩, links_modifyNode fun n => ⟨rfl, rfl, rfl, rfl, rfl⟩,
    funext fun x => ?_, fun x => ?_, fun x => ?_, fun x => ?_⟩
  · exact congrArg (Option.bind · _) (bind_node_modifyNode_keep fun n => rfl)
  · simp only [NativeDom.ownerDocument, node_modifyNode]
    split
    next hx => simp [hx, hn, Node.setTreeScope]
    · rfl
  · simp only [NativeDom.connected, node_modifyNode]
    split
    next hx => simp [hx, hn, Node.setTreeScope]
    · rfl
  · simp only [NativeDom.inDocumentTree, node_modifyNode]
    split
    next hx => simp [hx, hn, Node.setTreeScope]
    · rfl

theorem contentsItem_spec (dom : NativeDom) (ownerDocument contents : Option NativeNodeId) :
    Ensures (· = .nodeLimit) (dom.contentsItem ownerDocument contents)
      fun (pushed, dom') => InertAdded dom dom' ∧ (InertSound dom → InertSound dom') ∧
        ((pushed = [] ∧ (contents = none ∨ ownerDocument = none)) ∨
          ∃ c document owner, contents = some c ∧ ownerDocument = some document ∧
            pushed = [⟨c, some owner, false, false, false⟩] ∧
            (dom.isDocument document → dom'.inertOwner document = some owner)) := by
  cases ownerDocument with
  | none => exact ⟨.refl dom, id, .inl ⟨rfl, .inr rfl⟩⟩
  | some document =>
    cases contents with
    | none => exact ⟨.refl dom, id, .inl ⟨rfl, .inl rfl⟩⟩
    | some c =>
      refine (dom.appropriateTemplateContentsOwnerDocument_spec document).bind ?_
      rintro ⟨owner, dom'⟩ ⟨hadded, howner, hsound⟩
      exact ⟨hadded, hsound, .inr ⟨c, document, owner, rfl, rfl, rfl, howner⟩⟩

theorem retargetNode_spec (h : WellLinked dom kids) (traversal : OwnerLifecycleTraversal)
    {item : RetargetItem} (hitem : item.handle < dom.nodes.length) :
    Ensures (· = .nodeLimit) (dom.retargetNode traversal item)
      fun (pushed, traversal', dom') => traversal' = dom.recordCandidate traversal item ∧
        RetargetStep dom kids item pushed dom' := by
  unfold retargetNode
  obtain ⟨hkeeps, hlinks, hinert, howner, hconn, htree⟩ :=
    setTreeScope_spec hitem item.ownerDocument item.connected item.inDocumentTree
  simp only [expectNode_eq hitem, bind, Except.bind]
  set dom₁ := dom.modifyNode item.handle
    (Node.setTreeScope item.ownerDocument item.connected item.inDocumentTree)
  rw [(h.of_keeps hkeeps hlinks).childIdsReversed_eq]
  refine (dom₁.contentsItem_spec item.ownerDocument (dom.adoptedContents item)).bind ?_
  rintro ⟨contents, dom'⟩ ⟨hadded, hsound, hcontents⟩
  refine ⟨rfl, ⟨hkeeps.trans hadded.keeps, hadded.candidates, hadded.links.trans hlinks⟩,
    fun x => ?_, fun x => ?_, fun x => ?_, fun d o ho => ?_, fun hs => ?_, contents, ?_, ?_⟩
  · rw [hadded.ownerDocument, howner]
  · rw [hadded.connected, hconn]
  · rw [hadded.inDocumentTree, htree]
  · exact hadded.inertOwner d o (hinert ▸ ho)
  · refine hsound fun d o ho => ?_
    rw [hinert] at ho ⊢
    exact hs d o ho
  · rcases hcontents with ⟨rfl, hskip⟩ | ⟨c, document, owner, hc, hd, rfl, ho⟩
    · exact .skipped hskip
    · refine .adopted hc hd fun hdoc => ho ?_
      rw [hkeeps.isDocument (lt_length_of_isDocument hdoc)]
      exact hdoc
  · simp [map_reverse]

/-! ## The traversal -/

/-- Children and, for a template, its contents. -/
def below (dom : NativeDom) (kids : Kids) (x : NativeNodeId) :
    List NativeNodeId :=
  (dom.templateContentsFragment x).toList ++ kids x

theorem host_of_templateContentsFragment {contents : NativeNodeId}
    (h : dom.templateContentsFragment x = some contents) :
    dom.host contents = some x ∧ (dom.fragment contents).isSome := by
  rw [templateContentsFragment_eq] at h
  obtain ⟨element, -, h⟩ := Option.bind_eq_some_iff.1 h
  obtain ⟨c, -, h⟩ := Option.bind_eq_some_iff.1 h
  obtain ⟨data, hdata, h⟩ := Option.bind_eq_some_iff.1 h
  split at h
  next hhost =>
    obtain rfl := Option.some.inj h
    rw [host_eq, hdata]
    exact ⟨hhost, rfl⟩
  · cases h

theorem templateContentsFragment_of_adoptedContents {item : RetargetItem} {contents : NativeNodeId}
    (h : dom.adoptedContents item = some contents) :
    dom.templateContentsFragment item.handle = some contents := by
  unfold adoptedContents at h
  split at h
  · exact h
  · cases h

theorem WellLinked.below_isForest (h : WellLinked dom kids) :
    IsForest dom.up (below dom kids) where
  up_eq p c hc := by
    rcases mem_append.1 hc with hc | hc
    · exact h.up_of_host (host_of_templateContentsFragment (by simpa using hc)).1
    · exact up_of_parentNode (h.mem_kids.1 hc)
  nodup p := by
    refine nodup_append.2 ⟨?_, h.represents.nodup p, ?_⟩
    · cases dom.templateContentsFragment p <;> simp
    · rintro c hc _ hc' rfl
      have hfrag := (host_of_templateContentsFragment (x := p) (by simpa using hc)).2
      rw [h.mem_kids, h.parentNode_eq_none_of_fragment hfrag] at hc'
      cases hc'
  grounded := h.grounded

theorem WellLinked.below_lt (h : WellLinked dom kids) {c : NativeNodeId}
    (hc : c ∈ below dom kids x) : c < dom.nodes.length := by
  rcases mem_append.1 hc with hc | hc
  · have hfrag := (host_of_templateContentsFragment (x := x) (by simpa using hc)).2
    obtain ⟨data, hdata⟩ := Option.isSome_iff_exists.1 hfrag
    obtain ⟨n, hn, -⟩ := Option.bind_eq_some_iff.1 hdata
    exact lt_length_of_node hn
  · exact h.kids_lt hc

theorem below_congr (h : Keeps dom dom') : below dom' kids = below dom kids := by
  unfold below
  rw [h.templateContentsFragment]

section Rules

variable (inv : NativeDom → OwnerLifecycleTraversal → List RetargetItem → Prop)
  (hstep : ∀ dom traversal item stack pushed dom', WellLinked dom kids →
    inv dom traversal (item :: stack) → item.handle < dom.nodes.length →
    Apart dom.up (item.handle :: stack.map RetargetItem.handle) →
    RetargetStep dom kids item pushed dom' →
    inv dom' (dom.recordCandidate traversal item) (pushed ++ stack))

include hstep

/-- The induction over a retargeting traversal. -/
theorem retargetLoop_rule
    {fuel : Nat} {traversal : OwnerLifecycleTraversal} {stack : List RetargetItem}
    (h : WellLinked dom kids)
    (hpre : Lib.Preorder (below dom kids) (stack.map RetargetItem.handle) l)
    (hapart : Apart dom.up (stack.map RetargetItem.handle))
    (hlt : ∀ item ∈ stack, item.handle < dom.nodes.length) (hfuel : l.length ≤ fuel)
    (hinv : inv dom traversal stack) :
    Ensures (· = .nodeLimit) (retargetLoop fuel dom traversal stack)
      fun (traversal', dom') => Retargeted dom dom' ∧ inv dom' traversal' [] := by
  induction fuel generalizing dom traversal stack l with
  | zero =>
    cases stack with
    | nil => exact ⟨.refl dom, hinv⟩
    | cons item stack =>
      cases hpre
      simp at hfuel
  | succ fuel ih =>
    cases stack with
    | nil => exact ⟨.refl dom, hinv⟩
    | cons item stack =>
      have hitem := hlt item (by simp)
      refine (retargetNode_spec h traversal hitem).bind ?_
      rintro ⟨pushed, traversal', dom'⟩ ⟨rfl, hvisit⟩
      obtain ⟨contents, hcontents, rfl⟩ := hvisit.pushed_eq
      -- the visited node leaves the stack; contents that are not adopted are skipped
      have hpushed : ∃ l', l'.length ≤ fuel ∧ Lib.Preorder (below dom kids)
          (contents.map RetargetItem.handle ++ (kids item.handle ++
            stack.map RetargetItem.handle)) l' := by
        cases hpre with
        | @cons _ _ l hpre =>
          rw [below, append_assoc] at hpre
          cases hcontents with
          | skipped =>
            obtain ⟨m, n, rfl, -, hn⟩ := hpre.of_append
            exact ⟨n, by simp at hfuel; omega, hn⟩
          | adopted hadopted =>
            rw [templateContentsFragment_of_adoptedContents hadopted] at hpre
            exact ⟨l, by simpa using hfuel, hpre⟩
      obtain ⟨l', hlen, hpre'⟩ := hpushed
      have hsub : (contents.map RetargetItem.handle ++ kids item.handle).Sublist
          (below dom kids item.handle) := by
        cases hcontents with
        | skipped => exact sublist_append_right ..
        | adopted hadopted =>
          simp [below, templateContentsFragment_of_adoptedContents hadopted]
      have hnext := hstep dom traversal item stack _ dom' h hinv hitem hapart hvisit
      refine (ih (h.of_keeps hvisit.keeps hvisit.links) ?_ ?_ ?_ hlen hnext).mono ?_
      · rw [below_congr hvisit.keeps]
        simpa [Function.comp_def] using hpre'
      · rw [hvisit.up]
        simpa [Function.comp_def] using Apart.expand h.below_isForest hapart hsub
      · intro next hmem
        refine Nat.lt_of_lt_of_le ?_ hvisit.keeps.length_le
        rcases mem_append.1 hmem with hmem | hmem
        · rcases mem_append.1 hmem with hmem | hmem
          · cases hcontents with
            | skipped => cases hmem
            | adopted hadopted =>
              obtain rfl := mem_singleton.1 hmem
              refine h.below_lt (x := item.handle) ?_
              simp [below, templateContentsFragment_of_adoptedContents hadopted]
          · obtain ⟨child, hchild, rfl⟩ := mem_map.1 hmem
            exact h.kids_lt hchild
        · exact hlt next (mem_cons_of_mem _ hmem)
      · rintro ⟨traversal', dom''⟩ ⟨hrest, hinv'⟩
        exact ⟨hvisit.toRetargeted.trans hrest, hinv'⟩

/-- Retargeting the subtree of an existing node. -/
theorem retargetOwnerLifecycleSubtree_rule
    {root : NativeNodeId} {ownerDocument : Option NativeNodeId} {conn inTree : Bool}
    {traversal : OwnerLifecycleTraversal} (h : WellLinked dom kids)
    (hroot : root < dom.nodes.length)
    (hinv : inv dom traversal [⟨root, ownerDocument, conn, inTree, true⟩]) :
    Ensures (· = .nodeLimit)
      (dom.retargetOwnerLifecycleSubtree root ownerDocument conn inTree traversal)
      fun (traversal', dom') => Retargeted dom dom' ∧ inv dom' traversal' [] := by
  have hbound : ∀ x l, Follows dom.up (some x) l → l.length ≤ dom.fuel := fun x l hl =>
    hl.length_le h.up_lt
  obtain ⟨l, hl⟩ := Lib.Preorder.exists_of_bounded h.below_isForest hbound [root]
  refine retargetLoop_rule inv hstep h hl (pairwise_singleton ..) (by simpa using hroot) ?_ hinv
  have hlt : ∀ x ∈ l, x < dom.nodes.length := by
    intro x hx
    rcases hl.mem_stack_or_kids hx with hx | ⟨p, hx⟩
    · rwa [mem_singleton.1 hx]
    · exact h.below_lt hx
  exact (Lib.length_le_of_nodup (hl.nodup h.below_isForest) hlt).trans (Nat.le_succ _)

end Rules

/-- The walk over a subtree ends and leaves all links as they are. -/
theorem retarget_spec (h : WellLinked dom kids) {root : NativeNodeId}
    (hroot : root < dom.nodes.length) (ownerDocument : Option NativeNodeId) (conn inTree : Bool)
    (traversal : OwnerLifecycleTraversal) :
    Ensures (· = .nodeLimit)
      (dom.retargetOwnerLifecycleSubtree root ownerDocument conn inTree traversal)
      fun (_, dom') => Retargeted dom dom' :=
  (retargetOwnerLifecycleSubtree_rule (fun _ _ _ => True) (fun _ _ _ _ _ _ _ _ _ _ _ => trivial) h
    hroot trivial).mono fun _ hpost => hpost.1

end Moli.Dom.NativeDom

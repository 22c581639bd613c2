import Moli.Dom.Run
import Moli.Dom.Verify.Creation

/-!
# The operations keep the invariants

`Op.run_spec`: every operation that respects fresh hosts leaves links and registries in order and
fails only on a full arena; the operations that `Op.orderly` admits also keep owner documents,
connectedness and template slots in order. `Reachable.sound` and `Reachable.owned` carry this to
whole runs.
-/

namespace Moli.Dom

open Lib

namespace NativeDom

variable {dom dom' : NativeDom} {kids : Kids}
variable {c f p x : NativeNodeId} {l : List NativeNodeId}

/-! ## Hosts -/

theorem Sound.not_above_of_isFresh (h : Sound dom kids) {host : NativeNodeId}
    (hfresh : Op.isFresh dom f = true) (hne : host ≠ f) : ¬ Above dom.up f host := by
  intro habove
  obtain ⟨c, hc, -⟩ := habove.child_or_eq.resolve_left hne.symm
  simp only [Op.isFresh, Bool.and_eq_true, Option.isNone_iff_eq_none, List.all_eq_true,
    decide_eq_true_eq] at hfresh
  rcases h.linked.up_iff.1 hc with hp | hhost
  · have hmem := h.linked.mem_kids.2 hp
    have hfirst : (none : Option NativeNodeId) = (kids f).head? :=
      hfresh.1.symm.trans (h.linked.represents.first_eq f)
    rw [List.head?_eq_none_iff.1 hfirst.symm] at hmem
    cases hmem
  · obtain ⟨n, hn, hnhost⟩ := Option.bind_eq_some_iff.1 hhost
    exact hfresh.2 n (List.mem_of_getElem? hn) hnhost

/-- The fragment with another host. -/
def setHost (dom : NativeDom) (fragment host : NativeNodeId) : NativeDom :=
  dom.modifyNode fragment (Node.modifyData (NodeData.modifyDocumentFragment fun data =>
    { data with host := some host }))

theorem setHost_spec (f host : NativeNodeId) :
    (dom.setHost f host).element = dom.element ∧
      (∀ x, (dom.setHost f host).fragment x =
        if x = f then (dom.fragment x).map fun data => { data with host := some host }
        else dom.fragment x) ∧
      Grown dom (dom.setHost f host) ∧
      (dom.setHost f host).ownerDocument = dom.ownerDocument ∧
      (dom.setHost f host).connected = dom.connected ∧
      (dom.setHost f host).inertOwner = dom.inertOwner := by
  have helement : (dom.setHost f host).element = dom.element := by
    refine funext fun x => bind_node_modifyNode_keep fun n => ?_
    cases hd : n.data <;> simp [Node.modifyData, Node.asElement, hd,
      NodeData.modifyDocumentFragment, NodeData.asElement]
  refine ⟨helement, fun x => ?_,
    modifyData_spec f (fun data => by cases data <;> exact ⟨rfl, rfl⟩) fun x => ?_⟩
  · unfold setHost fragment
    rw [node_modifyNode]
    split
    · cases hn : dom.node x with
      | none => rfl
      | some n => cases hd : n.data <;> simp [Node.modifyData, hd,
          NodeData.modifyDocumentFragment, NodeData.asDocumentFragment]
    · rfl
  · rw [isStylesheetCandidate, isStylesheetCandidate, ← setHost, helement]

theorem setDocumentFragmentHost_eq (dom : NativeDom) (f host : NativeNodeId) :
    (dom.setDocumentFragmentHost f host).2 = dom ∨ (dom.fragment f).isSome ∧
      (dom.setDocumentFragmentHost f host).2 = dom.setHost f host := by
  unfold setDocumentFragmentHost
  cases hf : (dom.node f).bind fun node => node.data.asDocumentFragment with
  | none => exact .inl rfl
  | some data =>
    by_cases hhost : data.host = some host
    · simp [hhost]
    · refine .inr ⟨by simp [fragment, hf], ?_⟩
      simp only [hhost]
      rfl

theorem Sound.setDocumentFragmentHost (h : Sound dom kids) {host : NativeNodeId}
    (hlt : host < dom.nodes.length) (hne : host ≠ f) (hfresh : Op.isFresh dom f = true) :
    Sound (dom.setDocumentFragmentHost f host).2 kids := by
  rcases dom.setDocumentFragmentHost_eq f host with heq | ⟨hfrag, heq⟩
  · rwa [heq]
  · rw [heq]
    obtain ⟨-, hfragment, hgrown, -⟩ := dom.setHost_spec f host
    refine ⟨h.linked.of_host hgrown (h.linked.parentNode_eq_none_of_fragment hfrag)
      (fun x hx => ?_) fun host' hhost' => ?_, h.registered.of_grown h.linked hgrown⟩
    · rw [host_eq, host_eq, hfragment, if_neg hx]
    · obtain ⟨data, hdata⟩ := Option.isSome_iff_exists.1 hfrag
      rw [host_eq, hfragment, if_pos rfl, hdata] at hhost'
      obtain rfl := Option.some.inj hhost'
      exact ⟨hlt.trans_le hgrown.length_le, h.not_above_of_isFresh hfresh hne⟩

theorem OwnedSlots.setDocumentFragmentHost (h : OwnedSlots dom) (hlinked : WellLinked dom kids)
    {host : NativeNodeId} (hnone : dom.host f = none) :
    OwnedSlots (dom.setDocumentFragmentHost f host).2 := by
  rcases dom.setDocumentFragmentHost_eq f host with heq | ⟨hfrag, heq⟩
  · rwa [heq]
  · rw [heq]
    obtain ⟨helement, hfragment, hgrown, howners, hconnected, hinerts⟩ := dom.setHost_spec f host
    -- no template has this fragment in its slot
    have hslot : ∀ template element contents, dom.element template = some element →
        element.templateContents = some contents → contents ≠ f := by
      rintro template element contents hel hcontents rfl
      rw [h.slotted template element contents hel hcontents] at hnone
      cases hnone
    have hhost : ∀ x, x ≠ f → (dom.setHost f host).host x = dom.host x := fun x hx => by
      rw [host_eq, host_eq, hfragment, if_neg hx]
    refine ⟨h.owned.of_grown hlinked hgrown (fun d o ho => ?_) (fun d o ho => hinerts ▸ ho)
      (fun x _ => by rw [howners, hconnected]; exact ⟨rfl, rfl⟩) fun x hx => .inl ⟨?_, ?_⟩,
      fun template element contents hel hcontents => ?_⟩
    · rw [hinerts] at ho ⊢
      exact h.owned.inertSound d o ho
    · simpa [setHost] using hx
    · intro template ht
      obtain ⟨element, hel, hcontents⟩ := exists_slot ht
      rw [helement] at hel
      exact templateContentsFragment_of_slot hel hcontents
        (h.slotted template element x hel hcontents)
    · rw [helement] at hel
      rw [hhost contents (hslot template element contents hel hcontents)]
      exact h.slotted template element contents hel hcontents

/-! ## Tree scopes -/

/-- A fragment becomes a tree scope whose nodes are all pending. -/
theorem Registered.openScope (h : WellLinked dom kids) (hreg : Registered dom kids [])
    (hf : dom.isDocumentFragment f = true) (hl : Lib.Preorder kids [f] l) :
    Registered
      { dom with candidatesByTreeScope := dom.candidatesByTreeScope.insert f [] } kids l := by
  have hmem : ∀ r, r ∈ dom.candidatesByTreeScope.insert f [] ↔
      r = f ∨ r ∈ dom.candidatesByTreeScope := fun r => by
    rw [Std.TreeMap.mem_insert, Std.LawfulEqCmp.compare_eq_iff_eq, eq_comm]
  have hroot : dom.parentNode f = none :=
    h.parentNode_eq_none_of_fragment (isDocumentFragment_eq ▸ hf)
  have hkey : ∀ r ∈ dom.candidatesByTreeScope.insert f [],
      dom.isDocument r = true ∨ dom.isDocumentFragment r = true := by
    intro r hr
    rcases (hmem r).1 hr with rfl | hr
    · exact .inr hf
    · exact hreg.key r hr
  refine ⟨fun r l' hr hpre => ?_, hkey⟩
  rcases eq_or_ne r f with rfl | hne
  · have hnil : candidatesIn dom ([] ++ l) l = [] := candidatesIn_eq_nil fun _ hx => hx
    rw [hpre.unique hl, Std.TreeMap.getElem?_insert_self]
    exact hnil.symm
  · have hscope : dom.isStylesheetCandidateTreeScope r = true := by
      rw [isStylesheetCandidateTreeScope_iff] at hr ⊢
      rcases hr with hr | hr
      · exact .inl hr
      · exact .inr (((hmem r).1 hr).resolve_left hne)
    have hentry : (dom.candidatesByTreeScope.insert f [])[r]? = dom.candidatesByTreeScope[r]? := by
      rw [Std.TreeMap.getElem?_insert, if_neg (by simpa using hne.symm)]
    change ((dom.candidatesByTreeScope.insert f [])[r]?).getD [] = candidatesIn dom l l'
    rw [hentry, hreg.registry r l' hscope hpre, ← List.nil_append l, candidatesIn_of_disjoint]
    intro x hx hxl
    exact hne ((hpre.above_of_mem h.isForest hx).root_eq (hreg.scope_root h hscope)
      (hl.above_of_mem h.isForest hxl) hroot)

theorem registerStylesheetCandidateTreeScope_spec (h : Sound dom kids) (f : NativeNodeId) :
    Ensures (· = .nodeLimit) (dom.registerStylesheetCandidateTreeScope f)
      fun dom' => Sound dom' kids ∧ (OwnedSlots dom → OwnedSlots dom') := by
  unfold registerStylesheetCandidateTreeScope
  cases hn : dom.node f with
  | none => exact ⟨h, id⟩
  | some node =>
  by_cases hskip : (!node.isDocumentFragment || dom.candidatesByTreeScope.contains f) = true
  · simp only [hskip]
    exact ⟨h, id⟩
  · simp only [hskip]
    have hf : dom.isDocumentFragment f = true := by
      simp only [Bool.or_eq_true, Bool.not_eq_true', not_or] at hskip
      simp [isDocumentFragment, hn, hskip.1]
    have hfrag : (dom.fragment f).isSome := isDocumentFragment_eq ▸ hf
    obtain ⟨l, hl⟩ := h.linked.exists_preorder [f]
    have hroot : dom.parentNode f = none := h.linked.parentNode_eq_none_of_fragment hfrag
    -- the scope is opened with an empty registry and then filled
    set registered :=
      { dom with candidatesByTreeScope := dom.candidatesByTreeScope.insert f [] } with hregistered
    have hkeeps : Keeps dom registered := (Keeps.refl dom).withCandidates _
    have hlinked : WellLinked registered kids := h.linked.of_keeps hkeeps rfl
    have hready : OwnedSlots dom →
        Retargetable registered f node.ownerDocument node.flags.connected := by
      intro howned
      have hfits := howned.owned.fits (lt_length_of_node hn)
      have howner : dom.ownerDocument f = node.ownerDocument := by
        simp [NativeDom.ownerDocument, hn]
      have hconnected : dom.connected f = node.flags.connected := by simp [NativeDom.connected, hn]
      rw [howner, hconnected] at hfits
      have howned' := howned.owned.withCandidates (dom.candidatesByTreeScope.insert f [])
      exact ⟨⟨howned'.inertSound, fun x hx _ => howned'.fits hx⟩, isDocument_of_fragment hfrag,
        ⟨hfits.child, hfits.root, hfits.contents, hfits.owned⟩⟩
    have hreg : Registered registered kids ([] ++ l) := h.registered.openScope h.linked hf hl
    refine (retargetAndRegister_spec hlinked hreg (lt_length_of_node hn) hl
      (.refl hlinked.groundedParent f) hroot node.ownerDocument node.flags.connected false true
      fun _ => rfl).bind ?_
    rintro ⟨changes, dom'⟩ ⟨hkeeps', hlinks', -, -, hreg', howned'⟩
    exact ⟨⟨hlinked.of_keeps hkeeps' hlinks', hreg' rfl⟩, fun howned =>
      howned.of_keeps (hkeeps.trans hkeeps') (howned' (hready howned))⟩

/-! ## Adoption and removal -/

theorem adoptNode_spec (h : Sound dom kids) (document c : NativeNodeId) :
    Ensures (· = .nodeLimit) (dom.adoptNode document c)
      fun (_, dom') => Sound dom' kids ∧ (OwnedSlots dom → dom.parentNode c = none →
        (∀ template, dom.templateContentsFragment template ≠ some c) → OwnedSlots dom') := by
  unfold adoptNode
  cases hdocument : dom.isDocument document with
  | false => exact ⟨h, fun howned _ _ => howned⟩
  | true =>
  cases hn : dom.node c with
  | none => exact ⟨h, fun howned _ _ => howned⟩
  | some n =>
  cases hndoc : n.isDocument with
  | true =>
    simp only [Option.any_some, hndoc]
    exact ⟨h, fun howned _ _ => howned⟩
  | false =>
    have hclen := lt_length_of_node hn
    have hcdoc : dom.isDocument c = false := by simp [isDocument, hn, hndoc]
    have hready : (OwnedSlots dom ∧ dom.parentNode c = none ∧
        ∀ template, dom.templateContentsFragment template ≠ some c) →
        Retargetable dom c (some document) false := by
      rintro ⟨howned, hparent, hcontents⟩
      refine ⟨⟨howned.owned.inertSound, fun x hx _ => howned.owned.fits hx⟩, hcdoc, fun p hp => ?_,
        fun _ _ => rfl, fun template ht => absurd ht (hcontents template),
        fun _ => ⟨document, rfl, hdocument⟩⟩
      rw [hparent] at hp
      cases hp
    simp only [Option.any_some, hndoc, markSubtreeTreeScopeCollectingStylesheetOwners, bind_assoc]
    refine ((retarget_spec h.linked hclen (some document) false false _).and_imp fun hpre =>
      retarget_owned h.linked hclen (hready hpre) false _).bind ?_
    rintro ⟨traversal, dom'⟩ ⟨hdom, howned'⟩
    refine ⟨h.of_keeps hdom.keeps hdom.links hdom.candidates, fun howned hparent hcontents => ?_⟩
    exact howned.of_keeps hdom.keeps (howned' ⟨howned, hparent, hcontents⟩)

/-- Detaching takes the node out of its child list, and the registries follow. -/
theorem detachFromParent_spec (h : Sound dom kids) (c : NativeNodeId) :
    Ensures (· = .nodeLimit) (dom.detachFromParent c)
      fun dom' => Sound dom' (removed kids [c]) ∧ (OwnedSlots dom → OwnedSlots dom') := by
  obtain ⟨m, hm⟩ := h.linked.exists_preorder [c]
  refine (detach_spec h.linked h.registered hm (by simp)).bind ?_
  rintro ⟨changes, dom'⟩ ⟨hlinked, hreg, hkeeps, -, -, howned⟩
  exact ⟨⟨hlinked, hreg⟩, fun hslots => hslots.of_keeps hkeeps (howned hslots.owned)⟩

/-- Only a child is removed; the answer says whether it was one. -/
theorem removeChild_spec (h : Sound dom kids) (p c : NativeNodeId) :
    Ensures (· = .nodeLimit) (dom.removeChild p c)
      fun (wasRemoved, dom') => wasRemoved = decide (c ∈ kids p) ∧
        (wasRemoved = false → dom' = dom) ∧
        (wasRemoved = true → Sound dom' (removed kids [c])) ∧
        (OwnedSlots dom → OwnedSlots dom') := by
  unfold removeChild
  by_cases hp : dom.parentNode c = some p
  · have hmem := h.linked.mem_kids.2 hp
    simp only [hp, ne_eq]
    refine (detachFromParent_spec h c).bind fun dom' hpost => ?_
    exact ⟨by simp [hmem], nofun, fun _ => hpost.1, hpost.2⟩
  · have hmem : c ∉ kids p := fun hmem => hp (h.linked.mem_kids.1 hmem)
    simp only [hp, ne_eq]
    exact ⟨by simp [hmem], fun _ => rfl, nofun, id⟩

/-! ## New documents -/

theorem node_newWith {document : Document} : (newWith document).node x = if x = 0 then
    some (Node.new none none (.new true) (.document document)) else none := by
  cases x <;> rfl

theorem Sound.newWith (document : Document) : Sound (newWith document) fun _ => [] := by
  have hget : ∀ {β : Type} (get : Node → Option β) (x : NativeNodeId),
      get (Node.new none none (.new true) (.document document)) = none →
      ((NativeDom.newWith document).node x).bind get = none := by
    intro β get x hnone
    rw [node_newWith]
    split
    · exact hnone
    · rfl
  have hup : ∀ x, (NativeDom.newWith document).up x = none := fun x => by
    rw [up, show (NativeDom.newWith document).parentNode x = none from hget _ x rfl,
      show (NativeDom.newWith document).host x = none from hget _ x rfl]
    rfl
  refine ⟨⟨⟨fun p => hget _ p rfl, fun p => hget _ p rfl, fun p c => ?_⟩,
    fun x => ⟨[x], rfl, hup x⟩,
    fun c p hp => ?_, fun f host hf => ?_, fun c p hp => ?_⟩, fun r l hr hpre => ?_, fun r hr => ?_⟩
  · simp [show (NativeDom.newWith document).links.parent c = none from hget _ c rfl]
  · rw [show (NativeDom.newWith document).parentNode c = none from hget _ c rfl] at hp
    cases hp
  · rw [show (NativeDom.newWith document).host f = none from hget _ f rfl] at hf
    cases hf
  · rw [show (NativeDom.newWith document).parentNode c = none from hget _ c rfl] at hp
    cases hp
  · cases hpre with
    | cons hpre =>
      cases hpre
      have hcand : (NativeDom.newWith document).isStylesheetCandidate r = false := by
        rw [isStylesheetCandidate, show (NativeDom.newWith document).element r = none from
          hget _ r rfl]
        rfl
      have hentry : (NativeDom.newWith document).candidatesByTreeScope[r]? = none := by
        simp [NativeDom.newWith]
      simp [candidatesIn, hcand, hentry]
  · simp [NativeDom.newWith] at hr

theorem OwnedSlots.newWith {document : Document} (hinert : document.isInertTemplateDocument = false)
    (hassociated : document.associatedInertTemplateDocument = none) :
    OwnedSlots (newWith document) := by
  have helement : ∀ x, (NativeDom.newWith document).element x = none := fun x => by
    rw [element, node_newWith]
    split <;> rfl
  have hnone : ∀ x, (NativeDom.newWith document).inertOwner x = none := fun x => by
    rw [inertOwner, node_newWith]
    split
    · simp [Node.new, Node.asDocument, NodeData.asDocument, hinert, hassociated]
    · rfl
  refine ⟨⟨fun d o ho => ?_, fun x hx _ => ?_⟩, fun template element contents hel => ?_⟩
  · rw [hnone] at ho
    cases ho
  · obtain rfl : x = 0 := Nat.lt_one_iff.1 hx
    refine ⟨fun p hp => (by cases hp), fun _ hd => (by cases hd), fun template ht => ?_,
      fun hd => (by cases hd)⟩
    obtain ⟨element, hel, -⟩ := exists_slot ht
    rw [helement] at hel
    cases hel
  · rw [helement] at hel
    cases hel

end NativeDom

open NativeDom

variable {dom : NativeDom} {kids : Kids}

/-! ## Runs -/

theorem Op.createNode_run_spec (h : Sound dom kids) {data : NodeData}
    {ownerDocument : Option NativeNodeId} {connected inDocumentTree : Bool}
    (hfresh : (createNode data ownerDocument connected inDocumentTree).hostsFresh dom = true) :
    Ensures (· = .nodeLimit)
      ((createNode data ownerDocument connected inDocumentTree).run dom) fun dom' =>
        (∃ kids', Sound dom' kids') ∧ (OwnedSlots dom →
          (createNode data ownerDocument connected inDocumentTree).orderly dom = true →
          OwnedSlots dom') := by
  refine (createNode_spec ..).bind ?_
  rintro _ rfl
  refine ⟨⟨kids, h.push fun host hhost => ?_⟩, fun howned horderly => howned.push h.linked ?_⟩
  · cases data with
    | documentFragment fragment =>
      simp only [NodeData.asDocumentFragment, Option.bind_some] at hhost
      simpa [hostsFresh, hhost] using hfresh
    | _ => cases hhost
  · cases data with
    | document document =>
      simp only [orderly, hfresh, Bool.true_and, Bool.and_eq_true, Bool.not_eq_true',
        Option.isNone_iff_eq_none] at horderly
      refine ⟨fun d hd => ?_, fun hne => absurd rfl hne, fun _ he => (by cases he)⟩
      cases hd
      exact horderly
    | element element =>
      simp only [orderly, hfresh, Bool.true_and, Bool.and_eq_true, Bool.not_eq_true',
        Option.isNone_iff_eq_none] at horderly
      refine ⟨fun _ hd => (by cases hd), fun _ => ⟨horderly.1.2, ?_⟩, fun e he => ?_⟩
      · simpa [Option.any_eq_true] using horderly.2
      · cases he
        exact horderly.1.1
    | _ =>
      simp only [orderly, hfresh, Bool.true_and, Bool.and_eq_true, Bool.not_eq_true'] at horderly
      refine ⟨fun _ hd => (by cases hd), fun _ => ⟨horderly.1, ?_⟩, fun _ he => (by cases he)⟩
      simpa [Option.any_eq_true] using horderly.2

/-- An insertion keeps the invariants whether it succeeds or not. -/
theorem NativeDom.Sound.of_inserted (h : Sound dom kids) {p c : NativeNodeId}
    {ref : Option NativeNodeId} {inserted : Bool} {dom' : NativeDom}
    (hpost : (inserted = false → dom' = dom) ∧ (inserted = true → Inserted dom kids p c ref dom')) :
    (∃ kids', Sound dom' kids') ∧ (OwnedSlots dom → OwnedSlots dom') := by
  cases inserted with
  | false =>
    rw [hpost.1 rfl]
    exact ⟨⟨kids, h⟩, id⟩
  | true =>
    have hinserted := hpost.2 rfl
    exact ⟨⟨_, hinserted.linked, hinserted.registered⟩, fun howned =>
      howned.of_keeps hinserted.keeps (hinserted.owned howned.owned)⟩

/-- One operation keeps links and registries, and owners if it is orderly. -/
theorem Op.run_spec (h : Sound dom kids) (op : Op) (hfresh : op.hostsFresh dom = true) :
    Ensures (· = .nodeLimit) (op.run dom) fun dom' => (∃ kids', Sound dom' kids') ∧
      (OwnedSlots dom → op.orderly dom = true → OwnedSlots dom') := by
  cases op with
  | createNode data ownerDocument connected inDocumentTree => exact createNode_run_spec h hfresh
  | createElement documentHandle element =>
    refine (allocateElementForDocument_spec h documentHandle element).bind fun _ hpost => ?_
    refine ⟨⟨kids, hpost.1⟩, fun howned horderly => ?_⟩
    simp only [orderly, hfresh, Bool.true_and, Bool.and_eq_true, Option.isNone_iff_eq_none]
      at horderly
    exact hpost.2 howned horderly.1 horderly.2
  | createTemplateContentsFragment documentHandle host =>
    have hhost : ∀ x, host = some x → x < dom.nodes.length := by
      rintro x rfl
      simpa [hostsFresh] using hfresh
    refine (createTemplateContentsFragment_spec h documentHandle hhost).bind fun _ hcreated => ?_
    refine ⟨⟨kids, hcreated.sound⟩, fun howned horderly => ?_⟩
    rw [orderly, hfresh] at horderly
    exact (hcreated.owned howned horderly).1
  | setDocumentFragmentHost fragment host =>
    have hguard := hfresh
    simp only [hostsFresh, Bool.and_eq_true, decide_eq_true_eq] at hguard
    refine ⟨⟨kids, h.setDocumentFragmentHost hguard.1.1 hguard.1.2 hguard.2⟩,
      fun howned horderly => howned.setDocumentFragmentHost h.linked ?_⟩
    simpa [orderly, hfresh] using horderly
  | registerStylesheetCandidateTreeScope treeScope =>
    exact (registerStylesheetCandidateTreeScope_spec h treeScope).mono fun _ hpost =>
      ⟨⟨kids, hpost.1⟩, fun howned _ => hpost.2 howned⟩
  | insertBefore parent child referenceChild =>
    refine (insertBefore_spec h.linked h.registered parent child referenceChild).bind
      fun _ hpost => ?_
    exact (h.of_inserted hpost).imp id fun howned hslots _ => howned hslots
  | appendChild parent child =>
    refine (insertBefore_spec h.linked h.registered parent child none).bind fun _ hpost => ?_
    exact (h.of_inserted hpost).imp id fun howned hslots _ => howned hslots
  | removeChild parent child =>
    refine (removeChild_spec h parent child).bind ?_
    rintro ⟨wasRemoved, dom'⟩ ⟨-, hfalse, htrue, howned⟩
    refine ⟨?_, fun hslots _ => howned hslots⟩
    cases wasRemoved with
    | false => exact ⟨kids, (hfalse rfl) ▸ h⟩
    | true => exact ⟨_, htrue rfl⟩
  | detachFromParent child =>
    exact (detachFromParent_spec h child).mono fun _ hpost =>
      ⟨⟨_, hpost.1⟩, fun howned _ => hpost.2 howned⟩
  | adoptNode documentHandle handle =>
    refine (adoptNode_spec h documentHandle handle).bind fun _ hpost => ?_
    refine ⟨⟨kids, hpost.1⟩, fun howned horderly => ?_⟩
    simp only [orderly, hfresh, Bool.true_and, Bool.and_eq_true, Option.isNone_iff_eq_none,
      List.all_eq_true, List.mem_range, decide_eq_true_eq] at horderly
    refine hpost.2 howned horderly.1 fun template ht => horderly.2 template ?_ ht
    obtain ⟨element, hel, -⟩ := exists_slot ht
    obtain ⟨n, hn, -⟩ := Option.bind_eq_some_iff.1 hel
    exact lt_length_of_node hn

theorem Reachable.sound (h : Reachable Op.hostsFresh dom) : ∃ kids, Sound dom kids := by
  induction h with
  | newHtml | newXml => exact ⟨_, .newWith _⟩
  | step op _ hadmits hrun ih =>
    obtain ⟨kids, hsound⟩ := ih
    exact ((op.run_spec hsound hadmits).of_ok hrun).1

theorem Reachable.of_orderly (h : Reachable Op.orderly dom) : Reachable Op.hostsFresh dom := by
  induction h with
  | newHtml => exact .newHtml
  | newXml => exact .newXml
  | step op _ hadmits hrun ih => exact .step op ih (Bool.and_eq_true_iff.1 hadmits).1 hrun

theorem Reachable.owned (h : Reachable Op.orderly dom) : OwnedSlots dom := by
  induction h with
  | newHtml | newXml => exact .newWith rfl rfl
  | step op hreach hadmits hrun ih =>
    obtain ⟨kids, hsound⟩ := hreach.of_orderly.sound
    exact ((op.run_spec hsound (Bool.and_eq_true_iff.1 hadmits).1).of_ok hrun).2 ih hadmits

end Moli.Dom

import Moli.Dom.Verify.Operations

/-!
# What holds in every reachable state

* `mutation_exact`: the links spell out child lists, the relation "parent or fragment host" has no
  cycle, and insertion and removal change the child lists as they should or not at all;
* `registries_in_tree_order`: every registry of stylesheet candidates is what a traversal of its
  tree would collect, and the consistency checks of the registry never fire;
* `owners_uniform`: owner documents and connectedness are the same over every tree, and the contents
  of templates belong to inert documents.
-/

namespace Moli.Dom

open Lib NativeDom

variable {dom : NativeDom}

namespace NativeDom

/-- The child lists that the links of the nodes spell out. -/
structure ChildLists (dom : NativeDom) (kids : Kids) : Prop where
  forward : ∀ p, Follows dom.nextSibling (dom.firstChild p) (kids p)
  backward : ∀ p, Follows dom.previousSibling (dom.lastChild p) (kids p).reverse
  last : ∀ p, dom.lastChild p = (kids p).getLast?
  nodup : ∀ p, (kids p).Nodup
  mem_iff : ∀ p c, c ∈ kids p ↔ dom.parentNode c = some p
  childIds : ∀ p, dom.childIds p = .ok (kids p)

def ParentOrHost (dom : NativeDom) (c p : NativeNodeId) : Prop :=
  dom.parentNode c = some p ∨ dom.host c = some p

/-- The moved nodes leave their child lists and stand, in order, right before the reference child or
at the end; an inserted fragment is empty. -/
def InsertedBefore (dom : NativeDom) (kids : Kids) (p c : NativeNodeId)
    (ref : Option NativeNodeId) (dom' : NativeDom) : Prop :=
  ∃ kids' before after, ChildLists dom' kids' ∧
    removed kids (dom.insertedNodes kids c) p = before ++ after ∧
    after.head? = dom.insertionReference c ref ∧
    kids' p = before ++ dom.insertedNodes kids c ++ after ∧
    (∀ q, q ≠ p → kids' q = removed kids (dom.insertedNodes kids c) q) ∧
    (dom.isDocumentFragment c = true → kids' c = [])

variable {kids : Kids}

theorem WellLinked.childLists (h : WellLinked dom kids) : ChildLists dom kids :=
  ⟨h.represents.forward, h.represents.backward, h.represents.last_eq, h.represents.nodup,
    fun _ _ => h.mem_kids, h.childIds_eq⟩

theorem Inserted.insertedBefore {p c : NativeNodeId} {ref : Option NativeNodeId} {dom' : NativeDom}
    (hlinked : WellLinked dom kids) (h : Inserted dom kids p c ref dom') :
    InsertedBefore dom kids p c ref dom' := by
  obtain ⟨before, after, hsplit, hhead, hplace⟩ := exists_split h.reference
  refine ⟨_, before, after, h.linked.childLists, hsplit, hhead.symm, ?_, fun q hq => moved_of_ne hq,
    fun hfrag => ?_⟩
  · rw [moved_self, hplace]
  · have hne : c ≠ p := by
      rintro rfl
      exact h.acyclic (.refl hlinked.grounded c)
    rw [moved_of_ne hne, insertedNodes, if_pos hfrag]
    exact List.filter_eq_nil_iff.2 fun x hx => by simpa using hx

theorem WellLinked.acyclic (h : WellLinked dom kids) (x : NativeNodeId) :
    ¬ Relation.TransGen dom.ParentOrHost x x := by
  have hup : dom.ParentOrHost = fun c p => dom.up c = some p := by
    funext c p
    exact propext h.up_iff.symm
  rw [hup]
  exact h.grounded.acyclic x

end NativeDom

/-! ## Trees -/

/-- Child lists are exact in every reachable tree, and so is what each mutation does to them. -/
theorem mutation_exact (h : Reachable Op.hostsFresh dom) : ∃ kids, ChildLists dom kids ∧
    (∀ x, ¬ Relation.TransGen dom.ParentOrHost x x) ∧
    (∀ c x, ∃ found, dom.isHostIncludingInclusiveAncestor c x = .ok found) ∧
    (∀ p c ref, Ensures (· = .nodeLimit) (dom.insertBefore p c ref) fun (inserted, dom') =>
      (inserted = false → dom' = dom) ∧
      (inserted = true → InsertedBefore dom kids p c ref dom')) ∧
    (∀ p c, Ensures (· = .nodeLimit) (dom.removeChild p c) fun (wasRemoved, dom') =>
      wasRemoved = decide (c ∈ kids p) ∧ (wasRemoved = false → dom' = dom) ∧
      (wasRemoved = true → ChildLists dom' (removed kids [c]))) ∧
    (∀ c, Ensures (· = .nodeLimit) (dom.detachFromParent c) fun dom' =>
      ChildLists dom' (removed kids [c])) := by
  obtain ⟨kids, hsound⟩ := h.sound
  refine ⟨kids, hsound.linked.childLists, hsound.linked.acyclic, fun c x => ?_, fun p c ref => ?_,
    fun p c => ?_, fun c => ?_⟩
  · obtain ⟨found, heq, -⟩ := hsound.linked.isHostIncludingInclusiveAncestor_eq c x
    exact ⟨found, heq⟩
  · exact (insertBefore_spec hsound.linked hsound.registered p c ref).mono fun _ hpost =>
      ⟨hpost.1, fun htrue => (hpost.2 htrue).insertedBefore hsound.linked⟩
  · exact (removeChild_spec hsound p c).mono fun _ hpost =>
      ⟨hpost.1, hpost.2.1, fun htrue => (hpost.2.2.1 htrue).linked.childLists⟩
  · exact (detachFromParent_spec hsound c).mono fun _ hpost => hpost.1.linked.childLists

/-- A fragment with two children is inserted before the only child of the document. -/
theorem mutation_exact_fragment : ∃ dom kids, Reachable Op.hostsFresh dom ∧ ChildLists dom kids ∧
    kids 0 = [3, 4, 1] ∧ kids 2 = [] := by
  have h : Reachable Op.hostsFresh _ := Reachable.newHtml.of_runAll
    [.createElement 0 (.newHtml "html"), .createNode (.documentFragment {}) (some 0) false false,
      .createNode .comment (some 0) false false, .createNode .comment (some 0) false false,
      .appendChild 0 1, .appendChild 2 3, .appendChild 2 4, .insertBefore 0 2 (some 1)] rfl
  obtain ⟨kids, hlists, -⟩ := mutation_exact h
  exact ⟨_, kids, h, hlists, Except.ok.inj ((hlists.childIds 0).symm.trans rfl),
    Except.ok.inj ((hlists.childIds 2).symm.trans rfl)⟩

/-! ## Registries -/

/-- Every registry lists the candidates of its scope in tree order. -/
theorem registries_in_tree_order (h : Reachable Op.hostsFresh dom) :
    (∃ kids, ChildLists dom kids ∧ ∀ r, dom.isStylesheetCandidateTreeScope r = true →
      ∃ l, Lib.Preorder kids [r] l ∧
        dom.stylesheetCandidateHandlesForTreeScope r = l.filter dom.isStylesheetCandidate ∧
        (dom.stylesheetCandidateHandlesForTreeScope r).Nodup ∧
        ∀ x, x ∈ dom.stylesheetCandidateHandlesForTreeScope r ↔
          dom.isStylesheetCandidate x = true ∧ dom.rootNodeId x = .ok r) ∧
    ∀ op : Op, op.hostsFresh dom = true →
      Ensures (· = .nodeLimit) (op.run dom) fun _ => True := by
  obtain ⟨kids, hsound⟩ := h.sound
  refine ⟨⟨kids, hsound.linked.childLists, fun r hr => ?_⟩, fun op hfresh =>
    (op.run_spec hsound hfresh).mono fun _ _ => trivial⟩
  obtain ⟨l, hl⟩ := hsound.linked.exists_preorder [r]
  have hregistry : dom.stylesheetCandidateHandlesForTreeScope r =
      l.filter dom.isStylesheetCandidate := by
    rw [stylesheetCandidateHandlesForTreeScope, if_pos hr, hsound.registered.registry r l hr hl,
      candidatesIn_eq_filter (by simp)]
  have hroot := hsound.registered.scope_root hsound.linked hr
  refine ⟨l, hl, hregistry, hregistry ▸ (hl.nodup hsound.linked.isForest).filter _, fun x => ?_⟩
  rw [hregistry, List.mem_filter, hl.mem_iff hsound.linked.isForest hsound.linked.complete]
  obtain ⟨r', heq, habove, hroot'⟩ := hsound.linked.rootNodeId_spec x
  simp only [List.mem_singleton, exists_eq_left, heq, Except.ok.injEq]
  constructor
  · rintro ⟨hrx, hcand⟩
    exact ⟨hcand, habove.sibling_eq hrx (hroot'.trans hroot.symm)⟩
  · rintro ⟨hcand, rfl⟩
    exact ⟨habove, hcand⟩

/-- Two `style` elements, one of them below a registered shadow root. -/
theorem registries_in_tree_order_shadow : ∃ dom, Reachable Op.hostsFresh dom ∧
    dom.stylesheetCandidateHandlesForTreeScope 0 = [2] ∧
    dom.stylesheetCandidateHandlesForTreeScope 3 = [4] ∧
    (dom.stylesheetCandidateHandlesForTreeScope 3).Nodup := by
  have h : Reachable Op.hostsFresh _ := Reachable.newHtml.of_runAll
    [.createElement 0 (.newHtml "div"), .createElement 0 (.newHtml "style"),
      .createNode (.documentFragment {}) (some 0) false false, .createElement 0 (.newHtml "style"),
      .appendChild 0 1, .appendChild 1 2, .setDocumentFragmentHost 3 1,
      .registerStylesheetCandidateTreeScope 3, .appendChild 3 4] rfl
  obtain ⟨⟨kids, -, hscopes⟩, -⟩ := registries_in_tree_order h
  obtain ⟨l, -, -, hnodup, -⟩ := hscopes 3 rfl
  exact ⟨_, h, rfl, rfl, hnodup⟩

/-! ## Owners -/

/-- A child has its parent's owner and connectedness; template contents have the inert document. -/
theorem owners_uniform (h : Reachable Op.orderly dom) :
    (∀ p c, dom.parentNode c = some p →
      dom.ownerDocument c = (if dom.isDocument p then some p else dom.ownerDocument p) ∧
      dom.connected c = dom.connected p) ∧
    (∀ x, dom.parentNode x = none → dom.isDocument x = false → dom.connected x = false) ∧
    ∀ template contents, dom.templateContentsFragment template = some contents →
      ∃ document inert, dom.ownerDocument template = some document ∧
        dom.inertOwner document = some inert ∧ dom.inertOwner inert = some inert ∧
        dom.ownerDocument contents = some inert := by
  have howned := h.owned.owned
  refine ⟨fun p c hp => (howned.fits (lt_length_of_parentNode hp)).child p hp,
    fun x hp hdoc => ?_, fun template contents ht => ?_⟩
  · rcases Nat.lt_or_ge x dom.nodes.length with hlt | hge
    · exact (howned.fits hlt).root hp hdoc
    · rw [connected, node, List.getElem?_eq_none hge]
      rfl
  · obtain ⟨document, inert, howner, hinert, hcontents⟩ :=
      (howned.fits (lt_length_of_templateContentsFragment ht)).contents template ht
    exact ⟨document, inert, howner, hinert, howned.inertSound document inert hinert, hcontents⟩

/-- A template moves to another document and its contents follow to that document's inert one. -/
theorem owners_uniform_template : ∃ dom, Reachable Op.orderly dom ∧
    dom.ownerDocument 1 = some 4 ∧ dom.inertOwner 4 = some 5 ∧ dom.ownerDocument 3 = some 5 := by
  have h : Reachable Op.orderly _ := Reachable.newHtml.of_runAll
    [.createElement 0 (.newHtml "template"), .createNode (.document .newHtml) none false false,
      .appendChild 4 1] rfl
  obtain ⟨document, inert, howner, hinert, -, hcontents⟩ := (owners_uniform h).2.2 1 3 rfl
  obtain rfl : 4 = document := Option.some.inj ((show _ = some 4 from rfl).symm.trans howner)
  obtain rfl : 5 = inert := Option.some.inj ((show _ = some 5 from rfl).symm.trans hinert)
  exact ⟨_, h, howner, hinert, hcontents⟩

/-- The two adoptions that break uniformity: of a node that still has a parent, and of the contents
of a template, which leaves the template behind. -/
theorem adoption_of_attached_or_contents :
    (∃ dom, Reachable Op.hostsFresh dom ∧ dom.parentNode 1 = some 0 ∧ dom.isDocument 0 = true ∧
      dom.ownerDocument 1 = some 2 ∧ dom.connected 0 = true ∧ dom.connected 1 = false) ∧
    ∃ dom, Reachable Op.hostsFresh dom ∧ dom.templateContentsFragment 1 = some 3 ∧
      dom.ownerDocument 1 = some 0 ∧ dom.inertOwner 0 = some 2 ∧
      dom.ownerDocument 3 = some 4 := by
  have hattached : Reachable Op.hostsFresh _ := Reachable.newHtml.of_runAll
    [.createElement 0 (.newHtml "html"), .createNode (.document .newHtml) none false false,
      .appendChild 0 1, .adoptNode 2 1] rfl
  have hcontents : Reachable Op.hostsFresh _ := Reachable.newHtml.of_runAll
    [.createElement 0 (.newHtml "template"), .createNode (.document .newHtml) none false false,
      .adoptNode 4 3] rfl
  exact ⟨⟨_, hattached, rfl, rfl, rfl, rfl, rfl⟩, _, hcontents, rfl, rfl, rfl, rfl⟩

end Moli.Dom

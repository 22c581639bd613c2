import Moli.Dom.Verify.Arena

/-!
# The tree behind the links

`WellLinked dom kids` is the invariant of the arena: its links spell out the child lists `kids`,
every walk along parents and hosts ends, and links lead to existing nodes of the right kind. Under
it the walks of the source return (`childIds_eq`, `isHostIncludingInclusiveAncestor_eq`,
`rootNodeId_spec`, `ancestorChain_eq`), and the pointer updates of removal and insertion are the
edits of one child list (`unlinkChild_spec`, `linkChild_spec`).
-/

/-- The child list of every node. -/
abbrev Moli.Dom.Kids := NativeNodeId → List NativeNodeId

namespace Moli.Dom.NativeDom

open Lib

variable {dom dom' : NativeDom} {kids : Kids}
variable {c p x y : NativeNodeId} {xs ys l : List NativeNodeId}

structure WellLinked (dom : NativeDom) (kids : Kids) : Prop where
  represents : dom.links.Represents kids
  grounded : Grounded dom.up
  parent_lt : ∀ c p, dom.parentNode c = some p → p < dom.nodes.length
  host_lt : ∀ f h, dom.host f = some h → h < dom.nodes.length
  child_type : ∀ c p, dom.parentNode c = some p →
    dom.nodeType c ≠ some .documentFragment ∧ dom.nodeType c ≠ some .document

/-- The part of the invariant that is about the tree alone. -/
structure TreeLinked (dom : NativeDom) (kids : Kids) : Prop where
  represents : dom.links.Represents kids
  grounded : Grounded dom.parentNode
  parent_lt : ∀ c p, dom.parentNode c = some p → p < dom.nodes.length

/-- The second state differs in links only. -/
structure Relinked (dom dom' : NativeDom) : Prop where
  length_eq : dom'.nodes.length = dom.nodes.length
  content : ∀ x, (dom'.node x).map (fun n => (n.ownerDocument, n.flags, n.data)) =
    (dom.node x).map fun n => (n.ownerDocument, n.flags, n.data)
  candidates : dom'.candidatesByTreeScope = dom.candidatesByTreeScope
  documentNodeId : dom'.documentNodeId = dom.documentNodeId

namespace Relinked

theorem trans {dom'' : NativeDom} (h : Relinked dom dom') (h' : Relinked dom' dom'') :
    Relinked dom dom'' where
  length_eq := h'.length_eq.trans h.length_eq
  content x := (h'.content x).trans (h.content x)
  candidates := h'.candidates.trans h.candidates
  documentNodeId := h'.documentNodeId.trans h.documentNodeId

theorem modifyNode {i : NativeNodeId} {f : Node → Node} (hf : ∀ n,
    (f n).ownerDocument = n.ownerDocument ∧ (f n).flags = n.flags ∧ (f n).data = n.data) :
    Relinked dom (dom.modifyNode i f) where
  length_eq := length_modifyNode
  content x := by
    rw [node_modifyNode]
    split
    · cases dom.node x <;> simp [hf]
    · rfl
  candidates := rfl
  documentNodeId := rfl

variable (h : Relinked dom dom')
include h

/-- Whatever is read from a node's owner, flags and data is unchanged. -/
theorem bind_node {β : Type} (get : Option NativeNodeId × NodeFlags × NodeData → Option β)
    (x : NativeNodeId) :
    ((dom'.node x).bind fun n => get (n.ownerDocument, n.flags, n.data)) =
      (dom.node x).bind fun n => get (n.ownerDocument, n.flags, n.data) := by
  have hx := congrArg (Option.bind · get) (h.content x)
  simpa [Option.bind_map] using hx

theorem nodeType (x : NativeNodeId) : dom'.nodeType x = dom.nodeType x := by
  simpa [NativeDom.nodeType, Node.nodeType, Option.map_eq_bind, Function.comp_def] using
    h.bind_node (fun content => some content.2.2.nodeType) x

theorem ownerDocument : dom'.ownerDocument = dom.ownerDocument :=
  funext (h.bind_node Prod.fst)

theorem keeps : Keeps dom dom' where
  length_le := h.length_eq.ge
  element := funext (h.bind_node fun content => content.2.2.asElement)
  fragment := funext (h.bind_node fun content => content.2.2.asDocumentFragment)
  nodeType x _ := h.nodeType x
  added x hx hx' := absurd hx (by have := h.length_eq; omega)
  documentNodeId := h.documentNodeId

end Relinked

theorem up_of_parentNode (hp : dom.parentNode c = some p) : dom.up c = some p := by
  simp [up, hp]

theorem links_congr {links : ChildLinks NativeNodeId} (h : dom.links = links) :
    dom.parentNode = links.parent ∧ dom.firstChild = links.first ∧ dom.lastChild = links.last ∧
      dom.nextSibling = links.next ∧ dom.previousSibling = links.prev := by
  subst h
  exact ⟨rfl, rfl, rfl, rfl, rfl⟩

namespace TreeLinked

variable (h : TreeLinked dom kids)
include h

theorem mem_kids : c ∈ kids p ↔ dom.parentNode c = some p := (h.represents.parent_iff p c).symm

theorem complete (p c : NativeNodeId) (hp : dom.parentNode c = some p) : c ∈ kids p :=
  h.mem_kids.2 hp

theorem isForest : IsForest dom.parentNode kids where
  up_eq _ _ hc := h.mem_kids.1 hc
  nodup := h.represents.nodup
  grounded := h.grounded

theorem kids_lt (hc : c ∈ kids p) : c < dom.nodes.length :=
  lt_length_of_parentNode (h.mem_kids.1 hc)

end TreeLinked

namespace WellLinked

theorem of_links (h : WellLinked dom kids) (hlength : dom.nodes.length ≤ dom'.nodes.length)
    (hlinks : dom'.links = dom.links) (hhost : dom'.host = dom.host)
    (htype : ∀ x, x < dom.nodes.length → dom'.nodeType x = dom.nodeType x) :
    WellLinked dom' kids := by
  have hparent : dom'.parentNode = dom.parentNode := (links_congr hlinks).1
  have hup : dom'.up = dom.up := by
    unfold up
    rw [hhost, hparent]
  refine ⟨hlinks ▸ h.represents, hup ▸ h.grounded, fun c p hp => ?_, fun f host hf => ?_,
    fun c p hp => ?_⟩
  · rw [hparent] at hp
    exact (h.parent_lt c p hp).trans_le hlength
  · rw [hhost] at hf
    exact (h.host_lt f host hf).trans_le hlength
  · rw [hparent] at hp
    rw [htype c (lt_length_of_parentNode hp)]
    exact h.child_type c p hp

theorem of_keeps (h : WellLinked dom kids) (hkeeps : Keeps dom dom')
    (hlinks : dom'.links = dom.links) : WellLinked dom' kids :=
  h.of_links hkeeps.length_le hlinks hkeeps.host hkeeps.nodeType

variable (h : WellLinked dom kids)
include h

theorem mem_kids : c ∈ kids p ↔ dom.parentNode c = some p := (h.represents.parent_iff p c).symm

theorem parentNode_of_isDocument (hx : dom.isDocument x = true) : dom.parentNode x = none := by
  cases hp : dom.parentNode x with
  | none => rfl
  | some p => exact absurd (by simpa [isDocument_eq] using hx) (h.child_type x p hp).2

theorem isDocument_of_parentNode (hp : dom.parentNode x = some p) : dom.isDocument x = false := by
  rw [isDocument_eq]
  simpa using (h.child_type x p hp).2

theorem fragment_eq_none (hp : dom.parentNode c = some p) : dom.fragment c = none := by
  rw [← Option.not_isSome_iff_eq_none, fragment_isSome]
  exact (h.child_type c p hp).1

theorem host_eq_none (hp : dom.parentNode c = some p) : dom.host c = none := by
  rw [host_eq, h.fragment_eq_none hp, Option.bind_none]

theorem parentNode_eq_none_of_fragment (hc : (dom.fragment c).isSome) :
    dom.parentNode c = none := by
  cases hp : dom.parentNode c with
  | none => rfl
  | some p => simp [h.fragment_eq_none hp] at hc

theorem up_of_host (hhost : dom.host c = some p) : dom.up c = some p := by
  have hfrag : (dom.fragment c).isSome := by
    rw [host_eq] at hhost
    obtain ⟨data, hdata, -⟩ := Option.bind_eq_some_iff.1 hhost
    simp [hdata]
  simp [up, h.parentNode_eq_none_of_fragment hfrag, hhost]

/-- Parents and hosts exclude each other, so the source's walk follows both. -/
theorem up_iff : dom.up c = some p ↔ dom.parentNode c = some p ∨ dom.host c = some p := by
  constructor
  · intro hup
    unfold up at hup
    cases hp : dom.parentNode c with
    | none => rw [hp] at hup; exact .inr hup
    | some q => rw [hp] at hup; exact .inl hup
  · rintro (hp | hhost)
    · exact up_of_parentNode hp
    · exact h.up_of_host hhost

theorem up_lt (c p : NativeNodeId) (hup : dom.up c = some p) : p < dom.nodes.length := by
  rcases h.up_iff.1 hup with hp | hhost
  · exact h.parent_lt c p hp
  · exact h.host_lt c p hhost

theorem treeLinked : TreeLinked dom kids where
  represents := h.represents
  grounded := h.grounded.mono fun _ _ => up_of_parentNode
  parent_lt := h.parent_lt

theorem groundedParent : Grounded dom.parentNode := h.treeLinked.grounded

theorem isForest : IsForest dom.parentNode kids := h.treeLinked.isForest

theorem complete (p c : NativeNodeId) (hp : dom.parentNode c = some p) : c ∈ kids p :=
  h.treeLinked.complete p c hp

theorem kids_lt (hc : c ∈ kids p) : c < dom.nodes.length :=
  lt_length_of_parentNode (h.mem_kids.1 hc)

theorem lt_of_mem_kids (hc : c ∈ kids p) : p < dom.nodes.length :=
  h.parent_lt c p (h.mem_kids.1 hc)

theorem above_up (hxy : Above dom.parentNode x y) : Above dom.up x y := by
  obtain ⟨l, hl, hmem⟩ := hxy
  induction l generalizing y with
  | nil => cases hmem
  | cons b l ih =>
    obtain rfl : y = b := Option.some.inj hl.1
    rcases List.mem_cons.1 hmem with rfl | hmem
    · exact .refl h.grounded x
    · cases l with
      | nil => cases hmem
      | cons q l =>
        have hq : dom.parentNode y = some q := hl.2.1
        exact (ih ⟨rfl, hl.2.2⟩ hmem).of_up (up_of_parentNode hq)

end WellLinked

/-! ## Walks -/

theorem collect_eq {next : NativeNodeId → Option NativeNodeId} {start : Option NativeNodeId}
    (hl : Follows next start l) (hlen : l.length ≤ dom.fuel) :
    dom.collect next start = .ok l := by
  unfold collect
  rw [hl.follow_eq hlen]

theorem isHostIncludingInclusiveAncestorLoop_eq {start : Option NativeNodeId} {fuel : Nat}
    (hl : Follows dom.up start l) (hlen : l.length ≤ fuel) :
    dom.isHostIncludingInclusiveAncestorLoop c fuel start = .ok (decide (c ∈ l)) := by
  induction l generalizing start fuel with
  | nil =>
    rw [Lib.follows_nil] at hl
    simp [hl, isHostIncludingInclusiveAncestorLoop]
  | cons a l ih =>
    obtain ⟨fuel, rfl⟩ : ∃ n, fuel = n + 1 := ⟨fuel - 1, by simp at hlen; omega⟩
    rw [hl.1, isHostIncludingInclusiveAncestorLoop]
    by_cases hac : a = c
    · simp [hac]
    · rw [if_neg hac]
      have hup := hl.2
      cases hnode : dom.node a with
      | none =>
        have hstop : dom.up a = none := by simp [up, parentNode, host, hnode]
        rw [hstop] at hup
        obtain rfl : l = [] := hup.unique rfl
        simp [Ne.symm hac]
      | some node =>
        have hstep : dom.up a = (node.parentNode <|> node.host) := by
          simp [up, parentNode, host, hnode]
        rw [hstep] at hup
        simp only [ih hup (by simpa using hlen)]
        simp [Ne.symm hac]

theorem rootNodeIdLoop_eq {fuel : Nat} (hl : Follows dom.parentNode (some x) l)
    (hlen : l.length ≤ fuel) :
    ∃ r ∈ l, dom.parentNode r = none ∧ dom.rootNodeIdLoop fuel x = .ok r := by
  induction l generalizing x fuel with
  | nil => cases hl
  | cons a l ih =>
    obtain ⟨fuel, rfl⟩ : ∃ n, fuel = n + 1 := ⟨fuel - 1, by simp at hlen; omega⟩
    obtain rfl : x = a := Option.some.inj hl.1
    have hrest := hl.2
    rw [rootNodeIdLoop]
    cases hp : dom.parentNode x with
    | none => exact ⟨x, by simp, hp, rfl⟩
    | some p =>
      rw [hp] at hrest
      obtain ⟨r, hr, hnone, hloop⟩ := ih hrest (by simpa using hlen)
      exact ⟨r, by simp [hr], hnone, hloop⟩

namespace TreeLinked

variable (h : TreeLinked dom kids)
include h

theorem kids_length_le (p : NativeNodeId) : (kids p).length ≤ dom.fuel :=
  (Lib.length_le_of_nodup (h.represents.nodup p) fun _ hc => h.kids_lt hc).trans (Nat.le_succ _)

theorem childIds_eq (p : NativeNodeId) : dom.childIds p = .ok (kids p) :=
  collect_eq (h.represents.forward p) (h.kids_length_le p)

theorem childIdsReversed_eq (p : NativeNodeId) :
    dom.childIdsReversed p = .ok (kids p).reverse :=
  collect_eq (h.represents.backward p) (by simpa using h.kids_length_le p)

theorem rootNodeId_spec (x : NativeNodeId) : ∃ r, dom.rootNodeId x = .ok r ∧
    Above dom.parentNode r x ∧ dom.parentNode r = none := by
  obtain ⟨l, hl⟩ := h.grounded x
  obtain ⟨r, hr, hnone, hloop⟩ := rootNodeIdLoop_eq hl (hl.length_le h.parent_lt)
  exact ⟨r, hloop, ⟨l, hl, hr⟩, hnone⟩

theorem root_lt {r : NativeNodeId} (hr : Above dom.parentNode r x)
    (hx : x < dom.nodes.length) : r < dom.nodes.length := by
  rcases hr.child_or_eq with rfl | ⟨c, hc, -⟩
  · exact hx
  · exact h.parent_lt c r hc

theorem exists_preorder (s : List NativeNodeId) : ∃ l, Lib.Preorder kids s l :=
  Lib.Preorder.exists_of_bounded h.isForest (fun _ _ hl => hl.length_le h.parent_lt) s

theorem preorder_lt {root : NativeNodeId} (hpre : Lib.Preorder kids [root] l)
    (hroot : root < dom.nodes.length) (hx : x ∈ l) : x < dom.nodes.length := by
  rcases hpre.mem_stack_or_kids hx with hx | ⟨q, hx⟩
  · rwa [List.mem_singleton.1 hx]
  · exact h.kids_lt hx

theorem ancestorChain_eq (hl : Follows dom.parentNode (some x) l) :
    dom.ancestorChain x = .ok l.reverse := by
  unfold ancestorChain
  rw [collect_eq hl (hl.length_le h.parent_lt)]
  rfl

end TreeLinked

namespace WellLinked

variable (h : WellLinked dom kids)
include h

theorem childIds_eq (p : NativeNodeId) : dom.childIds p = .ok (kids p) :=
  h.treeLinked.childIds_eq p

theorem childIdsReversed_eq (p : NativeNodeId) :
    dom.childIdsReversed p = .ok (kids p).reverse :=
  h.treeLinked.childIdsReversed_eq p

theorem isHostIncludingInclusiveAncestor_eq (c p : NativeNodeId) :
    ∃ b, dom.isHostIncludingInclusiveAncestor c p = .ok b ∧
      (b = true ↔ Above dom.up c p) := by
  obtain ⟨l, hl⟩ := h.grounded p
  refine ⟨decide (c ∈ l), isHostIncludingInclusiveAncestorLoop_eq hl (hl.length_le h.up_lt), ?_⟩
  rw [decide_eq_true_iff]
  constructor
  · exact fun hc => ⟨l, hl, hc⟩
  · rintro ⟨m, hm, hc⟩
    rwa [hl.unique hm]

theorem rootNodeId_spec (x : NativeNodeId) : ∃ r, dom.rootNodeId x = .ok r ∧
    Above dom.parentNode r x ∧ dom.parentNode r = none :=
  h.treeLinked.rootNodeId_spec x

theorem exists_root (x : NativeNodeId) :
    ∃ r, Above dom.parentNode r x ∧ dom.parentNode r = none := by
  obtain ⟨r, -, hr, hroot⟩ := h.rootNodeId_spec x
  exact ⟨r, hr, hroot⟩

theorem root_lt {r : NativeNodeId} (hr : Above dom.parentNode r x)
    (hx : x < dom.nodes.length) : r < dom.nodes.length :=
  h.treeLinked.root_lt hr hx

theorem exists_preorder (s : List NativeNodeId) : ∃ l, Lib.Preorder kids s l :=
  h.treeLinked.exists_preorder s

end WellLinked

/-! ## Removing from and inserting into a child list -/

theorem setFollowing_spec (dom : NativeDom) (previous next : Option NativeNodeId)
    (hp : p < dom.nodes.length) (hprevious : ∀ b, previous = some b → b < dom.nodes.length) :
    ∃ dom', dom.setFollowing p previous next = .ok dom' ∧ Relinked dom dom' ∧
      dom'.links = { dom.links with
        next := fun x => if previous = some x then next else dom.links.next x
        first := fun q => if q = p ∧ previous = none then next else dom.links.first q } := by
  cases previous with
  | none =>
    refine ⟨_, expectNode_eq hp, .modifyNode fun _ => ⟨rfl, rfl, rfl⟩, ?_⟩
    simp [links_setFirstChild hp]
  | some b =>
    have hb := hprevious b rfl
    refine ⟨_, expectNode_eq hb, .modifyNode fun _ => ⟨rfl, rfl, rfl⟩, ?_⟩
    simp [links_setNextSibling hb, eq_comm]

theorem setPreceding_spec (dom : NativeDom) (message : String)
    (next previous : Option NativeNodeId) (hp : p < dom.nodes.length)
    (hnext : ∀ b, next = some b → b < dom.nodes.length) :
    ∃ dom', dom.setPreceding message p next previous = .ok dom' ∧ Relinked dom dom' ∧
      dom'.links = { dom.links with
        prev := fun x => if next = some x then previous else dom.links.prev x
        last := fun q => if q = p ∧ next = none then previous else dom.links.last q } := by
  cases next with
  | none =>
    refine ⟨_, expectNode_eq hp, .modifyNode fun _ => ⟨rfl, rfl, rfl⟩, ?_⟩
    simp [links_setLastChild hp]
  | some b =>
    have hb := hnext b rfl
    refine ⟨_, expectNode_eq hb, .modifyNode fun _ => ⟨rfl, rfl, rfl⟩, ?_⟩
    simp [links_setPrevSibling hb, eq_comm]

namespace WellLinked

theorem unlinkChild_spec (h : WellLinked dom kids) (hp : kids p = xs ++ c :: ys) :
    ∃ dom', dom.unlinkChild p c = .ok dom' ∧ Relinked dom dom' ∧
      dom'.links = dom.links.unlink p c := by
  have hc : c ∈ kids p := by simp [hp]
  have hplen := h.lt_of_mem_kids hc
  have hprev : dom.previousSibling c = xs.getLast? := h.represents.prev_eq hp
  have hnext : dom.nextSibling c = ys.head? := h.represents.next_eq hp
  have hsibling : ∀ b ∈ xs ++ ys, b < dom.nodes.length := fun b hb =>
    h.kids_lt (p := p) (by simp only [hp, List.mem_append] at hb ⊢; tauto)
  obtain ⟨dom₁, heq₁, hrel₁, hlinks₁⟩ :=
    dom.setFollowing_spec (dom.previousSibling c) (dom.nextSibling c) hplen fun b hb =>
      hsibling b (by simp [List.mem_of_getLast? (hprev ▸ hb)])
  have hlen := hrel₁.length_eq
  obtain ⟨dom₂, heq₂, hrel₂, hlinks₂⟩ := dom₁.setPreceding_spec "next sibling must exist"
    (dom.nextSibling c) (dom.previousSibling c) (hlen ▸ hplen) fun b hb =>
      hlen ▸ hsibling b (by simp [List.mem_of_head? (hnext ▸ hb)])
  have hclen : c < dom₂.nodes.length := by
    rw [hrel₂.length_eq, hlen]
    exact h.kids_lt hc
  refine ⟨dom₂.modifyNode c Node.clearTreeLinks, ?_,
    (hrel₁.trans hrel₂).trans (.modifyNode fun _ => ⟨rfl, rfl, rfl⟩), ?_⟩
  · simp only [unlinkChild, heq₁, heq₂, bind, Except.bind]
    exact expectNode_eq hclen
  · rw [links_clearTreeLinks hclen, hlinks₂, hlinks₁]
    rfl

/-- The position before `ref` in the child list of `p`. -/
theorem linkChild_spec (h : WellLinked dom kids) {ref : Option NativeNodeId}
    (hplen : p < dom.nodes.length) (hclen : c < dom.nodes.length) (hp : kids p = xs ++ ys)
    (href : ref = ys.head?) (hc : dom.parentNode c = none) :
    ∃ dom', dom.linkChild p c ref = .ok dom' ∧ Relinked dom dom' ∧
      dom'.links = dom.links.linkBefore p c ref := by
  have hbefore : dom.links.before p ref = xs.getLast? := h.represents.before_eq hp href
  have hsibling : ∀ b ∈ xs ++ ys, b ≠ c ∧ b < dom.nodes.length := by
    intro b hb
    rw [← hp] at hb
    refine ⟨?_, h.kids_lt hb⟩
    rintro rfl
    rw [h.mem_kids, hc] at hb
    cases hb
  have hprevious : ∀ b, dom.links.before p ref = some b → b ≠ c ∧ b < dom.nodes.length :=
    fun b hb => hsibling b (by simp [List.mem_of_getLast? (hbefore ▸ hb)])
  have hreference : ∀ b, ref = some b → b ≠ c ∧ b < dom.nodes.length :=
    fun b hb => hsibling b (by simp [List.mem_of_head? (href ▸ hb)])
  have hadopt := links_adoptInto hclen (dom.links.before p ref) p ref
  generalize hdom₀ : dom.modifyNode c (Node.adoptInto p (dom.links.before p ref) ref) = dom₀
    at hadopt
  have hrel₀ : Relinked dom dom₀ := hdom₀ ▸ .modifyNode fun _ => ⟨rfl, rfl, rfl⟩
  have hlen₀ := hrel₀.length_eq
  obtain ⟨dom₁, heq₁, hrel₁, hlinks₁⟩ := dom₀.setFollowing_spec (dom.links.before p ref) (some c)
    (hlen₀ ▸ hplen) fun b hb => hlen₀ ▸ (hprevious b hb).2
  have hlen₁ := hrel₁.length_eq.trans hlen₀
  obtain ⟨dom₂, heq₂, hrel₂, hlinks₂⟩ := dom₁.setPreceding_spec "reference child must exist" ref
    (some c) (hlen₁ ▸ hplen) fun b hb => hlen₁ ▸ (hreference b hb).2
  have hlinks : dom₂.links = dom.links.linkBefore p c ref := by
    rw [hlinks₂, hlinks₁, hadopt]
    simp only [ChildLinks.linkBefore, ChildLinks.mk.injEq, true_and]
    refine ⟨funext fun x => ?_, funext fun x => ?_⟩
    · by_cases hx : dom.links.before p ref = some x
      · simp [(hprevious x hx).1]
      · simp [hx]
    · by_cases hx : ref = some x
      · simp [(hreference x hx).1]
      · simp [hx]
  refine ⟨dom₂, ?_, (hrel₀.trans hrel₁).trans hrel₂, hlinks⟩
  -- a parent with a reference child has a last child
  have hlast : ¬ (ref.isSome ∧ (dom₂.node p).any (·.lastChild.isNone)) := by
    rintro ⟨hsome, hany⟩
    have hnone : dom₂.lastChild p = none := by
      obtain ⟨n, hn⟩ := exists_node (hrel₂.length_eq.trans hlen₁ ▸ hplen)
      simpa [lastChild, hn] using hany
    have hlast : dom₂.lastChild p = dom.lastChild p := by
      rw [(links_congr hlinks).2.2.1]
      simp [ChildLinks.linkBefore, Option.isSome_iff_ne_none.1 hsome, links]
    rw [hlast, show dom.lastChild p = (kids p).getLast? from h.represents.last_eq p,
      List.getLast?_eq_none_iff, hp, List.append_eq_nil_iff] at hnone
    rw [href, hnone.2] at hsome
    cases hsome
  have hprev : dom.previousForInsertion p ref = dom.links.before p ref := by
    cases ref <;> rfl
  unfold linkChild
  simp only [hprev, expectNode_eq hclen, hdom₀, heq₁, heq₂, bind, Except.bind]
  rw [if_neg (by simpa using hlast)]
  rfl

/-- The parent of `c` is the only one that changed. -/
theorem relink (h : WellLinked dom kids) {kids' : Kids}
    {parent : Option NativeNodeId} (hrel : Relinked dom dom')
    (hrepresents : dom'.links.Represents kids')
    (hparent : ∀ x, dom'.parentNode x = if x = c then parent else dom.parentNode x)
    (hwalk : Follows dom.up (dom'.up c) l) (hc : c ∉ l)
    (hnew : ∀ p, parent = some p → p < dom.nodes.length ∧
      dom.nodeType c ≠ some .documentFragment ∧ dom.nodeType c ≠ some .document) :
    WellLinked dom' kids' := by
  have hlinked : ∀ x q, dom'.parentNode x = some q → q < dom.nodes.length ∧
      dom.nodeType x ≠ some .documentFragment ∧ dom.nodeType x ≠ some .document := by
    intro x q hq
    rw [hparent] at hq
    split at hq
    next hx => exact hx ▸ hnew q hq
    · exact ⟨h.parent_lt x q hq, h.child_type x q hq⟩
  refine ⟨hrepresents, h.grounded.reroute (fun x hx => ?_) hwalk hc, fun x q hq => ?_,
    fun f host hhost => ?_, fun x q hq => ?_⟩
  · simp [up, hparent, hx, hrel.keeps.host]
  · rw [hrel.length_eq]
    exact (hlinked x q hq).1
  · rw [hrel.keeps.host] at hhost
    rw [hrel.length_eq]
    exact h.host_lt f host hhost
  · rw [hrel.nodeType]
    exact (hlinked x q hq).2

theorem unlink (h : WellLinked dom kids) (hp : kids p = xs ++ c :: ys) (hrel : Relinked dom dom')
    (hlinks : dom'.links = dom.links.unlink p c) :
    WellLinked dom' (Function.update kids p (xs ++ ys)) := by
  have hc : dom.parentNode c = some p := h.mem_kids.1 (by simp [hp])
  have hparent := congrFun (links_congr hlinks).1
  have hstop : Follows dom.up (dom'.up c) [] := by
    simp [up, hparent, ChildLinks.unlink, hrel.keeps.host, h.host_eq_none hc]
  exact h.relink hrel (hlinks ▸ h.represents.unlink hp) hparent hstop (by simp) (by simp)

theorem link (h : WellLinked dom kids) {ref : Option NativeNodeId} (hplen : p < dom.nodes.length)
    (hp : kids p = xs ++ ys) (href : ref = ys.head?) (hc : dom.parentNode c = none)
    (hcp : ¬ Above dom.up c p)
    (htype : dom.nodeType c ≠ some .documentFragment ∧ dom.nodeType c ≠ some .document)
    (hrel : Relinked dom dom') (hlinks : dom'.links = dom.links.linkBefore p c ref) :
    WellLinked dom' (Function.update kids p (xs ++ c :: ys)) := by
  have hparent := congrFun (links_congr hlinks).1
  have hroot : ∀ q, c ∉ kids q := fun q hq => by
    rw [h.mem_kids, hc] at hq
    cases hq
  obtain ⟨l, hl⟩ := h.grounded p
  have hcup : dom'.up c = some p :=
    up_of_parentNode (by simp [hparent, ChildLinks.linkBefore])
  refine h.relink hrel (hlinks ▸ h.represents.linkBefore hp href hroot) hparent (hcup ▸ hl)
    (fun hmem => hcp ⟨l, hl, hmem⟩) fun q hq => ?_
  obtain rfl := Option.some.inj hq
  exact ⟨hplen, htype⟩

end WellLinked

end Moli.Dom.NativeDom

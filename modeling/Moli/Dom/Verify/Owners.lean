import Moli.Dom.Verify.Retarget

/-!
# Owner documents and connectedness

Every node caches its owner document and whether it is connected. `Fits` says which values the rest
of the tree asks for: those of the parent, or, for the contents of a template, the inert document of
the template's owner. `Owned` says that every node has such values. A retargeting traversal whose
first entry fits restores `Owned` when only the root of the moved subtree was stale
(`retarget_owned`): the entries on its stack are exactly the nodes whose values are not right yet.
-/

namespace Moli.Dom.NativeDom

open Lib List

variable {dom dom' : NativeDom} {kids kids' : Kids}
variable {c p x y : NativeNodeId} {owner : Option NativeNodeId} {conn : Bool}

/-- The owner document of the children of a node. -/
def ownerForChildren (dom : NativeDom) (parent : NativeNodeId) : Option NativeNodeId :=
  if dom.isDocument parent then some parent else dom.ownerDocument parent

structure Fits (dom : NativeDom) (x : NativeNodeId) (owner : Option NativeNodeId) (conn : Bool) :
    Prop where
  child : ∀ p, dom.parentNode x = some p → owner = dom.ownerForChildren p ∧ conn = dom.connected p
  root : dom.parentNode x = none → dom.isDocument x = false → conn = false
  contents : ∀ template, dom.templateContentsFragment template = some x →
    ∃ document inert, dom.ownerDocument template = some document ∧
      dom.inertOwner document = some inert ∧ owner = some inert
  owned : dom.isDocument x = false → ∃ document, owner = some document ∧
    dom.isDocument document = true

/-- Every node but those in `stale` has the values that fit. -/
structure OwnedExcept (dom : NativeDom) (stale : NativeNodeId → Prop) : Prop where
  inertSound : InertSound dom
  fits : ∀ x, x < dom.nodes.length → ¬ stale x → Fits dom x (dom.ownerDocument x) (dom.connected x)

def Owned (dom : NativeDom) : Prop := OwnedExcept dom fun _ => False

theorem Owned.fits (h : Owned dom) (hx : x < dom.nodes.length) :
    Fits dom x (dom.ownerDocument x) (dom.connected x) :=
  OwnedExcept.fits h x hx id

/-! ## Frame -/

theorem Relinked.connected (h : Relinked dom dom') : dom'.connected = dom.connected := by
  funext x
  have hx := congrArg (Option.any fun content => content.2.1.connected) (h.content x)
  simpa [NativeDom.connected, Option.any_map] using hx

theorem Relinked.inertOwner (h : Relinked dom dom') : dom'.inertOwner = dom.inertOwner := by
  funext x
  exact congrArg (Option.bind · _) (h.bind_node (fun content => content.2.2.asDocument) x)

theorem lt_length_of_templateContentsFragment {template : NativeNodeId}
    (h : dom.templateContentsFragment template = some x) : x < dom.nodes.length := by
  have hfrag := (host_of_templateContentsFragment h).2
  rw [fragment_isSome] at hfrag
  exact lt_length_of_nodeType hfrag

section
variable (h : Fits dom x owner conn) (hx : x < dom.nodes.length)
  (hparent : dom'.parentNode x = dom.parentNode x)
  (hp : ∀ p, dom.parentNode x = some p → dom'.ownerForChildren p = dom.ownerForChildren p ∧
    dom'.connected p = dom.connected p)
  (htemplate : ∀ template, dom.templateContentsFragment template = some x →
    dom'.ownerDocument template = dom.ownerDocument template)
  (hinert : ∀ document inert, dom.inertOwner document = some inert →
    dom'.inertOwner document = some inert)
include h hx hparent hp htemplate hinert

/-- What fits still fits as long as the parent and the template of the node are as before. -/
theorem Fits.of_agree (hdoc : ∀ y, y < dom.nodes.length → dom'.isDocument y = dom.isDocument y)
    (hcontents : ∀ template, dom'.templateContentsFragment template = some x →
      dom.templateContentsFragment template = some x) : Fits dom' x owner conn where
  child p hp' := by
    rw [hparent] at hp'
    rw [(hp p hp').1, (hp p hp').2]
    exact h.child p hp'
  root hnone hroot := by
    rw [hparent] at hnone
    rw [hdoc x hx] at hroot
    exact h.root hnone hroot
  contents template ht := by
    have ht := hcontents template ht
    obtain ⟨document, inert, hdocument, hinert', howner⟩ := h.contents template ht
    exact ⟨document, inert, (htemplate template ht).trans hdocument, hinert document inert hinert',
      howner⟩
  owned hroot := by
    rw [hdoc x hx] at hroot
    obtain ⟨document, howner, hdocument⟩ := h.owned hroot
    exact ⟨document, howner, (hdoc document (lt_length_of_isDocument hdocument)).trans hdocument⟩

theorem Fits.of_keeps (hkeeps : Keeps dom dom') : Fits dom' x owner conn :=
  h.of_agree hx hparent hp htemplate hinert (fun _ => hkeeps.isDocument) fun template ht => by
    rwa [hkeeps.templateContentsFragment] at ht

end

/-- A new document asks for nothing. -/
theorem Fits.of_added (hkeeps : Keeps dom dom') (hx : dom.nodes.length ≤ x)
    (hx' : x < dom'.nodes.length) (hparent : dom'.parentNode x = none) :
    Fits dom' x owner conn := by
  have hdoc : dom'.isDocument x = true := by simp [isDocument_eq, hkeeps.added x hx hx']
  refine ⟨fun p hp => ?_, fun _ hfalse => ?_, fun template ht => ?_, fun hfalse => ?_⟩
  · rw [hparent] at hp
    cases hp
  · rw [hdoc] at hfalse
    cases hfalse
  · rw [hkeeps.templateContentsFragment] at ht
    exact absurd (lt_length_of_templateContentsFragment ht) (Nat.not_lt.2 hx)
  · rw [hdoc] at hfalse
    cases hfalse

theorem Keeps.ownerForChildren (hkeeps : Keeps dom dom') (hp : p < dom.nodes.length)
    (howner : dom'.ownerDocument p = dom.ownerDocument p) :
    dom'.ownerForChildren p = dom.ownerForChildren p := by
  rw [NativeDom.ownerForChildren, NativeDom.ownerForChildren, hkeeps.isDocument hp, howner]

/-! ## One visit -/

namespace RetargetStep

variable {item : RetargetItem} {pushed : List RetargetItem}
variable (h : WellLinked dom kids) (hstep : RetargetStep dom kids item pushed dom')
include h hstep

theorem fits_of_agree (hx : x < dom.nodes.length) (hfits : Fits dom x owner conn)
    (hchild : dom.parentNode x ≠ some item.handle)
    (hcontents : dom.templateContentsFragment item.handle = some x →
      dom.ownerDocument item.handle = item.ownerDocument) : Fits dom' x owner conn := by
  refine hfits.of_keeps hx (congrFun (links_congr hstep.links).1 x) (fun p hp => ?_)
    (fun template ht => ?_) hstep.inertOwner hstep.keeps
  · have hne : p ≠ item.handle := by
      rintro rfl
      exact hchild hp
    rw [hstep.keeps.ownerForChildren (h.parent_lt x p hp) (by rw [hstep.ownerDocument, if_neg hne]),
      hstep.connected, if_neg hne]
    exact ⟨rfl, rfl⟩
  · rw [hstep.ownerDocument]
    split
    next heq =>
      rw [heq] at ht ⊢
      exact (hcontents ht).symm
    · rfl

theorem fits_child (hitem : item.handle < dom.nodes.length)
    (hdoc : dom.isDocument item.handle = false)
    (hfits : Fits dom item.handle item.ownerDocument item.connected) (hc : c ∈ kids item.handle) :
    Fits dom' c item.ownerDocument item.connected := by
  have hp : dom'.parentNode c = some item.handle :=
    (congrFun (links_congr hstep.links).1 c).trans (h.mem_kids.1 hc)
  refine ⟨fun p hp' => ?_, fun hnone _ => ?_, fun template ht => ?_, fun _ => ?_⟩
  · obtain rfl := Option.mem_unique hp hp'
    rw [ownerForChildren, hstep.keeps.isDocument hitem, hdoc, hstep.ownerDocument, hstep.connected]
    simp
  · rw [hp] at hnone
    cases hnone
  · rw [hstep.keeps.templateContentsFragment] at ht
    have hfrag := (host_of_templateContentsFragment ht).2
    rw [h.fragment_eq_none (h.mem_kids.1 hc)] at hfrag
    cases hfrag
  · obtain ⟨document, howner, hdocument⟩ := hfits.owned hdoc
    refine ⟨document, howner, ?_⟩
    rw [hstep.keeps.isDocument (lt_length_of_isDocument hdocument)]
    exact hdocument

theorem fits_contents (hsound : InertSound dom) {contents document inert : NativeNodeId}
    (hcontents : dom.adoptedContents item = some contents)
    (hdocument : item.ownerDocument = some document)
    (hinert : dom'.inertOwner document = some inert) : Fits dom' contents (some inert) false := by
  have ht := templateContentsFragment_of_adoptedContents hcontents
  obtain ⟨hhost, hfrag⟩ := host_of_templateContentsFragment ht
  refine ⟨fun p hp => ?_, fun _ _ => rfl, fun template ht' => ?_, fun _ => ⟨inert, rfl, ?_⟩⟩
  · rw [(links_congr hstep.links).1] at hp
    rw [show dom.links.parent contents = none from h.parentNode_eq_none_of_fragment hfrag] at hp
    cases hp
  · rw [hstep.keeps.templateContentsFragment] at ht'
    obtain rfl := Option.some.inj ((host_of_templateContentsFragment ht').1.symm.trans hhost)
    exact ⟨document, inert, by rw [hstep.ownerDocument, if_pos rfl, hdocument], hinert, rfl⟩
  · exact isDocument_of_inertOwner (hstep.inertSound hsound document inert hinert)

end RetargetStep

/-! ## The traversal -/

/-- The nodes on the stack are stale, and their entries fit. -/
structure Retargeting (dom : NativeDom) (stack : List RetargetItem) : Prop where
  rest : OwnedExcept dom fun x => ∃ item ∈ stack, item.handle = x
  entries : ∀ item ∈ stack, item.handle < dom.nodes.length ∧ dom.isDocument item.handle = false ∧
    Fits dom item.handle item.ownerDocument item.connected

theorem Retargeting.visit {item : RetargetItem} {stack pushed : List RetargetItem}
    (h : WellLinked dom kids) (hinv : Retargeting dom (item :: stack))
    (hapart : Apart dom.up (item.handle :: stack.map RetargetItem.handle))
    (hstep : RetargetStep dom kids item pushed dom') : Retargeting dom' (pushed ++ stack) := by
  obtain ⟨⟨hsound, hrest⟩, hentries⟩ := hinv
  obtain ⟨hitem, hdoc, hfits⟩ := hentries item (by simp)
  obtain ⟨document, howner, hdocument⟩ := hfits.owned hdoc
  obtain ⟨contents, hcontents, rfl⟩ := hstep.pushed_eq
  -- nothing else on the stack hangs below the visited node
  have hnot : ∀ other ∈ stack, dom.up other.handle ≠ some item.handle := by
    intro other hother hup
    exact (pairwise_cons.1 hapart).1 other.handle (mem_map_of_mem hother) other.handle
      ((Above.refl h.grounded item.handle).of_up hup) (.refl h.grounded other.handle)
  have hself : dom.up item.handle ≠ some item.handle := fun hup =>
    Above.not_above_of_up hup (.refl h.grounded _)
  have hkept : ∀ {x owner conn}, x < dom.nodes.length → dom.up x ≠ some item.handle →
      Fits dom x owner conn → Fits dom' x owner conn := by
    intro x owner conn hx hup hx'
    refine hstep.fits_of_agree h hx hx' (fun hp => hup (up_of_parentNode hp)) fun ht => ?_
    exact absurd (h.up_of_host (host_of_templateContentsFragment ht).1) hup
  refine ⟨⟨hstep.inertSound hsound, fun x hx hstale => ?_⟩, fun other hother => ?_⟩
  · rcases Nat.lt_or_ge x dom.nodes.length with hlt | hge
    · rcases eq_or_ne x item.handle with rfl | hne
      · rw [hstep.ownerDocument, hstep.connected, if_pos rfl, if_pos rfl]
        exact hkept hlt hself hfits
      · rw [hstep.ownerDocument, hstep.connected, if_neg hne, if_neg hne]
        have hold := hrest x hlt fun ⟨other, hother, heq⟩ => by
          rcases mem_cons.1 hother with rfl | hother
          · exact hne heq.symm
          · exact hstale ⟨other, mem_append_right _ hother, heq⟩
        refine hstep.fits_of_agree h hlt hold (fun hp => hstale ?_) fun ht => ?_
        · exact ⟨{ item with handle := x }, by simp [h.mem_kids.2 hp], rfl⟩
        · -- contents that were not adopted belong to a template that keeps its owner
          cases hcontents with
          | skipped hskip =>
            rcases hskip with hskip | hskip
            · by_contra hchanged
              rw [adoptedContents, if_pos hchanged, ht] at hskip
              cases hskip
            · rw [howner] at hskip
              cases hskip
          | adopted hadopted =>
            have heq := templateContentsFragment_of_adoptedContents hadopted
            obtain rfl := Option.mem_unique ht heq
            exact absurd ⟨_, mem_append_left _ (mem_append_left _
              (mem_singleton_self _)), rfl⟩ hstale
    · refine .of_added hstep.keeps hge hx ?_
      rw [(links_congr hstep.links).1]
      cases hp : dom.parentNode x with
      | none => exact hp
      | some p => exact absurd (lt_length_of_parentNode hp) (Nat.not_lt.2 hge)
  · rcases mem_append.1 hother with hother | hother
    · rcases mem_append.1 hother with hother | hother
      · cases hcontents with
        | skipped => cases hother
        | @adopted contents document' inert hadopted hdocument' hinert =>
          obtain rfl := mem_singleton.1 hother
          obtain rfl := Option.mem_unique howner hdocument'
          have ht := templateContentsFragment_of_adoptedContents hadopted
          have hlt := lt_length_of_templateContentsFragment ht
          refine ⟨hlt.trans_le hstep.keeps.length_le, ?_,
            hstep.fits_contents h hsound hadopted howner (hinert hdocument)⟩
          rw [hstep.keeps.isDocument hlt]
          exact isDocument_of_fragment (host_of_templateContentsFragment ht).2
      · obtain ⟨child, hchild, rfl⟩ := mem_map.1 hother
        have hcfits := hstep.fits_child h hitem hdoc hfits hchild
        refine ⟨(h.kids_lt hchild).trans_le hstep.keeps.length_le, ?_, hcfits⟩
        rw [hstep.keeps.isDocument (h.kids_lt hchild)]
        exact h.isDocument_of_parentNode (h.mem_kids.1 hchild)
    · obtain ⟨hlt, hodoc, hofits⟩ := hentries other (by simp [hother])
      refine ⟨hlt.trans_le hstep.keeps.length_le, ?_, hkept hlt (hnot other hother) hofits⟩
      rw [hstep.keeps.isDocument hlt]
      exact hodoc

/-- Only `c` is stale, and the given values fit. -/
structure Retargetable (dom : NativeDom) (c : NativeNodeId) (owner : Option NativeNodeId)
    (conn : Bool) : Prop where
  rest : OwnedExcept dom (· = c)
  not_document : dom.isDocument c = false
  fits : Fits dom c owner conn

theorem retarget_owned (h : WellLinked dom kids) (hc : c < dom.nodes.length)
    (hready : Retargetable dom c owner conn) (inTree : Bool)
    (traversal : OwnerLifecycleTraversal) :
    Ensures (· = .nodeLimit)
      (dom.retargetOwnerLifecycleSubtree c owner conn inTree traversal)
      fun (_, dom') => Owned dom' := by
  refine (retargetOwnerLifecycleSubtree_rule (fun dom _ stack => Retargeting dom stack)
    (fun dom traversal item stack pushed dom' h hinv hitem hapart hstep =>
      hinv.visit h hapart hstep) h hc
    ⟨⟨hready.rest.inertSound, fun x hx hstale => ?_⟩, ?_⟩).mono ?_
  · exact hready.rest.fits x hx fun heq => hstale ⟨_, mem_singleton_self _, heq.symm⟩
  · simpa using ⟨hc, hready.not_document, hready.fits⟩
  · rintro ⟨traversal', dom'⟩ ⟨-, hinv⟩
    exact ⟨hinv.rest.inertSound, fun x hx _ => hinv.rest.fits x hx (by simp)⟩

/-! ## After a change of links -/

theorem Owned.withCandidates (h : Owned dom)
    (registry : Std.TreeMap NativeNodeId (List NativeNodeId)) :
    Owned { dom with candidatesByTreeScope := registry } :=
  ⟨h.inertSound, fun _ hx _ => ⟨(h.fits hx).child, (h.fits hx).root, (h.fits hx).contents,
    (h.fits hx).owned⟩⟩

theorem Owned.relink (howned : Owned dom) (h : WellLinked dom kids) (hrel : Relinked dom dom')
    (hparent : ∀ x, x ≠ c → dom'.parentNode x = dom.parentNode x) :
    OwnedExcept dom' (· = c) := by
  refine ⟨fun document owner howner => ?_, fun x hx hne => ?_⟩
  · rw [hrel.inertOwner] at howner ⊢
    exact howned.inertSound document owner howner
  · rw [hrel.length_eq] at hx
    rw [hrel.ownerDocument, hrel.connected]
    refine (howned.fits hx).of_keeps hx (hparent x hne) (fun p hp => ?_)
      (fun template _ => by rw [hrel.ownerDocument]) (fun document inert hinert => ?_) hrel.keeps
    · rw [hrel.keeps.ownerForChildren (h.parent_lt x p hp) (by rw [hrel.ownerDocument]),
        hrel.connected]
      exact ⟨rfl, rfl⟩
    · rw [hrel.inertOwner]
      exact hinert

/-- A node that was taken from its parent keeps its owner document and is not connected. -/
theorem Owned.unlink (howned : Owned dom) (h : WellLinked dom kids) (hp : dom.parentNode c = some p)
    (hrel : Relinked dom dom')
    (hparent : ∀ x, dom'.parentNode x = if x = c then none else dom.parentNode x) :
    Retargetable dom' c (dom.ownerDocument c) false := by
  have hclen := lt_length_of_parentNode hp
  have hdoc := h.isDocument_of_parentNode hp
  refine ⟨howned.relink h hrel fun x hx => by rw [hparent, if_neg hx], ?_, fun q hq => ?_,
    fun _ _ => rfl, fun template ht => ?_, fun _ => ?_⟩
  · rw [hrel.keeps.isDocument hclen, hdoc]
  · simp [hparent] at hq
  · rw [hrel.keeps.templateContentsFragment] at ht
    have hfrag := (host_of_templateContentsFragment ht).2
    rw [h.fragment_eq_none hp] at hfrag
    cases hfrag
  · obtain ⟨document, howner, hdocument⟩ := (howned.fits hclen).owned hdoc
    refine ⟨document, howner, ?_⟩
    rw [hrel.keeps.isDocument (lt_length_of_isDocument hdocument), hdocument]

/-- A node that was put below `p` takes the values of `p`. -/
theorem Owned.link (howned : Owned dom) (h : WellLinked dom kids) (h' : WellLinked dom' kids')
    (hplen : p < dom.nodes.length) (hrel : Relinked dom dom')
    (hparent : ∀ x, dom'.parentNode x = if x = c then some p else dom.parentNode x) :
    Retargetable dom' c (dom'.ownerForChildren p) (dom'.connected p) := by
  have hp : dom'.parentNode c = some p := by simp [hparent]
  refine ⟨howned.relink h hrel fun x hx => by rw [hparent, if_neg hx],
    h'.isDocument_of_parentNode hp, fun q hq => ?_, fun hnone _ => ?_, fun template ht => ?_,
    fun _ => ?_⟩
  · obtain rfl := Option.mem_unique hp hq
    exact ⟨rfl, rfl⟩
  · rw [hp] at hnone
    cases hnone
  · have hfrag := (host_of_templateContentsFragment ht).2
    rw [h'.fragment_eq_none hp] at hfrag
    cases hfrag
  · rw [hrel.keeps.ownerForChildren hplen (by rw [hrel.ownerDocument]), ownerForChildren]
    cases hdoc : dom.isDocument p with
    | true => exact ⟨p, rfl, by rw [hrel.keeps.isDocument hplen, hdoc]⟩
    | false =>
      obtain ⟨document, howner, hdocument⟩ := (howned.fits hplen).owned hdoc
      refine ⟨document, howner, ?_⟩
      rw [hrel.keeps.isDocument (lt_length_of_isDocument hdocument), hdocument]

end Moli.Dom.NativeDom

import Moli.Dom.Verify.HandleOrder

/-!
# Shadow-including tree order of handles

`compare_handles_in_shadow_including_tree_order` agrees with the traversal that visits a node, then
its shadow tree, then its light children (`ShadowLinked.compare_tree`). Nodes without a common root
are compared by their own handles (`ShadowLinked.compare_apart`), not by those of their roots. That
is an order exactly if no such node falls between two nodes of a tree whose handles are in the wrong
order (`shadow_including_order_iff`).
-/

namespace Moli.Dom

open Lib NativeDom DomHost List

/-- The shadow roots of a node. -/
def shadowRootsOf (host : DomHost) (p : NativeNodeId) : List NativeNodeId :=
  host.shadowHostsByRoot.toList.filterMap fun entry => if entry.2 = p then some entry.1 else none

/-- The children of a node in the traversal that visits its shadow tree first. -/
def shadowKids (host : DomHost) (kids : Kids) (p : NativeNodeId) :
    List NativeNodeId :=
  shadowRootsOf host p ++ kids p

theorem mem_shadowRootsOf {host : DomHost} {p s : NativeNodeId} :
    s ∈ shadowRootsOf host p ↔ host.shadowRootHost s = some p := by
  simp only [shadowRootsOf, mem_filterMap]
  constructor
  · intro ⟨entry, hentry, hif⟩
    split at hif
    next hp =>
      cases hif
      rw [← hp]
      exact Std.TreeMap.mem_toList_iff_getElem?_eq_some.1 hentry
    · cases hif
  · intro hs
    exact ⟨(s, p), Std.TreeMap.mem_toList_iff_getElem?_eq_some.2 hs, by simp⟩

theorem nodup_shadowRootsOf (host : DomHost) (p : NativeNodeId) : (shadowRootsOf host p).Nodup := by
  refine List.Pairwise.filterMap _ (fun entry entry' hne root hroot root' hroot' heq => hne ?_)
    Std.TreeMap.distinct_keys_toList
  split at hroot
  · split at hroot'
    · cases hroot
      cases hroot'
      rw [heq]
      exact Std.ReflCmp.compare_self
    · cases hroot'
  · cases hroot

theorem isShadowRoot_eq (host : DomHost) (s : NativeNodeId) :
    host.isShadowRoot s = (host.shadowRootHost s).isSome :=
  Std.TreeMap.contains_eq_isSome_getElem?

theorem isShadowRoot_of_mem {host : DomHost} {p s : NativeNodeId} (hs : s ∈ shadowRootsOf host p) :
    host.isShadowRoot s = true := by
  rw [isShadowRoot_eq, mem_shadowRootsOf.1 hs]
  rfl

/-- Well-formed light trees, and shadow roots that have no parent and are the only ones of their
hosts. -/
structure ShadowLinked (host : DomHost) (kids : Kids) : Prop where
  tree : TreeLinked host.dom kids
  root_parent : ∀ s p, host.shadowRootHost s = some p → host.dom.parentNode s = none
  one_root : ∀ s s' p, host.shadowRootHost s = some p → host.shadowRootHost s' = some p → s = s'
  host_lt : ∀ s p, host.shadowRootHost s = some p → p < host.dom.nodes.length
  grounded : Grounded host.shadowIncludingParent

/-- The place up to which two paths agree. -/
theorem common_spec (lefts rights : List NativeNodeId) : ∃ shared lefts' rights',
    lefts = shared ++ lefts' ∧ rights = shared ++ rights' ∧
    ((lefts.zip rights).takeWhile fun pair => pair.1 == pair.2).length = shared.length ∧
    ∀ left right, lefts'.head? = some left → rights'.head? = some right → left ≠ right := by
  induction lefts generalizing rights with
  | nil => exact ⟨[], [], rights, rfl, rfl, rfl, fun _ _ h => by cases h⟩
  | cons left lefts ih =>
    cases rights with
    | nil => exact ⟨[], left :: lefts, [], rfl, rfl, rfl, fun _ _ _ h => by cases h⟩
    | cons right rights =>
      by_cases heq : left = right
      · subst heq
        obtain ⟨shared, lefts', rights', rfl, rfl, hlength, hdiffer⟩ := ih rights
        exact ⟨left :: shared, lefts', rights', rfl, rfl, by simpa using hlength, hdiffer⟩
      · refine ⟨[], left :: lefts, right :: rights, rfl, rfl, by simp [heq], fun a b ha hb => ?_⟩
        rwa [← Option.some.inj ha, ← Option.some.inj hb]

namespace ShadowLinked

variable {host : DomHost} {kids : Kids} {a b c p r r' x y : NativeNodeId}
  {l l' : List NativeNodeId}

section

variable (h : ShadowLinked host kids)
include h

theorem shadowRootHost_of_kids (hc : c ∈ kids p) : host.shadowRootHost c = none := by
  rw [Option.eq_none_iff_forall_ne_some]
  intro q hq
  have hparent := h.tree.mem_kids.1 hc
  rw [h.root_parent c q hq] at hparent
  cases hparent

theorem isShadowRoot_of_kids (hc : c ∈ kids p) : host.isShadowRoot c = false := by
  rw [isShadowRoot_eq, h.shadowRootHost_of_kids hc]
  rfl

theorem mem_shadowKids : c ∈ shadowKids host kids p ↔ host.shadowIncludingParent c = some p := by
  unfold shadowKids shadowIncludingParent
  rw [mem_append, mem_shadowRootsOf, h.tree.mem_kids]
  cases hparent : host.dom.parentNode c with
  | none => simp
  | some q => simp [h.shadowRootHost_of_kids (h.tree.mem_kids.2 hparent)]

theorem parent_lt (c p : NativeNodeId) (hup : host.shadowIncludingParent c = some p) :
    p < host.dom.nodes.length := by
  unfold shadowIncludingParent at hup
  cases hparent : host.dom.parentNode c with
  | none =>
    rw [hparent] at hup
    exact h.host_lt c p hup
  | some q =>
    rw [hparent] at hup
    exact h.tree.parent_lt c p (hparent.trans hup)

theorem nodup_shadowKids (p : NativeNodeId) : (shadowKids host kids p).Nodup := by
  refine nodup_append'.2 ⟨nodup_shadowRootsOf host p, h.tree.represents.nodup p, ?_⟩
  intro c hroot hkid
  have hhost := mem_shadowRootsOf.1 hroot
  rw [h.shadowRootHost_of_kids hkid] at hhost
  cases hhost

theorem isForest : IsForest host.shadowIncludingParent (shadowKids host kids) where
  up_eq _ _ hc := h.mem_shadowKids.1 hc
  nodup := h.nodup_shadowKids
  grounded := h.grounded

theorem complete (p c : NativeNodeId) (hp : host.shadowIncludingParent c = some p) :
    c ∈ shadowKids host kids p :=
  h.mem_shadowKids.2 hp

theorem shadowIncludingPath_eq {w : List NativeNodeId}
    (hw : Follows host.shadowIncludingParent (some x) w) :
    host.shadowIncludingPath x = .ok w.reverse := by
  unfold shadowIncludingPath
  rw [collect_eq hw (hw.length_le h.parent_lt)]
  rfl

theorem compareHandles_siblings {us vs : List NativeNodeId} (hsplit : kids p = us ++ vs)
    (hc : c ∈ us) (hd : x ∈ vs) :
    host.compareHandlesInDocumentOrder c x = .ok .lt ∧
      host.compareHandlesInDocumentOrder x c = .ok .gt := by
  obtain ⟨r, l, -, hr, hl, hp⟩ := h.tree.exists_tree p
  have hbefore := hl.before_of_siblings h.tree.complete hp hsplit hc hd
    (.refl h.tree.grounded c) (.refl h.tree.grounded x)
  have hck : c ∈ kids p := by simp [hsplit, hc]
  have hxk : x ∈ kids p := by simp [hsplit, hd]
  exact h.tree.compareHandles_of_before hl hr (h.tree.kids_lt hck) (h.tree.kids_lt hxk) hbefore

theorem exists_preorder (s : List NativeNodeId) : ∃ l, Lib.Preorder (shadowKids host kids) s l :=
  Lib.Preorder.exists_of_bounded h.isForest (fun _ _ hl => hl.length_le h.parent_lt) s

/-- Every node stands in the traversal from its shadow-including root. -/
theorem exists_tree (x : NativeNodeId) : ∃ r l, host.shadowIncludingParent r = none ∧
    Lib.Preorder (shadowKids host kids) [r] l ∧ x ∈ l := by
  obtain ⟨w, hw⟩ := h.grounded x
  obtain ⟨r, hlast⟩ : ∃ r, w.getLast? = some r := by
    cases hlast : w.getLast? with
    | none =>
      have hmem := hw.mem_start
      rw [getLast?_eq_none_iff.1 hlast] at hmem
      cases hmem
    | some r => exact ⟨r, rfl⟩
  obtain ⟨l, hl⟩ := h.exists_preorder [r]
  have habove : Above host.shadowIncludingParent r x := ⟨w, hw, mem_of_getLast? hlast⟩
  exact ⟨r, l, hw.last_eq hlast, hl, hl.mem_of_above h.complete mem_cons_self habove⟩

/-- Children of one node: the shadow root comes first, then the light children in their order. -/
theorem compare_children {left right : NativeNodeId} (hleft : left ∈ shadowKids host kids p)
    (hright : right ∈ shadowKids host kids p) (hne : left ≠ right) :
    ∃ us vs, shadowKids host kids p = us ++ vs ∧
      ((left ∈ us ∧ right ∈ vs ∧ (host.isShadowRoot left = true ∨
          host.isShadowRoot left = false ∧ host.isShadowRoot right = false ∧
          host.compareHandlesInDocumentOrder left right = .ok .lt)) ∨
        (right ∈ us ∧ left ∈ vs ∧ host.isShadowRoot left = false ∧ (host.isShadowRoot right = true ∨
          host.isShadowRoot right = false ∧
          host.compareHandlesInDocumentOrder left right = .ok .gt))) := by
  rcases mem_append.1 hleft with hroot | hkid
  · have hkid' : right ∈ kids p := (mem_append.1 hright).resolve_left fun hroot' =>
      hne (h.one_root left right p (mem_shadowRootsOf.1 hroot) (mem_shadowRootsOf.1 hroot'))
    exact ⟨_, _, rfl, .inl ⟨hroot, hkid', .inl (isShadowRoot_of_mem hroot)⟩⟩
  · have hlight := h.isShadowRoot_of_kids hkid
    rcases mem_append.1 hright with hroot | hkid'
    · exact ⟨_, _, rfl, .inr ⟨hroot, hkid, hlight, .inl (isShadowRoot_of_mem hroot)⟩⟩
    · have hlight' := h.isShadowRoot_of_kids hkid'
      obtain ⟨us, vs, hsplit⟩ := append_of_mem hkid
      rcases mem_append.1 (hsplit ▸ hkid') with hus | hvs
      · refine ⟨shadowRootsOf host p ++ us, left :: vs, by simp [shadowKids, hsplit], .inr ?_⟩
        exact ⟨by simp [hus], mem_cons_self, hlight, .inr ⟨hlight',
          (h.compareHandles_siblings hsplit hus mem_cons_self).2⟩⟩
      · have hvs' : right ∈ vs := (mem_cons.1 hvs).resolve_left hne.symm
        have hsplit' : kids p = (us ++ [left]) ++ vs := by simpa using hsplit
        refine ⟨shadowRootsOf host p ++ (us ++ [left]), vs, by simp [shadowKids, hsplit], .inl ?_⟩
        exact ⟨by simp, hvs', .inr ⟨hlight, hlight',
          (h.compareHandles_siblings hsplit' (by simp) hvs').1⟩⟩

/-- Two nodes of one shadow-including tree are compared as its traversal visits them. -/
theorem compare_tree (hpre : Lib.Preorder (shadowKids host kids) [r] l)
    (hr : host.shadowIncludingParent r = none) (hx : x ∈ l) (hy : y ∈ l) (hxy : x ≠ y) :
    (Before l x y ∧ host.compareHandlesInShadowIncludingTreeOrder x y = .ok .lt) ∨
      (Before l y x ∧ host.compareHandlesInShadowIncludingTreeOrder x y = .ok .gt) := by
  obtain ⟨wx, hwx⟩ := h.grounded x
  obtain ⟨wy, hwy⟩ := h.grounded y
  have hxr := hwx.reverse_head hr (hpre.above_of_mem h.isForest hx)
  have hyr := hwy.reverse_head hr (hpre.above_of_mem h.isForest hy)
  obtain ⟨shared, lefts, rights, hsx, hsy, hlength, hdiffer⟩ := common_spec wx.reverse wy.reverse
  have hshared : shared.length ≠ 0 := by
    intro hzero
    obtain rfl := length_eq_zero_iff.1 hzero
    rw [hsx] at hxr
    rw [hsy] at hyr
    exact hdiffer r r hxr hyr rfl
  have hleft : wx.reverse[shared.length]? = lefts.head? := by
    rw [hsx, getElem?_append_right (Nat.le_refl _), Nat.sub_self, head?_eq_getElem?]
  have hright : wy.reverse[shared.length]? = rights.head? := by
    rw [hsy, getElem?_append_right (Nat.le_refl _), Nat.sub_self, head?_eq_getElem?]
  have hlefts : wx.reverse.length = shared.length + lefts.length := by rw [hsx, length_append]
  have hrights : wy.reverse.length = shared.length + rights.length := by rw [hsy, length_append]
  simp only [compareHandlesInShadowIncludingTreeOrder, h.shadowIncludingPath_eq hwx,
    h.shadowIncludingPath_eq hwy, bind, Except.bind, pure, Except.pure, hlength, if_neg hshared,
    hleft, hright, hlefts, hrights]
  rcases hpre.parting h.isForest h.complete hr hx hy hwx hwy hsx hsy hdiffer with
    ⟨rfl, habove⟩ | ⟨hne, rfl, habove⟩ |
    ⟨p, left, right, lefts', rights', rfl, rfl, hp, hleft, hright, hne, hax, hay⟩
  · -- the path of `x` is a proper beginning of the path of `y`
    have hlonger : rights ≠ [] := by
      rintro rfl
      have hsame : wx = wy := reverse_injective (hsx.trans hsy.symm)
      exact hxy (Option.some.inj (hwx.start_eq.trans (hsame ▸ hwy.start_eq.symm)))
    refine .inl ⟨hpre.before_of_above h.complete hx habove hxy, ?_⟩
    have hlt : 0 < rights.length := length_pos_of_ne_nil hlonger
    simp [Nat.compare_eq_lt, hlt]
  · refine .inr ⟨hpre.before_of_above h.complete hy habove (Ne.symm hxy), ?_⟩
    obtain ⟨left, lefts', rfl⟩ := exists_cons_of_ne_nil hne
    simp [Nat.compare_eq_gt]
  · obtain ⟨us, vs, hsplit, ⟨hus, hvs, horder⟩ | ⟨hus, hvs, hlight, horder⟩⟩ :=
      h.compare_children hleft hright hne
    · refine .inl ⟨hpre.before_of_siblings h.complete hp hsplit hus hvs hax hay, ?_⟩
      rcases horder with hroot | ⟨hlight, hlight', hcompare⟩
      · simp [hroot]
      · simp [hlight', hcompare]
    · refine .inr ⟨hpre.before_of_siblings h.complete hp hsplit hus hvs hay hax, ?_⟩
      rcases horder with hroot | ⟨hlight', hcompare⟩
      · simp [hlight, hroot]
      · simp [hlight, hcompare]

/-- Nodes without a common root are compared by their handles. -/
theorem compare_apart (hpre : Lib.Preorder (shadowKids host kids) [r] l)
    (hr : host.shadowIncludingParent r = none) (hx : x ∈ l) (hy : y ∉ l) :
    host.compareHandlesInShadowIncludingTreeOrder x y = .ok (compare x y) ∧
      host.compareHandlesInShadowIncludingTreeOrder y x = .ok (compare y x) := by
  obtain ⟨r', l', hr', hpre', hyl'⟩ := h.exists_tree y
  have hroots : r ≠ r' := by
    rintro rfl
    exact hy (hpre.unique hpre' ▸ hyl')
  obtain ⟨wx, hwx⟩ := h.grounded x
  obtain ⟨wy, hwy⟩ := h.grounded y
  have hxr := hwx.reverse_head hr (hpre.above_of_mem h.isForest hx)
  have hyr := hwy.reverse_head hr' (hpre'.above_of_mem h.isForest hyl')
  obtain ⟨ls, hls⟩ := head?_eq_some_iff.1 hxr
  obtain ⟨rs, hrs⟩ := head?_eq_some_iff.1 hyr
  simp only [compareHandlesInShadowIncludingTreeOrder, h.shadowIncludingPath_eq hwx,
    h.shadowIncludingPath_eq hwy, bind, Except.bind, pure, Except.pure, hls, hrs]
  simp [hroots, hroots.symm]

end

/-- Shadow roots whose fragments are hosted by their hosts are well placed. -/
theorem of_wellLinked (h : WellLinked host.dom kids)
    (hhost : ∀ s p, host.shadowRootHost s = some p → host.dom.host s = some p)
    (hone : ∀ s s' p, host.shadowRootHost s = some p → host.shadowRootHost s' = some p → s = s') :
    ShadowLinked host kids where
  tree := h.treeLinked
  root_parent s p hs := by
    cases hparent : host.dom.parentNode s with
    | none => rfl
    | some q =>
      have hfragment := hhost s p hs
      rw [h.host_eq_none hparent] at hfragment
      cases hfragment
  one_root := hone
  host_lt s p hs := h.host_lt s p (hhost s p hs)
  grounded := by
    refine h.grounded.mono fun c p hup => h.up_iff.2 ?_
    unfold shadowIncludingParent at hup
    cases hparent : host.dom.parentNode c with
    | none =>
      rw [hparent] at hup
      exact .inr (hhost c p hup)
    | some q =>
      rw [hparent] at hup
      exact .inl hup

/-! ### When it is an order -/

/-- No node of another tree has a handle between those of two nodes of one tree that stand in the
tree in the opposite order. -/
def NothingBetween (host : DomHost) (kids : Kids) : Prop :=
  ∀ r l a b d, host.shadowIncludingParent r = none → Lib.Preorder (shadowKids host kids) [r] l →
    Before l a b → a < host.dom.nodes.length → b < host.dom.nodes.length →
    d < host.dom.nodes.length → d ∉ l → ¬(b < d ∧ d < a)

/-- With a single tree nothing can fall between. -/
theorem nothingBetween_of_above (h : ShadowLinked host kids)
    (hr : host.shadowIncludingParent r = none)
    (habove : ∀ a, a < host.dom.nodes.length → Above host.shadowIncludingParent r a) :
    NothingBetween host kids := by
  intro r' l a b d hr' hpre hab ha hb hd hdl
  obtain rfl := (habove a ha).root_eq hr (hpre.above_of_mem h.isForest hab.mem.1) hr'
  exact absurd (hpre.mem_of_above h.complete mem_cons_self (habove d hd)) hdl

/-- In one tree by the traversal, otherwise by the handles. -/
def ShadowPrecedes (host : DomHost) (kids : Kids) (a b : NativeNodeId) : Prop :=
  ∃ r l, host.shadowIncludingParent r = none ∧ Lib.Preorder (shadowKids host kids) [r] l ∧ a ∈ l ∧
    (Before l a b ∨ b ∉ l ∧ a < b)

variable (h : ShadowLinked host kids)
include h

/-- Trees that share a node are the same. -/
theorem tree_unique (hr : host.shadowIncludingParent r = none)
    (hpre : Lib.Preorder (shadowKids host kids) [r] l) (hr' : host.shadowIncludingParent r' = none)
    (hpre' : Lib.Preorder (shadowKids host kids) [r'] l') (hx : x ∈ l) (hx' : x ∈ l') : l = l' := by
  obtain rfl := (hpre.above_of_mem h.isForest hx).root_eq hr (hpre'.above_of_mem h.isForest hx') hr'
  exact hpre.unique hpre'

theorem compare_of_shadowPrecedes (hab : ShadowPrecedes host kids a b) :
    host.compareHandlesInShadowIncludingTreeOrder a b = .ok .lt ∧
      host.compareHandlesInShadowIncludingTreeOrder b a = .ok .gt := by
  obtain ⟨r, l, hr, hpre, ha, hbefore | ⟨hb, hlt⟩⟩ := hab
  · have hnodup := hpre.nodup h.isForest
    have hne : a ≠ b := by
      rintro rfl
      exact hbefore.asymm hnodup hbefore
    have hb := hbefore.mem.2
    constructor
    · exact ((h.compare_tree hpre hr ha hb hne).resolve_right fun hback =>
        hbefore.asymm hnodup hback.1).2
    · exact ((h.compare_tree hpre hr hb ha hne.symm).resolve_left fun hback =>
        hbefore.asymm hnodup hback.1).2
  · obtain ⟨hab, hba⟩ := h.compare_apart hpre hr ha hb
    rw [hab, hba, Nat.compare_eq_lt.2 hlt, Nat.compare_eq_gt.2 hlt]
    exact ⟨rfl, rfl⟩

theorem shadowPrecedes_total (hab : a ≠ b) :
    ShadowPrecedes host kids a b ∨ ShadowPrecedes host kids b a := by
  obtain ⟨r, l, hr, hpre, ha⟩ := h.exists_tree a
  obtain ⟨r', l', hr', hpre', hb⟩ := h.exists_tree b
  by_cases hbl : b ∈ l
  · rcases Before.total ha hbl hab with hfirst | hfirst
    · exact .inl ⟨r, l, hr, hpre, ha, .inl hfirst⟩
    · exact .inr ⟨r, l, hr, hpre, hbl, .inl hfirst⟩
  · have hal : a ∉ l' := by
      intro hal
      exact hbl (h.tree_unique hr hpre hr' hpre' ha hal ▸ hb)
    rcases Nat.lt_or_gt_of_ne hab with hlt | hlt
    · exact .inl ⟨r, l, hr, hpre, ha, .inr ⟨hbl, hlt⟩⟩
    · exact .inr ⟨r', l', hr', hpre', hb, .inr ⟨hal, hlt⟩⟩

theorem shadowPrecedes_trans (hbetween : NothingBetween host kids) (ha : a < host.dom.nodes.length)
    (hb : b < host.dom.nodes.length) (hc : c < host.dom.nodes.length)
    (hab : ShadowPrecedes host kids a b) (hbc : ShadowPrecedes host kids b c) :
    ShadowPrecedes host kids a c := by
  obtain ⟨r, l, hr, hpre, hal, hab⟩ := hab
  obtain ⟨r', l', hr', hpre', hbl', hbc⟩ := hbc
  refine ⟨r, l, hr, hpre, hal, ?_⟩
  rcases hab with hab | ⟨hbl, hlt⟩
  · -- `a` and `b` in one tree
    obtain rfl := h.tree_unique hr hpre hr' hpre' hab.mem.2 hbl'
    rcases hbc with hbc | ⟨hcl, hlt⟩
    · exact .inl (hab.trans (hpre.nodup h.isForest) hbc)
    · refine .inr ⟨hcl, ?_⟩
      have hnot : ¬c < a := fun hca => hbetween r l a b c hr hpre hab ha hb hc hcl ⟨hlt, hca⟩
      have hne : a ≠ c := by
        rintro rfl
        exact hcl hal
      exact lt_of_le_of_ne (Nat.le_of_not_lt hnot) hne
  · have hal' : a ∉ l' := by
      intro hal'
      exact hbl (h.tree_unique hr hpre hr' hpre' hal hal' ▸ hbl')
    rcases hbc with hbc | ⟨hcl', hlt'⟩
    · -- `b` and `c` in another tree than `a`
      have hnot : ¬c < a := fun hca => hbetween r' l' b c a hr' hpre' hbc hb hc ha hal' ⟨hca, hlt⟩
      have hcl : c ∉ l := by
        intro hcl
        exact hal' (h.tree_unique hr hpre hr' hpre' hcl hbc.mem.2 ▸ hal)
      have hne : a ≠ c := by
        rintro rfl
        exact hcl hal
      exact .inr ⟨hcl, lt_of_le_of_ne (Nat.le_of_not_lt hnot) hne⟩
    · -- `b` in another tree than both
      by_cases hcl : c ∈ l
      · have hne : a ≠ c := Nat.ne_of_lt (hlt.trans hlt')
        refine .inl ((Before.total hal hcl hne).resolve_right fun hback => ?_)
        exact hbetween r l c a b hr hpre hback hc ha hb hbl ⟨hlt, hlt'⟩
      · exact .inr ⟨hcl, hlt.trans hlt'⟩

theorem compare_self (a : NativeNodeId) :
    host.compareHandlesInShadowIncludingTreeOrder a a = .ok .eq := by
  obtain ⟨w, hw⟩ := h.grounded a
  obtain ⟨shared, lefts, rights, hsl, hsr, hlength, hdiffer⟩ := common_spec w.reverse w.reverse
  obtain rfl : lefts = rights := append_cancel_left (hsl.symm.trans hsr)
  obtain rfl : lefts = [] := by
    cases lefts with
    | nil => rfl
    | cons left lefts => exact absurd rfl (hdiffer left left rfl rfl)
  rw [append_nil] at hsl
  have hshared : shared.length ≠ 0 := by
    rw [← hsl, length_reverse]
    exact Nat.ne_of_gt (length_pos_of_mem hw.mem_start)
  have hend : w.reverse[shared.length]? = none := by rw [hsl, getElem?_length]
  simp only [compareHandlesInShadowIncludingTreeOrder, h.shadowIncludingPath_eq hw, bind,
    Except.bind, pure, Except.pure, hlength, if_neg hshared, hend, Nat.compare_eq_eq.2]

theorem ordersNodes_iff : OrdersNodes host.dom.nodes.length
    host.compareHandlesInShadowIncludingTreeOrder ↔ NothingBetween host kids := by
  constructor
  · intro horders r l a b d hr hpre hab ha hb hd hdl hbetween
    have hfirst := h.compare_of_shadowPrecedes ⟨r, l, hr, hpre, hab.mem.1, .inl hab⟩
    have hsecond := h.compare_of_shadowPrecedes ⟨r, l, hr, hpre, hab.mem.2, .inr ⟨hdl, hbetween.1⟩⟩
    have hthird := horders.trans a b d ha hb hd hfirst.1 hsecond.1
    rw [(h.compare_apart hpre hr hab.mem.1 hdl).1, Nat.compare_eq_gt.2 hbetween.2] at hthird
    cases hthird
  · intro hbetween
    exact @OrdersNodes.of_relation _ _ (ShadowPrecedes host kids) (fun a _ => h.compare_self a)
      (fun a b _ _ => h.compare_of_shadowPrecedes) (fun a b => h.shadowPrecedes_total)
      (fun a b c => h.shadowPrecedes_trans hbetween)

end ShadowLinked

/-- The comparison agrees with the traversal on every tree; it is an order of all nodes exactly if
nothing falls between two nodes of a tree whose handles are in the wrong order. -/
theorem shadow_including_order_iff (host : DomHost) (kids : Kids)
    (h : ShadowLinked host kids) :
    ((∀ r l, host.shadowIncludingParent r = none → Lib.Preorder (shadowKids host kids) [r] l →
      ∀ a b, a ∈ l → b ∈ l →
        (host.compareHandlesInShadowIncludingTreeOrder a b = .ok .lt ↔ Before l a b)) ∧
      OrdersNodes host.dom.nodes.length host.compareHandlesInShadowIncludingTreeOrder) ↔
    ShadowLinked.NothingBetween host kids := by
  refine ⟨fun horders => h.ordersNodes_iff.1 horders.2,
    fun hbetween => ⟨fun r l hr hpre a b ha hb => ?_, h.ordersNodes_iff.2 hbetween⟩⟩
  by_cases hab : a = b
  · subst hab
    rw [h.compare_self]
    exact iff_of_false (by simp) fun hbefore => hbefore.asymm (hpre.nodup h.isForest) hbefore
  · rcases h.compare_tree hpre hr ha hb hab with ⟨hbefore, heq⟩ | ⟨hback, heq⟩
    · exact iff_of_true heq hbefore
    · rw [heq]
      exact iff_of_false (by simp) (hback.asymm (hpre.nodup h.isForest))

def shadowDocumentOps : List Op :=
  [.createElement 0 (.newHtml "div"), .createNode (.documentFragment {}) (some 0) false false,
    .createElement 0 (.newHtml "p"), .createElement 0 (.newHtml "slot"), .appendChild 0 1,
    .setDocumentFragmentHost 2 1, .appendChild 2 4, .appendChild 1 3]

/-- A document with an element that has a shadow tree with one node and one light child. -/
def shadowDocument : DomHost where
  dom := (runAll Op.hostsFresh .newHtml shadowDocumentOps).getD .newHtml
  shadowHostsByRoot := (∅ : Std.TreeMap NativeNodeId NativeNodeId).insert 2 1

theorem shadowRootHost_shadowDocument {s p : NativeNodeId}
    (h : shadowDocument.shadowRootHost s = some p) : s = 2 ∧ p = 1 := by
  unfold shadowRootHost shadowDocument at h
  rw [Std.TreeMap.getElem?_insert] at h
  split at h
  next heq => exact ⟨(Nat.compare_eq_eq.1 heq).symm, (Option.some.inj h).symm⟩
  · simp at h

theorem above_shadowDocument (a : Nat) (ha : a < shadowDocument.dom.nodes.length) :
    Above shadowDocument.shadowIncludingParent 0 a := by
  have hlength : shadowDocument.dom.nodes.length = 5 := rfl
  have hup : shadowDocument.shadowIncludingParent 0 = none ∧
      shadowDocument.shadowIncludingParent 1 = some 0 ∧
        shadowDocument.shadowIncludingParent 2 = some 1 ∧
      shadowDocument.shadowIncludingParent 3 = some 1 ∧
        shadowDocument.shadowIncludingParent 4 = some 2 := by
    decide +kernel
  obtain ⟨h0, h1, h2, h3, h4⟩ := hup
  have htop : Above shadowDocument.shadowIncludingParent 0 0 := ⟨[0], ⟨rfl, h0⟩, by simp⟩
  obtain rfl | rfl | rfl | rfl | rfl : a = 0 ∨ a = 1 ∨ a = 2 ∨ a = 3 ∨ a = 4 := by omega
  · exact htop
  · exact htop.of_up h1
  · exact (htop.of_up h1).of_up h2
  · exact (htop.of_up h1).of_up h3
  · exact ((htop.of_up h1).of_up h2).of_up h4

/-- The shadow tree comes before the light child, and everything is ordered. -/
theorem shadow_including_order_document :
    ∃ (host : DomHost) (kids : Kids), ShadowLinked host kids ∧
      host.compareHandlesInShadowIncludingTreeOrder 4 3 = .ok .lt ∧
      OrdersNodes host.dom.nodes.length host.compareHandlesInShadowIncludingTreeOrder := by
  have hreach : Reachable Op.hostsFresh shadowDocument.dom :=
    Reachable.newHtml.of_runAll shadowDocumentOps rfl
  obtain ⟨kids, hsound⟩ := hreach.sound
  have h : ShadowLinked shadowDocument kids := by
    refine .of_wellLinked hsound.linked (fun s p hs => ?_) (fun s s' p hs hs' => ?_)
    · obtain ⟨rfl, rfl⟩ := shadowRootHost_shadowDocument hs
      decide +kernel
    · rw [(shadowRootHost_shadowDocument hs).1, (shadowRootHost_shadowDocument hs').1]
  have hroot : shadowDocument.shadowIncludingParent 0 = none := by decide +kernel
  refine ⟨shadowDocument, kids, h, by decide +kernel,
    ((shadow_including_order_iff _ kids h).2 ?_).2⟩
  exact h.nothingBetween_of_above hroot above_shadowDocument

/-- An element made third has the one made first as its child, and the one made second is alone: the
three are ordered in a circle. -/
theorem shadow_including_order_circle : ∃ (host : DomHost) (kids : Kids),
    ShadowLinked host kids ∧ host.compareHandlesInShadowIncludingTreeOrder 3 1 = .ok .lt ∧
    host.compareHandlesInShadowIncludingTreeOrder 1 2 = .ok .lt ∧
    host.compareHandlesInShadowIncludingTreeOrder 2 3 = .ok .lt ∧
    ¬OrdersNodes host.dom.nodes.length host.compareHandlesInShadowIncludingTreeOrder := by
  have hreach : Reachable Op.hostsFresh _ := Reachable.newHtml.of_runAll
    [.createElement 0 (.newHtml "div"), .createElement 0 (.newHtml "p"),
      .createElement 0 (.newHtml "main"), .appendChild 3 1] rfl
  obtain ⟨kids, hsound⟩ := hreach.sound
  refine ⟨.fromDom _, kids, .of_wellLinked hsound.linked (fun s p hs => ?_) (fun s _ p hs => ?_),
    rfl, rfl, rfl, fun horders => ?_⟩
  · simp [shadowRootHost, fromDom] at hs
  · simp [shadowRootHost, fromDom] at hs
  · have hcircle := horders.trans 1 2 3 (by decide) (by decide) (by decide) rfl rfl
    exact absurd hcircle (by decide)

end Moli.Dom

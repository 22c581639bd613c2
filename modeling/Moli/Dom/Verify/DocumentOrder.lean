import Moli.Dom.Verify.Tree

/-!
# Document order

`compare_document_position` compares ancestor chains and the order of two siblings. Within one tree
it agrees with the preorder traversal: `handlePrecedes_spec`.
-/

namespace Moli.Dom.NativeDom

open Lib List

variable {dom : NativeDom} {kids : Kids}
variable {r x y a b : NativeNodeId} {l : List NativeNodeId}

theorem dropShared_spec (lefts rights : List NativeNodeId) : ∃ shared,
    lefts = shared ++ (dropShared lefts rights).1 ∧
    rights = shared ++ (dropShared lefts rights).2 ∧
    ∀ left right, (dropShared lefts rights).1.head? = some left →
      (dropShared lefts rights).2.head? = some right → left ≠ right := by
  fun_induction dropShared lefts rights with
  | case1 lefts left rights ih =>
    obtain ⟨shared, hl, hr, hne⟩ := ih
    refine ⟨left :: shared, ?_, ?_, hne⟩
    · rw [cons_append, ← hl]
    · rw [cons_append, ← hr]
  | case2 left lefts right rights hne =>
    refine ⟨[], rfl, rfl, ?_⟩
    rintro _ _ ⟨⟩ ⟨⟩
    exact hne
  | case3 lefts rights hnone =>
    refine ⟨[], rfl, rfl, fun left right hl hr => ?_⟩
    obtain ⟨lefts, rfl⟩ := head?_eq_some_iff.1 hl
    obtain ⟨rights, rfl⟩ := head?_eq_some_iff.1 hr
    exact (hnone _ _ _ _ rfl rfl).elim

/-- Nodes of different trees are ordered like the roots of their trees. -/
theorem compareDocumentPosition_of_ne {r' : NativeNodeId} (hx : dom.rootNodeId x = .ok r)
    (hy : dom.rootNodeId y = .ok r') (hne : r ≠ r') :
    dom.compareDocumentPosition x y = .ok (documentPositionDisconnected |||
      documentPositionImplementationSpecific |||
      if r < r' then documentPositionFollowing else documentPositionPreceding) := by
  have hxy : x ≠ y := by
    rintro rfl
    exact hne (Except.ok.inj (hx.symm.trans hy))
  simp only [compareDocumentPosition, hxy, hx, hy, bind, Except.bind, ne_eq, hne]
  rfl

namespace TreeLinked

variable (h : TreeLinked dom kids)
include h

/-- Two siblings are ordered as in their child list. -/
theorem siblingDocumentOrder_spec {us vs : List NativeNodeId} (hkids : kids r = us ++ a :: vs)
    (hb : b ∈ kids r) (hne : a ≠ b) : dom.siblingDocumentOrder a b = .ok
      (if b ∈ vs then documentPositionFollowing else documentPositionPreceding) := by
  have hparent : dom.parentNode a = some r := h.mem_kids.1 (by simp [hkids])
  have hnodup := hkids ▸ h.represents.nodup r
  have ha : a ∉ us := fun hmem => disjoint_of_nodup_append hnodup hmem (by simp)
  simp only [siblingDocumentOrder, hparent, h.childIds_eq, hkids, bind, Except.bind]
  rw [hkids] at hb
  by_cases hbv : b ∈ vs
  · have hbu : b ∉ us := fun hmem =>
      disjoint_of_nodup_append hnodup hmem (by simp [hbv])
    have hfirst : us.find? (fun child => child == a || child == b) = none := by
      rw [find?_eq_none]
      intro child hchild
      have hca : child ≠ a := by rintro rfl; exact ha hchild
      have hcb : child ≠ b := by rintro rfl; exact hbu hchild
      simp [hca, hcb]
    rw [find?_append, hfirst]
    simp [hbv]
    rfl
  · have hbu : b ∈ us := by
      rcases mem_append.1 hb with hmem | hmem
      · exact hmem
      · exact absurd hmem (by simp [hne.symm, hbv])
    obtain ⟨us₁, us₂, rfl⟩ := append_of_mem hbu
    have hbu₁ : b ∉ us₁ := fun hmem =>
      disjoint_of_nodup_append hnodup.of_append_left hmem (by simp)
    have hfirst : us₁.find? (fun child => child == a || child == b) = none := by
      rw [find?_eq_none]
      intro child hchild
      have hca : child ≠ a := by rintro rfl; exact ha (by simp [hchild])
      have hcb : child ≠ b := by rintro rfl; exact hbu₁ hchild
      simp [hca, hcb]
    rw [append_assoc, find?_append, hfirst]
    simp [hbv, hne.symm]
    rfl

/-- Two nodes under one root are compared where their chains part. -/
theorem compareDocumentPosition_eq {wx wy : List NativeNodeId} (hxy : x ≠ y)
    (hx : dom.rootNodeId x = .ok r) (hy : dom.rootNodeId y = .ok r)
    (hwx : Follows dom.parentNode (some x) wx) (hwy : Follows dom.parentNode (some y) wy) :
    dom.compareDocumentPosition x y =
      match dropShared wx.reverse wy.reverse with
      | ([], _) => .ok (documentPositionContainedBy ||| documentPositionFollowing)
      | (_, []) => .ok (documentPositionContains ||| documentPositionPreceding)
      | (left :: _, right :: _) => dom.siblingDocumentOrder left right := by
  simp only [compareDocumentPosition, hxy, hx, hy, bind, Except.bind,
    h.ancestorChain_eq hwx, h.ancestorChain_eq hwy, ne_eq]
  rfl

section
variable (hpre : Lib.Preorder kids [r] l) (hr : dom.parentNode r = none)
include hpre hr

theorem rootNodeId_of_mem (hx : x ∈ l) : dom.rootNodeId x = .ok r := by
  obtain ⟨r', heq, hr', hnone⟩ := h.rootNodeId_spec x
  rw [heq, hr'.root_eq hnone (hpre.above_of_mem h.isForest hx) hr]

/-- Two nodes of one tree: the bits say which comes first in preorder and which is above the
other. -/
theorem compareDocumentPosition_spec (hx : x ∈ l) (hy : y ∈ l) (hxy : x ≠ y) :
    ∃ position, dom.compareDocumentPosition x y = .ok position ∧
      (position &&& documentPositionFollowing ≠ 0 ↔ Before l x y) ∧
      (position &&& documentPositionPreceding ≠ 0 ↔ Before l y x) ∧
      (position &&& documentPositionContainedBy ≠ 0 ↔ Above dom.parentNode x y) ∧
      (position &&& documentPositionContains ≠ 0 ↔ Above dom.parentNode y x) ∧
      position &&& documentPositionDisconnected = 0 := by
  have hnodup := hpre.nodup h.isForest
  obtain ⟨wx, hwx⟩ := h.grounded x
  obtain ⟨wy, hwy⟩ := h.grounded y
  rw [compareDocumentPosition_eq h hxy (h.rootNodeId_of_mem hpre hr hx)
    (h.rootNodeId_of_mem hpre hr hy) hwx hwy]
  obtain ⟨shared, hsx, hsy, hdiffer⟩ := dropShared_spec wx.reverse wy.reverse
  generalize dropShared wx.reverse wy.reverse = parted at hsx hsy hdiffer
  obtain ⟨lefts, rights⟩ := parted
  have hbefore : ∀ {a b}, a ∈ l → a ≠ b → Above dom.parentNode a b → Before l a b :=
    fun ha hab habove => hpre.before_of_above h.complete ha habove hab
  rcases hpre.parting h.isForest h.complete hr hx hy hwx hwy hsx hsy hdiffer with
    ⟨rfl, habove⟩ | ⟨hlefts, rfl, habove⟩ |
    ⟨p, left, right, lefts', rights', rfl, rfl, hp, hleft, hright, hne, hax, hay⟩
  · have hfirst := hbefore hx hxy habove
    refine ⟨_, rfl, iff_of_true (by decide) hfirst, iff_of_false (by decide) (hfirst.asymm hnodup),
      iff_of_true (by decide) habove, iff_of_false (by decide) fun hback => ?_, by decide⟩
    exact hfirst.asymm hnodup (hbefore hy (Ne.symm hxy) hback)
  · have hfirst := hbefore hy (Ne.symm hxy) habove
    obtain ⟨left, lefts', rfl⟩ := exists_cons_of_ne_nil hlefts
    refine ⟨_, rfl, iff_of_false (by decide) (hfirst.asymm hnodup), iff_of_true (by decide) hfirst,
      iff_of_false (by decide) fun hback => ?_, iff_of_true (by decide) habove, by decide⟩
    exact hfirst.asymm hnodup (hbefore hx hxy hback)
  · have hparents : dom.parentNode left = dom.parentNode right :=
      (h.mem_kids.1 hleft).trans (h.mem_kids.1 hright).symm
    have hapart := hax.not_above_of_siblings hay hne hparents
    have hapart' := hay.not_above_of_siblings hax hne.symm hparents.symm
    obtain ⟨us, vs, hsplit⟩ := append_of_mem hleft
    dsimp only
    rw [h.siblingDocumentOrder_spec hsplit hright hne]
    by_cases hvs : right ∈ vs
    · have hsplit' : kids p = (us ++ [left]) ++ vs := by simpa using hsplit
      have hfirst : Before l x y :=
        hpre.before_of_siblings h.complete hp hsplit' (by simp) hvs hax hay
      rw [if_pos hvs]
      exact ⟨_, rfl, iff_of_true (by decide) hfirst, iff_of_false (by decide) (hfirst.asymm hnodup),
        iff_of_false (by decide) hapart, iff_of_false (by decide) hapart', by decide⟩
    · have hus : right ∈ us := by
        rw [hsplit, mem_append, mem_cons] at hright
        exact hright.resolve_right fun hr => hr.elim hne.symm hvs
      have hfirst : Before l y x :=
        hpre.before_of_siblings h.complete hp hsplit hus mem_cons_self hay hax
      rw [if_neg hvs]
      exact ⟨_, rfl, iff_of_false (by decide) (hfirst.asymm hnodup), iff_of_true (by decide) hfirst,
        iff_of_false (by decide) hapart, iff_of_false (by decide) hapart', by decide⟩

theorem handlePrecedes_spec (hx : x ∈ l) (hxlen : x < dom.nodes.length) (hy : y ∈ l) :
    ∃ b, dom.handlePrecedes x y = .ok b ∧ (b = true ↔ Before l x y) := by
  obtain ⟨n, hn⟩ := exists_node hxlen
  obtain ⟨position, heq, hposition⟩ : ∃ position, dom.compareDocumentPosition x y = .ok position ∧
      (position &&& documentPositionFollowing ≠ 0 ↔ Before l x y) := by
    by_cases hxy : x = y
    · subst hxy
      refine ⟨0, by simp [compareDocumentPosition]; rfl, iff_of_false (by decide) fun hbefore => ?_⟩
      exact hbefore.asymm (hpre.nodup h.isForest) hbefore
    · obtain ⟨position, heq, hfollowing, -⟩ := h.compareDocumentPosition_spec hpre hr hx hy hxy
      exact ⟨position, heq, hfollowing⟩
  refine ⟨position &&& documentPositionFollowing != 0, ?_, by simpa using hposition⟩
  simp only [handlePrecedes, hn, heq]
  rfl

theorem handlePrecedes_of_before (hrlen : r < dom.nodes.length) (hbefore : Before l x y) :
    dom.handlePrecedes x y = .ok true ∧ dom.handlePrecedes y x = .ok false := by
  obtain ⟨hx, hy⟩ : x ∈ l ∧ y ∈ l := by
    obtain ⟨xs, ys, rfl, hx, hy⟩ := hbefore
    simp [hx, hy]
  obtain ⟨b, hxy, hb⟩ := h.handlePrecedes_spec hpre hr hx (h.preorder_lt hpre hrlen hx) hy
  obtain ⟨b', hyx, hb'⟩ := h.handlePrecedes_spec hpre hr hy (h.preorder_lt hpre hrlen hy) hx
  have hback := hbefore.asymm (hpre.nodup h.isForest)
  rw [hxy, hyx, hb.2 hbefore, Bool.eq_false_iff.2 fun htrue => hback (hb'.1 htrue)]
  exact ⟨rfl, rfl⟩

end

end TreeLinked

end Moli.Dom.NativeDom

import Moli.Dom.Queries
import Moli.Dom.Verify.Operations

/-!
# Document order of handles

`light_subtree_handles` finds the node after the current one from the links alone. What is still to
be visited is what hangs to the right of the path back to the root (`Pending`), and so the traversal
is the preorder of the child lists (`lightSubtreeHandles_eq`). `compare_handles_in_document_order`
orders the nodes of one tree as the traversal visits them and nodes of different trees like the
roots of their trees; that is a strict total order of all nodes (`document_order`).
-/

namespace Moli.Dom.NativeDom

open Lib

variable {dom : NativeDom} {kids : Kids}
variable {root x y p : NativeNodeId} {s l us vs : List NativeNodeId}

/-- `s` is what follows the subtree of `x` below `root`. -/
inductive Pending (kids : Kids) (root : NativeNodeId) :
    NativeNodeId → List NativeNodeId → Prop
  | root : Pending kids root root []
  | child {p x : NativeNodeId} {us vs s : List NativeNodeId} (hkids : kids p = us ++ x :: vs)
    (h : Pending kids root p s) : Pending kids root x (vs ++ s)

theorem Pending.next (h : Pending kids root x (y :: s)) : Pending kids root y s := by
  generalize heq : y :: s = pending at h
  induction h with
  | root => cases heq
  | @child p x us vs s' hkids h ih =>
    cases vs with
    | nil => exact ih heq
    | cons v vs =>
      obtain ⟨rfl, rfl⟩ := List.cons.inj heq
      have hsplit : kids p = (us ++ [x]) ++ y :: vs := by simpa using hkids
      exact .child hsplit h

namespace TreeLinked

variable (h : TreeLinked dom kids)
include h

theorem firstChild_eq (x : NativeNodeId) : dom.firstChild x = (kids x).head? :=
  (h.represents.forward x).start_eq

theorem nextSibling_eq (hkids : kids p = us ++ x :: vs) : dom.nextSibling x = vs.head? :=
  (hkids ▸ h.represents.forward p).next_eq

theorem above_of_pending (hpending : Pending kids root x s) : Above dom.parentNode root x := by
  induction hpending with
  | root => exact .refl h.grounded root
  | child hkids _ ih => exact ih.of_up (h.mem_kids.1 (by simp [hkids]))

theorem climbToSibling_eq (hpending : Pending kids root x s) {w : List NativeNodeId}
    (hw : Follows dom.parentNode (some x) w) {fuel : Nat} (hfuel : w.length ≤ fuel) :
    dom.climbToSibling root fuel x = .ok s.head? := by
  induction hpending generalizing w fuel with
  | root =>
    cases fuel with
    | zero =>
      rw [List.length_eq_zero_iff.1 (Nat.le_zero.1 hfuel)] at hw
      cases hw
    | succ fuel => simp [climbToSibling]
  | @child p x us vs s hkids hpending ih =>
    have hparent : dom.parentNode x = some p := h.mem_kids.1 (by simp [hkids])
    have hne : x ≠ root := by
      rintro rfl
      exact Above.not_above_of_up hparent (h.above_of_pending hpending)
    cases w with
    | nil => cases hw
    | cons a w =>
      obtain rfl : x = a := Option.some.inj hw.1
      obtain ⟨fuel, rfl⟩ : ∃ n, fuel = n + 1 := ⟨fuel - 1, by simp at hfuel; omega⟩
      have hrest : Follows dom.parentNode (some p) w := hparent ▸ hw.2
      rw [climbToSibling, if_neg hne, h.nextSibling_eq hkids, hparent]
      cases vs with
      | nil => simpa using ih hrest (by simpa using hfuel)
      | cons v vs => rfl

/-- After `x` come its children and then what is pending. -/
theorem lightSubtreeSuccessor_eq (hpending : Pending kids root x s) :
    dom.lightSubtreeSuccessor root x = .ok (kids x ++ s).head? := by
  unfold lightSubtreeSuccessor
  rw [h.firstChild_eq]
  cases hx : kids x with
  | nil =>
    obtain ⟨w, hw⟩ := h.grounded x
    exact h.climbToSibling_eq hpending hw (hw.length_le h.parent_lt)
  | cons c cs => rfl

theorem lightSubtreeLoop_eq {stack : List NativeNodeId} (hpre : Lib.Preorder kids stack l)
    (hpending : ∀ x s, stack = x :: s → Pending kids root x s) {fuel : Nat}
    (hfuel : l.length ≤ fuel) : dom.lightSubtreeLoop root fuel stack.head? = .ok l := by
  induction hpre generalizing fuel with
  | nil =>
    cases fuel with
    | zero => rfl
    | succ fuel => rfl
  | @cons x stack l hpre ih =>
    have hx := hpending x stack rfl
    obtain ⟨fuel, rfl⟩ : ∃ n, fuel = n + 1 := ⟨fuel - 1, by simp at hfuel; omega⟩
    have hnext : ∀ y s, kids x ++ stack = y :: s → Pending kids root y s := by
      intro y s heq
      cases hkids : kids x with
      | nil =>
        rw [hkids, List.nil_append] at heq
        exact (heq ▸ hx).next
      | cons c cs =>
        rw [hkids] at heq
        obtain ⟨rfl, rfl⟩ := List.cons.inj heq
        have hsplit : kids x = [] ++ c :: cs := hkids
        exact .child hsplit hx
    have hrest := ih hnext (by simpa using hfuel)
    simp only [List.head?_cons, lightSubtreeLoop, h.lightSubtreeSuccessor_eq hx, hrest, bind,
      Except.bind]
    rfl

/-- The traversal below a node, the node included, is its preorder. -/
theorem lightSubtreeHandles_eq (hpre : Lib.Preorder kids [root] l)
    (hroot : root < dom.nodes.length) : dom.lightSubtreeHandles root true = .ok l := by
  obtain ⟨node, hnode⟩ := exists_node hroot
  have hstart : dom.lightSubtreeStart root true = [root].head? := by
    simp [lightSubtreeStart, hnode]
  have hlength : l.length ≤ dom.fuel :=
    (Lib.length_le_of_nodup (hpre.nodup h.isForest) fun _ hx => h.preorder_lt hpre hroot hx).trans
      (Nat.le_succ _)
  unfold lightSubtreeHandles
  rw [hstart]
  refine h.lightSubtreeLoop_eq hpre (fun x s heq => ?_) hlength
  obtain ⟨rfl, rfl⟩ := List.cons.inj heq
  exact .root

end TreeLinked

end Moli.Dom.NativeDom

namespace Moli.Dom

open Lib NativeDom

/-- A comparison of the nodes of an arena with `n` nodes that always answers, and answers like a
strict total order. -/
structure OrdersNodes (n : Nat) (cmp : NativeNodeId → NativeNodeId → Except Fault Ordering) :
    Prop where
  eq_iff : ∀ a b, a < n → b < n → (cmp a b = .ok .eq ↔ a = b)
  lt_or_gt : ∀ a b, a < n → b < n → a ≠ b → cmp a b = .ok .lt ∨ cmp a b = .ok .gt
  swap : ∀ a b, a < n → b < n → (cmp a b = .ok .lt ↔ cmp b a = .ok .gt)
  trans : ∀ a b c, a < n → b < n → c < n → cmp a b = .ok .lt → cmp b c = .ok .lt → cmp a c = .ok .lt

/-- A comparison that answers by a relation is an order if the relation is one. -/
theorem OrdersNodes.of_relation {n : Nat}
    {cmp : NativeNodeId → NativeNodeId → Except Fault Ordering}
    {precedes : NativeNodeId → NativeNodeId → Prop}
    (heq : ∀ a, a < n → cmp a a = .ok .eq)
    (hcmp : ∀ a b, a < n → b < n → precedes a b → cmp a b = .ok .lt ∧ cmp b a = .ok .gt)
    (htotal : ∀ a b, a ≠ b → precedes a b ∨ precedes b a)
    (htrans : ∀ a b c, a < n → b < n → c < n → precedes a b → precedes b c → precedes a c) :
    OrdersNodes n cmp := by
  have hiff : ∀ a b, a < n → b < n → (cmp a b = .ok .eq ↔ a = b) ∧
      (cmp a b = .ok .lt ↔ precedes a b) ∧ (cmp b a = .ok .gt ↔ precedes a b) := by
    intro a b ha hb
    have hfirst := hcmp a b ha hb
    by_cases hab : a = b
    · subst hab
      simp_all
    · rcases htotal a b hab with horder | horder <;> simp_all
  refine ⟨fun a b ha hb => (hiff a b ha hb).1, fun a b ha hb hab => ?_, fun a b ha hb => ?_,
    fun a b c ha hb hc hab hbc => ?_⟩
  · rw [(hiff a b ha hb).2.1, (hiff b a hb ha).2.2]
    exact htotal a b hab
  · rw [(hiff a b ha hb).2.1, (hiff a b ha hb).2.2]
  · rw [(hiff a b ha hb).2.1] at hab
    rw [(hiff b c hb hc).2.1] at hbc
    rw [(hiff a c ha hc).2.1]
    exact htrans a b c ha hb hc hab hbc

namespace NativeDom.TreeLinked

variable {host : DomHost} {kids : Kids} {a b c r r' : NativeNodeId}
  {l : List NativeNodeId}

/-- Every node has a root and stands in the preorder of its tree. -/
theorem exists_tree {dom : NativeDom} (h : TreeLinked dom kids) (a : NativeNodeId) :
    ∃ r l, dom.rootNodeId a = .ok r ∧ dom.parentNode r = none ∧
      Lib.Preorder kids [r] l ∧ a ∈ l := by
  obtain ⟨r, hroot, habove, hr⟩ := h.rootNodeId_spec a
  obtain ⟨l, hl⟩ := h.exists_preorder [r]
  exact ⟨r, l, hroot, hr, hl, hl.mem_of_above h.complete List.mem_cons_self habove⟩

theorem mem_of_rootNodeId {dom : NativeDom} (h : TreeLinked dom kids)
    (ha : dom.rootNodeId a = .ok r) (hpre : Lib.Preorder kids [r] l) : a ∈ l := by
  obtain ⟨r', l', ha', -, hl', hmem⟩ := h.exists_tree a
  obtain rfl := Except.ok.inj (ha.symm.trans ha')
  rwa [hpre.unique hl']

/-- In one tree by the traversal, otherwise by the roots. -/
def Precedes (dom : NativeDom) (kids : Kids) (a b : NativeNodeId) : Prop :=
  ∃ r r', dom.rootNodeId a = .ok r ∧ dom.rootNodeId b = .ok r' ∧
    (r < r' ∨ r = r' ∧ ∃ l, Lib.Preorder kids [r] l ∧ Before l a b)

/-- Nodes of different trees are compared like their roots. -/
theorem compareHandles_of_root_lt (ha : a < host.dom.nodes.length) (hb : b < host.dom.nodes.length)
    (har : host.dom.rootNodeId a = .ok r) (hbr : host.dom.rootNodeId b = .ok r') (hlt : r < r') :
    host.compareHandlesInDocumentOrder a b = .ok .lt ∧
      host.compareHandlesInDocumentOrder b a = .ok .gt := by
  obtain ⟨node, hnode⟩ := exists_node ha
  obtain ⟨node', hnode'⟩ := exists_node hb
  have hposition := compareDocumentPosition_of_ne har hbr (Nat.ne_of_lt hlt)
  have hposition' := compareDocumentPosition_of_ne hbr har (Nat.ne_of_gt hlt)
  rw [if_pos hlt] at hposition
  rw [if_neg (Nat.not_lt_of_gt hlt)] at hposition'
  constructor
  · simp only [DomHost.compareHandlesInDocumentOrder, hnode, hposition]
    rfl
  · simp only [DomHost.compareHandlesInDocumentOrder, hnode', hposition']
    rfl

section

variable (h : TreeLinked host.dom kids)
include h

/-- Nodes of one tree are compared as the traversal visits them. -/
theorem compareHandles_of_before (hpre : Lib.Preorder kids [r] l)
    (hr : host.dom.parentNode r = none)
    (ha : a < host.dom.nodes.length) (hb : b < host.dom.nodes.length) (hab : Before l a b) :
    host.compareHandlesInDocumentOrder a b = .ok .lt ∧
      host.compareHandlesInDocumentOrder b a = .ok .gt := by
  obtain ⟨hal, hbl⟩ := hab.mem
  have hnodup := hpre.nodup h.isForest
  have hne : a ≠ b := by
    rintro rfl
    exact hab.asymm hnodup hab
  obtain ⟨node, hnode⟩ := exists_node ha
  obtain ⟨node', hnode'⟩ := exists_node hb
  obtain ⟨position, heq, hfollowing, -⟩ := h.compareDocumentPosition_spec hpre hr hal hbl hne
  obtain ⟨position', heq', hfollowing', hpreceding', -⟩ :=
    h.compareDocumentPosition_spec hpre hr hbl hal hne.symm
  have hfirst := hfollowing.2 hab
  have hsecond := hpreceding'.2 hab
  have hnot : ¬(position' &&& documentPositionFollowing ≠ 0) := fun hback =>
    hab.asymm hnodup (hfollowing'.1 hback)
  constructor
  · simp [DomHost.compareHandlesInDocumentOrder, hnode, heq, bind, Except.bind, pure,
      Except.pure, hfirst]
  · simp [DomHost.compareHandlesInDocumentOrder, hnode', heq', bind, Except.bind, pure, Except.pure,
      not_not.1 hnot, hsecond]

theorem compareHandles_of_precedes (ha : a < host.dom.nodes.length) (hb : b < host.dom.nodes.length)
    (hab : Precedes host.dom kids a b) :
    host.compareHandlesInDocumentOrder a b = .ok .lt ∧
      host.compareHandlesInDocumentOrder b a = .ok .gt := by
  obtain ⟨r, r', har, hbr, hlt | ⟨rfl, l, hpre, hbefore⟩⟩ := hab
  · exact compareHandles_of_root_lt ha hb har hbr hlt
  · obtain ⟨r', hroot, -, hr⟩ := h.rootNodeId_spec a
    obtain rfl := Except.ok.inj (har.symm.trans hroot)
    exact h.compareHandles_of_before hpre hr ha hb hbefore

theorem precedes_total (hab : a ≠ b) : Precedes host.dom kids a b ∨ Precedes host.dom kids b a := by
  obtain ⟨r, l, har, -, hl, hal⟩ := h.exists_tree a
  obtain ⟨r', l', hbr, -, hl', hbl⟩ := h.exists_tree b
  rcases Nat.lt_trichotomy r r' with hlt | rfl | hlt
  · exact .inl ⟨r, r', har, hbr, .inl hlt⟩
  · obtain rfl := hl.unique hl'
    rcases Before.total hal hbl hab with hfirst | hfirst
    · exact .inl ⟨r, r, har, hbr, .inr ⟨rfl, l, hl, hfirst⟩⟩
    · exact .inr ⟨r, r, hbr, har, .inr ⟨rfl, l, hl, hfirst⟩⟩
  · exact .inr ⟨r', r, hbr, har, .inl hlt⟩

theorem precedes_trans (hab : Precedes host.dom kids a b) (hbc : Precedes host.dom kids b c) :
    Precedes host.dom kids a c := by
  obtain ⟨r₁, r₂, har, hbr, hab⟩ := hab
  obtain ⟨r₂', r₃, hbr', hcr, hbc⟩ := hbc
  obtain rfl := Except.ok.inj (hbr.symm.trans hbr')
  refine ⟨r₁, r₃, har, hcr, ?_⟩
  rcases hab with hlt | ⟨rfl, l, hl, hab⟩
  · rcases hbc with hlt' | ⟨rfl, -⟩
    · exact .inl (hlt.trans hlt')
    · exact .inl hlt
  · rcases hbc with hlt' | ⟨rfl, l', hl', hbc⟩
    · exact .inl hlt'
    · obtain rfl := hl.unique hl'
      exact .inr ⟨rfl, l, hl, hab.trans (hl.nodup h.isForest) hbc⟩

theorem ordersNodes : OrdersNodes host.dom.nodes.length host.compareHandlesInDocumentOrder := by
  refine @OrdersNodes.of_relation _ _ (Precedes host.dom kids) (fun a ha => ?_)
    (fun a b => h.compareHandles_of_precedes) (fun a b => h.precedes_total)
    (fun a b c _ _ _ => h.precedes_trans)
  obtain ⟨node, hnode⟩ := exists_node ha
  simp [DomHost.compareHandlesInDocumentOrder, hnode, compareDocumentPosition, bind, Except.bind,
    pure, Except.pure]

end

end NativeDom.TreeLinked

/-! ## Document order -/

/-- The bits of `compare_document_position` for two nodes of one tree and for nodes of different
trees, and the order of all nodes made from them. -/
theorem document_order (host : DomHost) (kids : Kids)
    (h : TreeLinked host.dom kids) :
    (∀ r, host.dom.parentNode r = none → r < host.dom.nodes.length →
      ∃ l, host.dom.lightSubtreeHandles r true = .ok l ∧ Lib.Preorder kids [r] l ∧
        ∀ a b, host.dom.rootNodeId a = .ok r → host.dom.rootNodeId b = .ok r → a ≠ b →
          ∃ position, host.dom.compareDocumentPosition a b = .ok position ∧
            (position &&& documentPositionFollowing ≠ 0 ↔ Before l a b) ∧
            (position &&& documentPositionPreceding ≠ 0 ↔ ¬Before l a b) ∧
            (position &&& documentPositionContainedBy ≠ 0 ↔ Above host.dom.parentNode a b) ∧
            (position &&& documentPositionContains ≠ 0 ↔ Above host.dom.parentNode b a)) ∧
      (∀ a b r r', host.dom.rootNodeId a = .ok r → host.dom.rootNodeId b = .ok r' → r ≠ r' →
        ∃ position position', host.dom.compareDocumentPosition a b = .ok position ∧
          host.dom.compareDocumentPosition b a = .ok position' ∧
          position &&& documentPositionDisconnected ≠ 0 ∧
          (position &&& documentPositionFollowing ≠ 0 ↔
            position' &&& documentPositionPreceding ≠ 0) ∧
          (position &&& documentPositionPreceding ≠ 0 ↔
            position' &&& documentPositionFollowing ≠ 0) ∧
          (position &&& documentPositionFollowing ≠ 0 ↔
            ¬position &&& documentPositionPreceding ≠ 0)) ∧
      OrdersNodes host.dom.nodes.length host.compareHandlesInDocumentOrder := by
  refine ⟨fun r hr hlt => ?_, fun a b r r' har hbr hne => ?_, h.ordersNodes⟩
  · obtain ⟨l, hl⟩ := h.exists_preorder [r]
    refine ⟨l, h.lightSubtreeHandles_eq hl hlt, hl, fun a b har hbr hab => ?_⟩
    have hal := h.mem_of_rootNodeId har hl
    have hbl := h.mem_of_rootNodeId hbr hl
    obtain ⟨position, heq, hfollowing, hpreceding, hbelow, habove, -⟩ :=
      h.compareDocumentPosition_spec hl hr hal hbl hab
    refine ⟨position, heq, hfollowing, hpreceding.trans ?_, hbelow, habove⟩
    constructor
    · exact fun hback => hback.asymm (hl.nodup h.isForest)
    · exact (Before.total hal hbl hab).resolve_left
  · refine ⟨_, _, compareDocumentPosition_of_ne har hbr hne,
      compareDocumentPosition_of_ne hbr har hne.symm, ?_⟩
    rcases Nat.lt_or_gt_of_ne hne with hlt | hlt
    · rw [if_pos hlt, if_neg (Nat.not_lt_of_gt hlt)]
      decide
    · rw [if_neg (Nat.not_lt_of_gt hlt), if_pos hlt]
      decide

/-- Two trees: an element with a child made before it, and an element between the two. -/
theorem document_order_two_trees : ∃ (host : DomHost) (kids : Kids),
    TreeLinked host.dom kids ∧
    host.compareHandlesInDocumentOrder 3 1 = .ok .lt ∧
    host.compareHandlesInDocumentOrder 2 1 = .ok .lt ∧
    OrdersNodes host.dom.nodes.length host.compareHandlesInDocumentOrder := by
  have hreach : Reachable Op.hostsFresh _ := Reachable.newHtml.of_runAll
    [.createElement 0 (.newHtml "div"), .createElement 0 (.newHtml "p"),
      .createElement 0 (.newHtml "main"), .appendChild 3 1] rfl
  obtain ⟨kids, hsound⟩ := hreach.sound
  have htree := hsound.linked.treeLinked
  exact ⟨.fromDom _, kids, htree, rfl, rfl, (document_order (.fromDom _) kids htree).2.2⟩

end Moli.Dom

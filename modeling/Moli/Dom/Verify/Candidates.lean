import Moli.Dom.Verify.DocumentOrder
import Moli.Dom.Verify.Retarget

/-!
# The stylesheet candidate registries

`Registered dom kids pending` says that every tree scope's registry is the traversal of its tree,
filtered for candidates, except that the nodes in `pending` are not registered yet. A retargeting
traversal records exactly the candidates of the moved subtree in tree order (`retarget_records`);
cutting them out (`unregister_spec`) and splicing them in (`register_spec`) keeps the registries in
step with the tree.
-/

namespace Moli.Dom.NativeDom

open Lib List Function

variable {dom dom' : NativeDom} {kids : Kids}
variable {c p r x : NativeNodeId} {l m pending : List NativeNodeId}

/-! ## What a traversal records -/

/-- The changes recorded after the candidates `owners` were met. -/
def recorded (mutation : StylesheetCandidateRegistryMutation) (treeScope : Option NativeNodeId)
    (owners : List NativeNodeId) : OwnerLifecycleChanges :=
  match mutation, treeScope with
  | .register, some scope =>
    { stylesheetCandidates := { registered := owners.map fun owner => ⟨owner, scope⟩ } }
  | .unregister, some scope =>
    { stylesheetCandidates := { unregistered := owners.map fun owner => ⟨owner, scope⟩ } }
  | _, _ => {}

theorem recordCandidate_recorded (mutation : StylesheetCandidateRegistryMutation)
    (treeScope : Option NativeNodeId) (owners : List NativeNodeId) (item : RetargetItem) :
    dom.recordCandidate ⟨mutation, treeScope, false, recorded mutation treeScope owners⟩ item =
      ⟨mutation, treeScope, false, recorded mutation treeScope (owners ++
        if item.trackCandidates && dom.isStylesheetCandidate item.handle then [item.handle]
        else [])⟩ := by
  unfold recordCandidate
  cases htrack : item.trackCandidates
  · simp
  · cases hcand : dom.isStylesheetCandidate item.handle
    · simp
    · cases mutation <;> cases treeScope <;>
        simp [recorded, OwnerLifecycleTraversal.record, StylesheetCandidateChanges.recordRegistered,
          StylesheetCandidateChanges.recordUnregistered]

def tracked (stack : List RetargetItem) : List NativeNodeId :=
  (stack.filter RetargetItem.trackCandidates).map RetargetItem.handle

theorem tracked_append (s t : List RetargetItem) : tracked (s ++ t) = tracked s ++ tracked t := by
  simp [tracked]

theorem tracked_contents {item : RetargetItem} {contents : List RetargetItem}
    (h : ContentsPushed dom dom' item contents) : tracked contents = [] := by
  cases h <;> rfl

theorem tracked_children (item : RetargetItem) (children : List NativeNodeId) :
    tracked (children.map fun child => { item with handle := child }) =
      if item.trackCandidates then children else [] := by
  cases htrack : item.trackCandidates <;> simp [tracked, filter_map, comp_def]

/-- A traversal records the candidates of the subtree in tree order. -/
theorem retarget_records (h : WellLinked dom kids) (hroot : r < dom.nodes.length)
    (hpre : Lib.Preorder kids [r] m) (ownerDocument : Option NativeNodeId) (conn inTree : Bool)
    (mutation : StylesheetCandidateRegistryMutation) (treeScope : Option NativeNodeId) :
    Ensures (· = .nodeLimit)
      (dom.retargetOwnerLifecycleSubtree r ownerDocument conn inTree
        { registryMutation := mutation, candidateTreeScope := treeScope
          collectStylesheetOwners := false })
      fun (traversal, dom') => Retargeted dom dom' ∧ traversal.changes =
        recorded mutation treeScope (m.filter dom.isStylesheetCandidate) := by
  -- what is recorded, followed by the candidates still below the tracked part of the stack
  let inv : NativeDom → OwnerLifecycleTraversal → List RetargetItem → Prop :=
    fun dom₁ traversal stack => dom₁.isStylesheetCandidate = dom.isStylesheetCandidate ∧
      ∃ done rest, Lib.Preorder kids (tracked stack) rest ∧
        done ++ rest.filter dom.isStylesheetCandidate = m.filter dom.isStylesheetCandidate ∧
        traversal = ⟨mutation, treeScope, false, recorded mutation treeScope done⟩
  have hstart : recorded mutation treeScope [] = {} := by
    cases mutation <;> cases treeScope <;> rfl
  refine (retargetOwnerLifecycleSubtree_rule inv ?_ h hroot
    ⟨rfl, [], m, hpre, rfl, by rw [hstart]⟩).mono ?_
  · rintro dom₁ _ item stack pushed dom₂ - ⟨hcand, done, rest, hrest, hdone, rfl⟩ - - hvisit
    obtain ⟨contents, hcontents, rfl⟩ := hvisit.pushed_eq
    refine ⟨hvisit.keeps.isStylesheetCandidate.trans hcand, ?_⟩
    simp only [tracked_append, tracked_contents hcontents, tracked_children,
      recordCandidate_recorded, hcand]
    cases htrack : item.trackCandidates with
    | false =>
      have hskip : tracked (item :: stack) = tracked stack := by simp [tracked, htrack]
      exact ⟨done, rest, by simpa [hskip] using hrest, hdone, by simp⟩
    | true =>
      have hvisited : tracked (item :: stack) = item.handle :: tracked stack := by
        simp [tracked, htrack]
      rw [hvisited] at hrest
      cases hrest with
      | cons hrest =>
        refine ⟨_, _, hrest, ?_, rfl⟩
        rw [← hdone, filter_cons]
        cases dom.isStylesheetCandidate item.handle <;> simp
  · rintro ⟨traversal, dom'⟩ ⟨hretargeted, -, done, rest, hrest, hdone, rfl⟩
    cases hrest
    refine ⟨hretargeted, ?_⟩
    rw [← hdone]
    simp

/-! ## Cutting a batch out and splicing one in -/

theorem unregister_spec {scope : NativeNodeId} {before after : List NativeNodeId}
    (hentry : (dom.candidatesByTreeScope[scope]?).getD [] = before ++ m ++ after)
    (hnodup : (before ++ m ++ after).Nodup) :
    ∃ registry, dom.unregisterStylesheetCandidates scope (m.map fun owner => ⟨owner, scope⟩) =
        .ok { dom with candidatesByTreeScope := registry } ∧
      (registry[scope]?).getD [] = before ++ after ∧
      (∀ r, r ≠ scope → registry[r]? = dom.candidatesByTreeScope[r]?) ∧
      ∀ r, r ∈ registry ↔ r ∈ dom.candidatesByTreeScope := by
  cases m with
  | nil => exact ⟨dom.candidatesByTreeScope, rfl, by simpa using hentry, fun _ _ => rfl, by simp⟩
  | cons first rest =>
    cases hget : dom.candidatesByTreeScope[scope]? with
    | none => simp [hget] at hentry
    | some candidates =>
      obtain rfl : candidates = before ++ first :: rest ++ after := by simpa [hget] using hentry
      have hfirst : first ∉ before := by
        rw [append_assoc] at hnodup
        exact fun hmem => disjoint_of_nodup_append hnodup hmem (by simp)
      have hposition : (before ++ first :: rest ++ after).findIdx? (· == first) =
          some before.length := by
        rw [findIdx?_eq_some_iff_getElem]
        refine ⟨by simp, by simp, fun j hj => ?_⟩
        rw [getElem_append_left (by simp; omega), getElem_append_left hj]
        have hne : before[j] ≠ first := fun heq => hfirst (heq ▸ getElem_mem hj)
        simpa using hne
      refine ⟨dom.candidatesByTreeScope.insert scope (before ++ after), ?_, ?_, ?_, ?_⟩
      · have hbatch : (List.map (fun owner => (⟨owner, scope⟩ : StylesheetCandidateTransition))
            (first :: rest)).map StylesheetCandidateTransition.owner = first :: rest := by
          simp [comp_def]
        have hslice : ((before ++ first :: rest ++ after).drop before.length).take
            (first :: rest).length = first :: rest := by
          simp
        have hrest : (before ++ first :: rest ++ after).take before.length ++
            (before ++ first :: rest ++ after).drop (before.length + (first :: rest).length) =
            before ++ after := by
          rw [← length_append, drop_left, append_assoc, take_left]
        simp only [unregisterStylesheetCandidates, hget, map_cons] at hbatch ⊢
        simp only [hposition, hbatch, length_cons, length_map] at hslice hrest ⊢
        rw [if_pos hslice, hrest]
      · simp
      · intro r hr
        rw [Std.TreeMap.getElem?_insert, if_neg (by simpa using Ne.symm hr)]
      · intro r
        rw [Std.TreeMap.mem_insert]
        refine ⟨?_, .inr⟩
        rintro (heq | hmem)
        · obtain rfl := Std.LawfulEqCmp.compare_eq_iff_eq.1 heq
          rw [Std.TreeMap.mem_iff_isSome_getElem?, hget]
          rfl
        · exact hmem

theorem register_spec {scope first : NativeNodeId} {before after : List NativeNodeId}
    (hentry : (dom.candidatesByTreeScope[scope]?).getD [] = before ++ after)
    (hfirst : m.head? = some first)
    (hbefore : ∀ x ∈ before, dom.handlePrecedes x first = .ok true)
    (hafter : ∀ x ∈ after, dom.handlePrecedes x first = .ok false) :
    ∃ registry, dom.registerStylesheetCandidates scope (m.map fun owner => ⟨owner, scope⟩) =
        .ok { dom with candidatesByTreeScope := registry } ∧
      (registry[scope]?).getD [] = before ++ m ++ after ∧
      (∀ r, r ≠ scope → registry[r]? = dom.candidatesByTreeScope[r]?) ∧
      ∀ r, r ∈ registry ↔ r = scope ∨ r ∈ dom.candidatesByTreeScope := by
  obtain ⟨rest, rfl⟩ := head?_eq_some_iff.1 hfirst
  refine ⟨dom.candidatesByTreeScope.insert scope (before ++ first :: rest ++ after), ?_, ?_, ?_, ?_⟩
  · have hindex : dom.candidateInsertionIndex scope first = .ok before.length := by
      unfold candidateInsertionIndex
      cases hget : dom.candidatesByTreeScope[scope]? with
      | none =>
        have hnil : before ++ after = [] := by simpa [hget] using hentry.symm
        simp [(append_eq_nil_iff.1 hnil).1]
      | some candidates =>
        obtain rfl : candidates = before ++ after := by simpa [hget] using hentry
        exact Lib.partitionPoint_append hbefore hafter
    simp only [registerStylesheetCandidates, map_cons, hindex, hentry, bind, Except.bind,
      take_left, drop_left, map_map, comp_def, map_id']
    rfl
  · simp
  · intro r hr
    rw [Std.TreeMap.getElem?_insert, if_neg (by simpa using Ne.symm hr)]
  · intro r
    rw [Std.TreeMap.mem_insert, Std.LawfulEqCmp.compare_eq_iff_eq, eq_comm]

/-! ## The invariant -/

/-- The candidates of a traversal that are not pending. -/
def candidatesIn (dom : NativeDom) (pending l : List NativeNodeId) : List NativeNodeId :=
  l.filter fun x => dom.isStylesheetCandidate x && decide (x ∉ pending)

structure Registered (dom : NativeDom) (kids : Kids)
    (pending : List NativeNodeId) : Prop where
  registry : ∀ r l, dom.isStylesheetCandidateTreeScope r = true → Lib.Preorder kids [r] l →
    (dom.candidatesByTreeScope[r]?).getD [] = candidatesIn dom pending l
  key : ∀ r ∈ dom.candidatesByTreeScope, dom.isDocument r = true ∨ dom.isDocumentFragment r = true

theorem candidatesIn_append (s t : List NativeNodeId) :
    candidatesIn dom pending (s ++ t) = candidatesIn dom pending s ++ candidatesIn dom pending t :=
  filter_append ..

theorem candidatesIn_of_disjoint (h : ∀ x ∈ l, x ∉ m) :
    candidatesIn dom (pending ++ m) l = candidatesIn dom pending l := by
  refine filter_congr fun x hx => ?_
  simp [h x hx]

theorem candidatesIn_eq_nil (h : ∀ x ∈ l, x ∈ m) : candidatesIn dom (pending ++ m) l = [] := by
  refine filter_eq_nil_iff.2 fun x hx => ?_
  simp [h x hx]

theorem candidatesIn_eq_filter (h : ∀ x ∈ l, x ∉ pending) :
    candidatesIn dom pending l = l.filter dom.isStylesheetCandidate := by
  refine filter_congr fun x hx => ?_
  simp [h x hx]

theorem isStylesheetCandidateTreeScope_iff : dom.isStylesheetCandidateTreeScope r = true ↔
    dom.isDocument r = true ∨ r ∈ dom.candidatesByTreeScope := by
  simp [isStylesheetCandidateTreeScope]

theorem WellLinked.kids_eq_nil (h : WellLinked dom kids) (hr : dom.nodes.length ≤ r) :
    kids r = [] := by
  refine eq_nil_iff_forall_not_mem.2 fun c hc => ?_
  exact absurd (h.lt_of_mem_kids hc) (Nat.not_lt.2 hr)

namespace Registered

theorem scope_root (h : WellLinked dom kids) (hreg : Registered dom kids pending)
    (hr : dom.isStylesheetCandidateTreeScope r = true) : dom.parentNode r = none := by
  rcases isStylesheetCandidateTreeScope_iff.1 hr with hr | hr
  · exact h.parentNode_of_isDocument hr
  · rcases hreg.key r hr with hr | hr
    · exact h.parentNode_of_isDocument hr
    · exact h.parentNode_eq_none_of_fragment (isDocumentFragment_eq ▸ hr)

/-- Documents that were added meanwhile are empty, so only the old tree scopes matter. -/
theorem of_old (hkeeps : Keeps dom dom') (hnew : ∀ r, dom.nodes.length ≤ r → kids r = [])
    (hkey : ∀ r ∈ dom'.candidatesByTreeScope, dom.isStylesheetCandidateTreeScope r = true ∧
      (dom.isDocument r = true ∨ dom.isDocumentFragment r = true))
    (hreg : ∀ r l, dom.isStylesheetCandidateTreeScope r = true → Lib.Preorder kids [r] l →
      (dom'.candidatesByTreeScope[r]?).getD [] = candidatesIn dom pending l) :
    Registered dom' kids pending := by
  have hin : ∀ l, candidatesIn dom' pending l = candidatesIn dom pending l := fun l => by
    unfold candidatesIn
    rw [hkeeps.isStylesheetCandidate]
  have hlt : ∀ r, dom.isDocument r = true ∨ dom.isDocumentFragment r = true →
      r < dom.nodes.length := by
    rintro r (hr | hr)
    · exact lt_length_of_isDocument hr
    · rw [isDocumentFragment_eq, fragment_isSome] at hr
      exact lt_length_of_nodeType hr
  refine ⟨fun r l hr hpre => ?_, fun r hr => ?_⟩
  · rw [hin]
    rcases Nat.lt_or_ge r dom.nodes.length with hold | hge
    · refine hreg r l ?_ hpre
      rcases isStylesheetCandidateTreeScope_iff.1 hr with hr | hr
      · rw [hkeeps.isDocument hold] at hr
        exact isStylesheetCandidateTreeScope_iff.2 (.inl hr)
      · exact (hkey r hr).1
    · have hnone : dom'.candidatesByTreeScope[r]? = none := Std.TreeMap.getElem?_eq_none fun hmem =>
        absurd (hlt r (hkey r hmem).2) (Nat.not_lt.2 hge)
      have hel : dom.element r = none := by
        rw [element, node, getElem?_eq_none hge, Option.bind_none]
      cases hpre with
      | cons hpre =>
        rw [hnew r hge] at hpre
        cases hpre
        simp [hnone, candidatesIn, isStylesheetCandidate, hel]
  · obtain ⟨-, hr⟩ := hkey r hr
    rw [hkeeps.isDocumentFragment, hkeeps.isDocument (hlt r hr)]
    exact hr

theorem of_retargeted (h : WellLinked dom kids) (hreg : Registered dom kids pending)
    (hdom : Retargeted dom dom') : Registered dom' kids pending := by
  refine of_old hdom.keeps (fun r hr => h.kids_eq_nil hr) (fun r hr => ?_) fun r l hr hpre => ?_
  · rw [hdom.candidates] at hr
    exact ⟨isStylesheetCandidateTreeScope_iff.2 (.inr hr), hreg.key r hr⟩
  · rw [hdom.candidates]
    exact hreg.registry r l hr hpre

section

variable (h : WellLinked dom kids)
include h

variable {xs ys : List NativeNodeId}

/-- After `c` was taken from its parent, its candidates leave the registry of the old scope. -/
theorem detach (hreg : Registered dom kids pending) (hkeeps : Keeps dom dom')
    (hcandidates : dom'.candidatesByTreeScope = dom.candidatesByTreeScope)
    (hp : kids p = xs ++ c :: ys) (hm : Lib.Preorder kids [c] m) (hpending : ∀ x ∈ m, x ∉ pending)
    (hr : Above dom.parentNode r c) (hroot : dom.parentNode r = none) :
    (dom.isStylesheetCandidateTreeScope r = true → ∃ registry,
      dom'.unregisterStylesheetCandidates r
        ((m.filter dom.isStylesheetCandidate).map fun owner => ⟨owner, r⟩) =
        .ok { dom' with candidatesByTreeScope := registry } ∧
      (∀ q, q ∈ registry ↔ q ∈ dom.candidatesByTreeScope) ∧
      Registered { dom' with candidatesByTreeScope := registry }
        (update kids p (xs ++ ys)) pending) ∧
    (dom.isStylesheetCandidateTreeScope r = false →
      Registered dom' (update kids p (xs ++ ys)) pending) := by
  have hc : dom.parentNode c = some p := h.mem_kids.1 (by simp [hp])
  have hrp : Above dom.parentNode r p :=
    hr.of_root hroot ((Above.refl h.groundedParent c).step hc)
  have hnew : ∀ q, dom.nodes.length ≤ q → update kids p (xs ++ ys) q = [] := by
    intro q hq
    have hne : q ≠ p := by
      rintro rfl
      exact absurd (h.parent_lt c q hc) (Nat.not_lt.2 hq)
    rw [update_of_ne hne, h.kids_eq_nil hq]
  -- a tree without `p` is as before
  have hother : ∀ q l, q ≠ r → dom.isStylesheetCandidateTreeScope q = true →
      Lib.Preorder (update kids p (xs ++ ys)) [q] l →
      (dom.candidatesByTreeScope[q]?).getD [] = candidatesIn dom pending l := by
    intro q l hne hq hpre
    obtain ⟨l', hpre'⟩ := h.exists_preorder [q]
    have hpl : p ∉ l' := fun hmem =>
      hne ((hpre'.above_of_mem h.isForest hmem).root_eq (hreg.scope_root h hq) hrp hroot)
    have hsame : l = l' := hpre.unique (hpre'.congr fun x hx =>
      update_of_ne (by rintro rfl; exact hpl hx) ..)
    rw [hsame]
    exact hreg.registry q l' hq hpre'
  -- in the old tree of `c` its subtree is one stretch
  obtain ⟨l, hpre⟩ := h.exists_preorder [r]
  have hpl : p ∈ l := hpre.mem_of_above h.complete (mem_singleton_self r) hrp
  obtain ⟨as, bs, rfl, hpre'⟩ := hpre.replace (hpre.nodup h.isForest) hpl
    (show kids p = xs ++ [c] ++ ys by simpa using hp)
    (show update kids p (xs ++ ys) p = xs ++ [] ++ ys by simp)
    (fun x hx => update_of_ne hx ..) hm .nil
  rw [append_nil] at hpre'
  refine ⟨fun hscope => ?_, fun hscope => ?_⟩
  · have hentry : (dom'.candidatesByTreeScope[r]?).getD [] = candidatesIn dom pending as ++
        m.filter dom.isStylesheetCandidate ++ candidatesIn dom pending bs := by
      rw [hcandidates, hreg.registry r _ hscope hpre, candidatesIn_append, candidatesIn_append,
        candidatesIn_eq_filter hpending]
    have hnodup : (candidatesIn dom pending as ++ m.filter dom.isStylesheetCandidate ++
        candidatesIn dom pending bs).Nodup := by
      rw [← candidatesIn_eq_filter hpending, ← candidatesIn_append, ← candidatesIn_append]
      exact (hpre.nodup h.isForest).filter _
    obtain ⟨registry, heq, hr', hsame, hkeys⟩ := unregister_spec hentry hnodup
    rw [hcandidates] at hkeys
    refine ⟨registry, heq, hkeys, of_old (hkeeps.withCandidates registry) hnew (fun q hq => ?_)
      fun q l hq hpreq => ?_⟩
    · rw [hkeys] at hq
      exact ⟨isStylesheetCandidateTreeScope_iff.2 (.inr hq), hreg.key q hq⟩
    · rcases eq_or_ne q r with rfl | hne
      · rw [hpreq.unique hpre', candidatesIn_append]
        exact hr'
      · rw [hsame q hne, hcandidates]
        exact hother q l hne hq hpreq
  · refine of_old hkeeps hnew (fun q hq => ?_) fun q l hq hpreq => ?_
    · rw [hcandidates] at hq
      exact ⟨isStylesheetCandidateTreeScope_iff.2 (.inr hq), hreg.key q hq⟩
    · rw [hcandidates]
      refine hother q l ?_ hq hpreq
      rintro rfl
      rw [hscope] at hq
      cases hq

/-- Linking a subtree makes its nodes pending. -/
theorem link (hreg : Registered dom kids pending) (hkeeps : Keeps dom dom')
    (hcandidates : dom'.candidatesByTreeScope = dom.candidatesByTreeScope)
    (hp : kids p = xs ++ ys) (hplen : p < dom.nodes.length) (hm : Lib.Preorder kids [c] m)
    (hc : dom.parentNode c = none) (hcp : ¬ Above dom.parentNode c p)
    (hscope : dom.isStylesheetCandidateTreeScope c = false) :
    Registered dom' (update kids p (xs ++ c :: ys)) (pending ++ m) := by
  have hpm : p ∉ m := fun hmem => hcp (hm.above_of_mem h.isForest hmem)
  have hm' : Lib.Preorder (update kids p (xs ++ c :: ys)) [c] m :=
    hm.congr fun x hx => update_of_ne (by rintro rfl; exact hpm hx) ..
  refine of_old hkeeps (fun q hq => ?_) (fun q hq => ?_) fun q l' hq hpre' => ?_
  · have hne : q ≠ p := by
      rintro rfl
      exact absurd hplen (Nat.not_lt.2 hq)
    rw [update_of_ne hne, h.kids_eq_nil hq]
  · rw [hcandidates] at hq
    exact ⟨isStylesheetCandidateTreeScope_iff.2 (.inr hq), hreg.key q hq⟩
  · rw [hcandidates]
    obtain ⟨l, hpre⟩ := h.exists_preorder [q]
    rw [hreg.registry q l hq hpre]
    -- nothing below the scope is below `c`, which is a root of its own
    have hdisjoint : ∀ x ∈ l, x ∉ m := by
      intro x hx hxm
      have heq := (hm.above_of_mem h.isForest hxm).root_eq hc (hpre.above_of_mem h.isForest hx)
        (hreg.scope_root h hq)
      rw [heq, hq] at hscope
      cases hscope
    by_cases hpl : p ∈ l
    · obtain ⟨as, bs, rfl, hpre''⟩ := hpre.replace (hpre.nodup h.isForest) hpl
        (show kids p = xs ++ [] ++ ys by simpa using hp)
        (show update kids p (xs ++ c :: ys) p = xs ++ [c] ++ ys by simp)
        (fun x hx => update_of_ne hx ..) .nil hm'
      have has : ∀ x ∈ as, x ∉ m := fun x hx => hdisjoint x (by simp [hx])
      have hbs : ∀ x ∈ bs, x ∉ m := fun x hx => hdisjoint x (by simp [hx])
      simp only [hpre'.unique hpre'', candidatesIn_append]
      rw [candidatesIn_eq_nil (fun _ hx => hx), candidatesIn_of_disjoint has,
        candidatesIn_of_disjoint hbs]
      rfl
    · have hsame : Lib.Preorder (update kids p (xs ++ c :: ys)) [q] l :=
        hpre.congr fun x hx => update_of_ne (by rintro rfl; exact hpl hx) ..
      rw [hpre'.unique hsame, candidatesIn_of_disjoint hdisjoint]

/-- Registering the pending candidates, which are one stretch of a tree, closes the gap. -/
theorem register {as bs : List NativeNodeId} (hreg : Registered dom kids m)
    (hpre : Lib.Preorder kids [r] (as ++ m ++ bs)) (hroot : dom.parentNode r = none)
    (hrlen : r < dom.nodes.length) :
    (dom.isStylesheetCandidateTreeScope r = true → ∃ registry,
      dom.registerStylesheetCandidates r
        ((m.filter dom.isStylesheetCandidate).map fun owner => ⟨owner, r⟩) =
        .ok { dom with candidatesByTreeScope := registry } ∧
      Registered { dom with candidatesByTreeScope := registry } kids []) ∧
    (dom.isStylesheetCandidateTreeScope r = false → Registered dom kids []) := by
  -- other trees have no pending nodes
  have hother : ∀ q l, q ≠ r → dom.isStylesheetCandidateTreeScope q = true →
      Lib.Preorder kids [q] l →
      (dom.candidatesByTreeScope[q]?).getD [] = candidatesIn dom [] l := by
    intro q l hne hq hpreq
    rw [hreg.registry q l hq hpreq, ← nil_append m, candidatesIn_of_disjoint]
    intro x hx hxm
    exact hne ((hpreq.above_of_mem h.isForest hx).root_eq (hreg.scope_root h hq)
      (hpre.above_of_mem h.isForest (by simp [hxm])) hroot)
  have hnodup := hpre.nodup h.isForest
  refine ⟨fun hscope => ?_, fun hscope => ?_⟩
  · have hcand : ∀ s, candidatesIn dom [] s = s.filter dom.isStylesheetCandidate := fun s =>
      candidatesIn_eq_filter (by simp)
    have hentry : (dom.candidatesByTreeScope[r]?).getD [] =
        as.filter dom.isStylesheetCandidate ++ bs.filter dom.isStylesheetCandidate := by
      rw [append_assoc] at hnodup
      have has : ∀ x ∈ as, x ∉ m := fun x hx hxm =>
        disjoint_of_nodup_append hnodup hx (by simp [hxm])
      have hbs : ∀ x ∈ bs, x ∉ m := fun x hx hxm =>
        disjoint_of_nodup_append hnodup.of_append_right hxm hx
      have hskip : candidatesIn dom m m = [] :=
        filter_eq_nil_iff.2 fun x hx => by simp [hx]
      rw [hreg.registry r _ hscope hpre, candidatesIn_append, candidatesIn_append, hskip,
        candidatesIn_eq_filter has, candidatesIn_eq_filter hbs, append_nil]
    cases hfirst : (m.filter dom.isStylesheetCandidate).head? with
    | none =>
      have hnil : m.filter dom.isStylesheetCandidate = [] := head?_eq_none_iff.1 hfirst
      refine ⟨dom.candidatesByTreeScope, by rw [hnil]; rfl, fun q l hq hpreq => ?_, hreg.key⟩
      rcases eq_or_ne q r with rfl | hne
      · rw [hpreq.unique hpre, hcand, filter_append, filter_append, hnil]
        simpa using hentry
      · exact hother q l hne hq hpreq
    | some first =>
      have hfm : first ∈ m := (mem_filter.1 (mem_of_head? hfirst)).1
      have hbefore : ∀ x ∈ as.filter dom.isStylesheetCandidate,
          dom.handlePrecedes x first = .ok true := fun x hx =>
        (h.treeLinked.handlePrecedes_of_before hpre hroot hrlen
          ⟨as, m ++ bs, by simp, (mem_filter.1 hx).1, by simp [hfm]⟩).1
      have hafter : ∀ x ∈ bs.filter dom.isStylesheetCandidate,
          dom.handlePrecedes x first = .ok false := fun x hx =>
        (h.treeLinked.handlePrecedes_of_before hpre hroot hrlen
          ⟨as ++ m, bs, rfl, by simp [hfm], (mem_filter.1 hx).1⟩).2
      obtain ⟨registry, heq, hr', hsame, hkeys⟩ := register_spec hentry hfirst hbefore hafter
      refine ⟨registry, heq, of_old ((Keeps.refl dom).withCandidates registry)
        (fun q hq => h.kids_eq_nil hq) (fun q hq => ?_) fun q l hq hpreq => ?_⟩
      · have hscopes : dom.isStylesheetCandidateTreeScope q = true := by
          rcases (hkeys q).1 hq with rfl | hq
          · exact hscope
          · exact isStylesheetCandidateTreeScope_iff.2 (.inr hq)
        refine ⟨hscopes, ?_⟩
        rcases isStylesheetCandidateTreeScope_iff.1 hscopes with hdoc | hkey
        · exact .inl hdoc
        · exact hreg.key q hkey
      · rcases eq_or_ne q r with rfl | hne
        · rw [hpreq.unique hpre, hcand, filter_append, filter_append]
          exact hr'
        · rw [hsame q hne]
          exact hother q l hne hq hpreq
  · refine ⟨fun q l hq hpreq => hother q l ?_ hq hpreq, hreg.key⟩
    rintro rfl
    rw [hscope] at hq
    cases hq

end

end Registered

end Moli.Dom.NativeDom

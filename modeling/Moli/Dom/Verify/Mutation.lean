import Moli.Dom.Verify.Candidates
import Moli.Dom.Verify.Owners

/-!
# Detaching and inserting

The specifications of the tree operations. A removal takes the node out of the child list it is in
(`detach_spec`); an insertion takes the moved nodes out of their lists and puts them before the
reference child (`commit_spec` for one node, `commitFragmentChildren_spec` for the children of a
fragment). `Insertable` is what the checks before the first write establish; under it nothing
after the first write can fail, short of a full arena.
-/

namespace Moli.Dom

open Lib List Function

/-! ## Child lists -/

/-- `l` with `cs` put before `ref`, or at the end. -/
def placeBefore (cs : List NativeNodeId) (ref : Option NativeNodeId) :
    List NativeNodeId → List NativeNodeId
  | [] => cs
  | a :: l => if ref = some a then cs ++ a :: l else a :: placeBefore cs ref l

/-- The child lists without `cs`. -/
def removed (kids : Kids) (cs : List NativeNodeId)
    (p : NativeNodeId) : List NativeNodeId :=
  (kids p).filter (· ∉ cs)

/-- The child lists after `cs` moved to `p`, before `ref`. -/
def moved (kids : Kids) (p : NativeNodeId) (cs : List NativeNodeId)
    (ref : Option NativeNodeId) : Kids :=
  update (removed kids cs) p (placeBefore cs ref (removed kids cs p))

variable {x : NativeNodeId}

section

variable {kids : Kids} {c p q : NativeNodeId}
variable {l cs xs ys : List NativeNodeId} {ref : Option NativeNodeId}

theorem placeBefore_append (h : ref ≠ some c) :
    placeBefore cs ref (placeBefore [c] ref l) = placeBefore (c :: cs) ref l := by
  induction l with
  | nil => simp [placeBefore, h]
  | cons a l ih =>
    by_cases ha : ref = some a
    · simp [placeBefore, ha, show a ≠ c by rintro rfl; exact h ha]
    · simp [placeBefore, ha, ih]

theorem filter_placeBefore {keep : NativeNodeId → Bool} (hcs : ∀ x ∈ cs, keep x = true)
    (href : ∀ r, ref = some r → keep r = true) :
    (placeBefore cs ref l).filter keep = placeBefore cs ref (l.filter keep) := by
  induction l with
  | nil => exact filter_eq_self.2 hcs
  | cons a l ih =>
    by_cases ha : ref = some a
    · simp [placeBefore, ha, href a ha, filter_eq_self.2 hcs]
    · cases hk : keep a <;> simp [placeBefore, ha, hk, ih]

/-- A reference child cuts the list where the insertion goes. -/
theorem exists_split (h : ∀ r, ref = some r → r ∈ l) :
    ∃ xs ys, l = xs ++ ys ∧ ref = ys.head? ∧ ∀ cs, placeBefore cs ref l = xs ++ cs ++ ys := by
  induction l with
  | nil =>
    refine ⟨[], [], rfl, ?_, by simp [placeBefore]⟩
    cases ref with
    | none => rfl
    | some r => cases h r rfl
  | cons a l ih =>
    by_cases ha : ref = some a
    · exact ⟨[], a :: l, rfl, ha, by simp [placeBefore, ha]⟩
    · obtain ⟨xs, ys, rfl, href, hplace⟩ := ih fun r hr =>
        (mem_cons.1 (h r hr)).resolve_left (by rintro rfl; exact ha hr)
      exact ⟨a :: xs, ys, rfl, href, by simp [placeBefore, ha, hplace]⟩

theorem removed_of_notMem (h : ∀ c ∈ cs, c ∉ kids q) : removed kids cs q = kids q :=
  filter_eq_self.2 fun x hx => by simpa using fun hc => h x hc hx

theorem removed_split (hp : kids p = xs ++ c :: ys) (hnodup : (kids p).Nodup) :
    removed kids [c] p = xs ++ ys := by
  rw [hp, nodup_middle, nodup_cons] at hnodup
  have hkeep : ∀ s : List NativeNodeId, (∀ x ∈ s, x ∈ xs ++ ys) → s.filter (· ∉ [c]) = s := by
    intro s hs
    refine filter_eq_self.2 fun x hx => ?_
    have hne : x ≠ c := by
      rintro rfl
      exact hnodup.1 (hs x hx)
    simpa using hne
  rw [removed, hp, filter_append, filter_cons_of_neg (by simp),
    hkeep xs (by simp +contextual), hkeep ys (by simp +contextual)]

theorem moved_of_ne (h : q ≠ p) : moved kids p cs ref q = removed kids cs q :=
  update_of_ne h ..

theorem moved_self : moved kids p cs ref p = placeBefore cs ref (removed kids cs p) :=
  update_self ..

theorem mem_placeBefore : x ∈ placeBefore cs ref l ↔ x ∈ l ∨ x ∈ cs := by
  induction l with
  | nil => simp [placeBefore]
  | cons a l ih =>
    by_cases ha : ref = some a
    · simp [placeBefore, ha, or_comm]
    · simp [placeBefore, ha, ih, or_assoc]

theorem mem_removed : x ∈ removed kids cs q ↔ x ∈ kids q ∧ x ∉ cs := by
  simp [removed]

theorem mem_moved (hx : x ∉ cs) : x ∈ moved kids p cs ref q ↔ x ∈ kids q := by
  rcases eq_or_ne q p with rfl | hne
  · simp [moved_self, mem_placeBefore, mem_removed, hx]
  · simp [moved_of_ne hne, mem_removed, hx]

theorem removed_nil : removed kids [] = kids :=
  funext fun _ => removed_of_notMem (by simp)

theorem moved_nil : moved kids p [] ref = kids := by
  have hplace : ∀ l, placeBefore [] ref l = l := by
    intro l
    induction l with
    | nil => rfl
    | cons a l ih => simp [placeBefore, ih]
  rw [moved, removed_nil, hplace, update_eq_self]

/-- Moving nodes one after the other before one reference child is moving the list. -/
theorem moved_moved (hc : c ∉ cs) (href : ∀ r, ref = some r → r ≠ c ∧ r ∉ cs) :
    moved (moved kids p [c] ref) p cs ref = moved kids p (c :: cs) ref := by
  have hremoved : ∀ q, ((kids q).filter (· ∉ [c])).filter (· ∉ cs) =
      (kids q).filter (· ∉ c :: cs) := by
    simp [Bool.and_comm]
  funext q
  rcases eq_or_ne q p with rfl | hne
  · rw [moved_self, moved_self, removed, moved_self, removed, removed,
      filter_placeBefore (by simpa using hc) (fun r hr => by simpa using (href r hr).2), hremoved,
      placeBefore_append fun hr => (href c hr).1 rfl]
  · rw [moved_of_ne hne, moved_of_ne hne, removed, moved_of_ne hne, removed, removed, hremoved]

end

namespace NativeDom

variable {dom dom' : NativeDom} {kids kids' : Kids}
variable {c p r x : NativeNodeId} {cs m pending xs ys : List NativeNodeId}
variable {ref : Option NativeNodeId}

/-! ## Tree scopes and retargeting -/

/-- The tree scope of a node whose root is `r`. -/
def scopeOf (dom : NativeDom) (r : NativeNodeId) : Option NativeNodeId :=
  if dom.isStylesheetCandidateTreeScope r then some r else none

theorem scopeOf_cases (dom : NativeDom) (r : NativeNodeId) :
    dom.isStylesheetCandidateTreeScope r = false ∧ dom.scopeOf r = none ∨
      dom.isStylesheetCandidateTreeScope r = true ∧ dom.scopeOf r = some r := by
  unfold scopeOf
  cases dom.isStylesheetCandidateTreeScope r <;> simp

theorem WellLinked.treeScopeForNode_eq (h : WellLinked dom kids)
    (hr : Above dom.parentNode r x) (hroot : dom.parentNode r = none) :
    dom.stylesheetCandidateTreeScopeForNode x = .ok (dom.scopeOf r) := by
  obtain ⟨r', heq, hr', hroot'⟩ := h.rootNodeId_spec x
  obtain rfl := hr'.sibling_eq hr (hroot'.trans hroot.symm)
  simp only [stylesheetCandidateTreeScopeForNode, heq]
  rfl

theorem Retargeted.isStylesheetCandidateTreeScope (h : Retargeted dom dom')
    (hr : r < dom.nodes.length) :
    dom'.isStylesheetCandidateTreeScope r = dom.isStylesheetCandidateTreeScope r := by
  unfold NativeDom.isStylesheetCandidateTreeScope
  rw [h.keeps.isDocument hr, h.candidates]

/-- Retargeting a subtree whose nodes are pending. -/
theorem retargetAndRegister_spec (h : WellLinked dom kids)
    (hreg : Registered dom kids (pending ++ m)) (hc : c < dom.nodes.length)
    (hm : Lib.Preorder kids [c] m) (hr : Above dom.parentNode r c)
    (hroot : dom.parentNode r = none) (owner : Option NativeNodeId) (conn inTree commit : Bool)
    (hcommit : commit = true → pending = []) :
    Ensures (· = .nodeLimit)
      (dom.retargetSubtreeAndRegisterStylesheetCandidates c owner conn inTree commit)
      fun (changes, dom') => Keeps dom dom' ∧ dom'.links = dom.links ∧
        changes = recorded .register (dom.scopeOf r) (m.filter dom.isStylesheetCandidate) ∧
        (commit = false → dom'.candidatesByTreeScope = dom.candidatesByTreeScope ∧
          Registered dom' kids (pending ++ m)) ∧
        (commit = true → Registered dom' kids []) ∧
        (Retargetable dom c owner conn → Owned dom') := by
  unfold retargetSubtreeAndRegisterStylesheetCandidates
  rw [h.treeScopeForNode_eq hr hroot]
  refine ((retarget_records h hc hm owner conn inTree _ (dom.scopeOf r)).and_imp
    fun hready => retarget_owned h hc hready inTree _).bind ?_
  rintro ⟨traversal, dom₁⟩ ⟨⟨hdom, hchanges⟩, howned⟩
  have h₁ := h.of_keeps hdom.keeps hdom.links
  have hreg₁ := hreg.of_retargeted h hdom
  have hrecorded : traversal.changes =
      recorded .register (dom.scopeOf r) (m.filter dom.isStylesheetCandidate) := by
    rw [hchanges]
    cases dom.scopeOf r <;> rfl
  cases commit with
  | false =>
    exact ⟨hdom.keeps, hdom.links, hrecorded, fun _ => ⟨hdom.candidates, hreg₁⟩, nofun, howned⟩
  | true =>
    obtain rfl := hcommit rfl
    rw [nil_append] at hreg₁
    -- the subtree is one stretch of its tree
    obtain ⟨l, hl⟩ := h.exists_preorder [r]
    obtain ⟨as, bs, rfl⟩ := hl.subtree (hl.mem_of_above h.complete (mem_singleton_self r) hr) hm
    have hparent : dom₁.parentNode = dom.parentNode := (links_congr hdom.links).1
    have hrlen := h.root_lt hr hc
    obtain ⟨hscope, hnone⟩ := hreg₁.register h₁ hl (hparent ▸ hroot)
      (hrlen.trans_le hdom.keeps.length_le)
    rw [hdom.isStylesheetCandidateTreeScope hrlen] at hscope hnone
    rcases dom.scopeOf_cases r with ⟨hs, hof⟩ | ⟨hs, hof⟩
    · rw [hof] at hrecorded ⊢
      exact ⟨hdom.keeps, hdom.links, hrecorded, nofun, fun _ => hnone hs, howned⟩
    · obtain ⟨registry, heq, hreg'⟩ := hscope hs
      rw [hof] at hrecorded ⊢
      rw [hdom.keeps.isStylesheetCandidate] at heq
      simp only [hrecorded, recorded, heq]
      exact ⟨hdom.keeps.withCandidates registry, hdom.links, rfl, nofun, fun _ => hreg',
        fun hready => (howned hready).withCandidates registry⟩

/-! ## Removal -/

theorem WellLinked.removed_of_root (h : WellLinked dom kids) (hc : dom.parentNode c = none) :
    removed kids [c] = kids := by
  funext q
  refine removed_of_notMem fun x hx hmem => ?_
  rw [mem_singleton.1 hx, h.mem_kids, hc] at hmem
  cases hmem

theorem WellLinked.removed_eq_update (h : WellLinked dom kids) (hp : kids p = xs ++ c :: ys) :
    removed kids [c] = update kids p (xs ++ ys) := by
  funext q
  rcases eq_or_ne q p with rfl | hne
  · rw [update_self, removed_split hp (h.represents.nodup q)]
  · rw [update_of_ne hne]
    refine removed_of_notMem fun x hx hmem => hne ?_
    rw [mem_singleton.1 hx] at hmem
    exact h.represents.parent_unique hmem (by simp [hp])

/-- Detaching unregisters the candidates of the subtree. -/
theorem detach_spec (h : WellLinked dom kids) (hreg : Registered dom kids pending)
    (hm : Lib.Preorder kids [c] m) (hpending : ∀ x ∈ m, x ∉ pending) :
    Ensures (· = .nodeLimit) (dom.detachFromParentWithOwnerLifecycleChanges c)
      fun (changes, dom') => WellLinked dom' (removed kids [c]) ∧
        Registered dom' (removed kids [c]) pending ∧ Keeps dom dom' ∧
        (∀ q, q ∈ dom'.candidatesByTreeScope ↔ q ∈ dom.candidatesByTreeScope) ∧
        changes.stylesheetCandidates.registered = [] ∧ (Owned dom → Owned dom') := by
  unfold detachFromParentWithOwnerLifecycleChanges
  cases hp : dom.parentNode c with
  | none =>
    rw [h.removed_of_root hp]
    exact ⟨h, hreg, .refl dom, fun _ => Iff.rfl, rfl, id⟩
  | some p =>
    obtain ⟨xs, ys, hsplit⟩ := append_of_mem (h.complete p c hp)
    obtain ⟨r, hr, hroot⟩ := h.exists_root c
    obtain ⟨dom₁, heq₁, hrel₁, hlinks₁⟩ := h.unlinkChild_spec hsplit
    have h₁ := h.unlink hsplit hrel₁ hlinks₁
    have hpm : p ∉ m := fun hmem =>
      Above.not_above_of_up hp (hm.above_of_mem h.isForest hmem)
    have hm₁ : Lib.Preorder (update kids p (xs ++ ys)) [c] m :=
      hm.congr fun x hx => update_of_ne (by rintro rfl; exact hpm hx) ..
    have hclen : c < dom₁.nodes.length := by
      rw [hrel₁.length_eq]
      exact lt_length_of_parentNode hp
    simp only [h.treeScopeForNode_eq hr hroot, heq₁]
    refine ((retarget_records h₁ hclen hm₁ _ _ _ _ (dom.scopeOf r)).and_imp fun howned =>
      retarget_owned h₁ hclen (Owned.unlink howned h hp hrel₁ (congrFun (links_congr hlinks₁).1))
        _ _).bind ?_
    rintro ⟨traversal, dom₂⟩ ⟨⟨hdom, hchanges⟩, howned⟩
    have hkeeps := hrel₁.keeps.trans hdom.keeps
    have h₂ := h₁.of_keeps hdom.keeps hdom.links
    have hcandidates : dom₂.candidatesByTreeScope = dom.candidatesByTreeScope :=
      hdom.candidates.trans hrel₁.candidates
    obtain ⟨hscope, hnone⟩ := hreg.detach h hkeeps hcandidates hsplit hm hpending hr hroot
    rw [h.removed_eq_update hsplit]
    rcases dom.scopeOf_cases r with ⟨hs, hof⟩ | ⟨hs, hof⟩
    · rw [hof] at hchanges ⊢
      refine ⟨h₂, hnone hs, hkeeps, fun q => by rw [hcandidates], ?_, howned⟩
      rw [hchanges]
      rfl
    · obtain ⟨registry, heq, hkeys, hreg'⟩ := hscope hs
      rw [hof] at hchanges ⊢
      rw [hrel₁.keeps.isStylesheetCandidate] at hchanges
      simp only [hchanges, recorded, Option.isSome_some, if_true, heq]
      exact ⟨h₂.of_keeps ((Keeps.refl dom₂).withCandidates registry) rfl, hreg',
        hkeeps.withCandidates registry, hkeys, rfl, fun ho => (howned ho).withCandidates registry⟩

/-! ## Insertion of one node -/

/-- What the checks before the first write establish for a node to insert. -/
structure Insertable (dom : NativeDom) (kids : Kids)
    (p c : NativeNodeId) (ref : Option NativeNodeId) : Prop where
  parent_lt : p < dom.nodes.length
  child_lt : c < dom.nodes.length
  child_type : dom.nodeType c ≠ some .documentFragment ∧ dom.nodeType c ≠ some .document
  acyclic : ¬ Above dom.up c p
  reference : ∀ r, ref = some r → r ∈ kids p ∧ r ≠ c

theorem WellLinked.parentNode_congr (h : WellLinked dom kids) (h' : WellLinked dom' kids')
    (hx : ∀ q, x ∈ kids' q ↔ x ∈ kids q) : dom'.parentNode x = dom.parentNode x := by
  refine Option.ext fun q => ?_
  rw [← h'.mem_kids, ← h.mem_kids, hx]

theorem isScope_congr (hkeeps : Keeps dom dom') (hr : r < dom.nodes.length)
    (hkeys : ∀ q, q ∈ dom'.candidatesByTreeScope ↔ q ∈ dom.candidatesByTreeScope) :
    dom'.isStylesheetCandidateTreeScope r = dom.isStylesheetCandidateTreeScope r := by
  rw [Bool.eq_iff_iff, isStylesheetCandidateTreeScope_iff, isStylesheetCandidateTreeScope_iff,
    hkeeps.isDocument hr, hkeys]

theorem scopeOf_congr (hkeeps : Keeps dom dom') (hr : r < dom.nodes.length)
    (hkeys : ∀ q, q ∈ dom'.candidatesByTreeScope ↔ q ∈ dom.candidatesByTreeScope) :
    dom'.scopeOf r = dom.scopeOf r := by
  rw [scopeOf, scopeOf, isScope_congr hkeeps hr hkeys]

theorem Registered.not_scope (hreg : Registered dom kids pending)
    (hc : dom.nodeType c ≠ some .documentFragment ∧ dom.nodeType c ≠ some .document) :
    dom.isStylesheetCandidateTreeScope c = false := by
  rw [Bool.eq_false_iff, ne_eq, isStylesheetCandidateTreeScope_iff]
  have hdoc : dom.isDocument c ≠ true := by simpa [isDocument_eq] using hc.2
  rintro (hs | hs)
  · exact hdoc hs
  · rcases hreg.key c hs with hs | hs
    · exact hdoc hs
    · rw [isDocumentFragment_eq, fragment_isSome] at hs
      exact hc.1 hs

section
variable (h : WellLinked dom kids)
include h

/-- A subtree does not contain the parent of its root, so taking the root out keeps it. -/
theorem WellLinked.preorder_removed (hm : Lib.Preorder kids [c] m) :
    Lib.Preorder (removed kids [c]) [c] m := by
  refine hm.congr fun x hx => removed_of_notMem fun y hy hmem => ?_
  rw [mem_singleton.1 hy] at hmem
  exact Above.not_above_of_up (h.mem_kids.1 hmem) (hm.above_of_mem h.isForest hx)

/-- Nor does putting the root below a node outside change it. -/
theorem WellLinked.preorder_moved_root (hcp : ¬ Above dom.parentNode c p)
    (hm : Lib.Preorder kids [c] m) : Lib.Preorder (moved kids p [c] ref) [c] m := by
  refine (h.preorder_removed hm).congr fun x hx => moved_of_ne ?_
  rintro rfl
  exact hcp (hm.above_of_mem h.isForest hx)

/-- The insertion of one node: its candidates are registered or left pending. -/
theorem commit_spec (hreg : Registered dom kids pending) (hi : Insertable dom kids p c ref)
    (hm : Lib.Preorder kids [c] m) (hpending : ∀ x ∈ m, x ∉ pending)
    (hr : Above dom.parentNode r p) (hroot : dom.parentNode r = none) (commit : Bool)
    (hcommit : commit = true → pending = []) :
    Ensures (· = .nodeLimit) (dom.commitValidatedNonFragmentInsertion p c ref commit)
      fun (changes, dom') => WellLinked dom' (moved kids p [c] ref) ∧ Keeps dom dom' ∧
        (commit = true → Registered dom' (moved kids p [c] ref) []) ∧
        (commit = false → Registered dom' (moved kids p [c] ref) (pending ++ m) ∧
          ∀ q, q ∈ dom'.candidatesByTreeScope ↔ q ∈ dom.candidatesByTreeScope) ∧
        changes.stylesheetCandidates.registered = (recorded .register (dom.scopeOf r)
          (m.filter dom.isStylesheetCandidate)).stylesheetCandidates.registered ∧
        (Owned dom → Owned dom') := by
  have hcp : ¬ Above dom.parentNode c p := fun habove => hi.acyclic (h.above_up habove)
  refine (detach_spec h hreg hm hpending).bind ?_
  rintro ⟨changes, dom₁⟩ ⟨h₁, hreg₁, hkeeps₁, hkeys₁, hchanges, howned₁⟩
  -- the child is now a root, and nothing else has another parent
  have hc₁ : dom₁.parentNode c = none := by
    rw [show dom₁.parentNode c = none ↔ _ from h₁.represents.parent_eq_none_iff]
    exact fun q hq => absurd (mem_removed.1 hq).2 (by simp)
  have hparent₁ : ∀ z, z ≠ c → dom₁.parentNode z = dom.parentNode z := fun z hz =>
    h.parentNode_congr h₁ fun q => by simp [mem_removed, hz]
  have hup₁ : ∀ z, z ≠ c → dom₁.up z = dom.up z := fun z hz => by
    rw [up, up, hparent₁ z hz, hkeeps₁.host]
  have hcp₁ : ¬ Above dom₁.up c p := fun habove => hi.acyclic (habove.of_agree hup₁ h.grounded)
  have href : ∀ q, ref = some q → q ∈ removed kids [c] p := fun q hq =>
    mem_removed.2 ⟨(hi.reference q hq).1, by simpa using (hi.reference q hq).2⟩
  obtain ⟨xs, ys, hsplit, hhead, hplace⟩ := exists_split href
  have hplen₁ : p < dom₁.nodes.length := hi.parent_lt.trans_le hkeeps₁.length_le
  have hclen₁ : c < dom₁.nodes.length := hi.child_lt.trans_le hkeeps₁.length_le
  have htype₁ : dom₁.nodeType c ≠ some .documentFragment ∧ dom₁.nodeType c ≠ some .document := by
    rw [hkeeps₁.nodeType c hi.child_lt]
    exact hi.child_type
  obtain ⟨dom₂, heq₂, hrel₂, hlinks₂⟩ := h₁.linkChild_spec hplen₁ hclen₁ hsplit hhead hc₁
  have hmoved : update (removed kids [c]) p (xs ++ c :: ys) = moved kids p [c] ref := by
    rw [moved, hplace, append_assoc, singleton_append]
  have h₂ := h₁.link hplen₁ hsplit hhead hc₁ hcp₁ htype₁ hrel₂ hlinks₂
  have hreg₂ := hreg₁.link h₁ hrel₂.keeps hrel₂.candidates hsplit hplen₁ (h.preorder_removed hm)
    hc₁ (fun habove => hcp₁ (h₁.above_up habove)) (hreg₁.not_scope htype₁)
  rw [hmoved] at h₂ hreg₂
  have hm₂ : Lib.Preorder (moved kids p [c] ref) [c] m := h.preorder_moved_root hcp hm
  -- the root of the parent is now the root of the child
  have hparent₂ : ∀ z, dom₂.parentNode z = if z = c then some p else dom₁.parentNode z :=
    congrFun (links_congr hlinks₂).1
  have hne : r ≠ c := by
    rintro rfl
    exact hcp hr
  have hroot₂ : dom₂.parentNode r = none := by
    rw [hparent₂, if_neg hne, hparent₁ r hne, hroot]
  have hr₂ : Above dom₂.parentNode r c := by
    obtain ⟨l, hl, hmem⟩ := hr
    have hl₂ : Follows dom₂.parentNode (some p) l := hl.congr fun z hz => by
      have hzc : z ≠ c := by
        rintro rfl
        exact hcp ⟨l, hl, hz⟩
      rw [hparent₂, if_neg hzc, hparent₁ z hzc]
    exact Above.of_up ⟨l, hl₂, hmem⟩ (by simp [hparent₂])
  have hkeeps₂ := hkeeps₁.trans hrel₂.keeps
  have hkeys₂ : ∀ q, q ∈ dom₂.candidatesByTreeScope ↔ q ∈ dom.candidatesByTreeScope := fun q => by
    rw [hrel₂.candidates, hkeys₁]
  have hclen₂ : c < dom₂.nodes.length := hclen₁.trans_le hrel₂.keeps.length_le
  simp only [heq₂]
  refine (retargetAndRegister_spec h₂ hreg₂ hclen₂ hm₂ hr₂ hroot₂ _ _ _ commit hcommit).bind ?_
  rintro ⟨inserted, dom₃⟩ ⟨hkeeps₃, hlinks₃, rfl, hfalse, htrue, howned₃⟩
  refine ⟨h₂.of_keeps hkeeps₃ hlinks₃, hkeeps₂.trans hkeeps₃, htrue, fun hc => ?_, ?_,
    fun ho => howned₃ ((howned₁ ho).link h₁ h₂ hplen₁ hrel₂ hparent₂)⟩
  · obtain ⟨hcandidates, hreg₃⟩ := hfalse hc
    exact ⟨hreg₃, fun q => by rw [hcandidates, hkeys₂]⟩
  · rw [scopeOf_congr hkeeps₂ (h.root_lt hr hi.parent_lt) hkeys₂, hkeeps₂.isStylesheetCandidate]
    simp [OwnerLifecycleChanges.merge, StylesheetCandidateChanges.merge, hchanges]

/-! ## Insertion of the children of a fragment -/

/-- Walks that avoid the moved node are as before. -/
theorem WellLinked.above_moved (h' : WellLinked dom' (moved kids p [c] ref))
    (hkeeps : Keeps dom dom') (hcp : ¬ Above dom.up c p) :
    (Above dom'.parentNode x p ↔ Above dom.parentNode x p) ∧
      (Above dom'.up x p ↔ Above dom.up x p) := by
  have hparent : ∀ z, z ≠ c → dom'.parentNode z = dom.parentNode z := fun z hz =>
    h.parentNode_congr h' fun q => mem_moved (by simpa using hz)
  have hup : ∀ z, z ≠ c → dom'.up z = dom.up z := fun z hz => by
    rw [up, up, hparent z hz, hkeeps.host]
  exact ⟨Above.iff_of_agree hparent h.groundedParent fun hc => hcp (h.above_up hc),
    Above.iff_of_agree hup h.grounded hcp⟩

/-- What is insertable remains so after another node was inserted at the same place. -/
theorem Insertable.after {c' : NativeNodeId} (h' : WellLinked dom' (moved kids p [c] ref))
    (hkeeps : Keeps dom dom') (hi : Insertable dom kids p c ref)
    (hi' : Insertable dom kids p c' ref) : Insertable dom' (moved kids p [c] ref) p c' ref  where
  parent_lt := hi'.parent_lt.trans_le hkeeps.length_le
  child_lt := hi'.child_lt.trans_le hkeeps.length_le
  child_type := by
    rw [hkeeps.nodeType c' hi'.child_lt]
    exact hi'.child_type
  acyclic := by
    rw [(h.above_moved h' hkeeps hi.acyclic).2]
    exact hi'.acyclic
  reference r hr := by
    refine ⟨(mem_moved ?_).2 (hi'.reference r hr).1, (hi'.reference r hr).2⟩
    simpa using (hi.reference r hr).2

/-- The subtrees of the other children are as before. -/
theorem WellLinked.preorder_moved (hcs : ∀ c ∈ cs, ¬ Above dom.up c p)
    (hm : Lib.Preorder kids cs m) (hc : c ∉ m) : Lib.Preorder (moved kids p [c] ref) cs m := by
  refine hm.congr fun x hx => ?_
  have hne : x ≠ p := by
    rintro rfl
    obtain ⟨c', hc', habove⟩ := hm.exists_above h.isForest hx
    exact hcs c' hc' (h.above_up habove)
  rw [moved_of_ne hne]
  refine removed_of_notMem fun y hy hmem => hc ?_
  rw [mem_singleton.1 hy] at hmem
  exact hm.mem_of_mem_kids hx hmem

theorem commitFragmentChildren_spec (hreg : Registered dom kids pending)
    (hi : ∀ c ∈ cs, Insertable dom kids p c ref) (hm : Lib.Preorder kids cs m) (hnodup : m.Nodup)
    (hpending : ∀ x ∈ m, x ∉ pending) (hr : Above dom.parentNode r p)
    (hroot : dom.parentNode r = none) (hplen : p < dom.nodes.length)
    (changes : OwnerLifecycleChanges) :
    Ensures (· = .nodeLimit) (cs.foldlM (fun (changes, dom) fragmentChild => do
        let (more, dom) ← NativeDom.commitValidatedNonFragmentInsertion dom p
          fragmentChild ref false
        return (OwnerLifecycleChanges.merge changes more, dom)) (changes, dom))
      fun (changes', dom') => WellLinked dom' (moved kids p cs ref) ∧ Keeps dom dom' ∧
        Registered dom' (moved kids p cs ref) (pending ++ m) ∧
        (∀ q, q ∈ dom'.candidatesByTreeScope ↔ q ∈ dom.candidatesByTreeScope) ∧
        changes'.stylesheetCandidates.registered = changes.stylesheetCandidates.registered ++
          (recorded .register (dom.scopeOf r)
            (m.filter dom.isStylesheetCandidate)).stylesheetCandidates.registered ∧
        (Owned dom → Owned dom') := by
  -- one child after the other; the nodes moved so far are pending
  induction cs generalizing dom kids pending m changes with
  | nil =>
    cases hm
    rw [moved_nil]
    refine ⟨h, .refl dom, by simpa using hreg, fun _ => Iff.rfl, ?_, id⟩
    cases hs : dom.scopeOf r <;> simp [recorded]
  | cons c cs ih =>
    obtain ⟨m₁, m₂, rfl, hm₁, hm₂⟩ := Lib.Preorder.of_append (s := [c]) hm
    have hic := hi c (by simp)
    have hcm₂ : c ∉ m₂ := fun hmem =>
      disjoint_of_nodup_append hnodup (hm₁.mem_of_mem_stack (by simp)) hmem
    have hne : r ≠ c := by
      rintro rfl
      exact hic.acyclic (h.above_up hr)
    rw [foldlM_cons, bind_assoc]
    refine (commit_spec h hreg hic hm₁ (fun x hx => hpending x (by simp [hx])) hr hroot false
      fun hs => by cases hs).bind ?_
    rintro ⟨more, dom₁⟩ ⟨h₁, hkeeps₁, -, hfalse, hmore, howned₁⟩
    obtain ⟨hreg₁, hkeys₁⟩ := hfalse rfl
    have hroot₁ : dom₁.parentNode r = none := by
      rw [h.parentNode_congr h₁ fun q => mem_moved (by simpa using hne), hroot]
    have hm₂' : Lib.Preorder (moved kids p [c] ref) cs m₂ :=
      h.preorder_moved (fun c' hc' => (hi c' (by simp [hc'])).acyclic) hm₂ hcm₂
    refine (ih h₁ hreg₁ (fun c' hc' => hic.after h h₁ hkeeps₁ (hi c' (by simp [hc']))) hm₂'
      hnodup.of_append_right ?_ ((h.above_moved h₁ hkeeps₁ hic.acyclic).1.2 hr) hroot₁
      (hplen.trans_le hkeeps₁.length_le) (changes.merge more)).mono ?_
    · intro x hx hmem
      rcases mem_append.1 hmem with hmem | hmem
      · exact hpending x (by simp [hx]) hmem
      · exact disjoint_of_nodup_append hnodup hmem hx
    · rintro ⟨changes', dom'⟩ ⟨h', hkeeps', hreg', hkeys', hchanges', howned'⟩
      rw [moved_moved (fun hc => hcm₂ (hm₂.mem_of_mem_stack hc)) fun q hq =>
        ⟨(hic.reference q hq).2, fun hmem => (hi q (by simp [hmem])).reference q hq |>.2 rfl⟩]
        at h' hreg'
      refine ⟨h', hkeeps₁.trans hkeeps', by simpa using hreg', fun q => (hkeys' q).trans (hkeys₁ q),
        ?_, fun ho => howned' (howned₁ ho)⟩
      rw [hchanges', scopeOf_congr hkeeps₁ (h.root_lt hr hplen) hkeys₁,
        hkeeps₁.isStylesheetCandidate]
      cases hs : dom.scopeOf r <;>
        simp [recorded, OwnerLifecycleChanges.merge, StylesheetCandidateChanges.merge, hmore, hs]

end

/-! ## Insertion -/

/-- The nodes an insertion of `c` moves. -/
def insertedNodes (dom : NativeDom) (kids : Kids) (c : NativeNodeId) :
    List NativeNodeId :=
  if dom.isDocumentFragment c then kids c else [c]

/-- The reference child once a reference to `c` itself is replaced. -/
def insertionReference (dom : NativeDom) (c : NativeNodeId) (ref : Option NativeNodeId) :
    Option NativeNodeId :=
  if ref = some c then dom.nextSibling c else ref

/-- What an insertion that returns `true` has done. -/
structure Inserted (dom : NativeDom) (kids : Kids)
    (p c : NativeNodeId) (ref : Option NativeNodeId) (dom' : NativeDom) : Prop where
  linked : WellLinked dom'
    (moved kids p (dom.insertedNodes kids c) (dom.insertionReference c ref))
  registered : Registered dom'
    (moved kids p (dom.insertedNodes kids c) (dom.insertionReference c ref)) []
  keeps : Keeps dom dom'
  acyclic : ¬ Above dom.up c p
  reference : ∀ r, dom.insertionReference c ref = some r →
    r ∈ removed kids (dom.insertedNodes kids c) p
  owned : Owned dom → Owned dom'

theorem ne_document_of_canInsertChildType {parentType childType : NodeType}
    (h : canInsertChildType parentType childType = true) : childType ≠ .document := by
  rintro rfl
  cases parentType <;> simp [canInsertChildType] at h

section
variable (h : WellLinked dom kids)
include h

theorem WellLinked.preInsertReference_spec {ref' : Option NativeNodeId}
    (heq : dom.preInsertReference p c ref = some ref') :
    ref' = dom.insertionReference c ref ∧ ∀ r, ref' = some r → r ∈ kids p ∧ r ≠ c := by
  cases ref with
  | none =>
    obtain rfl := Option.some.inj heq
    simp [insertionReference]
  | some q =>
    simp only [preInsertReference] at heq
    split at heq
    · cases heq
    next hq =>
      have hmem : q ∈ kids p := h.mem_kids.2 (not_not.1 hq)
      split at heq
      next hself =>
        subst hself
        obtain rfl := Option.some.inj heq
        refine ⟨by simp [insertionReference], fun r hr => ?_⟩
        obtain ⟨xs, ys, hsplit⟩ := append_of_mem hmem
        have hnext : dom.nextSibling q = ys.head? := h.represents.next_eq hsplit
        have hys : r ∈ ys := mem_of_head? (hnext.symm.trans hr)
        have hnodup := h.represents.nodup p
        rw [hsplit, nodup_middle, nodup_cons] at hnodup
        refine ⟨by simp [hsplit, hys], ?_⟩
        rintro rfl
        exact hnodup.1 (by simp [hys])
      next hne =>
        obtain rfl := Option.some.inj heq
        refine ⟨by simp [insertionReference, hne], fun r hr => ?_⟩
        obtain rfl := Option.some.inj hr
        exact ⟨hmem, hne⟩

theorem WellLinked.fragmentChildIsInsertable_spec (parentType : NodeType) :
    Ensures (· = .nodeLimit) (dom.fragmentChildIsInsertable p parentType x) fun passed =>
      passed = true → ¬ Above dom.up x p ∧ dom.nodeType x ≠ some .documentFragment ∧
        dom.nodeType x ≠ some .document := by
  unfold fragmentChildIsInsertable
  obtain ⟨b, heq, habove⟩ := h.isHostIncludingInclusiveAncestor_eq x p
  simp only [heq, bind, Except.bind]
  cases b with
  | true => simp
  | false =>
    intro hpassed
    refine ⟨fun ha => absurd (habove.2 ha) (by simp), ?_⟩
    cases hn : dom.node x with
    | none => simp [hn] at hpassed
    | some n =>
      simp only [hn, Option.any_some, Bool.and_eq_true, Bool.not_eq_true'] at hpassed
      refine ⟨fun htype => ?_, ?_⟩
      · rw [← fragment_isSome, ← isDocumentFragment_eq, isDocumentFragment, hn] at htype
        simp [hpassed.1] at htype
      · simpa [nodeType, hn] using ne_document_of_canInsertChildType hpassed.2

/-- The children of a node that does not contain `p`, inserted together. -/
theorem insertChildren_spec (hreg : Registered dom kids [])
    (hi : ∀ x ∈ kids c, Insertable dom kids p x ref) (hplen : p < dom.nodes.length)
    (href : ∀ r, ref = some r → r ∈ removed kids (kids c) p) :
    Ensures (· = .nodeLimit) (do
        let (changes, dom) ← dom.commitFragmentChildren p ref (kids c)
        match ← dom.stylesheetCandidateTreeScopeForNode p with
        | none => return (some changes, dom)
        | some treeScope =>
          let dom ← dom.registerStylesheetCandidates treeScope
            changes.stylesheetCandidates.registered
          return (some changes, dom))
      fun (changes, dom') => changes.isSome = true ∧ WellLinked dom' (moved kids p (kids c) ref) ∧
        Registered dom' (moved kids p (kids c) ref) [] ∧ Keeps dom dom' ∧
        (Owned dom → Owned dom') := by
  obtain ⟨m, hm⟩ := h.exists_preorder (kids c)
  obtain ⟨r, hr, hroot⟩ := h.exists_root p
  have hrlen := h.root_lt hr hplen
  refine (commitFragmentChildren_spec h hreg hi hm (hm.nodup_kids h.isForest) (by simp) hr hroot
    hplen {}).bind ?_
  rintro ⟨changes, dom₁⟩ ⟨h₁, hkeeps₁, hreg₁, hkeys₁, hchanges, howned₁⟩
  -- the root of `p` is not among the moved nodes, so it is still a root
  have hcs : ∀ x ∈ kids c, ¬ Above dom.parentNode x p := fun x hx hxp =>
    (hi x hx).acyclic (h.above_up hxp)
  have hparent : ∀ z, z ∉ kids c → dom₁.parentNode z = dom.parentNode z := fun z hz =>
    h.parentNode_congr h₁ fun q => mem_moved hz
  obtain ⟨w, hw, hmem⟩ := hr
  have hw₁ : Follows dom₁.parentNode (some p) w := hw.congr fun z hz =>
    hparent z fun hzc => hcs z hzc ⟨w, hw, hz⟩
  have hr₁ : Above dom₁.parentNode r p := ⟨w, hw₁, hmem⟩
  have hroot₁ : dom₁.parentNode r = none := by
    rw [hparent r fun hrc => hcs r hrc ⟨w, hw, hmem⟩, hroot]
  -- the moved nodes are one stretch of the tree
  have hm₁ : Lib.Preorder (moved kids p (kids c) ref) (kids c) m := by
    refine hm.congr fun x hx => ?_
    obtain ⟨c', hc', habove⟩ := hm.exists_above h.isForest hx
    rw [moved_of_ne (by rintro rfl; exact hcs c' hc' habove)]
    refine removed_of_notMem fun y hy hmem => ?_
    obtain rfl := h.represents.parent_unique hmem hy
    exact Above.not_above_of_up (h.mem_kids.1 hc') habove
  obtain ⟨l, hl⟩ := h₁.exists_preorder [r]
  obtain ⟨as, w', bs, rfl, hw', -⟩ :=
    hl.cut (hl.mem_of_above h₁.complete (mem_singleton_self r) hr₁)
  obtain ⟨xs, ys, -, -, hplace⟩ := exists_split href
  rw [moved_self, hplace, append_assoc] at hw'
  obtain ⟨n₁, n₂, rfl, -, hn₂⟩ := hw'.of_append
  obtain ⟨n₃, n₄, rfl, hn₃, -⟩ := hn₂.of_append
  obtain rfl := hn₃.unique hm₁
  have hl' :
      Lib.Preorder (moved kids p (kids c) ref) [r] ((as ++ p :: n₁) ++ n₃ ++ (n₄ ++ bs)) := by
    simpa using hl
  obtain ⟨hregister, hnone⟩ := Registered.register h₁ (by simpa using hreg₁) hl' hroot₁
    (hrlen.trans_le hkeeps₁.length_le)
  rw [isScope_congr hkeeps₁ hrlen hkeys₁] at hregister hnone
  simp only [h₁.treeScopeForNode_eq hr₁ hroot₁, scopeOf_congr hkeeps₁ hrlen hkeys₁, bind,
    Except.bind]
  rcases dom.scopeOf_cases r with ⟨hs, hof⟩ | ⟨hs, hof⟩
  · rw [hof]
    exact ⟨rfl, h₁, hnone hs, hkeeps₁, howned₁⟩
  · obtain ⟨registry, heq, hreg'⟩ := hregister hs
    rw [hkeeps₁.isStylesheetCandidate] at heq
    rw [hof] at hchanges ⊢
    simp only [hchanges, recorded, nil_append, heq]
    exact ⟨rfl, h₁.of_keeps ((Keeps.refl dom₁).withCandidates registry) rfl, hreg',
      hkeeps₁.withCandidates registry, fun ho => (howned₁ ho).withCandidates registry⟩

/-- An insertion either finds an obstacle before it writes anything or moves every node. -/
theorem insertBeforeWithRegistration_spec (hreg : Registered dom kids []) (p c : NativeNodeId)
    (ref : Option NativeNodeId) :
    Ensures (· = .nodeLimit)
      (dom.insertBeforeWithStylesheetCandidateChangesAndRegistration p c ref true)
      fun (changes, dom') => (changes.isSome = false → dom' = dom) ∧
        (changes.isSome = true → Inserted dom kids p c ref dom') := by
  have hrefused : ∀ {changes : Option OwnerLifecycleChanges}, changes = none →
      (changes.isSome = false → dom = dom) ∧
        (changes.isSome = true → Inserted dom kids p c ref dom) := by
    rintro _ rfl
    exact ⟨fun _ => rfl, fun hsome => by cases hsome⟩
  unfold insertBeforeWithStylesheetCandidateChangesAndRegistration
  cases hchildren : dom.canHaveChildren p with
  | false => exact hrefused rfl
  | true =>
  obtain ⟨b, hancestor, habove⟩ := h.isHostIncludingInclusiveAncestor_eq c p
  simp only [hancestor]
  cases b with
  | true => exact hrefused rfl
  | false =>
  have hcp : ¬ Above dom.up c p := fun ha => absurd (habove.2 ha) (by simp)
  cases hp : dom.node p with
  | none => exact hrefused rfl
  | some parentNode =>
  cases hc : dom.node c with
  | none => exact hrefused rfl
  | some childNode =>
  have hplen := lt_length_of_node hp
  have hclen := lt_length_of_node hc
  simp only [Bool.not_true]
  cases htypes : canInsertChildType parentNode.nodeType childNode.nodeType with
  | false => exact hrefused rfl
  | true =>
  have hdocument : dom.nodeType c ≠ some .document := by
    simpa [nodeType, hc] using ne_document_of_canInsertChildType htypes
  cases href : dom.preInsertReference p c ref with
  | none => exact hrefused rfl
  | some ref' =>
  obtain ⟨rfl, hmem⟩ := h.preInsertReference_spec href
  have hfrag : dom.isDocumentFragment c = childNode.isDocumentFragment := by
    simp [isDocumentFragment, hc]
  cases hisfrag : childNode.isDocumentFragment with
  | true =>
    have hnodes : dom.insertedNodes kids c = kids c := if_pos (hfrag.trans hisfrag)
    have hne : c ≠ p := by
      rintro rfl
      exact hcp (.refl h.grounded c)
    have hreference : ∀ q, dom.insertionReference c ref = some q → q ∈ removed kids (kids c) p :=
      fun q hq => mem_removed.2 ⟨(hmem q hq).1, fun hqc =>
        hne (h.represents.parent_unique hqc (hmem q hq).1)⟩
    simp only [h.childIds_eq c]
    refine (Ensures.allM fun x _ =>
      h.fragmentChildIsInsertable_spec (x := x) parentNode.nodeType).bind fun passed hpassed => ?_
    cases passed with
    | false => exact hrefused rfl
    | true =>
    have hi : ∀ x ∈ kids c, Insertable dom kids p x (dom.insertionReference c ref) := fun x hx =>
      ⟨hplen, h.kids_lt hx, (hpassed rfl x hx).2, (hpassed rfl x hx).1, fun q hq =>
        ⟨(hmem q hq).1, by rintro rfl; exact (mem_removed.1 (hreference q hq)).2 hx⟩⟩
    refine (insertChildren_spec h hreg hi hplen hreference).mono ?_
    rintro ⟨changes, dom'⟩ ⟨hsome, h', hreg', hkeeps', howned'⟩
    rw [← hnodes] at h' hreg' hreference
    exact ⟨fun hfalse => absurd (hsome.symm.trans hfalse) (by simp),
      fun _ => ⟨h', hreg', hkeeps', hcp, hreference, howned'⟩⟩
  | false =>
    have hnodes : dom.insertedNodes kids c = [c] := if_neg (by simp [hfrag, hisfrag])
    have htype : dom.nodeType c ≠ some .documentFragment := by
      rw [ne_eq, ← fragment_isSome, ← isDocumentFragment_eq, hfrag, hisfrag]
      simp
    have hi : Insertable dom kids p c (dom.insertionReference c ref) :=
      ⟨hplen, hclen, ⟨htype, hdocument⟩, hcp, hmem⟩
    obtain ⟨m, hm⟩ := h.exists_preorder [c]
    obtain ⟨r, hr, hroot⟩ := h.exists_root p
    refine (commit_spec h hreg hi hm (by simp) hr hroot true fun _ => rfl).bind ?_
    rintro ⟨changes, dom'⟩ ⟨h', hkeeps', htrue, -, -, howned'⟩
    have hreg' := htrue rfl
    rw [← hnodes] at h' hreg'
    refine ⟨fun hnone => (by cases hnone),
      fun _ => ⟨h', hreg', hkeeps', hcp, fun q hq => ?_, howned'⟩⟩
    rw [hnodes]
    exact mem_removed.2 ⟨(hmem q hq).1, by simpa using (hmem q hq).2⟩

/-- A refused insertion changes nothing. -/
theorem insertBefore_spec (hreg : Registered dom kids []) (p c : NativeNodeId)
    (ref : Option NativeNodeId) :
    Ensures (· = .nodeLimit) (dom.insertBefore p c ref) fun (inserted, dom') =>
      (inserted = false → dom' = dom) ∧ (inserted = true → Inserted dom kids p c ref dom') :=
  (insertBeforeWithRegistration_spec h hreg p c ref).bind fun _ hpost => hpost

end

end NativeDom

end Moli.Dom

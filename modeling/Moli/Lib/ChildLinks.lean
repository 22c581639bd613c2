import Moli.Lib.Follow

/-!
# Child lists as intrusive doubly linked lists

A forest stored as five link maps: every element points to its parent, its first and last child and
its siblings. `Represents links kids` says that the maps spell out the child lists `kids`: from the
first child the `next` links visit `kids p`, from the last child the `prev` links visit it
backwards, and the children of `p` are the elements whose parent is `p`.

`unlink` and `linkBefore` are the two pointer updates of such a forest; `Represents.unlink` and
`Represents.linkBefore` say what they do to the lists.
-/

namespace Lib

open Function List

variable {α : Type*}

structure ChildLinks (α : Type*) where
  parent : α → Option α
  first : α → Option α
  last : α → Option α
  next : α → Option α
  prev : α → Option α

namespace ChildLinks

structure Represents (links : ChildLinks α) (kids : α → List α) : Prop where
  forward : ∀ p, Follows links.next (links.first p) (kids p)
  backward : ∀ p, Follows links.prev (links.last p) (kids p).reverse
  parent_iff : ∀ p c, links.parent c = some p ↔ c ∈ kids p

/-- The same forest with every child list read from its other end. -/
def flip (links : ChildLinks α) : ChildLinks α :=
  ⟨links.parent, links.last, links.first, links.prev, links.next⟩

section

variable [DecidableEq α] (links : ChildLinks α)

/-- Takes `c` out of the child list of its parent `p`. -/
def unlink (p c : α) : ChildLinks α where
  parent x := if x = c then none else links.parent x
  first q := if q = p ∧ links.prev c = none then links.next c else links.first q
  last q := if q = p ∧ links.next c = none then links.prev c else links.last q
  next x := if x = c then none else if links.prev c = some x then links.next c else links.next x
  prev x := if x = c then none else if links.next c = some x then links.prev c else links.prev x

/-- The child of `p` that precedes the position before `ref`. -/
def before (p : α) (ref : Option α) : Option α :=
  match ref with
  | some r => links.prev r
  | none => links.last p

/-- Puts `c`, which has no parent, into the child list of `p` before `ref`. -/
def linkBefore (p c : α) (ref : Option α) : ChildLinks α where
  parent x := if x = c then some p else links.parent x
  first q := if q = p ∧ links.before p ref = none then some c else links.first q
  last q := if q = p ∧ ref = none then some c else links.last q
  next x := if x = c then ref else if links.before p ref = some x then some c else links.next x
  prev x := if x = c then links.before p ref else if ref = some x then some c else links.prev x

end

namespace Represents

variable {links : ChildLinks α} {kids : α → List α} {p q c : α} {xs ys : List α}

section
variable (h : links.Represents kids)
include h

theorem flip : links.flip.Represents fun p => (kids p).reverse where
  forward := h.backward
  backward p := by
    rw [reverse_reverse]
    exact h.forward p
  parent_iff p c := by
    rw [mem_reverse]
    exact h.parent_iff p c

theorem nodup (p : α) : (kids p).Nodup := (h.forward p).nodup

theorem first_eq (p : α) : links.first p = (kids p).head? :=
  (h.forward p).start_eq

theorem last_eq (p : α) : links.last p = (kids p).getLast? := by
  rw [(h.backward p).start_eq, head?_reverse]

theorem next_eq (hp : kids p = xs ++ c :: ys) : links.next c = ys.head? :=
  (hp ▸ h.forward p).next_eq

theorem prev_eq (hp : kids p = xs ++ c :: ys) : links.prev c = xs.getLast? := by
  have hkids : (kids p).reverse = ys.reverse ++ c :: xs.reverse := by simp [hp]
  have hback : links.flip.next c = xs.reverse.head? := h.flip.next_eq hkids
  rwa [head?_reverse] at hback

theorem parent_unique (hp : c ∈ kids p) (hq : c ∈ kids q) : p = q :=
  Option.some.inj (((h.parent_iff p c).2 hp).symm.trans ((h.parent_iff q c).2 hq))

theorem parent_eq_none_iff : links.parent c = none ↔ ∀ q, c ∉ kids q := by
  rw [Option.eq_none_iff_forall_ne_some]
  exact forall_congr' fun q => not_congr (h.parent_iff q c)

theorem before_eq {ref : Option α} (hp : kids p = xs ++ ys) (href : ref = ys.head?) :
    links.before p ref = xs.getLast? := by
  subst href
  cases ys with
  | nil => simp [before, h.last_eq, hp]
  | cons y ys => exact h.prev_eq hp

end

variable [DecidableEq α]

theorem update_reverse (kids : α → List α) (p : α) (l : List α) (q : α) :
    update (fun p => (kids p).reverse) p l.reverse q =
      (update kids p l q).reverse := by
  rcases eq_or_ne q p with rfl | hq
  · rw [update_self, update_self]
  · rw [update_of_ne hq, update_of_ne hq]

section
variable {next' first' : α → Option α} (h : links.Represents kids)
include h

/-- Deleting an element from a child list. Read from the other end, the same statement describes
the `prev` links. -/
private theorem deleted (hp : kids p = xs ++ c :: ys)
    (hnext : ∀ x, next' x = if x = c then none
      else if xs.getLast? = some x then ys.head? else links.next x)
    (hfirst : ∀ q, first' q = if q = p ∧ xs.getLast? = none then ys.head? else links.first q)
    (q : α) : Follows next' (first' q) (update kids p (xs ++ ys) q) := by
  rcases eq_or_ne q p with rfl | hq
  · have hstart : first' q = (xs ++ ys).head? := by
      cases xs with
      | nil => simp [hfirst]
      | cons x xs => simp [hfirst, h.first_eq, hp]
    rw [hstart, update_self]
    have hlist := hp ▸ h.forward q
    have hnodup := hlist.nodup
    have hxs : ∀ x ∈ xs, x ≠ c := by
      rintro x hx rfl
      exact disjoint_of_nodup_append hnodup hx (by simp)
    have hys : ∀ y ∈ ys, y ≠ c ∧ xs.getLast? ≠ some y := by
      intro y hy
      refine ⟨?_, fun hl => ?_⟩
      · rintro rfl
        exact (nodup_cons.1 hnodup.of_append_right).1 hy
      · exact disjoint_of_nodup_append hnodup (mem_of_getLast? hl) (by simp [hy])
    refine hlist.splice ?_ (fun x hl => ?_) (fun x hx hl => ?_)
    · have htail : Follows links.next ys.head? ys := by
        have := hlist.of_append.2
        rwa [hlist.next_eq] at this
      exact htail.congr fun y hy => by rw [hnext, if_neg (hys y hy).1, if_neg (hys y hy).2]
    · rw [hnext, if_neg (hxs x (mem_of_getLast? hl)), if_pos hl]
    · rw [hnext, if_neg (hxs x hx), if_neg hl]
  · rw [hfirst, if_neg fun hqp => hq hqp.1, update_of_ne hq]
    refine (h.forward q).congr fun x hx => ?_
    have hout : x ∉ kids p := fun hxp => hq (h.parent_unique hx hxp)
    simp only [hp, mem_append, mem_cons, not_or] at hout
    rw [hnext, if_neg hout.2.1, if_neg fun hl => hout.1 (mem_of_getLast? hl)]

/-- Inserting a new element into a child list. -/
private theorem inserted (hp : kids p = xs ++ ys) (hc : ∀ q, c ∉ kids q)
    (hnext : ∀ x, next' x = if x = c then ys.head?
      else if xs.getLast? = some x then some c else links.next x)
    (hfirst : ∀ q, first' q = if q = p ∧ xs.getLast? = none then some c else links.first q)
    (q : α) : Follows next' (first' q) (update kids p (xs ++ c :: ys) q) := by
  have hne : ∀ q, ∀ x ∈ kids q, x ≠ c := by
    rintro q x hx rfl
    exact hc q hx
  rcases eq_or_ne q p with rfl | hq
  · have hstart : first' q = (xs ++ c :: ys).head? := by
      cases xs with
      | nil => simp [hfirst]
      | cons x xs => simp [hfirst, h.first_eq, hp]
    rw [hstart, update_self]
    have hlist := hp ▸ h.forward q
    have hne' := hp ▸ hne q
    refine hlist.splice ⟨rfl, ?_⟩ (fun x hl => ?_) (fun x hx hl => ?_)
    · rw [hnext, if_pos rfl]
      refine hlist.of_append.congr fun y hy => ?_
      have hlast : xs.getLast? ≠ some y := fun hl =>
        disjoint_of_nodup_append hlist.nodup (mem_of_getLast? hl) hy
      rw [hnext, if_neg (hne' y (by simp [hy])), if_neg hlast]
    · rw [hnext, if_neg (hne' x (by simp [mem_of_getLast? hl])), if_pos hl, head?_cons]
    · rw [hnext, if_neg (hne' x (by simp [hx])), if_neg hl]
  · rw [hfirst, if_neg fun hqp => hq hqp.1, update_of_ne hq]
    refine (h.forward q).congr fun x hx => ?_
    have hlast : xs.getLast? ≠ some x := fun hl =>
      hq (h.parent_unique hx (by simp [hp, mem_of_getLast? hl]))
    rw [hnext, if_neg (hne q x hx), if_neg hlast]

theorem unlink (hp : kids p = xs ++ c :: ys) :
    (links.unlink p c).Represents (update kids p (xs ++ ys)) := by
  have hnext := h.next_eq hp
  have hprev := h.prev_eq hp
  refine ⟨fun q => ?_, fun q => ?_, fun q x => ?_⟩
  · refine h.deleted hp (fun x => ?_) (fun q => ?_) q <;> simp [ChildLinks.unlink, hnext, hprev]
  · rw [← update_reverse, reverse_append]
    refine h.flip.deleted (c := c) (by simp [hp]) (fun x => ?_) (fun q => ?_) q <;>
      simp [ChildLinks.unlink, ChildLinks.flip, hnext, hprev]
  · have hsplit : ∀ z, z ∈ update kids p (xs ++ ys) q ↔ z ∈ kids q ∧ z ≠ c := by
      intro z
      rcases eq_or_ne q p with rfl | hq
      · have hnodup := h.nodup q
        rw [hp, nodup_middle, nodup_cons] at hnodup
        rw [update_self, hp]
        constructor
        · intro hz
          refine ⟨by simp only [mem_append] at hz ⊢; tauto, ?_⟩
          rintro rfl
          exact hnodup.1 hz
        · rintro ⟨hz, hne⟩
          simp only [mem_append, mem_cons] at hz ⊢
          tauto
      · rw [update_of_ne hq]
        refine ⟨fun hz => ⟨hz, ?_⟩, fun hz => hz.1⟩
        rintro rfl
        exact hq (h.parent_unique hz (by simp [hp]))
    rw [hsplit, ← h.parent_iff]
    rcases eq_or_ne x c with rfl | hx
    · simp [ChildLinks.unlink]
    · simp [ChildLinks.unlink, hx]

theorem linkBefore {ref : Option α} (hp : kids p = xs ++ ys) (href : ref = ys.head?)
    (hc : ∀ q, c ∉ kids q) :
    (links.linkBefore p c ref).Represents (update kids p (xs ++ c :: ys)) := by
  have hbefore := h.before_eq hp href
  subst href
  refine ⟨fun q => ?_, fun q => ?_, fun q x => ?_⟩
  · refine h.inserted hp hc (fun x => ?_) (fun q => ?_) q <;>
      simp [ChildLinks.linkBefore, hbefore]
  · have hrev : (xs ++ c :: ys).reverse = ys.reverse ++ c :: xs.reverse := by simp
    rw [← update_reverse, hrev]
    refine h.flip.inserted (by simp [hp]) (by simpa using hc) (fun x => ?_) (fun q => ?_) q <;>
      simp [ChildLinks.linkBefore, ChildLinks.flip, hbefore]
  · have hmem : x ∈ update kids p (xs ++ c :: ys) q ↔ x ∈ kids q ∨ (x = c ∧ q = p) := by
      rcases eq_or_ne q p with rfl | hq
      · simp only [update_self, hp, mem_append, mem_cons]
        tauto
      · simp [hq]
    rw [hmem, ← h.parent_iff]
    rcases eq_or_ne x c with rfl | hx
    · have hnone := h.parent_eq_none_iff.2 hc
      simp [ChildLinks.linkBefore, hnone, eq_comm]
    · simp [ChildLinks.linkBefore, hx]

end

end Represents

end ChildLinks

end Lib

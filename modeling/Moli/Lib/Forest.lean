import Moli.Lib.Follow

/-!
# Forests and their preorder

A forest is given by a partial function `up` to the parent and lists `kids` of children. The
relation `Preorder kids stack l` is the run of a depth-first traversal: popping the stack, pushing
the children of what was popped, visits `l`. It is deterministic, every node is visited at most once
(`Preorder.nodup`), and exactly what lies below the stack is visited (`Preorder.mem_iff`).

`Preorder.cut` cuts a traversal at one node. It is what an edit of one child list does to the
traversal, and what puts two nodes in order (`Preorder.before_of_above`,
`Preorder.before_of_siblings`). `Preorder.parting` says where the walks up from two nodes part.
-/

namespace Lib

open List

variable {α : Type*}

/-- `x` is `y` or above it. -/
def Above (up : α → Option α) (x y : α) : Prop := ∃ l, Follows up (some y) l ∧ x ∈ l

/-- The children a node lists point back to it. Other nodes may point to it as well. -/
structure IsForest (up : α → Option α) (kids : α → List α) : Prop where
  up_eq : ∀ p c, c ∈ kids p → up c = some p
  nodup : ∀ p, (kids p).Nodup
  grounded : Grounded up

inductive Preorder (kids : α → List α) : List α → List α → Prop
  | nil : Preorder kids [] []
  | cons {a : α} {stack l : List α} (h : Preorder kids (kids a ++ stack) l) :
    Preorder kids (a :: stack) (a :: l)

/-- `x` comes before `y` in `l`. -/
def Before (l : List α) (x y : α) : Prop := ∃ xs ys, l = xs ++ ys ∧ x ∈ xs ∧ y ∈ ys

/-- Nothing is below two entries of `l`. -/
def Apart (up : α → Option α) (l : List α) : Prop :=
  l.Pairwise fun x y => ∀ z, Above up x z → ¬ Above up y z

variable {up : α → Option α} {kids kids' : α → List α} {a c c' p r x y z : α}
variable {s t l m n xs ys : List α}

namespace Before

/-- In a list without duplicates nothing comes both before and after. -/
theorem asymm (h : Before l x y) (hl : l.Nodup) : ¬ Before l y x := by
  rintro ⟨us, vs, heq, hy, hx⟩
  obtain ⟨xs, ys, rfl, hx', hy'⟩ := h
  have hd := disjoint_of_nodup_append hl
  rcases append_eq_append_iff.1 heq with ⟨w, rfl, rfl⟩ | ⟨w, rfl, rfl⟩
  · exact hd hx' (by simp [hx])
  · exact hd (by simp [hy]) hy'

theorem mem (h : Before l x y) : x ∈ l ∧ y ∈ l := by
  obtain ⟨xs, ys, rfl, hx, hy⟩ := h
  simp [hx, hy]

theorem trans (hl : l.Nodup) (h : Before l x y) (h' : Before l y z) : Before l x z := by
  obtain ⟨xs, ys, rfl, hx, hy⟩ := h
  obtain ⟨us, vs, heq, hy', hz⟩ := h'
  rcases append_eq_append_iff.1 heq with ⟨w, rfl, rfl⟩ | ⟨w, rfl, rfl⟩
  · exact ⟨xs ++ w, vs, by simp, by simp [hx], hz⟩
  · exact absurd hy (disjoint_of_nodup_append hl (by simp [hy']))

theorem total (hx : x ∈ l) (hy : y ∈ l) (hne : x ≠ y) : Before l x y ∨ Before l y x := by
  obtain ⟨xs, ys, rfl⟩ := append_of_mem hx
  rcases mem_append.1 hy with hy | hy
  · exact .inr ⟨xs, x :: ys, rfl, hy, by simp⟩
  · have hys : y ∈ ys := (mem_cons.1 hy).resolve_left hne.symm
    exact .inl ⟨xs ++ [x], ys, by simp, by simp, hys⟩

end Before

namespace Follows

/-- Along a finite walk different elements have different successors. -/
theorem inj (h : Follows up (some z) l) (hc : c ∈ l) (hc' : c' ∈ l) (heq : up c = up c') :
    c = c' := by
  have hlater : ∀ {xs ys : List α} {b b' : α}, Follows up (some z) (xs ++ b :: ys) → b' ∈ ys →
      up b ≠ up b' := by
    intro xs ys b b' hw hb' hup
    obtain ⟨us, vs, rfl⟩ := append_of_mem hb'
    have hnext : up b = (us ++ b' :: vs).head? := hw.next_eq
    have hnext' : up b' = vs.head? := by
      rw [← cons_append, ← append_assoc] at hw
      exact hw.next_eq
    have hnodup : (us ++ b' :: vs).Nodup := (hw.nodup.of_append_right).of_cons
    cases vs with
    | nil => cases us <;> simp_all
    | cons v vs =>
      have hv : v ∈ us ++ [b'] := by
        cases us <;> simp_all
      have hsplit : us ++ b' :: v :: vs = (us ++ [b']) ++ v :: vs := by simp
      rw [hsplit] at hnodup
      exact disjoint_of_nodup_append hnodup hv (by simp)
  obtain ⟨xs, ys, rfl⟩ := append_of_mem hc
  rcases mem_append.1 hc' with hmem | hmem
  · obtain ⟨us, vs, rfl⟩ := append_of_mem hmem
    have hw : Follows up (some z) (us ++ c' :: (vs ++ c :: ys)) := by simpa using h
    exact absurd heq.symm (hlater hw (by simp))
  · rcases mem_cons.1 hmem with rfl | hmem
    · rfl
    · exact absurd heq (hlater h hmem)

end Follows

namespace Above

theorem refl (h : Grounded up) (x : α) : Above up x x := by
  obtain ⟨l, hl⟩ := h x
  refine ⟨l, hl, ?_⟩
  cases l with
  | nil => cases hl
  | cons a l => simp [Option.some.inj hl.1]

theorem step (h : Above up x y) (hx : up x = some p) : Above up p y := by
  obtain ⟨l, hl, hmem⟩ := h
  refine ⟨l, hl, ?_⟩
  obtain ⟨xs, ys, rfl⟩ := append_of_mem hmem
  have hnext := hl.next_eq
  rw [hx] at hnext
  simp [mem_of_head? hnext.symm]

theorem of_up (h : Above up x p) (hy : up y = some p) : Above up x y := by
  obtain ⟨l, hl, hmem⟩ := h
  exact ⟨y :: l, ⟨rfl, hy ▸ hl⟩, by simp [hmem]⟩

/-- What lies strictly above goes through the parent. -/
theorem up_or_eq (h : Above up x y) : x = y ∨ ∃ p, up y = some p ∧ Above up x p := by
  obtain ⟨l, hl, hmem⟩ := h
  cases l with
  | nil => cases hl
  | cons a l =>
    obtain rfl : y = a := Option.some.inj hl.1
    rcases mem_cons.1 hmem with rfl | hmem
    · exact .inl rfl
    · cases l with
      | nil => cases hmem
      | cons p l =>
        have hup : up y = some p := hl.2.1
        exact .inr ⟨p, hup, p :: l, ⟨rfl, hl.2.2⟩, hmem⟩

/-- What lies strictly below goes through a child. -/
theorem child_or_eq (h : Above up x y) : x = y ∨ ∃ c, up c = some x ∧ Above up c y := by
  obtain ⟨l, hl, hmem⟩ := h
  obtain ⟨xs, ys, rfl⟩ := append_of_mem hmem
  cases xs using reverseRecOn with
  | nil => exact .inl (Option.some.inj hl.1).symm
  | append_singleton xs c =>
    refine .inr ⟨c, ?_, _, hl, by simp⟩
    rw [append_assoc] at hl
    exact hl.next_eq

theorem trans (h : Above up x y) (h' : Above up y z) : Above up x z := by
  obtain ⟨l, hl, hx⟩ := h
  obtain ⟨m, hm, hy⟩ := h'
  obtain ⟨xs, ys, rfl⟩ := append_of_mem hy
  have heq := hl.unique hm.of_append
  subst heq
  exact ⟨_, hm, by simp only [mem_append]; exact .inr hx⟩

/-- The root above a node is above everything that is above it. -/
theorem of_root (hr : Above up c z) (hc : up c = none) (hp : Above up p z) : Above up c p := by
  obtain ⟨l, hl, hmem⟩ := hp
  obtain ⟨l', hl', hmem'⟩ := hr
  obtain rfl := hl.unique hl'
  obtain ⟨xs, ys, rfl⟩ := append_of_mem hmem
  refine ⟨p :: ys, hl.of_append, ?_⟩
  rcases mem_append.1 hmem' with hxs | hys
  · obtain ⟨us, vs, rfl⟩ := append_of_mem hxs
    rw [append_assoc] at hl
    have hnext := hl.next_eq
    rw [hc] at hnext
    cases vs <;> simp at hnext
  · exact hys

/-- Whether `x` lies above does not depend on what lies above `x`. -/
theorem of_agree {up' : α → Option α} (hup : ∀ z, z ≠ x → up' z = up z) (hg : Grounded up)
    (h : Above up' x y) : Above up x y := by
  obtain ⟨l, hl, hmem⟩ := h
  obtain ⟨xs, ys, rfl⟩ := append_of_mem hmem
  obtain ⟨m, hm⟩ := hg x
  cases m with
  | nil => cases hm
  | cons b m =>
    obtain rfl : x = b := Option.some.inj hm.1
    exact ⟨_, hl.reroute (fun z hz => (hup z hz).symm) hm.2, by simp⟩

/-- A walk that avoids `c` does not depend on what lies above `c`. -/
theorem iff_of_agree {up' : α → Option α} (hup : ∀ z, z ≠ c → up' z = up z) (hg : Grounded up)
    (hc : ¬ Above up c y) : Above up' x y ↔ Above up x y := by
  obtain ⟨l, hl⟩ := hg y
  have hl' : Follows up' (some y) l := hl.congr fun z hz => hup z (by
    rintro rfl
    exact hc ⟨l, hl, hz⟩)
  constructor
  · rintro ⟨m, hm, hx⟩
    exact ⟨l, hl, hl'.unique hm ▸ hx⟩
  · rintro ⟨m, hm, hx⟩
    exact ⟨l, hl', hl.unique hm ▸ hx⟩

theorem not_above_of_up (hx : up x = some p) : ¬ Above up x p := by
  rintro ⟨l, hl, hmem⟩
  have hnodup := (show Follows up (some x) (x :: l) from ⟨rfl, hx ▸ hl⟩).nodup
  exact (nodup_cons.1 hnodup).1 hmem

/-- Two siblings have nothing below them in common. -/
theorem sibling_eq (hc : Above up c z) (hc' : Above up c' z) (heq : up c = up c') : c = c' := by
  obtain ⟨l, hl, hmem⟩ := hc
  obtain ⟨l', hl', hmem'⟩ := hc'
  rw [hl'.unique hl] at hmem'
  exact hl.inj hmem hmem' heq

/-- Two roots above one node are the same. -/
theorem root_eq (hx : Above up x z) (hxroot : up x = none) (hy : Above up y z)
    (hyroot : up y = none) : x = y :=
  hx.sibling_eq hy (hxroot.trans hyroot.symm)

end Above

theorem above_iff_up (h : Grounded up) :
    Above up x y ↔ x = y ∨ ∃ p, up y = some p ∧ Above up x p := by
  refine ⟨Above.up_or_eq, ?_⟩
  rintro (rfl | ⟨p, hp, habove⟩)
  · exact .refl h x
  · exact habove.of_up hp

/-- Finite walks do not come back. -/
theorem Grounded.acyclic (h : Grounded up) (x : α) :
    ¬ Relation.TransGen (fun c p => up c = some p) x x := by
  have hstrict : ∀ y, Relation.TransGen (fun c p => up c = some p) x y →
      ∃ p, up x = some p ∧ Above up y p := by
    intro y hxy
    induction hxy with
    | single hup => exact ⟨_, hup, .refl h _⟩
    | tail _ hup ih =>
      obtain ⟨p, hp, habove⟩ := ih
      exact ⟨p, hp, habove.step hup⟩
  intro hxx
  obtain ⟨p, hp, habove⟩ := hstrict x hxx
  exact Above.not_above_of_up hp habove

/-- A node may be replaced by some of its children. -/
theorem Apart.expand (hf : IsForest up kids) (h : Apart up (a :: s)) (ht : t.Sublist (kids a)) :
    Apart up (t ++ s) := by
  obtain ⟨ha, hs⟩ := pairwise_cons.1 h
  have hup : ∀ x ∈ t, up x = some a := fun x hx => hf.up_eq a x (ht.mem hx)
  refine pairwise_append.2 ⟨?_, hs, fun x hx y hy z hxz => ?_⟩
  · have hnodup := (hf.nodup a).sublist ht
    refine (nodup_iff_pairwise_ne.1 hnodup).imp_of_mem fun hx hy hne z hxz hyz => ?_
    exact hne (hxz.sibling_eq hyz ((hup _ hx).trans (hup _ hy).symm))
  · exact ha y hy z (hxz.step (hup x hx))

namespace Preorder

theorem unique (h : Preorder kids s l) (h' : Preorder kids s m) : l = m := by
  induction h generalizing m with
  | nil => cases h'; rfl
  | cons _ ih =>
    cases h' with
    | cons h' => rw [ih h']

theorem append (h : Preorder kids s l) (h' : Preorder kids t m) :
    Preorder kids (s ++ t) (l ++ m) := by
  induction h with
  | nil => exact h'
  | cons _ ih =>
    rw [append_assoc] at ih
    exact .cons ih

theorem of_append (h : Preorder kids (s ++ t) l) :
    ∃ m n, l = m ++ n ∧ Preorder kids s m ∧ Preorder kids t n := by
  generalize hst : s ++ t = st at h
  induction h generalizing s with
  | nil =>
    obtain ⟨rfl, rfl⟩ := append_eq_nil_iff.1 hst
    exact ⟨[], [], rfl, .nil, .nil⟩
  | @cons a stack l h ih =>
    cases s with
    | nil =>
      rw [nil_append] at hst
      exact ⟨[], _, rfl, .nil, hst ▸ .cons h⟩
    | cons b s =>
      obtain ⟨rfl, rfl⟩ := List.cons.inj hst
      obtain ⟨m, n, rfl, hm, hn⟩ := ih (s := kids b ++ s) (append_assoc ..)
      exact ⟨b :: m, n, rfl, .cons hm, hn⟩

section
variable (h : Preorder kids s l)
include h

theorem congr (hk : ∀ x ∈ l, kids' x = kids x) : Preorder kids' s l := by
  induction h with
  | nil => exact .nil
  | @cons a stack l h ih =>
    refine .cons ?_
    rw [hk a (by simp)]
    exact ih fun x hx => hk x (by simp [hx])

theorem mem_of_mem_stack (hx : x ∈ s) : x ∈ l := by
  induction h with
  | nil => cases hx
  | cons h ih =>
    rcases mem_cons.1 hx with rfl | hx
    · simp
    · exact mem_cons_of_mem _ (ih (by simp [hx]))

theorem mem_of_mem_kids (hp : p ∈ l) (hx : x ∈ kids p) : x ∈ l := by
  induction h with
  | nil => cases hp
  | cons h ih =>
    rcases mem_cons.1 hp with rfl | hp
    · exact mem_cons_of_mem _ (h.mem_of_mem_stack (by simp [hx]))
    · exact mem_cons_of_mem _ (ih hp)

theorem mem_stack_or_kids (hx : x ∈ l) : x ∈ s ∨ ∃ p, x ∈ kids p := by
  induction h with
  | nil => cases hx
  | @cons a stack l h ih =>
    rcases mem_cons.1 hx with rfl | hx
    · simp
    · rcases ih hx with hx | hx
      · rcases mem_append.1 hx with hx | hx
        · exact .inr ⟨a, hx⟩
        · exact .inl (mem_cons_of_mem _ hx)
      · exact .inr hx

/-- Cutting a traversal at `p`: what is visited before and after `p` and its descendants does not
depend on the children of `p`. -/
theorem cut (hp : p ∈ l) :
    ∃ xs m ys, l = xs ++ p :: (m ++ ys) ∧ Preorder kids (kids p) m ∧
      ∀ kids' : α → List α, (∀ x ∈ xs ++ ys, kids' x = kids x) →
        ∀ m', Preorder kids' (kids' p) m' → Preorder kids' s (xs ++ p :: (m' ++ ys)) := by
  induction h with
  | nil => cases hp
  | @cons a stack l h ih =>
    by_cases hpa : p = a
    · subst hpa
      obtain ⟨m, n, rfl, hm, hn⟩ := h.of_append
      refine ⟨[], m, n, rfl, hm, fun kids' hk m' hm' => .cons ?_⟩
      exact hm'.append (hn.congr fun x hx => hk x (by simp [hx]))
    · obtain ⟨xs, m, ys, rfl, hm, hedit⟩ := ih (by simpa [hpa] using hp)
      refine ⟨a :: xs, m, ys, rfl, hm, fun kids' hk m' hm' => .cons ?_⟩
      rw [hk a (by simp)]
      exact hedit kids' (fun x hx => hk x (mem_cons_of_mem _ hx)) m' hm'

/-- A subtree is visited in one contiguous stretch. -/
theorem subtree (hx : x ∈ l) (hm : Preorder kids [x] m) : ∃ as bs, l = as ++ m ++ bs := by
  obtain ⟨as, w, bs, rfl, hw, -⟩ := h.cut hx
  have hxw : Preorder kids [x] (x :: w) := .cons (by simpa using hw)
  obtain rfl := hm.unique hxw
  exact ⟨as, bs, by simp⟩

end

/-- The children `s` in the middle of a child list are visited in one contiguous stretch, and
replacing them by `t` replaces that stretch. -/
theorem replace (h : Preorder kids xs l) (hl : l.Nodup) (hp : p ∈ l) {us vs : List α}
    (hkids : kids p = us ++ s ++ vs) (hkids' : kids' p = us ++ t ++ vs)
    (hother : ∀ x, x ≠ p → kids' x = kids x) (hs : Preorder kids s m)
    (ht : Preorder kids' t n) :
    ∃ as bs, l = as ++ m ++ bs ∧ Preorder kids' xs (as ++ n ++ bs) := by
  obtain ⟨as, w, bs, rfl, hw, hedit⟩ := h.cut hp
  rw [hkids] at hw
  obtain ⟨w₁, w₃, rfl, hw₁, hv⟩ := hw.of_append
  obtain ⟨w₁, w₂, rfl, hu, hs'⟩ := hw₁.of_append
  obtain rfl := hs.unique hs'
  have hne : ∀ {x}, x ∈ as ++ (w₁ ++ m ++ w₃ ++ bs) → x ≠ p := by
    rintro x hx rfl
    rw [nodup_middle, nodup_cons] at hl
    exact hl.1 hx
  refine ⟨as ++ p :: w₁, w₃ ++ bs, by simp, ?_⟩
  have hnew : Preorder kids' (kids' p) (w₁ ++ n ++ w₃) := by
    rw [hkids']
    refine ((hu.congr fun x hx => ?_).append ht).append (hv.congr fun x hx => ?_)
    · exact hother x (hne (by simp [hx]))
    · exact hother x (hne (by simp [hx]))
  have hedited := hedit kids' (fun x hx => hother x (hne ?_)) _ hnew
  · simpa using hedited
  · rcases mem_append.1 hx with hx | hx <;> simp [hx]

section Complete

variable (hkids : ∀ p c, up c = some p → c ∈ kids p)
include hkids

theorem mem_of_above (h : Preorder kids s l) (hx : x ∈ s) (hxy : Above up x y) : y ∈ l := by
  obtain ⟨w, hw, hmem⟩ := hxy
  induction w generalizing y with
  | nil => cases hmem
  | cons b w ih =>
    obtain rfl : y = b := Option.some.inj hw.1
    rcases mem_cons.1 hmem with rfl | hmem
    · exact h.mem_of_mem_stack hx
    · cases w with
      | nil => cases hmem
      | cons p w =>
        have hup : up y = some p := hw.2.1
        exact h.mem_of_mem_kids (ih ⟨rfl, hw.2.2⟩ hmem) (hkids p y hup)

/-- An ancestor is visited before its descendants. -/
theorem before_of_above (h : Preorder kids s l) (hx : x ∈ l) (hxy : Above up x y) (hne : x ≠ y) :
    Before l x y := by
  obtain ⟨as, m, bs, rfl, hm, -⟩ := h.cut hx
  obtain ⟨c, hc, hcy⟩ := hxy.child_or_eq.resolve_left hne
  have hy : y ∈ m := hm.mem_of_above hkids (hkids x c hc) hcy
  exact ⟨as ++ [x], m ++ bs, by simp, by simp, by simp [hy]⟩

/-- What lies below an earlier sibling is visited before what lies below a later one. -/
theorem before_of_siblings (h : Preorder kids s l) (hp : p ∈ l) {us vs : List α}
    (hsplit : kids p = us ++ vs) (hc : c ∈ us) (hc' : c' ∈ vs) (hx : Above up c x)
    (hy : Above up c' y) : Before l x y := by
  obtain ⟨as, m, bs, rfl, hm, -⟩ := h.cut hp
  rw [hsplit] at hm
  obtain ⟨m₁, m₂, rfl, hm₁, hm₂⟩ := hm.of_append
  have hxm := hm₁.mem_of_above hkids hc hx
  have hym := hm₂.mem_of_above hkids hc' hy
  exact ⟨as ++ p :: m₁, m₂ ++ bs, by simp, by simp [hxm], by simp [hym]⟩

end Complete

section IsForest

variable (hf : IsForest up kids)
include hf

theorem exists_above (h : Preorder kids s l) (hy : y ∈ l) : ∃ x ∈ s, Above up x y := by
  induction h with
  | nil => cases hy
  | @cons a stack l h ih =>
    rcases mem_cons.1 hy with rfl | hy
    · exact ⟨y, by simp, .refl hf.grounded y⟩
    · obtain ⟨x, hx, hxy⟩ := ih hy
      rcases mem_append.1 hx with hx | hx
      · exact ⟨a, by simp, hxy.step (hf.up_eq a x hx)⟩
      · exact ⟨x, by simp [hx], hxy⟩

theorem above_of_mem (h : Preorder kids [x] l) (hy : y ∈ l) : Above up x y := by
  obtain ⟨x', hx', habove⟩ := h.exists_above hf hy
  rwa [mem_singleton.1 hx'] at habove

/-- A traversal whose stack has pairwise disjoint subtrees visits nothing twice. -/
theorem nodup_of_apart (h : Preorder kids s l) (hs : Apart up s) : l.Nodup := by
  induction h with
  | nil => exact nodup_nil
  | @cons a stack l h ih =>
    refine nodup_cons.2 ⟨fun hmem => ?_, ih (hs.expand hf (List.Sublist.refl _))⟩
    obtain ⟨x, hx, hxa⟩ := h.exists_above hf hmem
    rcases mem_append.1 hx with hx | hx
    · exact Above.not_above_of_up (hf.up_eq a x hx) hxa
    · exact (pairwise_cons.1 hs).1 x hx a (.refl hf.grounded a) hxa

theorem nodup (h : Preorder kids [x] l) : l.Nodup :=
  h.nodup_of_apart hf (pairwise_singleton ..)

theorem nodup_kids (h : Preorder kids (kids x) l) : l.Nodup :=
  (nodup_cons.1 ((Preorder.cons (by simpa using h) : Preorder kids [x] (x :: l)).nodup hf)).2

/-- Bounded walks to the root bound the depth of a traversal. -/
theorem exists_of_bounded {bound : Nat}
    (hbound : ∀ x l, Follows up (some x) l → l.length ≤ bound) (s : List α) :
    ∃ l, Preorder kids s l := by
  have hlist : ∀ s : List α, (∀ x ∈ s, ∃ l, Preorder kids [x] l) → ∃ l, Preorder kids s l := by
    intro s hs
    induction s with
    | nil => exact ⟨[], .nil⟩
    | cons x s ih =>
      obtain ⟨l, hl⟩ := hs x (by simp)
      obtain ⟨m, hm⟩ := ih fun y hy => hs y (by simp [hy])
      exact ⟨l ++ m, hl.append hm⟩
  -- the walk from a child is longer than the walk from its parent
  have hone : ∀ depth x w, Follows up (some x) w → bound - w.length < depth →
      ∃ l, Preorder kids [x] l := by
    intro depth
    induction depth with
    | zero => intro x w _ h; omega
    | succ depth ih =>
      intro x w hw hdepth
      obtain ⟨l, hl⟩ := hlist (kids x) fun c hc => by
        have hcw : Follows up (some c) (c :: w) := ⟨rfl, hf.up_eq x c hc ▸ hw⟩
        have hlong := hbound c _ hcw
        rw [length_cons] at hlong
        exact ih c _ hcw (by rw [length_cons]; omega)
      exact ⟨x :: l, .cons (by simpa using hl)⟩
  refine hlist s fun x _ => ?_
  obtain ⟨w, hw⟩ := hf.grounded x
  exact hone _ x w hw (Nat.lt_succ_self _)

theorem mem_iff (hkids : ∀ p c, up c = some p → c ∈ kids p) (h : Preorder kids s l) :
    y ∈ l ↔ ∃ x ∈ s, Above up x y :=
  ⟨h.exists_above hf, fun ⟨_, hx, hxy⟩ => h.mem_of_above hkids hx hxy⟩

end IsForest

end Preorder

/-! ## Where two walks up part -/

theorem Follows.mem_start (h : Follows up (some x) l) : x ∈ l := mem_of_head? h.start_eq.symm

/-- Seen from the end, a walk starts with the root. -/
theorem Follows.reverse_head (h : Follows up (some x) l) (hr : up r = none) (hx : Above up r x) :
    l.reverse.head? = some r := by
  rw [head?_reverse]
  cases hlast : l.getLast? with
  | none =>
    have hmem := h.mem_start
    rw [getLast?_eq_none_iff.1 hlast] at hmem
    cases hmem
  | some r' =>
    have habove : Above up r' x := ⟨l, h, mem_of_getLast? hlast⟩
    rw [habove.root_eq (h.last_eq hlast) hx hr]

/-- Where the walks up from two nodes of one tree part, seen from the root: one of the nodes is
above the other, or they lie below two children of one node. -/
theorem Preorder.parting (hf : IsForest up kids) (hkids : ∀ p c, up c = some p → c ∈ kids p)
    (hpre : Preorder kids [r] l) (hr : up r = none) (hx : x ∈ l) (hy : y ∈ l)
    {wx wy shared lefts rights : List α} (hwx : Follows up (some x) wx)
    (hwy : Follows up (some y) wy) (hsx : wx.reverse = shared ++ lefts)
    (hsy : wy.reverse = shared ++ rights)
    (hdiffer : ∀ left right, lefts.head? = some left → rights.head? = some right → left ≠ right) :
    (lefts = [] ∧ Above up x y) ∨ (lefts ≠ [] ∧ rights = [] ∧ Above up y x) ∨
      ∃ p left right lefts' rights', lefts = left :: lefts' ∧ rights = right :: rights' ∧ p ∈ l ∧
        left ∈ kids p ∧ right ∈ kids p ∧ left ≠ right ∧ Above up left x ∧ Above up right y := by
  have hxr := hwx.reverse_head hr (hpre.above_of_mem hf hx)
  have hyr := hwy.reverse_head hr (hpre.above_of_mem hf hy)
  cases lefts with
  | nil =>
    -- the chain of `x` is a beginning of the chain of `y`
    refine .inl ⟨rfl, wy, hwy, ?_⟩
    rw [← mem_reverse, hsy, ← append_nil shared, ← hsx]
    simp [hwx.mem_start]
  | cons left lefts =>
    cases rights with
    | nil =>
      refine .inr (.inl ⟨cons_ne_nil left lefts, rfl, wx, hwx, ?_⟩)
      rw [← mem_reverse, hsx, ← append_nil shared, ← hsy]
      simp [hwy.mem_start]
    | cons right rights =>
      have hne : left ≠ right := hdiffer left right rfl rfl
      refine .inr (.inr ?_)
      -- the last shared node has both chains' next nodes as children
      cases shared using reverseRecOn with
      | nil =>
        rw [hsx] at hxr
        rw [hsy] at hyr
        exact absurd (Option.some.inj (hxr.trans hyr.symm)) hne
      | append_singleton shared z =>
        have hwx' : wx = lefts.reverse ++ left :: z :: shared.reverse := by
          rw [← reverse_inj, hsx]
          simp
        have hwy' : wy = rights.reverse ++ right :: z :: shared.reverse := by
          rw [← reverse_inj, hsy]
          simp
        have hleft : left ∈ kids z := hkids z left (hwx' ▸ hwx).next_eq
        have hright : right ∈ kids z := hkids z right (hwy' ▸ hwy).next_eq
        have hz : z ∈ l := by
          have hrz : r ∈ z :: shared.reverse := by
            rw [hsx] at hxr
            have hmem : r ∈ shared ++ [z] := mem_of_head? (by simpa using hxr)
            simpa [or_comm] using hmem
          have hwalk : Follows up (some z) (z :: shared.reverse) := by
            rw [hwx', ← singleton_append, ← append_assoc] at hwx
            exact hwx.of_append
          exact hpre.mem_of_above hkids (mem_singleton_self r) ⟨_, hwalk, hrz⟩
        exact ⟨z, left, right, lefts, rights, rfl, rfl, hz, hleft, hright, hne,
          ⟨wx, hwx, by simp [hwx']⟩, ⟨wy, hwy, by simp [hwy']⟩⟩

/-- Below two different children of one node neither of two nodes is above the other. -/
theorem Above.not_above_of_siblings (hx : Above up c x) (hy : Above up c' y) (hne : c ≠ c')
    (heq : up c = up c') : ¬ Above up x y := fun hxy =>
  hne ((hx.trans hxy).sibling_eq hy heq)

end Lib

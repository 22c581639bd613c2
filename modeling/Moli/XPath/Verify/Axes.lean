import Moli.Lib.Forest
import Moli.Lib.Lists
import Moli.XPath.Snapshot

/-!
# The axes of a node partition its document

In a snapshot filled in document order the identifiers number the nodes in preorder: `Numbered` is
kept by every append (`Numbered.append`), and what lies below a node is traversed in the order of
the numbers (`collectPreorder_spec`). The axes of a node partition the document exactly where
dropping the first node of a scan drops the node itself, which an attribute is not part of.
-/

namespace Moli.XPath

open Lib SnapshotBuilder Snapshot List

/-! ## Preorder numbers -/

/-- The links of `size` nodes numbered in preorder, and the open nodes, the innermost first. -/
structure Numbered (up : Nat → Option Nat) (attr : Nat → Bool) (kids : Nat → List Nat) (size : Nat)
    (path : List Nat) : Prop where
  up_lt : ∀ c p, up c = some p → p < c ∧ c < size ∧ attr p = false
  kids_eq : ∀ p, kids p = (range size).filter fun c => decide (up c = some p) && !attr c
  walk : Follows up path.head? path
  path_lt : ∀ q ∈ path, q < size ∧ attr q = false
  latest : ∀ q ∈ path, ∀ p c, up q = some p → up c = some p → attr c = false → c ≤ q
  interval : ∀ p c c' j, up c = some p → up c' = some p → attr c = false → attr c' = false →
    c < c' → Above up c j → j < size → j < c'

namespace Numbered

variable {up up' : Nat → Option Nat} {attr attr' : Nat → Bool} {kids kids' : Nat → List Nat}
variable {size parent x y : Nat} {path inner outer : List Nat}

section
variable (h : Numbered up attr kids size path)
include h

theorem grounded : Grounded up := by
  intro x
  induction x using Nat.strong_induction_on with
  | _ x ih =>
    cases hx : up x with
    | none => exact ⟨[x], rfl, hx⟩
    | some p =>
      obtain ⟨l, hl⟩ := ih p (h.up_lt x p hx).1
      exact ⟨x :: l, rfl, hx ▸ hl⟩

theorem le_of_above (hxy : Above up x y) : x ≤ y := by
  induction y using Nat.strong_induction_on with
  | _ y ih =>
    rcases hxy.up_or_eq with rfl | ⟨p, hp, habove⟩
    · exact le_rfl
    · have hlt := (h.up_lt y p hp).1
      exact (ih p hlt habove).trans hlt.le

theorem mem_kids {p c : Nat} : c ∈ kids p ↔ up c = some p ∧ attr c = false := by
  rw [h.kids_eq, mem_filter, mem_range, Bool.and_eq_true, decide_eq_true_eq, Bool.not_eq_true']
  exact and_iff_right_of_imp fun hc => (h.up_lt c p hc.1).2.1

theorem lt_of_above (hxy : Above up x y) (hx : x < size) : y < size := by
  rcases hxy.up_or_eq with rfl | ⟨p, hp, -⟩
  · exact hx
  · exact (h.up_lt y p hp).2.1

end

/-- A node goes under an open one, with the number that is next. -/
theorem append {mark : Bool} (h : Numbered up attr kids size (inner ++ parent :: outer))
    (hup : ∀ z, up' z = if z = size then some parent else up z)
    (hattr : ∀ z, attr' z = if z = size then mark else attr z)
    (hkids : ∀ p, kids' p = if p = parent ∧ mark = false then kids p ++ [size] else kids p) :
    Numbered up' attr' kids' (size + 1) (parent :: outer) ∧
      (mark = false → Numbered up' attr' kids' (size + 1) (size :: parent :: outer)) := by
  have hparent := h.path_lt parent (by simp)
  have hold : ∀ z, z < size → up' z = up z ∧ attr' z = attr z := fun z hz => by
    rw [hup, hattr, if_neg hz.ne, if_neg hz.ne]
    exact ⟨rfl, rfl⟩
  have hnew : up' size = some parent := by rw [hup, if_pos rfl]
  have hwalk : Follows up (some parent) (parent :: outer) := h.walk.of_append
  have hground := h.grounded
  -- Walks from the old nodes are as they were.
  have habove : ∀ x y, y < size → (Above up' x y ↔ Above up x y) := fun x y hy =>
    Above.iff_of_agree (fun z hz => by rw [hup, if_neg hz]) hground fun hsize =>
      absurd (h.le_of_above hsize) (by omega)
  have hwalk' : Follows up' (some parent) (parent :: outer) := by
    refine hwalk.congr fun z hz => ?_
    exact (hold z (h.path_lt z (mem_append_right _ hz)).1).1
  have hbelow : ∀ x, Above up' x size → x = size ∨ x ∈ parent :: outer := by
    intro x hx
    rcases hx.up_or_eq with rfl | ⟨p, hp, hxp⟩
    · exact .inl rfl
    · obtain rfl : parent = p := Option.mem_unique hnew hp
      obtain ⟨l, hl, hmem⟩ := hxp
      rw [← hwalk'.unique hl] at hmem
      exact .inr hmem
  have hlt : ∀ c p, up' c = some p → p < c ∧ c < size + 1 ∧ attr' p = false := by
    intro c p hc
    by_cases hcsize : c = size
    · rw [hcsize, hnew] at hc
      obtain rfl := Option.some.inj hc
      refine ⟨by omega, by omega, ?_⟩
      rw [(hold parent hparent.1).2]
      exact hparent.2
    · rw [hup, if_neg hcsize] at hc
      obtain ⟨hpc, hc', hp⟩ := h.up_lt c p hc
      exact ⟨hpc, by omega, by rw [(hold p (by omega)).2, hp]⟩
  have hpath : ∀ q ∈ parent :: outer, q < size + 1 ∧ attr' q = false := fun q hq => by
    obtain ⟨hqlt, hqattr⟩ := h.path_lt q (mem_append_right _ hq)
    exact ⟨by omega, by rw [(hold q hqlt).2, hqattr]⟩
  have hlatest : ∀ q ∈ parent :: outer, ∀ p c, up' q = some p → up' c = some p → attr' c = false →
      c ≤ q := by
    intro q hq p c hqp hcp hc
    have hqlt := (h.path_lt q (mem_append_right _ hq)).1
    rw [(hold q hqlt).1] at hqp
    by_cases hcsize : c = size
    · rw [hcsize, hnew] at hcp
      obtain rfl := Option.some.inj hcp
      exact absurd ⟨_, hwalk, hq⟩ (Above.not_above_of_up hqp)
    · rw [hup, if_neg hcsize] at hcp
      rw [hattr, if_neg hcsize] at hc
      exact h.latest q (mem_append_right _ hq) p c hqp hcp hc
  have hinterval : ∀ p c c' j, up' c = some p → up' c' = some p → attr' c = false →
      attr' c' = false → c < c' → Above up' c j → j < size + 1 → j < c' := by
    intro p c c' j hc hc' hca hca' hcc hcj hj
    have hsize := (hlt c' p hc').2.1
    have hcsize : c < size := by omega
    by_cases hjsize : j = size
    · rw [hjsize] at hcj
      rcases hbelow c hcj with rfl | hcpath
      · exact absurd hcsize (lt_irrefl _)
      · exact absurd (hlatest c hcpath p c' hc hc' hca') (by omega)
    · by_cases hc'size : c' = size
      · omega
      · rw [hup, if_neg (by omega)] at hc hc'
        rw [hattr, if_neg (by omega)] at hca hca'
        exact h.interval p c c' j hc hc' hca hca' hcc ((habove c j (by omega)).1 hcj) (by omega)
  have hkids' : ∀ p, kids' p = (range (size + 1)).filter fun c =>
      decide (up' c = some p) && !attr' c := by
    intro p
    have hrest : (range size).filter (fun c => decide (up' c = some p) && !attr' c) = kids p := by
      rw [h.kids_eq]
      refine filter_congr fun c hc => ?_
      obtain ⟨hupc, hattrc⟩ := hold c (mem_range.1 hc)
      rw [hupc, hattrc]
    rw [range_succ, filter_append, hrest, hkids, filter_singleton, hnew, hattr]
    by_cases hp : p = parent
    · subst hp
      cases mark <;> simp
    · simp [hp, Ne.symm hp]
  refine ⟨⟨hlt, hkids', hwalk', hpath, hlatest, hinterval⟩, fun hattribute =>
    ⟨hlt, hkids', ⟨rfl, by rw [hnew]; exact hwalk'⟩, ?_, ?_, hinterval⟩⟩
  · intro q hq
    rcases mem_cons.1 hq with rfl | hq
    · exact ⟨by omega, by rw [hattr, if_pos rfl, hattribute]⟩
    · exact hpath q hq
  · intro q hq p c hqp hcp hc
    rcases mem_cons.1 hq with rfl | hq
    · have hsize := (hlt c p hcp).2.1
      omega
    · exact hlatest q hq p c hqp hcp hc

end Numbered

/-! ## Appends -/

namespace SnapshotBuilder

variable (builder : SnapshotBuilder) (parent : Nat) (kind : SnapshotNodeKind)

/-- Every append: a new node, and a change of its parent that keeps the parent's own place. -/
theorem getElem?_push (f : SnapshotNodeData → SnapshotNodeData) (z : Nat) :
    ((builder.pushNode (some parent) kind).2.nodes.modify parent f)[z]? =
      if z = builder.nodes.length then
        some (if parent = z then f ⟨some parent, [], z, kind⟩ else ⟨some parent, [], z, kind⟩)
      else builder.nodes[z]?.map fun data => if parent = z then f data else data := by
  rw [getElem?_modify, pushNode, getElem?_concat]
  by_cases hz : z = builder.nodes.length
  · rw [if_pos hz, if_pos hz, hz]
    rfl
  · rw [if_neg hz, if_neg hz]
    rfl

theorem length_push (f : SnapshotNodeData → SnapshotNodeData) :
    ((builder.pushNode (some parent) kind).2.nodes.modify parent f).length =
      builder.nodes.length + 1 := by
  simp [pushNode]

end SnapshotBuilder

theorem parent_eq (s : Snapshot) (z : Nat) :
    s.parent z = (s.nodes[z]?.map (·.parent)).getD none := by
  unfold Snapshot.parent
  cases s.nodes[z]? <;> rfl

theorem isAttribute_eq (s : Snapshot) (z : Nat) :
    s.isAttribute z = (s.nodes[z]?.map (·.kind == .attributeNode)).getD false := by
  unfold isAttribute kind?
  cases s.nodes[z]? <;> rfl

/-- What is kept by every append. -/
structure Ordered (builder : SnapshotBuilder) (path : List Nat) : Prop where
  numbered : Numbered (builder.finish 0).parent (builder.finish 0).isAttribute
    (builder.finish 0).childNodes builder.nodes.length path
  order : ∀ z < builder.nodes.length, (builder.finish 0).order z = z

section Append

variable {builder : SnapshotBuilder} {inner outer : List Nat} {parent : Nat}
variable {kind : SnapshotNodeKind} {f : SnapshotNodeData → SnapshotNodeData}

theorem Ordered.append (h : Ordered builder (inner ++ parent :: outer))
    (hparent : ∀ data, (f data).parent = data.parent) (horder : ∀ data, (f data).order = data.order)
    (hkind : ∀ data, ((f data).kind == .attributeNode) = (data.kind == .attributeNode))
    (hchildren : ∀ data, (f data).children =
      if kind = .attributeNode then data.children else data.children ++ [builder.nodes.length]) :
    let after : SnapshotBuilder := ⟨(builder.pushNode (some parent) kind).2.nodes.modify parent f⟩
    Ordered after (parent :: outer) ∧
      (kind ≠ .attributeNode → Ordered after (builder.nodes.length :: parent :: outer)) := by
  intro after
  have hlt := (h.numbered.path_lt parent (by simp)).1
  have hget := builder.getElem?_push parent kind f
  have hlength : after.nodes.length = builder.nodes.length + 1 := builder.length_push parent kind f
  have hold : ∀ z, z ≠ builder.nodes.length → after.nodes[z]? = builder.nodes[z]?.map fun data =>
      if parent = z then f data else data := fun z hz => (hget z).trans (if_neg hz)
  have hnew : after.nodes[builder.nodes.length]? =
      some ⟨some parent, [], builder.nodes.length, kind⟩ := by
    refine (hget _).trans ?_
    rw [if_pos rfl, if_neg hlt.ne]
  have hkept : ∀ {γ : Type} (field : SnapshotNodeData → γ) (absent : γ),
      (∀ data, field (f data) = field data) → ∀ z, (after.nodes[z]?.map field).getD absent =
        if z = builder.nodes.length then field ⟨some parent, [], builder.nodes.length, kind⟩
        else (builder.nodes[z]?.map field).getD absent := by
    intro γ field absent hfield z
    split_ifs with hz
    · rw [hz, hnew]
      rfl
    · rw [hold z hz, Option.map_map]
      refine congrArg (fun g => (Option.map g _).getD absent) (funext fun data => ?_)
      split_ifs
      · exact hfield data
      · rfl
  have horder' : ∀ z < after.nodes.length, (after.finish 0).order z = z := fun z hz => by
    refine (hkept _ 0 horder z).trans ?_
    split_ifs with hsize
    · exact hsize.symm
    · exact h.order z (by omega)
  have hnumbered := @Numbered.append _ (after.finish 0).parent _ (after.finish 0).isAttribute _
    (after.finish 0).childNodes _ _ _ _ (kind == .attributeNode) h.numbered (fun z => ?_)
    (fun z => ?_)
    (fun z => ?_)
  · rw [← hlength] at hnumbered
    exact ⟨⟨hnumbered.1, horder'⟩, fun hkind' => ⟨hnumbered.2 (by simpa using hkind'), horder'⟩⟩
  · rw [parent_eq, parent_eq]
    exact hkept _ none hparent z
  · rw [isAttribute_eq, isAttribute_eq]
    exact hkept _ false hkind z
  · rw [childNodes, finish, childNodes, finish]
    by_cases hz : z = builder.nodes.length
    · rw [hz, hnew, if_neg fun hzp => hlt.ne hzp.1.symm, getElem?_eq_none le_rfl]
      rfl
    · rw [hold z hz]
      by_cases hzp : z = parent
      · subst hzp
        rw [getElem?_eq_getElem hlt, Option.map_some, if_pos rfl, Option.map_some, hchildren]
        by_cases hk : kind = .attributeNode <;> simp [hk]
      · rw [if_neg fun h => hzp h.1]
        cases builder.nodes[z]? with
        | none => rfl
        | some data => rw [Option.map_some, if_neg (Ne.symm hzp)]

theorem Ordered.appendChild (h : Ordered builder (inner ++ parent :: outer))
    (hkind : kind ≠ .attributeNode) :
    Ordered (builder.appendChild parent kind).2 (parent :: outer) ∧
      Ordered (builder.appendChild parent kind).2
        ((builder.appendChild parent kind).1 :: parent :: outer) := by
  obtain ⟨hshort, hlong⟩ := @Ordered.append builder inner outer parent kind
    (fun data => { data with children := data.children ++ [builder.nodes.length] }) h (fun _ => rfl)
    (fun _ => rfl) (fun _ => rfl) (fun _ => (if_neg hkind).symm)
  exact ⟨hshort, hlong hkind⟩

end Append

theorem Built.ordered {builder : SnapshotBuilder} {path : List Nat} (h : Built builder path) :
    Ordered builder path := by
  induction h with
  | document =>
    have hup : ∀ z, ((appendDocument .new).2.finish 0).parent z = none :=
      fun z => by cases z <;> rfl
    refine ⟨⟨fun c p hc => ?_, fun p => ?_, ⟨rfl, rfl⟩, fun q hq => ?_, fun q _ p c hq => ?_,
      fun p c c' j hc => ?_⟩, fun z hz => ?_⟩
    · rw [hup] at hc
      cases hc
    · rw [filter_eq_nil_iff.2 fun c _ => by rw [hup]; simp]
      cases p <;> rfl
    · rw [mem_singleton.1 hq]
      exact ⟨Nat.one_pos, rfl⟩
    · rw [hup] at hq
      cases hq
    · rw [hup] at hc
      cases hc
    · rw [Nat.lt_one_iff.1 hz]
      rfl
  | element h ih => exact (ih.appendChild (by simp)).2
  | text h ih | comment h ih => exact (ih.appendChild (by simp)).1
  | attributeNode h helement hfirst ih =>
    refine (@Ordered.append _ [] _ _ .attributeNode _ ih (fun data => ?_) (fun data => ?_)
      (fun data => ?_) fun data => ?_).1
    all_goals
      unfold addAttribute
      cases hkind : data.kind <;> simp [hkind]

/-! ## Walks -/

namespace Snapshot

section Walks

variable {s : Snapshot} {path : List Nat} {m n : Nat}
variable (h : Numbered s.parent s.isAttribute s.childNodes s.nodes.length path)
include h

theorem ancestorsFrom_follows {fuel : Nat} (hn : n < fuel) :
    Follows s.parent (some n) (s.ancestorsFrom fuel (some n)) := by
  induction fuel generalizing n with
  | zero => exact absurd hn (Nat.not_lt_zero n)
  | succ fuel ih =>
    refine ⟨rfl, ?_⟩
    cases hp : s.parent n with
    | none => cases fuel <;> rfl
    | some p =>
      have hlt := (h.up_lt n p hp).1
      exact ih (by omega)

theorem follows_descending {start : Option Nat} {l : List Nat} (hl : Follows s.parent start l) :
    l.Pairwise (· > ·) := by
  induction l generalizing start with
  | nil => exact .nil
  | cons a l ih =>
    refine pairwise_cons.2 ⟨fun x hx => ?_, ih hl.2⟩
    cases hp : s.parent a with
    | none =>
      have hnil := hl.2.start_eq
      rw [hp] at hnil
      rw [head?_eq_none_iff.1 hnil.symm] at hx
      cases hx
    | some p =>
      have hle := h.le_of_above (show Above s.parent x p from ⟨l, hp ▸ hl.2, hx⟩)
      have hlt := (h.up_lt a p hp).1
      omega

theorem climbsTo_iff {fuel : Nat} (hn : n < fuel) :
    s.climbsTo m fuel (some n) = true ↔ Above s.parent m n := by
  induction fuel generalizing n with
  | zero => exact absurd hn (Nat.not_lt_zero n)
  | succ fuel ih =>
    rw [climbsTo, above_iff_up h.grounded]
    split_ifs with hnm
    · exact iff_of_true rfl (.inl hnm.symm)
    · cases hp : s.parent n with
      | none => cases fuel <;> simp [climbsTo, Ne.symm hnm]
      | some p =>
        have hlt := (h.up_lt n p hp).1
        simpa [Ne.symm hnm] using ih (n := p) (by omega)

theorem isAncestorOf_iff (hn : n < s.nodes.length) :
    s.isAncestorOf m n = true ↔ Above s.parent m n ∧ m ≠ n := by
  rw [isAncestorOf, above_iff_up h.grounded]
  cases hp : s.parent n with
  | none => cases s.nodes.length <;> simp [climbsTo]
  | some p =>
    have hlt := (h.up_lt n p hp).1
    have hne : Above s.parent m p → m ≠ n := fun habove => by
      have hle := h.le_of_above habove
      omega
    rw [climbsTo_iff h (by omega)]
    simp only [Option.some.injEq, exists_eq_left', or_and_right, and_not_self_iff, false_or]
    exact (and_iff_left_of_imp hne).symm

/-- What lies below a node is visited in the order of the numbers. -/
theorem collectPreorder_spec {fuel : Nat} (hn : n < s.nodes.length)
    (hfuel : s.nodes.length - n ≤ fuel) : (s.collectPreorder fuel n).Pairwise (· < ·) ∧
      ∀ j, j ∈ s.collectPreorder fuel n ↔ Above s.parent n j ∧
        (s.isAttribute j = false ∨ j = n) := by
  induction fuel generalizing n with
  | zero => omega
  | succ fuel ih =>
    have hkid : ∀ c ∈ s.childNodes n, n < c ∧ c < s.nodes.length ∧ s.parent c = some n ∧
        s.isAttribute c = false := fun c hc => by
      obtain ⟨hup, hattr⟩ := h.mem_kids.1 hc
      obtain ⟨hlt, hc', -⟩ := h.up_lt c n hup
      exact ⟨hlt, hc', hup, hattr⟩
    have hrec := fun c hc => ih (hkid c hc).2.1 (by have := (hkid c hc).1; omega)
    have hmem : ∀ j, j ∈ (s.childNodes n).flatMap (s.collectPreorder fuel) ↔
        ∃ c ∈ s.childNodes n, Above s.parent c j ∧ s.isAttribute j = false := fun j => by
      rw [mem_flatMap]
      refine exists_congr fun c => and_congr_right fun hc => ((hrec c hc).2 j).trans ?_
      refine and_congr_right fun _ => or_iff_left_of_imp fun hj => ?_
      rw [hj, (hkid c hc).2.2.2]
    rw [collectPreorder]
    refine ⟨pairwise_cons.2 ⟨fun j hj => ?_, pairwise_flatMap.2 ⟨fun c hc => (hrec c hc).1, ?_⟩⟩,
      fun j => ?_⟩
    · obtain ⟨c, hc, habove, -⟩ := (hmem j).1 hj
      have hle := h.le_of_above habove
      have hlt := (hkid c hc).1
      omega
    · have hsorted : (s.childNodes n).Pairwise (· < ·) := by
        rw [h.kids_eq]
        exact pairwise_lt_range.filter _
      refine hsorted.imp_of_mem fun {c c'} hc hc' hcc j hj k hk => ?_
      have habove := ((hrec c hc).2 j).1 hj
      have hlt := h.interval n c c' j (hkid c hc).2.2.1 (hkid c' hc').2.2.1 (hkid c hc).2.2.2
        (hkid c' hc').2.2.2 hcc habove.1 (h.lt_of_above habove.1 (hkid c hc).2.1)
      exact hlt.trans_le (h.le_of_above (((hrec c' hc').2 k).1 hk).1)
    · rw [mem_cons, hmem]
      constructor
      · intro hj
        rcases hj with rfl | ⟨c, hc, habove, hj⟩
        · exact ⟨.refl h.grounded _, .inr rfl⟩
        · exact ⟨habove.step (hkid c hc).2.2.1, .inl hj⟩
      · intro hj
        rcases hj.1.child_or_eq with rfl | ⟨c, hc, habove⟩
        · exact .inl rfl
        · have hlt := (h.up_lt c n hc).1
          have hle := h.le_of_above habove
          have hattr := hj.2.resolve_right (by omega)
          refine .inr ⟨c, h.mem_kids.2 ⟨hc, ?_⟩, habove, hattr⟩
          rcases habove.child_or_eq with rfl | ⟨c', hc', -⟩
          · exact hattr
          · exact (h.up_lt c' c hc').2.2

end Walks

/-! ## Axes -/

def mainAxes : List Axis := [.ancestor, .descendant, .following, .preceding, .self]

/-- The nodes a step along an axis finds. -/
abbrev along (s : Snapshot) (n : Nat) (axis : Axis) : List Nat := s.evaluateStep n axis .node

/-- What the axes of a node promise. -/
structure AxesPartition (s : Snapshot) (n : Nat) : Prop where
  disjoint : mainAxes.Pairwise fun a b => (s.along n a).Disjoint (s.along n b)
  nodup : ∀ axis ∈ mainAxes, (s.along n axis).Nodup
  sorted : ∀ axis ∈ mainAxes, (s.along n axis).Pairwise fun a b => s.order a < s.order b
  cover : ∀ m, (∃ axis ∈ mainAxes, m ∈ s.along n axis) ↔
    m < s.nodes.length ∧ (s.isAttribute m = false ∨ m = n)
  following : ∀ m, m ∈ s.along n .following ↔
    m < s.nodes.length ∧ s.isAttribute m = false ∧ s.order n < s.order m ∧ ¬ Above s.parent n m ∧
      ¬ Above s.parent m n
  preceding : ∀ m, m ∈ s.along n .preceding ↔
    m < s.nodes.length ∧ s.isAttribute m = false ∧ s.order m < s.order n ∧ ¬ Above s.parent n m ∧
      ¬ Above s.parent m n
  siblings : s.isAttribute n = true → s.along n .followingSibling = [] ∧
    s.along n .precedingSibling = []

/-- After a node in document order and not below it. -/
def Later (s : Snapshot) (n m : Nat) : Prop :=
  m < s.nodes.length ∧ n < m ∧ ¬ Above s.parent n m

/-- Before a node in document order and not above it. -/
def Earlier (s : Snapshot) (n m : Nat) : Prop := m < n ∧ ¬ Above s.parent m n

theorem along_eq (s : Snapshot) (n : Nat) (axis : Axis) :
    s.along n axis = if axis.inTreeOrder then s.axisNodes n axis
      else (s.axisNodes n axis).reverse := by
  have hall : (s.axisNodes n axis).filter (s.applyNodeTest .node) = s.axisNodes n axis :=
    filter_eq_self.2 fun _ _ => rfl
  rw [along, evaluateStep, hall]

section Axes

variable {s : Snapshot} {path : List Nat} {m n : Nat}
variable (h : Numbered s.parent s.isAttribute s.childNodes s.nodes.length path)
variable (horder : ∀ z < s.nodes.length, s.order z = z) (hn : n < s.nodes.length)
include h hn

theorem mem_ancestor : m ∈ s.along n .ancestor ↔ Above s.parent m n ∧ m ≠ n := by
  have hwalk := ancestorsFrom_follows h hn
  rw [along_eq]
  show m ∈ ((s.ancestorsFrom s.nodes.length (some n)).drop 1).reverse ↔ _
  rw [mem_reverse]
  generalize s.ancestorsFrom s.nodes.length (some n) = l at hwalk
  cases l with
  | nil => cases hwalk
  | cons a l =>
    obtain rfl : n = a := Option.some.inj hwalk.1
    have hdescending := pairwise_cons.1 (follows_descending h hwalk)
    constructor
    · intro hm
      exact ⟨⟨_, hwalk, mem_cons_of_mem _ hm⟩, (hdescending.1 m hm).ne⟩
    · intro hm
      obtain ⟨l', hl', hmem⟩ := hm.1
      rw [← hwalk.unique hl'] at hmem
      exact (mem_cons.1 hmem).resolve_left hm.2

theorem sorted_ancestor : (s.along n .ancestor).Pairwise (· < ·) := by
  have hwalk := follows_descending h (ancestorsFrom_follows h hn)
  rw [along_eq]
  exact pairwise_reverse.2 (hwalk.sublist (drop_sublist 1 _))

theorem descendant_spec : (s.along n .descendant).Pairwise (· < ·) ∧
    ∀ m, m ∈ s.along n .descendant ↔ Above s.parent n m ∧ m ≠ n ∧ s.isAttribute m = false := by
  obtain ⟨hsorted, hmem⟩ := collectPreorder_spec h hn (Nat.sub_le s.nodes.length n)
  rw [along_eq]
  show ((s.collectPreorder s.nodes.length n).drop 1).Pairwise _ ∧
    ∀ m, m ∈ (s.collectPreorder s.nodes.length n).drop 1 ↔ _
  cases hlength : s.nodes.length with
  | zero => omega
  | succ fuel =>
    rw [hlength] at hsorted hmem
    obtain ⟨hfirst, hrest⟩ := pairwise_cons.1 hsorted
    refine ⟨hrest, fun m => ?_⟩
    constructor
    · intro hm
      have hne : m ≠ n := (hfirst m hm).ne'
      obtain ⟨habove, hattr⟩ := (hmem m).1 (mem_cons_of_mem _ hm)
      exact ⟨habove, hne, hattr.resolve_right hne⟩
    · intro hm
      exact (mem_cons.1 ((hmem m).2 ⟨hm.1, .inl hm.2.2⟩)).resolve_left hm.2.1

include horder

omit horder hn in
theorem isAncestorOf_eq_false (hm : m < s.nodes.length) :
    s.isAncestorOf n m = false ↔ (Above s.parent n m → n = m) := by
  rw [← Bool.not_eq_true, isAncestorOf_iff h hm, not_and, not_ne_iff]

theorem mem_followingNodes :
    m ∈ s.followingNodes n ↔ s.isAttribute m = false ∧ (m = n ∨ s.Later n m) := by
  rw [followingNodes, mem_filter, allNodesInOrder, mem_range]
  by_cases hm : m < s.nodes.length
  · rw [horder m hm, horder n hn]
    simp only [Bool.and_eq_true, Bool.not_eq_true', decide_eq_true_eq,
      isAncestorOf_eq_false h hm, Later]
    grind
  · grind [Later]

theorem mem_precedingNodes :
    m ∈ s.precedingNodes n ↔ s.isAttribute m = false ∧ (m = n ∨ s.Earlier n m) := by
  rw [precedingNodes, mem_reverse, mem_filter, allNodesInOrder, mem_range]
  by_cases hm : m < s.nodes.length
  · rw [horder m hm, horder n hn]
    simp only [Bool.and_eq_true, Bool.not_eq_true', decide_eq_true_eq,
      isAncestorOf_eq_false h hn, Earlier]
    grind
  · grind [Earlier]

omit horder hn h in
theorem sorted_followingNodes : (s.followingNodes n).Pairwise (· < ·) := pairwise_lt_range.filter _

omit horder hn h in
theorem sorted_precedingNodes : (s.precedingNodes n).Pairwise (· > ·) :=
  pairwise_reverse.2 (pairwise_lt_range.filter _)

/-- An attribute has no other nodes around it than those above it. -/
def Alone (s : Snapshot) (n : Nat) : Prop :=
  (∀ m, n < m → m < s.nodes.length → s.isAttribute m = true) ∧
    ∀ m, m < n → s.isAttribute m = true ∨ Above s.parent m n

omit h horder hn in
theorem along_following : s.along n .following = (s.followingNodes n).tail := by
  rw [along_eq]
  exact drop_one

omit h horder hn in
theorem along_preceding : s.along n .preceding = (s.precedingNodes n).tail.reverse := by
  rw [along_eq, ← drop_one]
  rfl

include h horder hn

theorem following_iff : (∀ m, m ∈ s.along n .following ↔ s.isAttribute m = false ∧ s.Later n m) ↔
    (s.isAttribute n = false ∨ ∀ m, s.isAttribute m = false → ¬ s.Later n m) := by
  rw [along_following]
  exact tail_scan_iff sorted_followingNodes (fun a => lt_irrefl a)
    (fun m => mem_followingNodes h horder hn) (fun m hm => not_lt.2 hm.2.1.le) fun hm =>
      lt_irrefl n hm.2.1

theorem preceding_iff : (∀ m, m ∈ s.along n .preceding ↔ s.isAttribute m = false ∧ s.Earlier n m) ↔
    (s.isAttribute n = false ∨ ∀ m, s.isAttribute m = false → ¬ s.Earlier n m) := by
  simp only [along_preceding, mem_reverse]
  exact tail_scan_iff sorted_precedingNodes (fun a => lt_irrefl a)
    (fun m => mem_precedingNodes h horder hn) (fun m hm => not_lt.2 hm.1.le) fun hm =>
      lt_irrefl n hm.1

theorem later_iff : m < s.nodes.length ∧ s.isAttribute m = false ∧ s.order n < s.order m ∧
    ¬ Above s.parent n m ∧ ¬ Above s.parent m n ↔ s.isAttribute m = false ∧ s.Later n m := by
  have hle : Above s.parent m n → m ≤ n := h.le_of_above
  have := horder m
  have := horder n hn
  grind [Later]

theorem earlier_iff : m < s.nodes.length ∧ s.isAttribute m = false ∧ s.order m < s.order n ∧
    ¬ Above s.parent n m ∧ ¬ Above s.parent m n ↔ s.isAttribute m = false ∧ s.Earlier n m := by
  have hle : Above s.parent n m → n ≤ m := h.le_of_above
  have := horder m
  have := horder n hn
  grind [Earlier]

omit horder hn in
/-- Nothing is below an attribute. -/
theorem alone_iff (hattr : s.isAttribute n = true) : s.Alone n ↔
    (∀ m, s.isAttribute m = false → ¬ s.Later n m) ∧
      ∀ m, s.isAttribute m = false → ¬ s.Earlier n m := by
  have hbelow : ∀ m, n < m → ¬ Above s.parent n m := by
    intro m hlt hnm
    rcases hnm.child_or_eq with heq | ⟨c, hc, -⟩
    · exact hlt.ne heq
    · rw [(h.up_lt c n hc).2.2] at hattr
      cases hattr
  refine and_congr (forall_congr' fun m => ?_) (forall_congr' fun m => ?_)
  · have := hbelow m
    grind [Later]
  · grind [Earlier]

omit horder hn in
theorem along_siblings (hattr : s.isAttribute n = true) (halone : s.Alone n) :
    s.along n .followingSibling = [] ∧ s.along n .precedingSibling = [] := by
  rw [along_eq, along_eq]
  show s.followingSiblings n = [] ∧ (s.precedingSiblings n).reverse = []
  rw [followingSiblings, precedingSiblings]
  cases hp : s.parent n with
  | none => exact ⟨rfl, rfl⟩
  | some p =>
    have hnone : s.childNodes p = [] := by
      refine eq_nil_iff_forall_not_mem.2 fun c hc => ?_
      obtain ⟨hup, hc'⟩ := h.mem_kids.1 hc
      obtain ⟨-, hsize, -⟩ := h.up_lt c p hup
      rcases Nat.lt_trichotomy c n with hlt | heq | hgt
      · rcases halone.2 c hlt with hattr' | habove
        · rw [hc'] at hattr'
          cases hattr'
        · exact hlt.ne (habove.sibling_eq (.refl h.grounded n) (hup.trans hp.symm))
      · rw [heq, hattr] at hc'
        cases hc'
      · rw [halone.1 c hgt hsize] at hc'
        cases hc'
    dsimp only
    rw [hnone]
    exact ⟨rfl, rfl⟩

theorem axesPartition (halone : s.isAttribute n = true → s.Alone n) : s.AxesPartition n := by
  obtain ⟨hdsorted, hdescendant⟩ := descendant_spec h hn
  have hancestor := fun m => @mem_ancestor s path m n h hn
  obtain ⟨hfollowing, hpreceding⟩ : (∀ m, m ∈ s.along n .following ↔ _) ∧
      ∀ m, m ∈ s.along n .preceding ↔ _ := by
    rw [following_iff h horder hn, preceding_iff h horder hn, ← or_and_left, ← Bool.not_eq_true,
      ← imp_iff_not_or]
    exact fun hattr => (alone_iff h hattr).1 (halone hattr)
  have hself : ∀ m, m ∈ s.along n .self ↔ m = n := fun m => by rw [along_eq]; exact mem_singleton
  have hle := fun {x y : Nat} (hxy : Above s.parent x y) => h.le_of_above hxy
  have hsorted : ∀ axis ∈ mainAxes, (s.along n axis).Pairwise (· < ·) := by
    intro axis haxis
    simp only [mainAxes, mem_cons, not_mem_nil, or_false] at haxis
    rcases haxis with rfl | rfl | rfl | rfl | rfl
    · exact sorted_ancestor h hn
    · exact hdsorted
    · rw [along_following]
      exact sorted_followingNodes.sublist (tail_sublist _)
    · rw [along_preceding]
      exact pairwise_reverse.2 (sorted_precedingNodes.sublist (tail_sublist _))
    · rw [along_eq]
      exact pairwise_singleton _ _
  have hcover : ∀ m, (∃ axis ∈ mainAxes, m ∈ s.along n axis) ↔
      m < s.nodes.length ∧ (s.isAttribute m = false ∨ m = n) := by
    intro m
    simp only [mainAxes, mem_cons, not_mem_nil, or_false, exists_eq_or_imp, exists_eq_left]
    rw [hancestor, hdescendant, hfollowing, hpreceding, hself]
    constructor
    · rintro (hm | hm | hm | hm | hm)
      · refine ⟨(hle hm.1).trans_lt hn, .inl ?_⟩
        rcases hm.1.child_or_eq with heq | ⟨c, hc, -⟩
        · exact absurd heq hm.2
        · exact (h.up_lt c m hc).2.2
      · exact ⟨h.lt_of_above hm.1 hn, .inl hm.2.2⟩
      · exact ⟨hm.2.1, .inl hm.1⟩
      · exact ⟨hm.2.1.trans hn, .inl hm.1⟩
      · exact ⟨hm ▸ hn, .inr hm⟩
    · rintro ⟨hlt, hm⟩
      by_cases heq : m = n
      · exact .inr (.inr (.inr (.inr heq)))
      have hattr := hm.resolve_right heq
      by_cases hmn : Above s.parent m n
      · exact .inl ⟨hmn, heq⟩
      by_cases hnm : Above s.parent n m
      · exact .inr (.inl ⟨hnm, heq, hattr⟩)
      rcases Nat.lt_or_gt_of_ne heq with hless | hmore
      · exact .inr (.inr (.inr (.inl ⟨hattr, hless, hmn⟩)))
      · exact .inr (.inr (.inl ⟨hattr, hlt, hmore, hnm⟩))
  refine ⟨?_, fun axis haxis => ?_, fun axis haxis => ?_, hcover, fun m => ?_, fun m => ?_,
    fun hattr => ?_⟩
  · -- Above is before, below is after, and neither is both.
    simp only [mainAxes, pairwise_cons, mem_cons, not_mem_nil, or_false, forall_eq_or_imp,
      forall_eq, List.Disjoint, hancestor, hdescendant, hfollowing, hpreceding, hself]
    refine ⟨⟨?_, ?_, ?_, ?_⟩, ⟨?_, ?_, ?_⟩, ⟨?_, ?_⟩, ?_, ?_⟩
    · intro m hm hm'
      exact hm.2 (le_antisymm (hle hm.1) (hle hm'.1))
    · intro m hm hm'
      exact absurd (hle hm.1) (not_le.2 hm'.2.2.1)
    · intro m hm hm'
      exact hm'.2.2 hm.1
    · intro m hm hm'
      exact hm.2 hm'
    · intro m hm hm'
      exact hm'.2.2.2 hm.1
    · intro m hm hm'
      exact absurd (hle hm.1) (not_le.2 hm'.2.1)
    · intro m hm hm'
      exact hm.2.1 hm'
    · intro m hm hm'
      exact absurd hm.2.2.1 (not_lt.2 hm'.2.1.le)
    · intro m hm hm'
      exact hm.2.2.1.ne' hm'
    · intro m hm hm'
      exact hm.2.1.ne hm'
    · exact ⟨fun _ hx => absurd hx (by simp), .nil⟩
  · exact (hsorted axis haxis).imp fun hlt => hlt.ne
  · refine (hsorted axis haxis).imp_of_mem fun {a b} ha hb hlt => ?_
    rwa [horder a ((hcover a).1 ⟨axis, haxis, ha⟩).1, horder b ((hcover b).1 ⟨axis, haxis, hb⟩).1]
  · rw [hfollowing, later_iff h horder hn]
  · rw [hpreceding, earlier_iff h horder hn]
  · exact along_siblings h hattr (halone hattr)

/-- A scan that does not start at the node itself loses its first node. -/
theorem alone_of_axesPartition (hp : s.AxesPartition n) (hattr : s.isAttribute n = true) :
    s.Alone n := by
  have hattr' : s.isAttribute n ≠ false := by simp [hattr]
  have hlater := (following_iff h horder hn).1 fun m =>
    (hp.following m).trans (later_iff h horder hn)
  have hearlier := (preceding_iff h horder hn).1 fun m =>
    (hp.preceding m).trans (earlier_iff h horder hn)
  exact (alone_iff h hattr).2 ⟨hlater.resolve_left hattr', hearlier.resolve_left hattr'⟩

end Axes

end Snapshot

/-- The axes of a node partition the document exactly when the node is no attribute, or has no nodes
around it but those above it. -/
theorem axes_partition_iff {builder : SnapshotBuilder} {path : List Nat} (h : Built builder path)
    {n : Nat} (hn : n < builder.nodes.length) :
    (builder.finish 0).AxesPartition n ↔
      ((builder.finish 0).isAttribute n = true → (builder.finish 0).Alone n) :=
  ⟨fun hp => alone_of_axesPartition h.ordered.numbered h.ordered.order hn hp,
    axesPartition h.ordered.numbered h.ordered.order hn⟩

/-! ## An attribute and a text -/

namespace Sample

/-- A document with one element, its attribute and its text. -/
def builder : SnapshotBuilder := (((((appendDocument .new).2.appendElement 0).2
  ).appendAttribute 1).2.appendText 1).2

theorem built : Built builder [1, 0] :=
  @Built.text _ [] _ _ (.attributeNode (@Built.element _ [] _ _ .document) rfl rfl)

end Sample

/-- The axes of the element. -/
theorem axes_partition_element : (Sample.builder.finish 0).AxesPartition 1 :=
  (axes_partition_iff Sample.built (by decide)).2 fun hattr => absurd hattr (by decide)

/-- No axis of the attribute has the text, and its preceding sibling is the text. -/
theorem axes_of_attribute :
    Built Sample.builder [1, 0] ∧ ¬ (Sample.builder.finish 0).AxesPartition 2 ∧
    (Sample.builder.finish 0).along 2 .following = [] ∧
    (Sample.builder.finish 0).along 2 .precedingSibling = [3] := by
  refine ⟨Sample.built, fun hp => ?_, by decide, by decide⟩
  have hsiblings := hp.siblings (by decide)
  exact absurd hsiblings.2 (by decide)

end Moli.XPath

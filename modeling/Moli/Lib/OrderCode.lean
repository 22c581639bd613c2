import Mathlib.Data.List.Basic
import Mathlib.Order.Basic

/-!
# Order-preserving prefix codes over bytes

A byte encoding `enc` *carries* a comparison `cmp` at two values (`CarriesAt cmp enc a b`) when
comparing their encodings, each followed by arbitrary further bytes, gives `cmp a b` first and the
further bytes second. The trailing bytes make the notion compose: a code that carries a comparison
is prefix free on its classes, it can be put behind a common tag (`CarriesAt.cons`) and iterated up
to a terminator that sorts below every element (`carriesAt_terminated`). With nothing behind it
such a code is an order embedding (`CarriesAt.cmp_eq`).
-/

namespace Lib.OrderCode

/-! ## Byte strings in lexicographic order -/

/-- Byte strings in unsigned lexicographic order, a proper prefix first. -/
def lexCmp (x y : List UInt8) : Ordering := List.compareLex compare x y

@[simp] theorem lexCmp_cons_cons (a b : UInt8) (x y : List UInt8) :
    lexCmp (a :: x) (b :: y) = (compare a b).then (lexCmp x y) :=
  List.compareLex_cons_cons

theorem lexCmp_swap (x y : List UInt8) : lexCmp x y = (lexCmp y x).swap := by
  unfold lexCmp
  exact Std.OrientedCmp.eq_swap

theorem lexCmp_eq_iff {x y : List UInt8} : lexCmp x y = .eq ↔ x = y := by
  unfold lexCmp
  exact Std.LawfulEqCmp.compare_eq_iff_eq

theorem lexCmp_lt_iff {x y : List UInt8} : lexCmp x y = .lt ↔ x < y := by
  induction x generalizing y with
  | nil => cases y <;> simp [lexCmp, List.compareLex]
  | cons a x ih =>
    cases y with
    | nil => simp [lexCmp, List.compareLex]
    | cons b y =>
      rw [lexCmp_cons_cons, Ordering.then_eq_lt, ih, List.cons_lt_cons_iff, Std.compare_eq_lt,
        Std.LawfulEqCmp.compare_eq_iff_eq]

/-- Equal leading bytes leave the comparison to the rest. -/
theorem lexCmp_cons_self (a : UInt8) (x y : List UInt8) :
    lexCmp (a :: x) (a :: y) = lexCmp x y := by
  simp

/-- A common prefix leaves the comparison to the rest. -/
theorem lexCmp_append_left (p x y : List UInt8) : lexCmp (p ++ x) (p ++ y) = lexCmp x y := by
  induction p with
  | nil => rfl
  | cons a p ih => rw [List.cons_append, List.cons_append, lexCmp_cons_self, ih]

/-- Different leading bytes decide the comparison. -/
theorem lexCmp_cons_of_ne {a b : UInt8} (h : a ≠ b) (x y : List UInt8) :
    lexCmp (a :: x) (b :: y) = compare a b := by
  rw [lexCmp_cons_cons]
  cases hc : compare a b with
  | lt => rfl
  | gt => rfl
  | eq => exact absurd (Std.LawfulEqCmp.eq_of_compare hc) h

/-! ## Codes that carry a comparison -/

/-- `enc` turns `cmp a b` into the order of byte strings, whatever follows the encodings. -/
def CarriesAt {α : Type*} (cmp : α → α → Ordering) (enc : α → List UInt8) (a b : α) : Prop :=
  ∀ s t, lexCmp (enc a ++ s) (enc b ++ t) = (cmp a b).then (lexCmp s t)

section
variable {α : Type*} {cmp : α → α → Ordering} {enc : α → List UInt8}

/-- With nothing behind them, encodings compare as the encoded values. -/
theorem CarriesAt.cmp_eq {a b : α} (h : CarriesAt cmp enc a b) :
    lexCmp (enc a) (enc b) = cmp a b := by
  have hst := h [] []
  rwa [List.append_nil, List.append_nil, show lexCmp [] [] = .eq from rfl, Ordering.then_eq] at hst

/-- The elements one after the other, then a terminator. -/
def terminated (enc : α → List UInt8) (term : List UInt8) (xs : List α) : List UInt8 :=
  xs.flatMap enc ++ term

@[simp] theorem terminated_nil (term : List UInt8) : terminated enc term [] = term := rfl

theorem terminated_cons (term : List UInt8) (x : α) (xs : List α) :
    terminated enc term (x :: xs) = enc x ++ terminated enc term xs := by
  simp [terminated]

/-- A list code carries the lexicographic comparison if its elements carry theirs and its
terminator sorts below every element. -/
theorem carriesAt_terminated {term : List UInt8}
    (hterm : ∀ a s t, lexCmp (term ++ s) (enc a ++ t) = .lt) :
    ∀ (xs ys : List α), (∀ a ∈ xs, ∀ b ∈ ys, CarriesAt cmp enc a b) →
      CarriesAt (List.compareLex cmp) (terminated enc term) xs ys
  | [], [], _ => by
    intro s t
    rw [lexCmp_append_left]
    rfl
  | [], y :: ys, _ => by
    intro s t
    rw [terminated_cons, List.append_assoc, terminated_nil, hterm y s _]
    rfl
  | x :: xs, [], _ => by
    intro s t
    rw [terminated_cons, List.append_assoc, lexCmp_swap, terminated_nil, hterm x t _]
    rfl
  | x :: xs, y :: ys, h => by
    intro s t
    have hxy := h x (by simp) y (by simp)
    have ih := carriesAt_terminated hterm xs ys
      (fun a ha b hb => h a (List.mem_cons_of_mem _ ha) b (List.mem_cons_of_mem _ hb))
    rw [terminated_cons, terminated_cons, List.append_assoc, List.append_assoc, hxy, ih s t,
      List.compareLex_cons_cons, Ordering.then_assoc]

end

end Lib.OrderCode

import Mathlib.Data.List.Forall2
import Mathlib.Data.Option.Basic

/-!
# Fallible computations with tolerated errors

`Ensures tolerated m post` is the specification of an `Except` computation: it returns a value that
satisfies `post`, or fails with an error that `tolerated` allows.
-/

namespace Lib

universe u

variable {ε : Type*} {α β : Type u} {tolerated : ε → Prop} {m : Except ε α} {f : α → Except ε β}
variable {post post' : α → Prop} {a : α}

theorem bind_eq_ok {b : β} : (m >>= f) = .ok b ↔ ∃ a, m = .ok a ∧ f a = .ok b := by
  cases m <;> simp [bind, Except.bind]

theorem map_eq_ok {g : α → β} {b : β} : m.map g = .ok b ↔ ∃ a, m = .ok a ∧ g a = b := by
  cases m <;> simp [Except.map]

theorem mapError_eq_ok {ε' : Type*} {g : ε → ε'} : m.mapError g = .ok a ↔ m = .ok a := by
  cases m <;> simp [Except.mapError]

def Ensures (tolerated : ε → Prop) (m : Except ε α) (post : α → Prop) : Prop :=
  match m with
  | .ok a => post a
  | .error e => tolerated e

namespace Ensures

@[simp] theorem pure_iff : Ensures tolerated (pure a) post ↔ post a := Iff.rfl

theorem of_ok (h : Ensures tolerated m post) (hm : m = .ok a) : post a := by
  subst hm
  exact h

/-- Where no error is tolerated, there is a value. -/
theorem exists_ok (h : Ensures (fun _ => False) m post) : ∃ a, m = .ok a ∧ post a := by
  cases m with
  | ok a => exact ⟨a, rfl, h⟩
  | error e => exact h.elim

theorem mono (h : Ensures tolerated m post) (himp : ∀ a, post a → post' a) :
    Ensures tolerated m post' := by
  cases m with
  | ok a => exact himp a h
  | error e => exact h

/-- More errors are tolerated. -/
theorem weaken {tolerated' : ε → Prop} (h : Ensures tolerated m post)
    (himp : ∀ e, tolerated e → tolerated' e) : Ensures tolerated' m post := by
  cases m with
  | ok a => exact h
  | error e => exact himp e h

/-- A second specification that holds under a precondition. -/
theorem and_imp {pre : Prop} (h : Ensures tolerated m post) (h' : pre → Ensures tolerated m post') :
    Ensures tolerated m fun a => post a ∧ (pre → post' a) := by
  cases m with
  | ok a => exact ⟨h, h'⟩
  | error e => exact h

theorem bind {post : α → Prop} {post' : β → Prop} (h : Ensures tolerated m post)
    (hf : ∀ a, post a → Ensures tolerated (f a) post') : Ensures tolerated (m >>= f) post' := by
  cases m with
  | ok a => exact hf a h
  | error e => exact h

/-- A first step with a known value. -/
theorem bind_eq {post : β → Prop} (h : Ensures tolerated m fun b => b = a)
    (hf : Ensures tolerated (f a) post) : Ensures tolerated (m >>= f) post :=
  h.bind fun _ hb => hb ▸ hf

/-- A test of every element of a list. -/
theorem allM {ι : Type*} {l : List ι} {test : ι → Except ε Bool} {P : ι → Prop}
    (h : ∀ x ∈ l, Ensures tolerated (test x) fun passed => passed = true → P x) :
    Ensures tolerated (l.allM test) fun passed => passed = true → ∀ x ∈ l, P x := by
  induction l with
  | nil => simp [List.allM]
  | cons a l ih =>
    refine (h a (by simp)).bind fun passed hpassed => ?_
    cases passed with
    | false => simp
    | true => exact (ih fun x hx => h x (by simp [hx])).mono fun rest hrest hall =>
        List.forall_mem_cons.2 ⟨hpassed rfl, hrest hall⟩

theorem mapM {ι : Type*} {l : List ι} {f : ι → Except ε α} {post : ι → α → Prop}
    (h : ∀ x ∈ l, Ensures tolerated (f x) (post x)) :
    Ensures tolerated (l.mapM f) (List.Forall₂ post l) := by
  induction l with
  | nil => exact .nil
  | cons x l ih =>
    rw [List.mapM_cons]
    refine (h x (by simp)).bind fun a ha => ?_
    exact (ih fun y hy => h y (by simp [hy])).bind fun as has => .cons ha has

end Ensures

theorem mapM_eq_ok {ι : Type*} {l : List ι} {f : ι → Except ε α} {as : List α}
    (h : l.mapM f = .ok as) : List.Forall₂ (fun x a => f x = .ok a) l as := by
  refine (Ensures.mapM fun x _ => ?_ : Ensures (fun _ => True) (l.mapM f) _).of_ok h
  cases f x with
  | ok a => exact rfl
  | error e => trivial

theorem mapM_concat_eq_ok {ι : Type*} {l : List ι} {x : ι} {f : ι → Except ε α} {as : List α}
    (h : (l ++ [x]).mapM f = .ok as) : ∃ a, f x = .ok a ∧ as.getLast? = some a := by
  have hreverse := List.rel_reverse (mapM_eq_ok h)
  rw [List.reverse_append, List.reverse_singleton, List.singleton_append] at hreverse
  obtain ⟨a, rest, ha, -, has⟩ := List.forall₂_cons_left_iff.1 hreverse
  exact ⟨a, ha, by rw [← List.head?_reverse, has, List.head?_cons]⟩

end Lib

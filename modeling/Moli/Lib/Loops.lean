import Mathlib.Algebra.Order.Ring.Int
import Moli.Lib.Ensures
import Moli.Lib.Forest

/-!
# Loops

`drain` pops a stack until it is empty; every visit pushes what has to be visited next.
`drain_weight` bounds the loop by a weight that every visit takes off the stack, and carries an
invariant to its end.

`evictUntil enough evict` takes things out of a state until there is enough room, and fails when
nothing more can be taken. `evictUntil_kept` carries what an eviction keeps to the end of the loop.
Where evictions take the first of a queue and as many of them are needed as the state says,
`evictUntil_eq` gives the whole loop.
-/

namespace Lib

/-! ## Stacks -/

section

universe u

variable {ε : Type*} {σ α : Type u}

/-- The stack is a list with its top first. -/
def drain (visit : σ → α → Except ε (List α × σ)) (exhausted : ε) :
    Nat → σ → List α → Except ε σ
  | _, state, [] => .ok state
  | 0, _, _ :: _ => .error exhausted
  | fuel + 1, state, entry :: stack => do
    let (pushed, state) ← visit state entry
    drain visit exhausted fuel state (pushed ++ stack)

theorem drain_weight {tolerated : ε → Prop} {visit : σ → α → Except ε (List α × σ)} {exhausted : ε}
    {weight : α → Nat} (hpos : ∀ entry, 0 < weight entry) (inv : σ → List α → Prop)
    (hvisit : ∀ state entry stack, inv state (entry :: stack) →
      Ensures tolerated (visit state entry) fun (pushed, state') =>
        (pushed.map weight).sum < weight entry ∧ inv state' (pushed ++ stack))
    {fuel : Nat} {state : σ} {stack : List α} (hfuel : (stack.map weight).sum ≤ fuel)
    (hinv : inv state stack) :
    Ensures tolerated (drain visit exhausted fuel state stack) fun state' => inv state' [] := by
  induction fuel generalizing state stack with
  | zero =>
    cases stack with
    | nil => exact hinv
    | cons entry stack =>
      have hentry := hpos entry
      rw [List.map_cons, List.sum_cons] at hfuel
      omega
  | succ fuel ih =>
    cases stack with
    | nil => exact hinv
    | cons entry stack =>
      refine (hvisit state entry stack hinv).bind ?_
      rintro ⟨pushed, state'⟩ ⟨hpushed, hinv'⟩
      refine ih ?_ hinv'
      rw [List.map_cons, List.sum_cons] at hfuel
      rw [List.map_append, List.sum_append]
      omega

end

/-! ## Making room -/

variable {σ : Type*}

def evictUntil (enough : σ → Bool) (evict : σ → Option σ) : Nat → σ → Bool × σ
  | 0, s => (enough s, s)
  | fuel + 1, s =>
    if enough s then (true, s)
    else match evict s with
      | none => (false, s)
      | some s' => evictUntil enough evict fuel s'

variable {enough : σ → Bool} {evict : σ → Option σ} {fuel : Nat} {s : σ}

theorem evictUntil_kept {P : σ → Prop} (hevict : ∀ s s', P s → evict s = some s' → P s')
    (hs : P s) : P (evictUntil enough evict fuel s).2 := by
  induction fuel generalizing s with
  | zero => exact hs
  | succ fuel ih =>
    rw [evictUntil]
    split_ifs with henough
    · exact hs
    · cases hnext : evict s with
      | none => exact hs
      | some s' => exact ih (hevict s s' hs hnext)

variable {α : Type*} {queue : σ → List α} {remove : σ → α → σ} {needed : σ → Nat}

theorem evictUntil_eq (henough : ∀ s, enough s = decide (needed s = 0))
    (hevict : ∀ s, evict s = (queue s).head?.map (remove s))
    (hqueue : ∀ s x rest, queue s = x :: rest →
      queue (remove s x) = rest ∧ needed (remove s x) = needed s - 1)
    (hfuel : (queue s).length ≤ fuel) :
    evictUntil enough evict fuel s =
      (decide (needed s ≤ (queue s).length), ((queue s).take (needed s)).foldl remove s) := by
  induction fuel generalizing s with
  | zero =>
    rw [List.length_eq_zero_iff.1 (Nat.le_zero.1 hfuel), evictUntil, henough]
    simp
  | succ fuel ih =>
    rw [evictUntil, henough, hevict]
    cases hneeded : needed s with
    | zero => simp
    | succ n =>
      cases hs : queue s with
      | nil => simp
      | cons x rest =>
        obtain ⟨hrest, hless⟩ := hqueue s x rest hs
        rw [hs, List.length_cons] at hfuel
        rw [List.head?_cons, Option.map_some]
        dsimp only
        rw [ih (by rw [hrest]; omega), hrest, hless, hneeded]
        simp

end Lib

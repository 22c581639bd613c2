import Mathlib.Data.List.Basic

/-!
# Deterministic machines and their runs

A machine is an initial state with a step function that consumes one input. `invariant` turns a
step lemma into a statement about every run, and `tally` adds up what each step of a run counts;
`tally_balance` proves an account that every step keeps for a whole run.
-/

namespace Lib

structure Machine (σ ι : Type*) where
  init : σ
  step : σ → ι → σ

namespace Machine

variable {σ ι : Type*} (m : Machine σ ι)

def runFrom (s : σ) (inputs : List ι) : σ := inputs.foldl m.step s

def run (inputs : List ι) : σ := m.runFrom m.init inputs

@[simp] theorem runFrom_nil (s : σ) : m.runFrom s [] = s := rfl

@[simp] theorem runFrom_cons (s : σ) (i : ι) (inputs : List ι) :
    m.runFrom s (i :: inputs) = m.runFrom (m.step s i) inputs := rfl

theorem runFrom_append (s : σ) (xs ys : List ι) :
    m.runFrom s (xs ++ ys) = m.runFrom (m.runFrom s xs) ys :=
  List.foldl_append

theorem run_append (xs ys : List ι) : m.run (xs ++ ys) = m.runFrom (m.run xs) ys :=
  m.runFrom_append _ xs ys

variable {m}

/-- What every step keeps holds at the end of a run. -/
theorem runFrom_invariant {P : σ → Prop} (hstep : ∀ s i, P s → P (m.step s i)) {s : σ} (h : P s)
    (inputs : List ι) : P (m.runFrom s inputs) := by
  induction inputs generalizing s with
  | nil => exact h
  | cons i inputs ih => exact ih (hstep s i h)

/-- What holds initially and is kept by every step holds after every run. -/
theorem invariant {P : σ → Prop} (hinit : P m.init) (hstep : ∀ s i, P s → P (m.step s i))
    (inputs : List ι) : P (m.run inputs) :=
  runFrom_invariant hstep hinit inputs

/-- The sum of `f` over the steps of a run. -/
def tally (m : Machine σ ι) (f : σ → σ → Nat) : σ → List ι → Nat
  | _, [] => 0
  | s, i :: inputs => f s (m.step s i) + m.tally f (m.step s i) inputs

theorem tally_append (f : σ → σ → Nat) (s : σ) (xs ys : List ι) :
    m.tally f s (xs ++ ys) = m.tally f s xs + m.tally f (m.runFrom s xs) ys := by
  induction xs generalizing s with
  | nil => simp [tally]
  | cons i xs ih => simp [tally, ih, Nat.add_assoc]

/-- If every step raises `credit` against `debit` by what it counts, so does every run. -/
theorem tally_balance {P : σ → Prop} {f : σ → σ → Nat} {credit debit : σ → Nat}
    (hinv : ∀ s i, P s → P (m.step s i))
    (hstep : ∀ s i, P s →
      credit (m.step s i) + debit s = credit s + debit (m.step s i) + f s (m.step s i))
    {s : σ} (h : P s) (inputs : List ι) :
    credit (m.runFrom s inputs) + debit s =
      credit s + debit (m.runFrom s inputs) + m.tally f s inputs := by
  induction inputs generalizing s with
  | nil => rfl
  | cons i inputs ih =>
    have hfirst := hstep s i h
    have hrest := ih (hinv s i h)
    simp only [runFrom_cons, tally]
    omega

end Machine

end Lib

import Mathlib.Data.List.Basic

/-!
# Runs and their logs

`Trace step s labels s'` is a run from `s` to `s'` whose steps carry the given labels. `invariant`
and `kept` turn step lemmas into statements about runs, and `simulate` runs a second system along.

`Every P log` says that `P past event` holds of each event of a log and the log before it. A log
grows at its end, so such a statement is kept by checking the new event only (`every_concat`).
-/

namespace Lib

open List

variable {σ τ ι : Type*}

inductive Trace (step : σ → ι → σ → Prop) : σ → List ι → σ → Prop where
  | nil (s : σ) : Trace step s [] s
  | cons {s s' s'' : σ} {label : ι} {labels : List ι} (hstep : step s label s')
      (hrest : Trace step s' labels s'') : Trace step s (label :: labels) s''

namespace Trace

variable {step : σ → ι → σ → Prop} {step' : τ → ι → τ → Prop} {s s' s'' : σ}
variable {labels labels' : List ι} {label : ι}

theorem split (h : Trace step s (labels ++ labels') s'') :
    ∃ s', Trace step s labels s' ∧ Trace step s' labels' s'' := by
  induction labels generalizing s with
  | nil => exact ⟨s, .nil s, h⟩
  | cons label labels ih =>
    cases h with
    | cons hstep hrest =>
      obtain ⟨mid, hfirst, hsecond⟩ := ih hrest
      exact ⟨mid, .cons hstep hfirst, hsecond⟩

/-- What the steps of a trace keep holds at its end. -/
theorem kept {P : σ → Prop} (h : Trace step s labels s')
    (hstep : ∀ s label s', label ∈ labels → P s → step s label s' → P s') (hs : P s) : P s' := by
  induction h with
  | nil => exact hs
  | cons hfirst _ ih =>
    refine ih (fun s label s' hmem => hstep s label s' (mem_cons_of_mem _ hmem)) ?_
    exact hstep _ _ _ mem_cons_self hs hfirst

theorem invariant {P : σ → Prop} (h : Trace step s labels s')
    (hstep : ∀ s label s', P s → step s label s' → P s') (hs : P s) : P s' :=
  h.kept (fun s label s' _ => hstep s label s') hs

/-- What holds of a state and the labels that led to it. -/
theorem history {P : List ι → σ → Prop} (h : Trace step s labels s')
    (hstep : ∀ past s label s', label ∈ labels → P past s → step s label s' →
      P (past ++ [label]) s') (hs : P [] s) : P labels s' := by
  suffices hgeneral : ∀ past, P past s → P (past ++ labels) s' from hgeneral [] hs
  clear hs
  induction h with
  | nil =>
    intro past hs
    rwa [append_nil]
  | cons hfirst _ ih =>
    intro past hs
    have hnext := hstep past _ _ _ mem_cons_self hs hfirst
    have hrest := ih (fun past s label s' hmem => hstep past s label s' (mem_cons_of_mem _ hmem))
    simpa using hrest _ hnext

/-- Where the label determines the step, the labels determine the run. -/
theorem unique (hstep : ∀ s label s₁ s₂, step s label s₁ → step s label s₂ → s₁ = s₂)
    (h : Trace step s labels s') (h' : Trace step s labels s'') : s' = s'' := by
  induction h with
  | nil =>
    cases h'
    rfl
  | cons hfirst _ ih =>
    cases h' with
    | cons hfirst' hrest' =>
      obtain rfl := hstep _ _ _ _ hfirst hfirst'
      exact ih hrest'

/-- A system that can answer every step of another one runs along with it. -/
theorem simulate {R : σ → τ → Prop} {t : τ} (h : Trace step s labels s')
    (hstep : ∀ s t label s', R s t → step s label s' → ∃ t', step' t label t' ∧ R s' t')
    (hs : R s t) : ∃ t', Trace step' t labels t' ∧ R s' t' := by
  induction h generalizing t with
  | nil => exact ⟨t, .nil t, hs⟩
  | cons hfirst _ ih =>
    obtain ⟨t₁, hanswer, hrelated⟩ := hstep _ _ _ _ hs hfirst
    obtain ⟨t₂, hrest, hend⟩ := ih hrelated
    exact ⟨t₂, .cons hanswer hrest, hend⟩

end Trace

/-! ## Logs -/

variable {ε : Type*} {P : List ε → ε → Prop} {log : List ε} {event : ε}

def Every (P : List ε → ε → Prop) (log : List ε) : Prop :=
  ∀ past event rest, log = past ++ event :: rest → P past event

theorem every_nil : Every P [] := by
  intro past event rest h
  cases past <;> cases h

theorem every_concat : Every P (log ++ [event]) ↔ Every P log ∧ P log event := by
  constructor
  · intro h
    refine ⟨fun past x rest hlog => h past x (rest ++ [event]) (by simp [hlog]), ?_⟩
    exact h log event [] rfl
  · rintro ⟨hlog, hlast⟩ past x rest h
    rcases eq_nil_or_concat rest with rfl | ⟨rest, y, rfl⟩
    · obtain ⟨rfl, hx⟩ := append_inj' h rfl
      cases hx
      exact hlast
    · rw [concat_eq_append, ← cons_append, ← append_assoc] at h
      obtain ⟨rfl, -⟩ := append_inj' h rfl
      exact hlog past x rest rfl

end Lib

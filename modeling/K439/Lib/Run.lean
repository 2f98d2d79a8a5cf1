import Mathlib.Logic.Relation
import Mathlib.Tactic.Common

/-!
# Labelled runs

A system is a type of states with a labelled step relation. `Run step s ls t` says that the
labels `ls`, taken in order, lead from `s` to `t`. An invariant of the steps is an invariant of
the runs (`Run.inv`), also when the steps are restricted to those that meet a condition
(`Run.inv_of`).
-/

namespace K439

/-- The labels `ls`, one step each, lead from the first state to the last. -/
inductive Run {S L : Type _} (step : S → L → S → Prop) (s : S) : List L → S → Prop
  | nil : Run step s [] s
  | snoc : Run step s ls t → step t l u → Run step s (ls ++ [l]) u

namespace Run

variable {S L : Type _} {step step' : S → L → S → Prop} {s t u : S} {ls ls' : List L}

theorem single (h : step s l t) : Run step s [l] t := .snoc .nil h

theorem trans (h1 : Run step s ls t) (h2 : Run step t ls' u) : Run step s (ls ++ ls') u := by
  induction h2 with
  | nil => simpa using h1
  | snoc _ h ih => rw [← List.append_assoc]; exact .snoc ih h

theorem cons (h : step s l t) (hr : Run step t ls u) : Run step s (l :: ls) u :=
  (single h).trans hr

theorem uncons (h : Run step s (l :: ls) u) : ∃ t, step s l t ∧ Run step t ls u := by
  generalize hl : l :: ls = ls₀ at h
  induction h generalizing ls with
  | nil => cases hl
  | @snoc ls₀ t l' u hr hs ih =>
    cases ls₀ with
    | nil =>
      cases hl
      generalize hn : ([] : List L) = ls₁ at hr
      cases hr with
      | nil => exact ⟨u, hs, .nil⟩
      | snoc => simp at hn
    | cons _ ls₀ =>
      cases hl
      obtain ⟨t', ht, hr⟩ := ih rfl
      exact ⟨t', ht, .snoc hr hs⟩

/-- A run is computed by a function that makes single steps. -/
theorem of_foldlM {f : S → L → Option S} (hf : ∀ s l t, f s l = some t → step s l t)
    (h : ls.foldlM f s = some t) : Run step s ls t := by
  induction ls generalizing s with
  | nil => cases h; exact .nil
  | cons l ls ih =>
    rw [List.foldlM_cons] at h
    obtain ⟨u, hu, h⟩ := Option.bind_eq_some_iff.mp h
    exact .cons (hf s l u hu) (ih h)

theorem mono (hs : ∀ s l t, step s l t → step' s l t) (h : Run step s ls t) :
    Run step' s ls t := by
  induction h with
  | nil => exact .nil
  | snoc _ h ih => exact .snoc ih (hs _ _ _ h)

/-- What the steps preserve holds at the end of every run that starts with it. -/
theorem inv {I : S → Prop} (hstep : ∀ s l t, I s → step s l t → I t) (h : Run step s ls t)
    (h0 : I s) : I t := by
  induction h with
  | nil => exact h0
  | snoc _ h ih => exact hstep _ _ _ ih h

/-- The steps of `step` whose label meets the condition `C` in the state before the step. -/
def Within (step : S → L → S → Prop) (C : S → L → Prop) (s : S) (l : L) (t : S) : Prop :=
  step s l t ∧ C s l

theorem inv_of {C : S → L → Prop} {I : S → Prop}
    (hstep : ∀ s l t, I s → C s l → step s l t → I t) (h : Run (Within step C) s ls t)
    (h0 : I s) : I t :=
  h.inv (fun _ _ _ hi h => hstep _ _ _ hi h.2 h.1) h0

end Run

end K439

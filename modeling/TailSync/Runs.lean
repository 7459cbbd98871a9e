import Mathlib.Order.Basic

/-!
Finite runs of a labelled transition relation, and the two rules by which facts
about single steps become facts about runs: an invariant that every step keeps
holds throughout, and a reflexive and transitive relation that every step from an
invariant state respects relates the two ends.
-/
namespace TailSync.Runs

variable {σ α : Type*} {step : σ → α → σ → Prop}

inductive Run (step : σ → α → σ → Prop) : σ → List α → σ → Prop
  | nil (s : σ) : Run step s [] s
  | cons {s t u : σ} {a : α} {rest : List α} :
      step s a t → Run step t rest u → Run step s (a :: rest) u

namespace Run

theorem single {s t : σ} {a : α} (h : step s a t) : Run step s [a] t := .cons h (.nil t)

theorem append {s t u : σ} {as bs : List α} (h : Run step s as t) (h' : Run step t bs u) :
    Run step s (as ++ bs) u := by
  induction h with
  | nil _ => exact h'
  | cons hst _ ih => exact .cons hst (ih h')

theorem split {s u : σ} {as bs : List α} (h : Run step s (as ++ bs) u) :
    ∃ t, Run step s as t ∧ Run step t bs u := by
  induction as generalizing s with
  | nil => exact ⟨s, .nil s, h⟩
  | cons a as ih =>
    cases h with
    | cons hst hrest =>
      obtain ⟨t, has, hbs⟩ := ih hrest
      exact ⟨t, .cons hst has, hbs⟩

/-- A run seen in another system, when each of its steps is a step there. -/
theorem map {τ β : Type*} {step' : τ → β → τ → Prop} (f : σ → τ) (g : α → β) {s t : σ}
    {as : List α} (hstep : ∀ s a t, step s a t → step' (f s) (g a) (f t)) (h : Run step s as t) :
    Run step' (f s) (as.map g) (f t) := by
  induction h with
  | nil s => exact .nil (f s)
  | cons hst _ ih => exact .cons (hstep _ _ _ hst) ih

theorem invariant {I : σ → Prop} (hstep : ∀ s a t, I s → step s a t → I t) {s t : σ}
    {as : List α} (h : Run step s as t) (hs : I s) : I t := by
  induction h with
  | nil s => exact hs
  | cons hst _ ih => exact ih (hstep _ _ _ hs hst)

theorem related {I : σ → Prop} (hinv : ∀ s a t, I s → step s a t → I t) {R : σ → σ → Prop}
    (hrefl : ∀ s, R s s) (htrans : ∀ s t u, R s t → R t u → R s u)
    (hstep : ∀ s a t, I s → step s a t → R s t) {s t : σ} {as : List α}
    (h : Run step s as t) (hs : I s) : R s t := by
  induction h with
  | nil s => exact hrefl s
  | cons hst _ ih => exact htrans _ _ _ (hstep _ _ _ hs hst) (ih (hinv _ _ _ hs hst))

/-- A run has a run beside it in another system, when each step can be followed there. -/
theorem followed {τ : Type*} {step' : τ → α → τ → Prop} {R : σ → τ → Prop}
    (hstep : ∀ s a t x, R s x → step s a t → ∃ y, step' x a y ∧ R t y) {s t : σ} {as : List α}
    (h : Run step s as t) {x : τ} (hx : R s x) : ∃ y, Run step' x as y ∧ R t y := by
  induction h generalizing x with
  | nil s => exact ⟨x, .nil x, hx⟩
  | cons hst _ ih =>
    obtain ⟨y, hxy, hy⟩ := hstep _ _ _ _ hx hst
    obtain ⟨z, hyz, hz⟩ := ih hy
    exact ⟨z, .cons hxy hyz, hz⟩

end Run

end TailSync.Runs

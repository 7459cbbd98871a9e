import Mathlib.Data.List.Basic
import Mathlib.Order.Lattice

/-!
Keeping the best value seen. Values carry a key in a linear order, and a value
replaces the one that is kept exactly when its key is strictly larger. Folded over
a list this keeps a value with the largest key, the earliest among equals, so the
key that remains depends only on which values were listed.
-/
namespace TailSync.MaxFolds

variable {α κ : Type*} [LinearOrder κ] (key : α → κ)

def better (old : Option α) (new : α) : Option α :=
  match old with
  | none => some new
  | some a => if key a < key new then some new else some a

def best (start : Option α) (l : List α) : Option α := l.foldl (better key) start

def Candidate (start : Option α) (l : List α) (a : α) : Prop := start = some a ∨ a ∈ l

theorem better_spec (old : Option α) (new : α) :
    ∃ b, better key old new = some b ∧ (old = some b ∨ b = new) ∧ key new ≤ key b ∧
      ∀ a, old = some a → key a ≤ key b := by
  cases old with
  | none => exact ⟨new, rfl, Or.inr rfl, le_rfl, by simp⟩
  | some a =>
    by_cases hlt : key a < key new
    · exact ⟨new, by simp [better, hlt], Or.inr rfl, le_rfl, by simpa using hlt.le⟩
    · exact ⟨a, by simp [better, hlt], Or.inl rfl, not_lt.mp hlt, by simp⟩

/-- The kept value is a candidate with the largest key, and there is one as soon as
there is a candidate. -/
theorem best_spec (start : Option α) (l : List α) :
    (∀ b, best key start l = some b →
      Candidate start l b ∧ ∀ a, Candidate start l a → key a ≤ key b) ∧
    (best key start l = none → ∀ a, ¬ Candidate start l a) := by
  induction l generalizing start with
  | nil =>
    have hstart : best key start [] = start := rfl
    rw [hstart]
    constructor
    · rintro b rfl
      refine ⟨Or.inl rfl, ?_⟩
      rintro a (ha | ha)
      · cases ha
        exact le_rfl
      · simp at ha
    · rintro rfl a (ha | ha)
      · simp at ha
      · simp at ha
  | cons x rest ih =>
    obtain ⟨y, hy, hfrom, hx, hold⟩ := better_spec key start x
    have hfold : best key start (x :: rest) = best key (some y) rest := by
      rw [best, List.foldl_cons, hy, best]
    rw [hfold]
    constructor
    · intro b hb
      obtain ⟨hcand, hmax⟩ := (ih (some y)).1 b hb
      have hyb : key y ≤ key b := hmax y (Or.inl rfl)
      constructor
      · rcases hcand with hby | hmem
        · cases hby
          rcases hfrom with hstart | rfl
          · exact Or.inl hstart
          · exact Or.inr (by simp)
        · exact Or.inr (by simp [hmem])
      · rintro a (ha | ha)
        · exact (hold a ha).trans hyb
        · rcases List.mem_cons.mp ha with rfl | ha
          · exact hx.trans hyb
          · exact hmax a (Or.inr ha)
    · intro hnone
      exact absurd (Or.inl rfl) ((ih (some y)).2 hnone y)

/-- The key that remains depends on the listed values only as a set. -/
theorem best_key_congr (start : Option α) {l l' : List α} (hsame : ∀ a, a ∈ l ↔ a ∈ l') :
    (best key start l).map key = (best key start l').map key := by
  have hcand : ∀ a, Candidate start l a ↔ Candidate start l' a := by
    intro a
    simp only [Candidate, hsame]
  obtain ⟨hsome, hnone⟩ := best_spec key start l
  obtain ⟨hsome', hnone'⟩ := best_spec key start l'
  cases hb : best key start l with
  | none =>
    cases hb' : best key start l' with
    | none => rfl
    | some b' => exact absurd ((hcand b').mpr (hsome' b' hb').1) (hnone hb b')
  | some b =>
    obtain ⟨hb₁, hmax⟩ := hsome b hb
    cases hb' : best key start l' with
    | none => exact absurd ((hcand b).mp hb₁) (hnone' hb' b)
    | some b' =>
      obtain ⟨hb₂, hmax'⟩ := hsome' b' hb'
      have hle := hmax b' ((hcand b').mpr hb₂)
      have hge := hmax' b ((hcand b).mp hb₁)
      simp [le_antisymm hge hle]

end TailSync.MaxFolds

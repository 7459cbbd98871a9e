import TailSync.Runs
import Mathlib.Logic.Function.Basic

/-!
Threads over a shared state. A thread is the stack of atomic operations it has still
to do. An operation changes the shared state and leaves operations to be done next by
the same thread, so a procedure is an operation that leaves its body, and a test one
that leaves one of two bodies. Threads take turns in any order.
-/
namespace TailSync.ThreadPools

variable {S Op C : Type*}

structure Pool (S Op : Type*) where
  shared : S
  todo : ℕ → List Op

inductive Turn (C Op : Type*) where
  | spawn (k : ℕ) (prog : List Op)
  | run (k : ℕ) (choice : C)

inductive Step (exec : C → S → Op → S × List Op) (p : Pool S Op) :
    Turn C Op → Pool S Op → Prop
  | spawn {k : ℕ} {prog : List Op} (idle : p.todo k = []) :
      Step exec p (.spawn k prog) ⟨p.shared, Function.update p.todo k prog⟩
  | run {k : ℕ} {choice : C} {op : Op} {rest : List Op} (next : p.todo k = op :: rest) :
      Step exec p (.run k choice)
        ⟨(exec choice p.shared op).1,
          Function.update p.todo k ((exec choice p.shared op).2 ++ rest)⟩

def Pool.All (Q : ℕ → Op → Prop) (p : Pool S Op) : Prop := ∀ k, ∀ op ∈ p.todo k, Q k op

section Rules
variable {exec : C → S → Op → S × List Op} {p p' : Pool S Op} {a : Turn C Op}
  {Q : ℕ → Op → Prop} {s : S} {k : ℕ}

/-- What every operation keeps, every step keeps. -/
theorem Step.shared {I : S → Prop} (hstep : Step exec p a p')
    (hexec : ∀ choice op, I p.shared → I (exec choice p.shared op).1) (hI : I p.shared) :
    I p'.shared := by
  cases hstep with
  | spawn _ => exact hI
  | run _ => exact hexec _ _ hI

theorem Pool.All.spawn (hall : p.All Q) {prog : List Op} (hprog : ∀ op ∈ prog, Q k op) :
    (Pool.mk s (Function.update p.todo k prog)).All Q := by
  intro j op hop
  by_cases hj : j = k
  · subst hj
    exact hprog op (by simpa using hop)
  · exact hall j op (by simpa [Function.update_of_ne hj] using hop)

/-- The operations that the thread had left keep the property. -/
theorem Pool.All.run (hall : p.All Q) {op : Op} {rest left : List Op}
    (next : p.todo k = op :: rest) (hleft : ∀ op' ∈ left, Q k op') :
    (Pool.mk s (Function.update p.todo k (left ++ rest))).All Q := by
  refine hall.spawn ?_
  intro op' hop'
  rcases List.mem_append.mp hop' with hnew | hold
  · exact hleft op' hnew
  · exact hall k op' (by simp [next, hold])

/-- What another thread has to do, or the same one further on, is still to be done. -/
theorem Pool.mem_run {op op' : Op} {rest left : List Op} {j : ℕ} (next : p.todo k = op :: rest)
    (hmem : op' ∈ p.todo j) (hne : op' ≠ op) :
    op' ∈ Function.update p.todo k (left ++ rest) j := by
  by_cases hj : j = k
  · subst hj
    rw [next] at hmem
    rw [Function.update_self]
    rcases List.mem_cons.mp hmem with heq | hrest
    · exact absurd heq hne
    · exact List.mem_append_right _ hrest
  · rwa [Function.update_of_ne hj]

theorem Pool.mem_run_cases {op op' : Op} {rest left : List Op} {j : ℕ}
    (next : p.todo k = op :: rest) (hmem : op' ∈ Function.update p.todo k (left ++ rest) j) :
    op' ∈ left ∨ op' ∈ p.todo j := by
  by_cases hj : j = k
  · subst hj
    rw [Function.update_self] at hmem
    rcases List.mem_append.mp hmem with hleft | hrest
    · exact Or.inl hleft
    · exact Or.inr (by simp [next, hrest])
  · rw [Function.update_of_ne hj] at hmem
    exact Or.inr hmem

theorem Pool.mem_spawn {op : Op} {prog : List Op} {j : ℕ} (idle : p.todo k = [])
    (hmem : op ∈ p.todo j) : op ∈ Function.update p.todo k prog j := by
  have hj : j ≠ k := by
    rintro rfl
    rw [idle] at hmem
    exact absurd hmem (by simp)
  rwa [Function.update_of_ne hj]

theorem Pool.mem_spawn_cases {op : Op} {prog : List Op} {j : ℕ}
    (hmem : op ∈ Function.update p.todo k prog j) : op ∈ prog ∨ op ∈ p.todo j := by
  by_cases hj : j = k
  · subst hj
    exact Or.inl (by simpa using hmem)
  · rw [Function.update_of_ne hj] at hmem
    exact Or.inr hmem

end Rules

end TailSync.ThreadPools

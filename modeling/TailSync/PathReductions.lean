import Mathlib.Data.List.Basic
import Mathlib.Data.List.Chain
import Mathlib.Logic.Relation

/-!
Lexical normal forms. A path is a list of letters, some of them blank and one of them
the letter that goes up. A blank letter may be dropped, and a letter may be cancelled
against the up-letter behind it, in any order; a normal form is what is left when
neither can be done. Every path has exactly one, which a single pass with a stack
finds.
-/
namespace TailSync.PathReductions

section Reductions
variable {α : Type*} (blank : α → Prop) (up : α)

inductive Reduces : List α → List α → Prop
  | drop (a b : List α) {x : α} (isBlank : blank x) : Reduces (a ++ x :: b) (a ++ b)
  | cancel (a b : List α) {x : α} (proper : ¬ blank x) (down : x ≠ up) :
      Reduces (a ++ x :: up :: b) (a ++ b)

def Terminal (l : List α) : Prop := ∀ l', ¬ Reduces blank up l l'

def NormalForm (l nf : List α) : Prop :=
  Relation.ReflTransGen (Reduces blank up) l nf ∧ Terminal blank up nf

variable [DecidablePred blank] [DecidableEq α]

/-- The pass: the letters kept so far are a stack. -/
def push (stack : List α) (x : α) : List α :=
  if blank x then stack
  else if x = up then
    match stack with
    | [] => [up]
    | top :: below => if top = up then up :: stack else below
  else x :: stack

def normalized (l : List α) : List α := (l.foldl (push blank up) []).reverse

end Reductions

variable {α : Type*} {blank : α → Prop} {up : α} {l l' nf : List α}

theorem Reduces.append (h : Reduces blank up l l') (b : List α) :
    Reduces blank up (l ++ b) (l' ++ b) := by
  cases h with
  | drop a b' isBlank =>
    rw [List.append_assoc, List.append_assoc, List.cons_append]
    exact .drop a (b' ++ b) isBlank
  | cancel a b' proper down =>
    rw [List.append_assoc, List.append_assoc, List.cons_append, List.cons_append]
    exact .cancel a (b' ++ b) proper down

theorem Reduces.sublist (h : Reduces blank up l l') : l'.Sublist l := by
  cases h with
  | drop a b isBlank => exact (List.sublist_cons_self _ b).append_left a
  | cancel a b proper down =>
    exact ((List.sublist_cons_self _ b).trans (List.sublist_cons_self _ _)).append_left a

/-- A normal form has letters of the path only, in their order. -/
theorem NormalForm.sublist (h : NormalForm blank up l nf) : nf.Sublist l := by
  obtain ⟨hreach, -⟩ := h
  induction hreach with
  | refl => exact List.Sublist.refl l
  | tail _ hstep ih => exact hstep.sublist.trans ih

theorem Terminal.left {b : List α} (h : Terminal blank up (l ++ b)) :
    Terminal blank up l := fun l' hred => h (l' ++ b) (hred.append b)

theorem Terminal.not_blank (h : Terminal blank up l) {x : α} (hx : x ∈ l) : ¬ blank x := by
  intro hblank
  obtain ⟨a, b, rfl⟩ := List.append_of_mem hx
  exact h _ (.drop a b hblank)

/-- What a stack looks like: no blank letter, and below the up-letter only itself. -/
def Stacked (blank : α → Prop) (up : α) (stack : List α) : Prop :=
  (∀ x ∈ stack, ¬ blank x) ∧ stack.IsChain fun x y => x = up → y = up

/-- A stack, read from the bottom, cannot be reduced. -/
theorem Stacked.terminal {stack : List α} (h : Stacked blank up stack) :
    Terminal blank up stack.reverse := by
  obtain ⟨hproper, hchain⟩ := h
  intro l' hred
  generalize hl : stack.reverse = l at hred
  cases hred with
  | @drop a b x isBlank =>
    refine hproper x ?_ isBlank
    rw [← List.mem_reverse, hl]
    simp
  | @cancel a b x proper down =>
    -- The stack holds the up-letter right above a letter that is not it.
    have hstack : stack = b.reverse ++ up :: x :: a.reverse := by
      rw [← List.reverse_reverse stack, hl]
      simp
    rw [hstack, List.isChain_append_cons_cons] at hchain
    exact down (hchain.2.1 rfl)

section Pass
variable [DecidablePred blank] [DecidableEq α]

theorem push_blank (stack : List α) {x : α} (h : blank x) : push blank up stack x = stack :=
  if_pos h

theorem push_proper (stack : List α) {x : α} (h : ¬ blank x) (hup : x ≠ up) :
    push blank up stack x = x :: stack := by
  unfold push
  rw [if_neg h, if_neg hup]

theorem push_up_cons (hup : ¬ blank up) (top : α) (below : List α) :
    push blank up (top :: below) up = if top = up then up :: top :: below else below := by
  rw [push, if_neg hup, if_pos rfl]

theorem push_up_nil (hup : ¬ blank up) : push blank up [] up = [up] := by
  rw [push, if_neg hup, if_pos rfl]

theorem Stacked.push {stack : List α} (hup : ¬ blank up) (h : Stacked blank up stack) (x : α) :
    Stacked blank up (push blank up stack x) := by
  obtain ⟨hproper, hchain⟩ := h
  by_cases hblank : blank x
  · rw [push_blank stack hblank]
    exact ⟨hproper, hchain⟩
  by_cases hx : x = up
  · subst hx
    cases stack with
    | nil =>
      rw [push_up_nil hup]
      exact ⟨by simpa using hup, .singleton x⟩
    | cons top below =>
      rw [push_up_cons hup]
      split_ifs with htop
      · exact ⟨List.forall_mem_cons.mpr ⟨hup, hproper⟩,
          List.isChain_cons_cons.mpr ⟨fun _ => htop, hchain⟩⟩
      · exact ⟨(List.forall_mem_cons.mp hproper).2, (List.isChain_cons.mp hchain).2⟩
  · rw [push_proper stack hblank hx]
    exact ⟨List.forall_mem_cons.mpr ⟨hblank, hproper⟩,
      List.isChain_cons.mpr ⟨fun _ _ h => absurd h hx, hchain⟩⟩

theorem Stacked.foldl_push (hup : ¬ blank up) (l : List α) {stack : List α}
    (h : Stacked blank up stack) :
    Stacked blank up (l.foldl (PathReductions.push blank up) stack) := by
  induction l generalizing stack with
  | nil => exact h
  | cons x l ih => exact ih (h.push hup x)

theorem normalized_terminal (hup : ¬ blank up) (l : List α) :
    Terminal blank up (normalized blank up l) :=
  (Stacked.foldl_push hup l ⟨by simp, .nil⟩).terminal

/-- One push is at most one reduction of the stack with the letter behind it. -/
theorem reduces_push {stack : List α} (hproper : ∀ y ∈ stack, ¬ blank y) (x : α) (l : List α) :
    Relation.ReflTransGen (Reduces blank up) (stack.reverse ++ x :: l)
      ((push blank up stack x).reverse ++ l) := by
  by_cases hblank : blank x
  · rw [push_blank stack hblank]
    exact .single (.drop _ _ hblank)
  by_cases hx : x = up
  · subst hx
    cases stack with
    | nil => rw [push_up_nil hblank]; exact .refl
    | cons top below =>
      rw [push_up_cons hblank]
      split_ifs with htop
      · simp only [List.reverse_cons, List.append_assoc, List.cons_append, List.nil_append]
        exact .refl
      · rw [List.reverse_cons, List.append_assoc]
        exact .single (.cancel _ _ (hproper top List.mem_cons_self) htop)
  · rw [push_proper stack hblank hx, List.reverse_cons, List.append_assoc]
    exact .refl

theorem reduces_foldl_push (hup : ¬ blank up) (l : List α) {stack : List α}
    (h : Stacked blank up stack) :
    Relation.ReflTransGen (Reduces blank up) (stack.reverse ++ l)
      (l.foldl (push blank up) stack).reverse := by
  induction l generalizing stack with
  | nil => rw [List.append_nil]; exact .refl
  | cons x l ih => exact (reduces_push h.1 x l).trans (ih (h.push hup x))

/-- Reductions do not change what the pass finds. -/
theorem Reduces.normalized_eq (hup : ¬ blank up) (h : Reduces blank up l l') :
    normalized blank up l = normalized blank up l' := by
  unfold normalized
  cases h with
  | drop a b isBlank =>
    rw [List.foldl_append, List.foldl_append, List.foldl_cons, push_blank _ isBlank]
  | cancel a b proper down =>
    rw [List.foldl_append, List.foldl_append, List.foldl_cons, List.foldl_cons,
      push_proper _ proper down, push_up_cons hup, if_neg down]

/-- The pass keeps every letter of a path that cannot be reduced. -/
theorem Terminal.foldl_push (hup : ¬ blank up) (l : List α) (h : Terminal blank up l) :
    l.foldl (push blank up) [] = l.reverse := by
  induction l using List.reverseRecOn with
  | nil => rfl
  | append_singleton l x ih =>
    have hblank : ¬ blank x := h.not_blank (by simp)
    rw [List.foldl_append, ih h.left, List.reverse_append, List.foldl_cons, List.foldl_nil]
    by_cases hx : x = up
    · subst hx
      rcases List.eq_nil_or_concat' l with rfl | ⟨a, top, rfl⟩
      · exact push_up_nil hup
      · rw [List.reverse_append, List.reverse_singleton, List.singleton_append, push_up_cons hup,
          if_pos]
        · rfl
        · by_contra htop
          refine h (a ++ []) ?_
          rw [List.append_assoc]
          exact .cancel a [] (h.left.not_blank (by simp)) htop
    · rw [push_proper _ hblank hx]
      rfl

/-- Every path has exactly one normal form, the one the pass finds. -/
theorem normalForm_iff (hup : ¬ blank up) :
    NormalForm blank up l nf ↔ nf = normalized blank up l := by
  constructor
  · rintro ⟨hreach, hirr⟩
    have hnf : normalized blank up nf = nf := by
      rw [normalized, hirr.foldl_push hup, List.reverse_reverse]
    rw [← hnf]
    clear hirr hnf
    induction hreach with
    | refl => rfl
    | tail _ hstep ih => rw [← hstep.normalized_eq hup, ih]
  · rintro rfl
    exact ⟨reduces_foldl_push hup l ⟨by simp, .nil⟩, normalized_terminal hup l⟩

end Pass

end TailSync.PathReductions

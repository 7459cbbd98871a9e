import Mathlib.Logic.Function.Basic
import Mathlib.Order.Lattice

/-!
Gossip over a join semilattice. Nodes hold values, and in one exchange the second
node of a pair joins the value of the first to its own. A value travels along the
chains of exchanges that respect the order in which they happen. Once a node has
been reached by such a chain from every node, it holds the join of all first values.
-/
namespace TailSync.JoinGossip

variable {ι α : Type*}

inductive Chain : List (ι × ι) → ι → ι → Prop
  | refl (exchanges : List (ι × ι)) (a : ι) : Chain exchanges a a
  | skip {exchanges : List (ι × ι)} {a b : ι} (e : ι × ι) (chain : Chain exchanges a b) :
      Chain (e :: exchanges) a b
  | hop {exchanges : List (ι × ι)} {i j b : ι} (chain : Chain exchanges j b) :
      Chain ((i, j) :: exchanges) i b

variable [DecidableEq ι] [SemilatticeSup α]

def exchange (v : ι → α) (e : ι × ι) : ι → α := Function.update v e.2 (v e.2 ⊔ v e.1)

def gossip (v : ι → α) (exchanges : List (ι × ι)) : ι → α := exchanges.foldl exchange v

theorem le_exchange (v : ι → α) (e : ι × ι) (i : ι) : v i ≤ exchange v e i := by
  by_cases hi : i = e.2
  · subst hi
    simp [exchange]
  · simp [exchange, Function.update_of_ne hi]

theorem sender_le_exchange (v : ι → α) (i j : ι) : v i ≤ exchange v (i, j) j := by
  simp [exchange]

theorem exchange_le {v : ι → α} {u : α} (hv : ∀ i, v i ≤ u) (e : ι × ι) (i : ι) :
    exchange v e i ≤ u := by
  by_cases hi : i = e.2
  · subst hi
    simp [exchange, hv]
  · simpa [exchange, Function.update_of_ne hi] using hv i

theorem le_gossip (v : ι → α) (exchanges : List (ι × ι)) (i : ι) : v i ≤ gossip v exchanges i := by
  induction exchanges generalizing v with
  | nil => exact le_refl _
  | cons e rest ih => exact (le_exchange v e i).trans (ih (exchange v e))

/-- Values travel along chains. -/
theorem le_gossip_of_chain {exchanges : List (ι × ι)} {a b : ι} (hchain : Chain exchanges a b)
    (v : ι → α) : v a ≤ gossip v exchanges b := by
  induction hchain generalizing v with
  | refl exchanges a => exact le_gossip v exchanges a
  | @skip _ a b e _ ih => exact (le_exchange v e a).trans (ih (exchange v e))
  | @hop _ i j b _ ih => exact (sender_le_exchange v i j).trans (ih (exchange v (i, j)))

/-- Nothing above the first values appears. -/
theorem gossip_le {v : ι → α} {u : α} (hv : ∀ i, v i ≤ u) (exchanges : List (ι × ι)) (i : ι) :
    gossip v exchanges i ≤ u := by
  induction exchanges generalizing v with
  | nil => exact hv i
  | cons e rest ih => exact ih (exchange_le hv e)

/-- A node reached from every node holds the greatest first value. -/
theorem gossip_eq_of_chains {exchanges : List (ι × ι)} {b : ι}
    (hchains : ∀ a, Chain exchanges a b) {v : ι → α} {a : ι} (hmax : ∀ i, v i ≤ v a) :
    gossip v exchanges b = v a :=
  le_antisymm (gossip_le hmax exchanges b) (le_gossip_of_chain (hchains a) v)

end TailSync.JoinGossip

import TailSync.ByteStrings
import Mathlib.Data.Nat.Log
import Mathlib.Tactic.Ring

/-!
Machine-level facts that no part of the program owns: 64-bit integers that wrap,
unsigned words in little-endian bytes, and calls that return a value, return an
error, or panic.
-/
namespace TailSync.MachineInts

open ByteStrings

def wrap64 (x : ℤ) : ℤ := Int.bmod x (2 ^ 64)

theorem wrap64_eq_self {x : ℤ} (hlo : -2 ^ 63 ≤ x) (hhi : x < 2 ^ 63) : wrap64 x = x := by
  unfold wrap64
  rw [Int.bmod_def]
  split <;> omega

/-- An unsigned 64-bit value in the upper half is read as a negative integer. -/
theorem wrap64_of_high {x : ℤ} (hlo : 2 ^ 63 ≤ x) (hhi : x < 2 ^ 64) : wrap64 x = x - 2 ^ 64 := by
  unfold wrap64
  rw [Int.bmod_def]
  split <;> omega

theorem wrap64_bounds (x : ℤ) : -2 ^ 63 ≤ wrap64 x ∧ wrap64 x < 2 ^ 63 := by
  unfold wrap64
  rw [Int.bmod_def]
  split <;> omega

/-- The most bytes the Go runtime allocates at once on a 64-bit platform. -/
def maxAlloc : ℕ := 2 ^ 48

inductive Outcome (ε α : Type*) where
  | ok (value : α)
  | err (e : ε)
  | panic
  deriving DecidableEq, Repr

theorem except_map_eq_ok {ε α β : Type*} {f : α → β} {x : Except ε α} {b : β} :
    x.map f = .ok b ↔ ∃ a, x = .ok a ∧ f a = b := by
  cases x <;> simp [Except.map]

def leBytes : ℕ → ℕ → Bytes
  | 0, _ => []
  | width + 1, x => UInt8.ofNat x :: leBytes width (x / 256)

def fromLe : Bytes → ℕ
  | [] => 0
  | b :: rest => b.toNat + 256 * fromLe rest

def readLe (width : ℕ) (data : Bytes) : Option (ℕ × Bytes) :=
  if data.length < width then none else some (fromLe (data.take width), data.drop width)

@[simp] theorem leBytes_length (width x : ℕ) : (leBytes width x).length = width := by
  induction width generalizing x with
  | zero => rfl
  | succ width ih => simp [leBytes, ih]

theorem fromLe_leBytes (width x : ℕ) : fromLe (leBytes width x) = x % 256 ^ width := by
  induction width generalizing x with
  | zero => simp [leBytes, fromLe, Nat.mod_one]
  | succ width ih =>
    have hbyte : (UInt8.ofNat x).toNat = x % 256 := UInt8.toNat_ofNat'
    rw [leBytes, fromLe, ih, hbyte, pow_succ', Nat.mod_mul]

/-- Bytes are the words of the number they spell. -/
theorem leBytes_fromLe (data : Bytes) : leBytes data.length (fromLe data) = data := by
  induction data with
  | nil => rfl
  | cons b rest ih =>
    have hb := b.toNat_lt
    have hlow : UInt8.ofNat (b.toNat + 256 * fromLe rest) = b := by
      apply UInt8.toNat_inj.mp
      rw [UInt8.toNat_ofNat']
      omega
    have hhigh : (b.toNat + 256 * fromLe rest) / 256 = fromLe rest := by omega
    rw [List.length_cons, fromLe, leBytes, hlow, hhigh, ih]

theorem fromLe_lt (data : Bytes) : fromLe data < 256 ^ data.length := by
  induction data with
  | nil => simp [fromLe]
  | cons b rest ih =>
    have hb := b.toNat_lt
    simp only [fromLe, List.length_cons, pow_succ]
    omega

theorem fromLe_take_append {width x : ℕ} (hx : x < 256 ^ width) (rest : Bytes) :
    fromLe ((leBytes width x ++ rest).take width) = x := by
  rw [List.take_left' (leBytes_length width x), fromLe_leBytes, Nat.mod_eq_of_lt hx]

/-- Skip a word and what stands before it. -/
theorem drop_add_leBytes {data rest : Bytes} {n width x : ℕ}
    (h : data.drop n = leBytes width x ++ rest) : data.drop (n + width) = rest := by
  rw [← List.drop_drop, h, List.drop_left' (leBytes_length width x)]

/-- A word that fits is read back, whatever follows it. -/
theorem readLe_append (width x : ℕ) (hx : x < 256 ^ width) (rest : Bytes) :
    readLe width (leBytes width x ++ rest) = some (x, rest) := by
  unfold readLe
  rw [if_neg (by simp), fromLe_take_append hx, List.drop_left' (leBytes_length width x)]

theorem leBytes_fromLe_take (width : ℕ) (data : Bytes) (h : width ≤ data.length) :
    leBytes width (fromLe (data.take width)) = data.take width := by
  have hwords := leBytes_fromLe (data.take width)
  rwa [List.length_take, Nat.min_eq_left h] at hwords

/-- What was read stands in front of what is left. -/
theorem readLe_append_eq {width x : ℕ} {data rest : Bytes}
    (h : readLe width data = some (x, rest)) : leBytes width x ++ rest = data := by
  unfold readLe at h
  split at h
  · exact absurd h (by simp)
  · cases h
    rw [leBytes_fromLe_take width data (by omega), List.take_append_drop]

theorem readLe_some {width x : ℕ} {data rest : Bytes} (h : readLe width data = some (x, rest)) :
    x < 256 ^ width ∧ data.length = width + rest.length := by
  unfold readLe at h
  split at h
  · exact absurd h (by simp)
  · rename_i hlen
    cases h
    have hlt := fromLe_lt (data.take width)
    rw [List.length_take, Nat.min_eq_left (by omega)] at hlt
    refine ⟨hlt, ?_⟩
    rw [List.length_drop]
    omega

end TailSync.MachineInts

import TailSync.DeltaReplay
import Mathlib.Data.List.GetD

/-!
Rolling equals recomputing. The sum that is rolled along a byte string, one byte out
and one byte in at a time, is at every position the weak checksum of the window there,
and it is the sum the encoder's search holds when it arrives at that position. The
weak checksum is made of the low halves of the two sums of the window in unbounded
numbers, so it does not matter where the 32-bit accumulators wrap.
-/
namespace TailSync.RollingSums

open ByteStrings DeltaBlocks DeltaReplay WindowSums

/-- The sum after a number of slides of a window of n bytes, rolled from the checksum of
the first window. -/
def rolledSum (s : Bytes) (n : ℕ) : ℕ → UInt32
  | 0 => weakChecksum (s.take n)
  | i + 1 => roll (rolledSum s n i) (s.getD i 0) (s.getD (i + n) 0) n

def window (s : Bytes) (n i : ℕ) : Bytes := (s.drop i).take n

variable {s : Bytes} {n i : ℕ}

/-- The bytes a slide reads: the first of the window and the one after it. -/
theorem window_ends (hi : i + n < s.length) :
    s.drop i = s.getD i 0 :: s.drop (i + 1) ∧
      (s.drop i)[n]? = some (s.getD (i + n) 0) := by
  have hlt : i < s.length := by omega
  constructor
  · rw [List.drop_eq_getElem_cons hlt, List.getD_eq_getElem s 0 hlt]
  · rw [List.getElem?_drop, List.getD_eq_getElem s 0 hi, List.getElem?_eq_getElem hi]

/-- One slide. -/
theorem roll_slide (hn : 1 ≤ n) (hi : i + n < s.length) :
    roll (weakChecksum (window s n i)) (s.getD i 0) (s.getD (i + n) 0) n =
      weakChecksum (window s n (i + 1)) := by
  obtain ⟨hcons, hinn⟩ := window_ends hi
  rw [hcons] at hinn
  have hroll := roll_window hn hinn
  rwa [← hcons] at hroll

/-- Any number of slides. -/
theorem rolledSum_eq (hn : 1 ≤ n) (hi : i + n ≤ s.length) :
    rolledSum s n i = weakChecksum (window s n i) := by
  induction i with
  | zero => rw [rolledSum, window, List.drop_zero]
  | succ i ih => rw [rolledSum, ih (by omega), roll_slide hn (by omega)]

/-- Past windows without a match the encoder's search arrives with the rolled sum. -/
theorem rollSearch_slides {md5 : Bytes → Digest 16} {sig : Signature} (hn : 1 ≤ n)
    (hi : i + n ≤ s.length)
    (hmiss : ∀ j < i, findBlock md5 sig (weakChecksum (window s n j)) (window s n j) = none)
    (fuel : ℕ) (lit : Bytes) (ops : List Op) :
    rollSearch md5 sig n (i + fuel) (weakChecksum (s.take n)) ⟨s, lit, ops⟩ =
      rollSearch md5 sig n fuel (rolledSum s n i) ⟨s.drop i, lit ++ s.take i, ops⟩ := by
  induction i generalizing fuel with
  | zero => simp [rolledSum]
  | succ i ih =>
    have hmiss' : ∀ j < i,
        findBlock md5 sig (weakChecksum (window s n j)) (window s n j) = none :=
      fun j hj => hmiss j (by omega)
    have hcount : i + 1 + fuel = i + (fuel + 1) := by omega
    rw [hcount, ih (by omega) hmiss' (fuel + 1), rollSearch]
    obtain ⟨hcons, hinn⟩ := window_ends (s := s) (n := n) (i := i) (by omega)
    have hlong : ¬ (s.drop i).length < n := by
      rw [List.length_drop]
      omega
    have hnone : findBlock md5 sig (rolledSum s n i) ((s.drop i).take n) = none := by
      rw [rolledSum_eq hn (by omega)]
      exact hmiss i (by omega)
    have htake : s.take (i + 1) = s.take i ++ [s.getD i 0] := by
      rw [List.getD_eq_getElem s 0 (by omega), List.take_append_getElem]
    rw [if_neg hlong, hnone]
    simp only [hinn]
    rw [hcons]
    simp only [rolledSum, htake, List.append_assoc]

open UInt32.CommRing in
/-- The accumulators are the unbounded sums modulo 2^32. -/
theorem weakSums_cast (w : Bytes) :
    weakSums w =
      (UInt32.ofNat (w.map UInt8.toNat).sum, UInt32.ofNat (weighted (w.map UInt8.toNat))) := by
  have hbyte : w.map UInt8.toUInt32 = (w.map UInt8.toNat).map (Nat.castRingHom UInt32) := by
    rw [List.map_map]
    apply List.map_congr_left
    intro c _
    exact (UInt32.ofNat_uInt8ToNat c).symm
  rw [weakSums_eq, hbyte, ← map_weighted, ← map_list_sum]
  rfl

/-- The checksum in unbounded numbers. -/
theorem weakChecksum_toNat (w : Bytes) :
    (weakChecksum w).toNat = weighted (w.map UInt8.toNat) % 65536 * 65536 +
      (w.map UInt8.toNat).sum % 65536 := by
  have hlow : ∀ m : ℕ, (UInt32.ofNat m).toNat % 65536 = m % 65536 := by
    intro m
    rw [UInt32.toNat_ofNat']
    omega
  rw [weakChecksum, ← weakSums, toNat_pack, weakSums_cast]
  exact congrArg₂ (fun b a => b * 65536 + a) (hlow _) (hlow _)

/-- Rolling the sum along a byte string gives, after any number of slides, the weak
checksum of the window that is reached; this is the sum the encoder's search has there,
and its two halves are the low halves of the window's unbounded sums. -/
theorem rolled_sum_recomputed (s : Bytes) (n i : ℕ) (hn : 1 ≤ n) (hi : i + n ≤ s.length) :
    rolledSum s n i = weakChecksum (window s n i) ∧
    (∀ md5 sig, (∀ j < i,
      findBlock md5 sig (weakChecksum (window s n j)) (window s n j) = none) →
      ∀ fuel lit ops,
        rollSearch md5 sig n (i + fuel) (weakChecksum (s.take n)) ⟨s, lit, ops⟩ =
          rollSearch md5 sig n fuel (rolledSum s n i) ⟨s.drop i, lit ++ s.take i, ops⟩) ∧
    (rolledSum s n i).toNat = weighted ((window s n i).map UInt8.toNat) % 65536 * 65536 +
      ((window s n i).map UInt8.toNat).sum % 65536 := by
  have hsum := rolledSum_eq hn hi
  refine ⟨hsum, ?_, ?_⟩
  · intro md5 sig hmiss fuel lit ops
    exact rollSearch_slides hn hi hmiss fuel lit ops
  · rw [hsum, weakChecksum_toNat]

/-- Two slides of a window of three bytes, past windows no record matches. -/
theorem rolled_sum_two_slides :
    2 + 3 ≤ (ascii "abcde").length ∧
    rolledSum (ascii "abcde") 3 2 = weakChecksum (ascii "cde") ∧
    weakChecksum (ascii "cde") ≠ weakChecksum (ascii "abc") ∧
    rollSearch (fun _ => paddedDigest 16 []) (signBytes (fun _ => paddedDigest 16 [])
        (ascii "cde") 3) 3 (2 + 1) (weakChecksum (ascii "abc")) ⟨ascii "abcde", [], []⟩ =
      rollSearch (fun _ => paddedDigest 16 []) (signBytes (fun _ => paddedDigest 16 [])
        (ascii "cde") 3) 3 1 (rolledSum (ascii "abcde") 3 2) ⟨ascii "cde", ascii "ab", []⟩ := by
  obtain ⟨hsum, hsearch, _⟩ :=
    rolled_sum_recomputed (ascii "abcde") 3 2 (by decide) (by decide)
  exact ⟨by decide, hsum, by decide, hsearch _ _ (by decide +kernel) 1 [] []⟩

end TailSync.RollingSums

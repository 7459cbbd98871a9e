import TailSync.DeltaBlocks
import TailSync.WindowSums
import Mathlib.Data.UInt

/-!
The delta of a target against a basis replays to the target. The rolling sum is
the weak checksum of the window it stands on, so every strong comparison the
encoder makes is between a basis block and a target window with equal weak sums.
If the strong sum tells those apart, the ops emitted so far, the pending literal
and the bytes left always spell the target.
-/
namespace TailSync.DeltaReplay

open ByteStrings MachineInts DeltaBlocks WindowSums

def weakSums (w : Bytes) : UInt32 × UInt32 := w.foldl weakStep (0, 0)

open UInt32.CommRing in
/-- The loop of weakChecksum adds up the two sums of the window, modulo 2^32. -/
theorem weakSums_eq (w : Bytes) :
    weakSums w = ((w.map UInt8.toUInt32).sum, weighted (w.map UInt8.toUInt32)) := by
  have hfold : weakSums w = (w.map UInt8.toUInt32).foldl sumStep (0, 0) := by
    rw [List.foldl_map]
    rfl
  rw [hfold, foldl_sumStep]
  simp

open UInt32.CommRing in
/-- Sliding the window by one byte changes the two sums as Roll computes. -/
theorem weakSums_slide (out inn : UInt8) (w : Bytes) :
    (weakSums (w ++ [inn])).1 =
      (weakSums (out :: w)).1 - out.toUInt32 + inn.toUInt32 ∧
    (weakSums (w ++ [inn])).2 =
      (weakSums (out :: w)).2 - ((w.length + 1 : ℕ) : UInt32) * out.toUInt32 +
        (weakSums (w ++ [inn])).1 := by
  have hslide := sums_slide out.toUInt32 inn.toUInt32 (w.map UInt8.toUInt32)
  rw [List.length_map] at hslide
  simpa only [weakSums_eq, List.map_append, List.map_cons, List.map_nil] using hslide

theorem toNat_and_low (x : UInt32) : (x &&& 0xffff).toNat = x.toNat % 65536 := by
  rw [UInt32.toNat_and]
  exact Nat.and_two_pow_sub_one_eq_mod x.toNat 16

/-- A checksum holds the low halves of its two sums side by side. -/
theorem toNat_pack (a b : UInt32) :
    ((b <<< 16) ||| (a &&& 0xffff)).toNat =
      b.toNat % 65536 * 65536 + a.toNat % 65536 := by
  rw [UInt32.toNat_or, UInt32.toNat_shiftLeft, toNat_and_low]
  have hshift : b.toNat <<< ((16 : UInt32).toNat % 32) % 2 ^ 32 = (b.toNat % 65536) <<< 16 := by
    simp only [Nat.shiftLeft_eq]
    have h16 : (16 : UInt32).toNat % 32 = 16 := by decide
    rw [h16]
    omega
  rw [hshift, ← Nat.shiftLeft_add_eq_or_of_lt (by omega), Nat.shiftLeft_eq]

/-- Only the low halves of the sums matter. -/
theorem pack_congr {a b a' b' : UInt32} (ha : a.toNat % 65536 = a'.toNat % 65536)
    (hb : b.toNat % 65536 = b'.toNat % 65536) :
    ((b <<< 16) ||| (a &&& 0xffff) : UInt32) = (b' <<< 16) ||| (a' &&& 0xffff) := by
  apply UInt32.toNat_inj.mp
  rw [toNat_pack, toNat_pack, ha, hb]

theorem sub_add_low {x y u v : UInt32} (z : UInt32) (hx : x.toNat % 65536 = y.toNat % 65536)
    (hu : u.toNat % 65536 = v.toNat % 65536) :
    (x - z + u).toNat % 65536 = (y - z + v).toNat % 65536 := by
  simp only [UInt32.toNat_add, UInt32.toNat_sub]
  have hz := z.toNat_lt
  omega

/-- Roll turns the checksum of a window into that of the window one byte on. -/
theorem roll_weakChecksum (out inn : UInt8) (w : Bytes) :
    roll (weakChecksum (out :: w)) out inn (w.length + 1) = weakChecksum (w ++ [inn]) := by
  obtain ⟨ha, hb⟩ := weakSums_slide out inn w
  have hsum := toNat_pack (weakSums (out :: w)).1 (weakSums (out :: w)).2
  have hlow : (weakChecksum (out :: w) &&& 0xffff).toNat % 65536 =
      (weakSums (out :: w)).1.toNat % 65536 := by
    rw [toNat_and_low, weakChecksum, ← weakSums, hsum]
    omega
  have hhigh : (weakChecksum (out :: w) >>> 16).toNat % 65536 =
      (weakSums (out :: w)).2.toNat % 65536 := by
    rw [UInt32.toNat_shiftRight, weakChecksum, ← weakSums, hsum]
    simp only [Nat.shiftRight_eq_div_pow]
    have h16 : (16 : UInt32).toNat % 32 = 16 := by decide
    rw [h16]
    omega
  have hnew := sub_add_low out.toUInt32 hlow (rfl : inn.toUInt32.toNat % 65536 = _)
  rw [← ha] at hnew
  have hnew' : ((weakChecksum (out :: w) &&& 0xffff) - out.toUInt32 + inn.toUInt32 &&&
      0xffff).toNat % 65536 = (weakSums (w ++ [inn])).1.toNat % 65536 := by
    rw [toNat_and_low, Nat.mod_mod, hnew]
  unfold roll
  rw [weakChecksum.eq_1 (w ++ [inn]), ← weakSums]
  apply pack_congr hnew
  rw [toNat_and_low, Nat.mod_mod, hb]
  exact sub_add_low _ hhigh hnew'

/-- The same on the bytes left of a target: dropping the first byte of a full window
and taking in the byte after it. -/
theorem roll_window {bs : ℕ} (hbs : 0 < bs) {out inn : UInt8} {rest : Bytes}
    (hinn : (out :: rest)[bs]? = some inn) :
    roll (weakChecksum ((out :: rest).take bs)) out inn bs = weakChecksum (rest.take bs) := by
  have hwindow : (out :: rest).take bs = out :: rest.take (bs - 1) := by
    rw [← List.take_succ_cons, Nat.sub_add_cancel hbs]
  rw [← Nat.sub_add_cancel hbs, List.getElem?_cons_succ] at hinn
  obtain ⟨hlt, hget⟩ := List.getElem?_eq_some_iff.mp hinn
  have hnext : rest.take bs = rest.take (bs - 1) ++ [inn] := by
    rw [← hget, List.take_append_getElem hlt, Nat.sub_add_cancel hbs]
  have hcount : (rest.take (bs - 1)).length + 1 = bs := by
    rw [List.length_take, Nat.min_eq_left hlt.le, Nat.sub_add_cancel hbs]
  have hstep := roll_weakChecksum out inn (rest.take (bs - 1))
  rw [hcount] at hstep
  rw [hwindow, hnext, hstep]

def blockAt (basis : Bytes) (bs i : ℕ) : Bytes := (basis.drop (i * bs)).take bs

theorem blockAt_drop (basis : Bytes) (bs i : ℕ) :
    blockAt (basis.drop bs) bs i = blockAt basis bs (i + 1) := by
  unfold blockAt
  rw [List.drop_drop]
  congr 2
  ring

variable {md5 : Bytes → Digest 16}

private theorem signFrom_getElem {bs : ℕ} (fuel idx : ℕ) (data : Bytes) (i : ℕ)
    (b : BlockChecksum) (h : (signFrom md5 bs fuel idx data)[i]? = some b) :
    i * bs < data.length ∧
      b = ⟨idx + i, weakChecksum (blockAt data bs i), md5 (blockAt data bs i)⟩ := by
  induction fuel generalizing idx data i with
  | zero => simp [signFrom] at h
  | succ fuel ih =>
    unfold signFrom at h
    split at h
    · simp at h
    · rename_i hne
      have hpos : 0 < data.length := by
        rw [List.isEmpty_iff] at hne
        exact List.length_pos_iff.mpr hne
      cases i with
      | zero =>
        simp only [List.getElem?_cons_zero, Option.some.injEq] at h
        refine ⟨by simpa using hpos, ?_⟩
        simp [blockAt, ← h]
      | succ i =>
        rw [List.getElem?_cons_succ] at h
        obtain ⟨hlt, heq⟩ := ih (idx + 1) (data.drop bs) i h
        rw [List.length_drop] at hlt
        refine ⟨by rw [Nat.succ_mul]; omega, ?_⟩
        rw [heq, blockAt_drop]
        congr 1
        omega

private theorem signFrom_length {bs : ℕ} (hbs : 0 < bs) (fuel idx : ℕ) (data : Bytes) :
    (signFrom md5 bs fuel idx data).length * bs ≤ data.length + (bs - 1) := by
  induction fuel generalizing idx data with
  | zero => simp [signFrom]
  | succ fuel ih =>
    unfold signFrom
    split
    · simp
    · rename_i hne
      have hpos : 0 < data.length := by
        rw [List.isEmpty_iff] at hne
        exact List.length_pos_iff.mpr hne
      have hrest := ih (idx + 1) (data.drop bs)
      rw [List.length_drop] at hrest
      rw [List.length_cons, Nat.succ_mul]
      by_cases hle : bs ≤ data.length
      · omega
      · have hzero : (signFrom md5 bs fuel (idx + 1) (data.drop bs)).length = 0 := by
          rw [List.drop_eq_nil_of_le (by omega)]
          cases fuel <;> simp [signFrom]
        rw [hzero]
        omega

/-- The signature of a basis lists its blocks in order. -/
theorem signBytes_getElem {bs : ℕ} (hbs : 0 < bs) (basis : Bytes) {i : ℕ} {b : BlockChecksum}
    (h : (signBytes md5 basis bs).blocks[i]? = some b) :
    i * bs < basis.length ∧
      b = ⟨i, weakChecksum (blockAt basis bs i), md5 (blockAt basis bs i)⟩ := by
  simp only [signBytes, if_neg hbs.ne'] at h
  simpa using signFrom_getElem _ 0 basis i b h

theorem signBytes_length (md5 : Bytes → Digest 16) {bs : ℕ} (hbs : 0 < bs) (basis : Bytes) :
    (signBytes md5 basis bs).blocks.length * bs ≤ basis.length + (bs - 1) := by
  simp only [signBytes, if_neg hbs.ne']
  exact signFrom_length hbs _ 0 basis

/-- The windows of the target that the encoder compares: full blocks anywhere,
and the short end. -/
def Window (bs : ℕ) (target w : Bytes) : Prop :=
  (w.length = bs ∧ w <:+: target) ∨ (w.length < bs ∧ w <:+ target)

/-- The strong sum tells apart the basis blocks and target windows whose weak
sums agree. -/
def Distinguishes (md5 : Bytes → Digest 16) (bs : ℕ) (basis target : Bytes) : Prop :=
  ∀ i w, i * bs < basis.length → Window bs target w →
    weakChecksum (blockAt basis bs i) = weakChecksum w →
    md5 (blockAt basis bs i) = md5 w → blockAt basis bs i = w

def opText (basis : Bytes) (bs : ℕ) : Op → Bytes
  | .literal data => data
  | .copy i => blockAt basis bs i

def expand (basis : Bytes) (bs : ℕ) (ops : List Op) : Bytes := ops.flatMap (opText basis bs)

theorem expand_append (basis : Bytes) (bs : ℕ) (xs ys : List Op) :
    expand basis bs (xs ++ ys) = expand basis bs xs ++ expand basis bs ys := by
  simp [expand]

theorem expand_flushLit (basis : Bytes) (bs : ℕ) (ops : List Op) (lit : Bytes) :
    expand basis bs (flushLit ops lit) = expand basis bs ops ++ lit := by
  unfold flushLit
  split
  · rename_i hnil
    simp [List.isEmpty_iff.mp hnil]
  · simp [expand, opText]

theorem mem_flushLit {ops : List Op} {lit : Bytes} {i : ℕ} :
    Op.copy i ∈ flushLit ops lit ↔ Op.copy i ∈ ops := by
  unfold flushLit
  split <;> simp

theorem flushLit_length (ops : List Op) (lit : Bytes) :
    (flushLit ops lit).length ≤ ops.length + 1 := by
  unfold flushLit
  split <;> simp

structure Spells (basis : Bytes) (bs : ℕ) (target : Bytes) (s : EncodeState) : Prop where
  text : expand basis bs s.ops ++ s.lit ++ s.rest = target
  copies : ∀ i, Op.copy i ∈ s.ops → i * bs < basis.length
  count : s.ops.length * bs + 2 * s.rest.length ≤ 2 * target.length

section Encoder
variable {basis target : Bytes} {bs : ℕ} {s : EncodeState}

theorem Spells.suffix (h : Spells basis bs target s) : s.rest <:+ target :=
  ⟨expand basis bs s.ops ++ s.lit, h.text⟩

theorem Spells.slide {c : UInt8} {rest : Bytes} (h : Spells basis bs target s)
    (hrest : s.rest = c :: rest) : Spells basis bs target ⟨rest, s.lit ++ [c], s.ops⟩ := by
  refine ⟨?_, h.copies, ?_⟩
  · rw [← h.text, hrest]
    simp
  · have hcount := h.count
    rw [hrest, List.length_cons] at hcount
    dsimp only
    omega

theorem hit_text (htext : expand basis bs s.ops ++ s.lit ++ s.rest = target) (bi n : ℕ)
    (hblock : blockAt basis bs bi = s.rest.take n) :
    expand basis bs (s.hit bi n).ops ++ (s.hit bi n).lit ++ (s.hit bi n).rest = target := by
  simp only [EncodeState.hit, expand_append, expand_flushLit, List.append_nil]
  have hcopy : expand basis bs [Op.copy bi] = s.rest.take n := by
    simp [expand, opText, hblock]
  rw [hcopy, List.append_assoc _ (s.rest.take n), List.take_append_drop, htext]

theorem hit_copies (hcopies : ∀ i, Op.copy i ∈ s.ops → i * bs < basis.length) {bi n : ℕ}
    (hbi : bi * bs < basis.length) :
    ∀ i, Op.copy i ∈ (s.hit bi n).ops → i * bs < basis.length := by
  intro i hi
  simp only [EncodeState.hit, List.mem_append, mem_flushLit, List.mem_singleton,
    Op.copy.injEq] at hi
  rcases hi with hi | rfl
  · exact hcopies i hi
  · exact hbi

theorem Spells.hit (h : Spells basis bs target s) {bi : ℕ} (hbi : bi * bs < basis.length)
    (hlen : bs ≤ s.rest.length) (hblock : blockAt basis bs bi = s.rest.take bs) :
    Spells basis bs target (s.hit bi bs) := by
  refine ⟨hit_text h.text _ _ hblock, hit_copies h.copies hbi, ?_⟩
  have hcount := h.count
  have hflush := Nat.mul_le_mul_right bs (flushLit_length s.ops s.lit)
  simp only [EncodeState.hit, List.length_append, List.length_singleton, List.length_drop,
    Nat.add_mul, Nat.one_mul] at hflush ⊢
  omega

/-- A candidate is a block of the basis with the weak sum and the strong sum of
the window. -/
theorem findBlock_some (hbs : 0 < bs) {weak : UInt32} {w : Bytes} {bi : ℕ}
    (h : findBlock md5 (signBytes md5 basis bs) weak w = some bi) :
    bi * bs < basis.length ∧ weakChecksum (blockAt basis bs bi) = weak ∧
      md5 (blockAt basis bs bi) = md5 w := by
  have hstrong := List.find?_some h
  have hmem := List.mem_of_find?_eq_some h
  simp only [candidates, List.mem_filter, beq_iff_eq, Option.map_eq_some_iff] at hmem hstrong
  obtain ⟨_, b, hget, hweak⟩ := hmem
  obtain ⟨b', hget', hmd5⟩ := hstrong
  have hbb : b' = b := Option.some.inj (hget'.symm.trans hget)
  obtain ⟨hlt, heq⟩ := signBytes_getElem hbs basis hget
  subst hbb
  rw [heq] at hweak hmd5
  exact ⟨hlt, hweak, hmd5⟩

/-- A hit on a full window is the block itself. -/
theorem full_match (hbs : 0 < bs) (hmd5 : Distinguishes md5 bs basis target)
    (h : Spells basis bs target s) (hlen : bs ≤ s.rest.length) {bi : ℕ}
    (hfound : findBlock md5 (signBytes md5 basis bs) (weakChecksum (s.rest.take bs))
      (s.rest.take bs) = some bi) :
    Spells basis bs target (s.hit bi bs) := by
  obtain ⟨hbi, hweak, hstrong⟩ := findBlock_some hbs hfound
  have hwindow : Window bs target (s.rest.take bs) := by
    refine Or.inl ⟨by simpa using hlen, ?_⟩
    exact (List.take_prefix bs s.rest).isInfix.trans h.suffix.isInfix
  exact h.hit hbi hlen (hmd5 bi _ hbi hwindow hweak hstrong)

/-- The rolling search carries the checksum of its window along. -/
theorem rollSearch_spells (hbs : 0 < bs) (hmd5 : Distinguishes md5 bs basis target) (fuel : ℕ)
    {sum : UInt32} (h : Spells basis bs target s) (hsum : sum = weakChecksum (s.rest.take bs)) :
    Spells basis bs target (rollSearch md5 (signBytes md5 basis bs) bs fuel sum s) ∧
      (rollSearch md5 (signBytes md5 basis bs) bs fuel sum s).rest.length ≤ s.rest.length := by
  induction fuel generalizing s sum with
  | zero => exact ⟨h, le_refl _⟩
  | succ fuel ih =>
    unfold rollSearch
    split
    · exact ⟨h, le_refl _⟩
    · rename_i hlen
      split
      · rename_i bi hfound
        rw [hsum] at hfound
        refine ⟨full_match hbs hmd5 h (by omega) hfound, ?_⟩
        simp [EncodeState.hit]
      · split
        · rename_i out rest inn hrest hinn
          have hroll : roll sum out inn bs = weakChecksum (rest.take bs) := by
            rw [hrest] at hsum hinn
            rw [hsum, roll_window hbs hinn]
          obtain ⟨hspells, hle⟩ := ih (h.slide hrest) hroll
          refine ⟨hspells, hle.trans ?_⟩
          rw [hrest]
          simp
        · exact ⟨h, le_refl _⟩

structure Encoded (basis : Bytes) (bs : ℕ) (target : Bytes) (s : EncodeState) : Prop where
  text : expand basis bs s.ops ++ s.lit = target
  copies : ∀ i, Op.copy i ∈ s.ops → i * bs < basis.length
  count : s.ops.length * bs ≤ 2 * target.length + 2 * bs

theorem Spells.encoded (h : Spells basis bs target s) (hrest : s.rest = []) :
    Encoded basis bs target s := by
  refine ⟨?_, h.copies, ?_⟩
  · rw [← h.text, hrest, List.append_nil]
  · have hcount := h.count
    omega

theorem encodeTail_encoded (hbs : 0 < bs) (hmd5 : Distinguishes md5 bs basis target)
    (h : Spells basis bs target s) (hlen : s.rest.length < bs) :
    Encoded basis bs target (encodeTail md5 (signBytes md5 basis bs) s) := by
  unfold encodeTail
  dsimp only
  split
  · rename_i bi hfound
    split at hfound
    · exact absurd hfound (by simp)
    · obtain ⟨hbi, hweak, hstrong⟩ := findBlock_some hbs hfound
      have hblock := hmd5 bi s.rest hbi (Or.inr ⟨hlen, h.suffix⟩) hweak hstrong
      refine ⟨?_, hit_copies h.copies hbi, ?_⟩
      · have htext := hit_text h.text bi s.rest.length (by simpa using hblock)
        simpa [EncodeState.hit] using htext
      · have hcount := h.count
        have hflush := Nat.mul_le_mul_right bs (flushLit_length s.ops s.lit)
        simp only [EncodeState.hit, List.length_append, List.length_singleton, Nat.add_mul,
          Nat.one_mul] at hflush ⊢
        omega
  · refine ⟨?_, h.copies, ?_⟩
    · rw [← h.text, List.append_assoc]
    · have hcount := h.count
      dsimp only
      omega

/-- The outer loop consumes at least a byte an iteration, so as much fuel as
there are bytes left is enough. -/
theorem encodeLoop_encoded (hbs : 0 < bs) (hmd5 : Distinguishes md5 bs basis target) (fuel : ℕ)
    (h : Spells basis bs target s) (hfuel : s.rest.length ≤ fuel) :
    Encoded basis bs target (encodeLoop md5 (signBytes md5 basis bs) bs fuel s) := by
  induction fuel generalizing s with
  | zero => exact h.encoded (List.length_eq_zero_iff.mp (by omega))
  | succ fuel ih =>
    unfold encodeLoop
    split
    · rename_i hrest
      exact h.encoded hrest
    · rename_i c rest hrest
      rw [hrest, List.length_cons] at hfuel
      split
      · rename_i hlen
        exact encodeTail_encoded hbs hmd5 h hlen
      · rename_i hlen
        split
        · rename_i bi hfound
          apply ih (full_match hbs hmd5 h (by omega) hfound)
          simp only [EncodeState.hit, List.length_drop, hrest, List.length_cons]
          omega
        · dsimp only
          split
          · obtain ⟨hspells, hle⟩ := rollSearch_spells hbs hmd5 rest.length (h.slide hrest) rfl
            exact ih hspells (hle.trans (by dsimp only; omega))
          · exact ih (h.slide hrest) (by dsimp only; omega)

/-- The delta of a target spells it, copies blocks of the basis only, and has
about two ops a block at most. -/
theorem encodeBytes_spec (hbs : 0 < bs) (hmd5 : Distinguishes md5 bs basis target) :
    let d := encodeBytes md5 (signBytes md5 basis bs) target
    d.blockSize = bs ∧ d.outputSize = target.length ∧ expand basis bs d.ops = target ∧
      (∀ i, Op.copy i ∈ d.ops → i * bs < basis.length) ∧
      d.ops.length * bs ≤ 2 * target.length + 3 * bs := by
  have hsize : (signBytes md5 basis bs).blockSize = bs := if_neg hbs.ne'
  have hstart : Spells basis bs target ⟨target, [], []⟩ :=
    ⟨by simp [expand], by simp, by simp⟩
  have hend := encodeLoop_encoded hbs hmd5 target.length hstart (le_refl _)
  simp only [encodeBytes, hsize, if_neg hbs.ne', true_and]
  refine ⟨?_, ?_, ?_⟩
  · rw [expand_flushLit, hend.text]
  · intro i hi
    exact hend.copies i (mem_flushLit.mp hi)
  · have hcount := hend.count
    have hflush := Nat.mul_le_mul_right bs (flushLit_length
      (encodeLoop md5 (signBytes md5 basis bs) bs target.length ⟨target, [], []⟩).ops
      (encodeLoop md5 (signBytes md5 basis bs) bs target.length ⟨target, [], []⟩).lit)
    rw [Nat.add_mul] at hflush
    omega

end Encoder

section Decoder
variable {basis : Bytes} {bs outputSize : ℕ}

/-- The slice between two offsets inside the basis. -/
theorem slice_ok (start stop : ℕ) (hle : start ≤ stop) (hstop : stop ≤ basis.length) :
    slice basis start stop = .ok ((basis.drop start).take (stop - start)) := by
  unfold slice
  rw [if_pos (by omega)]
  congr 2
  omega

/-- A copy whose offset lies in the basis yields the block. -/
theorem opBytes_copy (hbasis : basis.length < 2 ^ 62) (hbs : bs < 2 ^ 62) {i : ℕ}
    (hi : i * bs ≤ basis.length) :
    opBytes basis bs (.copy i) = .ok (blockAt basis bs i) := by
  have hprod : (i : ℤ) * bs = ((i * bs : ℕ) : ℤ) := by push_cast; rfl
  simp only [opBytes, copyRange, hprod, blockAt]
  generalize i * bs = start at hi
  have hstart : wrap64 (start : ℤ) = start := wrap64_eq_self (by omega) (by omega)
  have hstop : wrap64 ((start : ℤ) + bs) = (start : ℤ) + bs :=
    wrap64_eq_self (by omega) (by omega)
  have hmin : min ((start : ℤ) + bs) basis.length = ((min (start + bs) basis.length : ℕ) : ℤ) := by
    omega
  rw [hstart, hstop, hmin, if_neg (by omega), slice_ok start _ (by omega) (by omega)]
  refine congrArg Outcome.ok ?_
  rw [List.take_eq_take_iff, List.length_drop]
  omega

/-- Ops whose copies lie in the basis and whose text fits are all carried out. -/
theorem applyLoop_expand (outputSize : ℕ) (hbasis : basis.length < 2 ^ 62) (hbs : bs < 2 ^ 62)
    (ops : List Op)
    (hcopies : ∀ i, Op.copy i ∈ ops → i * bs ≤ basis.length) (out : Bytes)
    (hlen : (out ++ expand basis bs ops).length ≤ outputSize) :
    applyLoop basis bs outputSize out ops = .ok (out ++ expand basis bs ops) := by
  induction ops generalizing out with
  | nil => simp [applyLoop, expand]
  | cons op rest ih =>
    have htext : expand basis bs (op :: rest) = opText basis bs op ++ expand basis bs rest := by
      simp [expand]
    have hop : opBytes basis bs op = .ok (opText basis bs op) := by
      cases op with
      | literal data => rfl
      | copy i => exact opBytes_copy hbasis hbs (hcopies i (by simp))
    rw [htext, ← List.append_assoc] at hlen ⊢
    have hfits : ¬ (out ++ opText basis bs op).length > outputSize := by
      rw [List.length_append] at hlen
      omega
    simp only [applyLoop, hop, if_neg hfits]
    exact ih (fun i hi => hcopies i (by simp [hi])) _ hlen

/-- Applying a delta whose ops spell a target of the declared size. -/
theorem apply_expand {d : Delta} {target : Bytes} (hbasis : basis.length < 2 ^ 62)
    (hpos : 0 < d.blockSize) (hbs : d.blockSize < 2 ^ 62)
    (hcopies : ∀ i, Op.copy i ∈ d.ops → i * d.blockSize ≤ basis.length)
    (htext : expand basis d.blockSize d.ops = target) (hsize : d.outputSize = target.length)
    (hmax : target.length ≤ maxOutputSize) :
    DeltaBlocks.apply basis d = .ok target := by
  have heff : d.effectiveBlockSize = d.blockSize := if_neg hpos.ne'
  have hloop := applyLoop_expand d.outputSize hbasis hbs d.ops hcopies []
    (by simp [htext, hsize])
  rw [htext, List.nil_append] at hloop
  unfold DeltaBlocks.apply
  rw [if_neg (by omega), heff, hloop]
  simp [hsize]

end Decoder

end TailSync.DeltaReplay

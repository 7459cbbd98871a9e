import TailSync.DeltaWire

/-!
Deltas as they travel between two nodes. An honest exchange of signature and
delta rebuilds the target. A delta from an untrusted peer is applied without a
panic exactly when no copy that Apply gets to has an offset of 2^63 or more: the
product of a 32-bit block index and a 32-bit block size wraps to a negative
offset, which the one-sided range check lets through to the slice expression.
-/
namespace TailSync.DeltaTransfers

open ByteStrings MachineInts DeltaBlocks DeltaReplay DeltaWire

section Pipeline
variable {md5 : Bytes → Digest 16} {basis target : Bytes} {bs : ℕ}

/-- The signature of a file of supported size fits the reader's limits. -/
theorem signature_travels (hbasis : basis.length ≤ maxOutputSize) (hlo : 256 ≤ bs)
    (hhi : bs ≤ 2 ^ 20) :
    unmarshalSignature (marshalSignature (signBytes md5 basis bs)) =
      .ok (signBytes md5 basis bs) := by
  have hpos : 0 < bs := by omega
  have hsize : (signBytes md5 basis bs).blockSize = bs := if_neg hpos.ne'
  have hlen := signBytes_length md5 hpos basis
  unfold maxOutputSize at hbasis
  have hblocks : (signBytes md5 basis bs).blocks.length ≤ 2 ^ 24 := by
    have hmul := Nat.mul_le_mul_left (signBytes md5 basis bs).blocks.length hlo
    omega
  apply unmarshalSignature_marshalSignature
  · rw [hsize]
    omega
  · exact hblocks
  · intro b hb
    obtain ⟨i, hi⟩ := List.getElem?_of_mem hb
    have hlt := (List.getElem?_eq_some_iff.mp hi).1
    rw [(signBytes_getElem hpos basis hi).2]
    dsimp only
    omega

theorem literal_length_le (basis : Bytes) (bs : ℕ) {ops : List Op} {data : Bytes}
    (h : Op.literal data ∈ ops) : data.length ≤ (expand basis bs ops).length := by
  obtain ⟨pre, post, rfl⟩ := List.append_of_mem h
  simp only [expand, List.flatMap_append, List.flatMap_cons, opText, List.length_append]
  omega

/-- The delta of a file of supported size fits the reader's limits. -/
theorem delta_travels (hbasis : basis.length ≤ maxOutputSize)
    (htarget : target.length ≤ maxOutputSize) (hlo : 256 ≤ bs) (hhi : bs ≤ 2 ^ 20)
    (hmd5 : Distinguishes md5 bs basis target) :
    unmarshalDelta (marshalDelta (encodeBytes md5 (signBytes md5 basis bs) target)) =
      .ok (encodeBytes md5 (signBytes md5 basis bs) target) := by
  have hpos : 0 < bs := by omega
  obtain ⟨hsize, hout, htext, hcopies, hcount⟩ := encodeBytes_spec hpos hmd5
  unfold maxOutputSize at hbasis htarget
  apply unmarshalDelta_marshalDelta
  · rw [hsize]
    omega
  · rw [hout]
    exact htarget
  · have hmul := Nat.mul_le_mul_left
      (encodeBytes md5 (signBytes md5 basis bs) target).ops.length hlo
    unfold maxDecodeOps
    omega
  · intro op hop
    cases op with
    | literal data =>
      have hle := literal_length_le basis bs hop
      rw [htext] at hle
      simp only [Op.Fits]
      omega
    | copy i =>
      have hlt := hcopies i hop
      have hmul := Nat.mul_le_mul_left i hlo
      simp only [Op.Fits]
      omega

/-- Signature, delta and their wire forms together rebuild the target: no step
fails, and Apply returns exactly the target's bytes. -/
theorem pipeline_rebuilds_target (md5 : Bytes → Digest 16) (basis target : Bytes) (bs : ℕ)
    (hbasis : basis.length ≤ 64 * 2 ^ 20) (htarget : target.length ≤ 64 * 2 ^ 20)
    (hlo : 256 ≤ bs) (hhi : bs ≤ 2 ^ 20) (hmd5 : Distinguishes md5 bs basis target) :
    ∃ sig d, unmarshalSignature (marshalSignature (signBytes md5 basis bs)) = .ok sig ∧
      unmarshalDelta (marshalDelta (encodeBytes md5 sig target)) = .ok d ∧
      DeltaBlocks.apply basis d = .ok target := by
  have hpos : 0 < bs := by omega
  obtain ⟨hsize, hout, htext, hcopies, _⟩ := encodeBytes_spec hpos hmd5
  refine ⟨_, _, signature_travels hbasis hlo hhi, delta_travels hbasis htarget hlo hhi hmd5, ?_⟩
  apply apply_expand
  · omega
  · rw [hsize]
    exact hpos
  · rw [hsize]
    omega
  · intro i hi
    rw [hsize]
    exact (hcopies i hi).le
  · rw [hsize]
    exact htext
  · exact hout
  · exact htarget

/-- A window of the target is the start of one of its tails. -/
theorem exists_tail_of_window {w : Bytes} (h : Window bs target w) :
    ∃ v ∈ target.tails, w = v.take bs := by
  rcases h with ⟨hlen, hinfix⟩ | ⟨hlen, hsuffix⟩
  · obtain ⟨v, hstart, hv⟩ := List.infix_iff_prefix_suffix.mp hinfix
    refine ⟨v, (List.mem_tails v target).mpr hv, ?_⟩
    rw [← hlen]
    exact List.prefix_iff_eq_take.mp hstart
  · exact ⟨w, (List.mem_tails w target).mpr hsuffix, (List.take_of_length_le hlen.le).symm⟩

/-- With one block in the basis, weak sums that tell it from the tails of the target do. -/
theorem distinguishes_of_tails (hbasis : basis.length ≤ bs)
    (h : ∀ v ∈ target.tails, weakChecksum (blockAt basis bs 0) = weakChecksum (v.take bs) →
      blockAt basis bs 0 = v.take bs) : Distinguishes md5 bs basis target := by
  intro i w hi hwindow hweak _
  obtain rfl : i = 0 := by
    by_contra hne
    have hmul := Nat.le_mul_of_pos_left bs (Nat.pos_of_ne_zero hne)
    omega
  obtain ⟨v, hv, rfl⟩ := exists_tail_of_window hwindow
  exact h v hv hweak

def wholeBlock : Bytes := List.replicate 256 1

theorem wholeBlock_length : wholeBlock.length = 256 := List.length_replicate

theorem wholeBlock_distinguishes :
    Distinguishes (paddedDigest 16) 256 wholeBlock (9 :: wholeBlock) :=
  distinguishes_of_tails wholeBlock_length.le (by decide +kernel)

/-- A byte put in front of a block: the delta copies the block. -/
theorem pipeline_rebuilds_grown :
    encodeBytes (paddedDigest 16) (signBytes (paddedDigest 16) wholeBlock 256) (9 :: wholeBlock) =
        ⟨256, [.literal [9], .copy 0], 257⟩ ∧
      ∃ sig d, unmarshalSignature
          (marshalSignature (signBytes (paddedDigest 16) wholeBlock 256)) = .ok sig ∧
        unmarshalDelta (marshalDelta (encodeBytes (paddedDigest 16) sig (9 :: wholeBlock))) =
          .ok d ∧
        DeltaBlocks.apply wholeBlock d = .ok (9 :: wholeBlock) :=
  ⟨by decide +kernel, pipeline_rebuilds_target (paddedDigest 16) wholeBlock (9 :: wholeBlock) 256
    (by rw [wholeBlock_length]; decide) (by rw [List.length_cons, wholeBlock_length]; decide)
    le_rfl (by decide) wholeBlock_distinguishes⟩

end Pipeline

section Untrusted
variable {basis : Bytes} {bs outputSize : ℕ}

/-- An offset of 2^63 or more is negative as an int, so the slice panics. -/
theorem opBytes_copy_high {i : ℕ} (hlo : 2 ^ 63 ≤ i * bs) (hhi : i * bs < 2 ^ 64) :
    opBytes basis bs (.copy i) = .panic := by
  have hprod : (i : ℤ) * bs = ((i * bs : ℕ) : ℤ) := by push_cast; rfl
  simp only [opBytes, copyRange, hprod]
  generalize i * bs = start at hlo hhi
  rw [wrap64_of_high (by omega) (by omega)]
  unfold slice
  rw [if_neg (by omega), if_neg (by omega)]

theorem opBytes_copy_far {i : ℕ} (hlo : basis.length < i * bs) (hhi : i * bs < 2 ^ 63) :
    opBytes basis bs (.copy i) = .err (.copyOutOfRange i) := by
  have hprod : (i : ℤ) * bs = ((i * bs : ℕ) : ℤ) := by push_cast; rfl
  simp only [opBytes, copyRange, hprod]
  generalize i * bs = start at hlo hhi
  rw [wrap64_eq_self (by omega) (by omega), if_pos (by omega)]

/-- The three ways an op ends. -/
theorem opBytes_cases (hbasis : basis.length ≤ maxAlloc) (hbs : bs < 2 ^ 32) (op : Op)
    (hindex : ∀ i, op = .copy i → i < 2 ^ 32) :
    (∃ i, op = .copy i ∧ 2 ^ 63 ≤ i * bs ∧ opBytes basis bs op = .panic) ∨
    (∃ i, op = .copy i ∧ basis.length < i * bs ∧ i * bs < 2 ^ 63 ∧
      opBytes basis bs op = .err (.copyOutOfRange i)) ∨
    ((∀ i, op = .copy i → i * bs ≤ basis.length) ∧
      opBytes basis bs op = .ok (opText basis bs op)) := by
  cases op with
  | literal data => exact Or.inr (Or.inr ⟨by simp, rfl⟩)
  | copy i =>
    have hi := hindex i rfl
    have hprod : i * bs < 2 ^ 64 := by
      calc i * bs ≤ (2 ^ 32 - 1) * (2 ^ 32 - 1) := Nat.mul_le_mul (by omega) (by omega)
        _ < 2 ^ 64 := by omega
    by_cases hhigh : 2 ^ 63 ≤ i * bs
    · exact Or.inl ⟨i, rfl, hhigh, opBytes_copy_high hhigh hprod⟩
    · by_cases hfar : basis.length < i * bs
      · exact Or.inr (Or.inl ⟨i, rfl, hfar, by omega, opBytes_copy_far hfar (by omega)⟩)
      · unfold maxAlloc at hbasis
        refine Or.inr (Or.inr ⟨?_, opBytes_copy (by omega) (by omega) (by omega)⟩)
        intro j hj
        cases hj
        omega

/-- Apply carries these ops out after some output: copies start inside the basis
and the output stays within the declared size. -/
structure Carried (basis : Bytes) (bs outputSize : ℕ) (out : Bytes) (ops : List Op) : Prop where
  inside : ∀ i, Op.copy i ∈ ops → i * bs ≤ basis.length
  fits : (out ++ expand basis bs ops).length ≤ outputSize

/-- Apply gets to a copy whose offset is not below 2^63. -/
def ReachesHighCopy (basis : Bytes) (bs outputSize : ℕ) (out : Bytes) (ops : List Op) : Prop :=
  ∃ pre i post, ops = pre ++ .copy i :: post ∧ Carried basis bs outputSize out pre ∧
    2 ^ 63 ≤ i * bs

theorem expand_cons (basis : Bytes) (bs : ℕ) (op : Op) (rest : List Op) :
    expand basis bs (op :: rest) = opText basis bs op ++ expand basis bs rest := by
  simp [expand]

theorem carried_cons {out : Bytes} {op : Op} {rest : List Op} :
    Carried basis bs outputSize out (op :: rest) ↔
      (∀ i, op = .copy i → i * bs ≤ basis.length) ∧
        Carried basis bs outputSize (out ++ opText basis bs op) rest := by
  constructor
  · rintro ⟨hinside, hfits⟩
    rw [expand_cons, ← List.append_assoc] at hfits
    exact ⟨fun i hi => hinside i (by simp [hi]), fun i hi => hinside i (by simp [hi]), hfits⟩
  · rintro ⟨hop, hinside, hfits⟩
    refine ⟨?_, by rwa [expand_cons, ← List.append_assoc]⟩
    intro i hi
    rcases List.mem_cons.mp hi with heq | hi
    · exact hop i heq.symm
    · exact hinside i hi

theorem reachesHighCopy_cons {out : Bytes} {op : Op} {rest : List Op} :
    ReachesHighCopy basis bs outputSize out (op :: rest) ↔
      (out.length ≤ outputSize ∧ ∃ i, op = .copy i ∧ 2 ^ 63 ≤ i * bs) ∨
      ((∀ i, op = .copy i → i * bs ≤ basis.length) ∧
        ReachesHighCopy basis bs outputSize (out ++ opText basis bs op) rest) := by
  constructor
  · rintro ⟨pre, i, post, heq, hcarried, hhigh⟩
    cases pre with
    | nil =>
      obtain ⟨rfl, rfl⟩ := List.cons.inj heq
      exact Or.inl ⟨by simpa [expand] using hcarried.fits, i, rfl, hhigh⟩
    | cons op' pre =>
      obtain ⟨rfl, hrest⟩ := List.cons.inj heq
      obtain ⟨hop, hpre⟩ := carried_cons.mp hcarried
      exact Or.inr ⟨hop, pre, i, post, hrest, hpre, hhigh⟩
  · rintro (⟨hlen, i, rfl, hhigh⟩ | ⟨hop, pre, i, post, rfl, hcarried, hhigh⟩)
    · exact ⟨[], i, rest, rfl, ⟨by simp, by simpa [expand] using hlen⟩, hhigh⟩
    · exact ⟨op :: pre, i, post, rfl, carried_cons.mpr ⟨hop, hcarried⟩, hhigh⟩

/-- Nothing is reached once the output is too long. -/
theorem ReachesHighCopy.length_le {out : Bytes} {ops : List Op}
    (h : ReachesHighCopy basis bs outputSize out ops) : out.length ≤ outputSize := by
  obtain ⟨pre, _, _, _, hcarried, _⟩ := h
  have hfits := hcarried.fits
  rw [List.length_append] at hfits
  omega

theorem applyLoop_cons_panic (out : Bytes) {op : Op} (rest : List Op)
    (hop : opBytes basis bs op = .panic) :
    applyLoop basis bs outputSize out (op :: rest) = .panic := by
  simp only [applyLoop, hop]

theorem applyLoop_cons_err (out : Bytes) {op : Op} (rest : List Op) {e : ApplyError}
    (hop : opBytes basis bs op = .err e) :
    applyLoop basis bs outputSize out (op :: rest) = .err e := by
  simp only [applyLoop, hop]

theorem applyLoop_cons_ok (out : Bytes) {op : Op} (rest : List Op) {data : Bytes}
    (hop : opBytes basis bs op = .ok data) :
    applyLoop basis bs outputSize out (op :: rest) =
      if (out ++ data).length > outputSize then .err .exceedsDeclared
      else applyLoop basis bs outputSize (out ++ data) rest := by
  simp only [applyLoop, hop]

/-- The loop of Apply panics exactly when it gets to such a copy. -/
theorem applyLoop_panic_iff (hbasis : basis.length ≤ maxAlloc) (hbs : bs < 2 ^ 32)
    (ops : List Op) (hindex : ∀ i, Op.copy i ∈ ops → i < 2 ^ 32) (out : Bytes)
    (hout : out.length ≤ outputSize) :
    applyLoop basis bs outputSize out ops = .panic ↔
      ReachesHighCopy basis bs outputSize out ops := by
  induction ops generalizing out with
  | nil =>
    constructor
    · intro h
      exact absurd h (by simp [applyLoop])
    · rintro ⟨pre, i, post, heq, _, _⟩
      exact absurd heq (by simp)
  | cons op rest ih =>
    have hrest : ∀ i, Op.copy i ∈ rest → i < 2 ^ 32 := fun i hi => hindex i (by simp [hi])
    have hcases := opBytes_cases hbasis hbs op fun i hi => hindex i (by simp [hi])
    rw [reachesHighCopy_cons]
    rcases hcases with ⟨i, hcopy, hhigh, hop⟩ | ⟨i, hcopy, hfar, hlow, hop⟩ | ⟨hinside, hop⟩
    · exact ⟨fun _ => Or.inl ⟨hout, i, hcopy, hhigh⟩, fun _ => applyLoop_cons_panic out rest hop⟩
    · rw [applyLoop_cons_err out rest hop]
      constructor
      · intro h
        exact absurd h (by simp)
      · rintro (⟨_, j, hj, hhigh⟩ | ⟨hinside, _⟩)
        · cases hcopy.symm.trans hj
          omega
        · have hle := hinside i hcopy
          omega
    · rw [applyLoop_cons_ok out rest hop]
      constructor
      · intro h
        split at h
        · exact absurd h (by simp)
        · exact Or.inr ⟨hinside, (ih hrest _ (by omega)).mp h⟩
      · rintro (⟨_, i, hcopy, hhigh⟩ | ⟨_, hreach⟩)
        · have hle := hinside i hcopy
          unfold maxAlloc at hbasis
          omega
        · have hlen := hreach.length_le
          rw [if_neg (by omega)]
          exact (ih hrest _ hlen).mpr hreach

/-- Ops that the loop gets through are carried out. -/
theorem applyLoop_ok_carried (hbasis : basis.length ≤ maxAlloc) (hbs : bs < 2 ^ 32)
    (ops : List Op) (hindex : ∀ i, Op.copy i ∈ ops → i < 2 ^ 32) {out res : Bytes}
    (hout : out.length ≤ outputSize) (h : applyLoop basis bs outputSize out ops = .ok res) :
    Carried basis bs outputSize out ops := by
  induction ops generalizing out with
  | nil => exact ⟨by simp, by simpa [expand] using hout⟩
  | cons op rest ih =>
    have hrest : ∀ i, Op.copy i ∈ rest → i < 2 ^ 32 := fun i hi => hindex i (by simp [hi])
    have hcases := opBytes_cases hbasis hbs op fun i hi => hindex i (by simp [hi])
    rcases hcases with ⟨i, _, _, hop⟩ | ⟨i, _, _, _, hop⟩ | ⟨hinside, hop⟩
    · rw [applyLoop_cons_panic out rest hop] at h
      exact absurd h (by simp)
    · rw [applyLoop_cons_err out rest hop] at h
      exact absurd h (by simp)
    · rw [applyLoop_cons_ok out rest hop] at h
      split at h
      · exact absurd h (by simp)
      · exact carried_cons.mpr ⟨hinside, ih hrest (by omega) h⟩

/-- A range that starts inside the basis ends inside it. -/
theorem copyRange_inside (hbasis : basis.length ≤ maxAlloc) (hbs : bs < 2 ^ 32) {i : ℕ}
    (hlow : i * bs < 2 ^ 63) (hstart : (copyRange basis bs i).1 ≤ basis.length) :
    0 ≤ (copyRange basis bs i).1 ∧ (copyRange basis bs i).1 ≤ (copyRange basis bs i).2 ∧
      (copyRange basis bs i).2 ≤ basis.length := by
  have hprod : (i : ℤ) * bs = ((i * bs : ℕ) : ℤ) := by push_cast; rfl
  simp only [copyRange, hprod] at hstart ⊢
  generalize i * bs = start at hlow hstart
  rw [wrap64_eq_self (by omega) (by omega)] at hstart ⊢
  unfold maxAlloc at hbasis
  rw [wrap64_eq_self (by omega) (by omega)]
  omega

theorem effectiveBlockSize_lt {d : Delta} (h : d.blockSize < 2 ^ 32) :
    d.effectiveBlockSize < 2 ^ 32 := by
  unfold Delta.effectiveBlockSize defaultBlockSize
  split <;> omega

theorem apply_ok_length {d : Delta} {out : Bytes} (h : DeltaBlocks.apply basis d = .ok out) :
    out.length = d.outputSize := by
  unfold DeltaBlocks.apply at h
  split at h
  · exact absurd h (by simp)
  · split at h
    · split at h
      · exact absurd h (by simp)
      · rename_i hlen
        cases h
        simpa using hlen
    · exact absurd h (by simp)
    · exact absurd h (by simp)

theorem apply_panic_iff (basis : Bytes) {d : Delta} (hsize : d.outputSize ≤ maxOutputSize) :
    DeltaBlocks.apply basis d = .panic ↔
      applyLoop basis d.effectiveBlockSize d.outputSize [] d.ops = .panic := by
  unfold DeltaBlocks.apply
  rw [if_neg (by omega)]
  cases applyLoop basis d.effectiveBlockSize d.outputSize [] d.ops with
  | ok out =>
    dsimp only
    split <;> simp
  | err e => simp
  | panic => simp

/-- Applying a delta that UnmarshalDelta accepted returns an error or a result of
the declared size, with every slice inside the basis, exactly when Apply gets to
no copy whose block index times block size is 2^63 or more. -/
theorem apply_untrusted_safe_iff (raw basis : Bytes) (d : Delta)
    (hraw : unmarshalDelta raw = .ok d) (hbasis : basis.length ≤ maxAlloc) :
    (((∃ e, DeltaBlocks.apply basis d = .err e) ∨
        ∃ out, DeltaBlocks.apply basis d = .ok out ∧ out.length = d.outputSize) ∧
      ∀ pre i post out, d.ops = pre ++ .copy i :: post →
        applyLoop basis d.effectiveBlockSize d.outputSize [] pre = .ok out →
        (copyRange basis d.effectiveBlockSize i).1 ≤ basis.length →
        0 ≤ (copyRange basis d.effectiveBlockSize i).1 ∧
          (copyRange basis d.effectiveBlockSize i).1 ≤
            (copyRange basis d.effectiveBlockSize i).2 ∧
          (copyRange basis d.effectiveBlockSize i).2 ≤ basis.length) ↔
    ¬ ReachesHighCopy basis d.effectiveBlockSize d.outputSize [] d.ops := by
  obtain ⟨hsize, hout, hindex⟩ := unmarshalDelta_ok hraw
  have hbs := effectiveBlockSize_lt hsize
  have hpanic := (apply_panic_iff basis hout).trans
    (applyLoop_panic_iff hbasis hbs d.ops hindex [] (by simp))
  constructor
  · rintro ⟨hreturns, _⟩ hreach
    have hp := hpanic.mpr hreach
    rcases hreturns with ⟨e, he⟩ | ⟨out, hok, _⟩
    · rw [hp] at he
      exact absurd he (by simp)
    · rw [hp] at hok
      exact absurd hok (by simp)
  · intro hnot
    refine ⟨?_, ?_⟩
    · cases happly : DeltaBlocks.apply basis d with
      | ok out => exact Or.inr ⟨out, rfl, apply_ok_length happly⟩
      | err e => exact Or.inl ⟨e, rfl⟩
      | panic => exact absurd (hpanic.mp happly) hnot
    · intro pre i post out hops hpre hstart
      have hcarried := applyLoop_ok_carried hbasis hbs pre
        (fun j hj => hindex j (by simp [hops, hj])) (by simp) hpre
      apply copyRange_inside hbasis hbs _ hstart
      by_contra hhigh
      exact hnot ⟨pre, i, post, hops, hcarried, by omega⟩

theorem apply_untrusted_safe_small :
    (∃ e, DeltaBlocks.apply [5, 6, 7] ⟨2, [.copy 1, .literal [9]], 2⟩ = .err e) ∨
      ∃ out, DeltaBlocks.apply [5, 6, 7] ⟨2, [.copy 1, .literal [9]], 2⟩ = .ok out ∧
        out.length = 2 := by
  refine ((apply_untrusted_safe_iff (marshalDelta ⟨2, [.copy 1, .literal [9]], 2⟩) [5, 6, 7]
    ⟨2, [.copy 1, .literal [9]], 2⟩ (by decide +kernel) (by decide)).mpr ?_).1
  rintro ⟨pre, i, post, hops, _, hhigh⟩
  have hmem : Op.copy i ∈ (⟨2, [.copy 1, .literal [9]], 2⟩ : Delta).ops := by
    rw [hops]
    simp
  obtain rfl : i = 1 := by simpa using hmem
  exact absurd hhigh (by decide)

def wrappingDelta : Bytes :=
  deltaMagic ++ leBytes 4 (2 ^ 32 - 1) ++ leBytes 8 0 ++ leBytes 4 1 ++
    (1 :: leBytes 4 (2 ^ 32 - 1))

/-- UnmarshalDelta accepts it and Apply panics on any basis, here the empty one. -/
theorem wrappingDelta_panics :
    unmarshalDelta wrappingDelta = .ok ⟨2 ^ 32 - 1, [.copy (2 ^ 32 - 1)], 0⟩ ∧
      DeltaBlocks.apply [] ⟨2 ^ 32 - 1, [.copy (2 ^ 32 - 1)], 0⟩ = .panic := by
  decide +kernel

end Untrusted

end TailSync.DeltaTransfers

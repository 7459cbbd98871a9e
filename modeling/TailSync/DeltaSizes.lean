import TailSync.DeltaTransfers
import TailSync.PlainSearch

/-!
What a delta costs at worst, whatever the signature says. Each copy takes five bytes
on the wire and each literal run five more than its bytes. A copy in the middle of the
target stands for a whole block, and one of a short block ends the target and has at
least a block less one byte if a literal run stands in front of it. So with blocks of ten
bytes or more a delta is never longer than the target by more than the header and one op.
It follows that the delta of a file within the limits passes the limits of the reader,
and that no copy in it has an offset that Apply cannot handle, even if strong sums collide.
-/
namespace TailSync.DeltaSizes

open ByteStrings MachineInts DeltaBlocks DeltaWire PlainSearch DeltaTransfers

def wireLength (ops : List Op) : ℕ := (ops.flatMap marshalOp).length

theorem wireLength_append (xs ys : List Op) :
    wireLength (xs ++ ys) = wireLength xs + wireLength ys := by
  simp [wireLength]

theorem wireLength_copy (bi : ℕ) (ops : List Op) :
    wireLength (.copy bi :: ops) = 5 + wireLength ops := by
  simp only [wireLength, List.flatMap_cons, marshalOp, List.length_append, List.length_cons,
    leBytes_length]

theorem wireLength_literalRun_le (lit : Bytes) : wireLength (literalRun lit) ≤ lit.length + 5 := by
  rcases literalRun_cases lit with h | ⟨_, h⟩
  · simp [h, wireLength]
  · simp only [h, wireLength, List.flatMap_cons, List.flatMap_nil, marshalOp, List.length_append,
      List.length_cons, leBytes_length, List.length_nil]
    omega

/-- From any position on, the plain encoder emits at most five bytes more than the literal it
has collected and the bytes that no copy covers yet. A literal is only collected while there
was a whole block left. -/
theorem plainFrom_wireLength (md5 : Bytes → Digest 16) (sig : Signature) {bs : ℕ} (hbs : 10 ≤ bs)
    {n : ℕ} {lit rest : Bytes} (hlit : lit = [] ∨ n = 0 ∧ bs ≤ rest.length + 1) :
    wireLength (plainFrom md5 sig bs n lit rest) ≤ lit.length + (rest.length - n) + 5 := by
  induction rest generalizing n lit with
  | nil =>
    have hrun := wireLength_literalRun_le lit
    cases n <;> simp only [plainFrom, List.length_nil] <;> omega
  | cons c tail ih =>
    cases n with
    | succ n =>
      have hempty : lit = [] := hlit.resolve_right (by simp)
      have hih := @ih n lit (Or.inl hempty)
      rw [plainFrom, List.length_cons]
      omega
    | zero =>
      have hrun := wireLength_literalRun_le lit
      have hnone : lit = [] → wireLength (literalRun lit) = 0 := by
        rintro rfl
        rfl
      rw [plainFrom]
      simp only [List.length_cons] at hlit ⊢
      split
      · -- fewer bytes than a block are left, and the delta ends here
        split
        · rw [wireLength_append, wireLength_copy]
          simp only [wireLength, List.flatMap_nil, List.length_nil] at hrun hnone ⊢
          rcases hlit with hempty | ⟨_, hlong⟩
          · rw [hnone hempty]
            omega
          · omega
        · have hlast := wireLength_literalRun_le (lit ++ c :: tail)
          simp only [List.length_append, List.length_cons] at hlast
          omega
      · split
        · have hih := @ih (bs - 1) [] (Or.inl rfl)
          rw [wireLength_append, wireLength_copy]
          simp only [List.length_nil] at hih
          omega
        · have hih := @ih 0 (lit ++ [c]) (Or.inr ⟨rfl, by omega⟩)
          simp only [List.length_append, List.length_cons, List.length_nil] at hih
          omega

section Encoded
variable {md5 : Bytes → Digest 16} {sig : Signature} {target : Bytes}

theorem encodeBytes_wireLength (md5 : Bytes → Digest 16) (hbs : 10 ≤ sig.blockSize)
    (target : Bytes) : wireLength (encodeBytes md5 sig target).ops ≤ target.length + 5 := by
  have hfrom := @plainFrom_wireLength md5 sig _ hbs 0 [] target (Or.inl rfl)
  rw [encodeBytes_ops (by omega), plainOps]
  simpa using hfrom

theorem marshalDelta_length (d : Delta) :
    (marshalDelta d).length = 20 + wireLength d.ops := by
  have hmagic : deltaMagic.length = 4 := by decide
  simp only [marshalDelta, wireLength, List.length_append, leBytes_length, hmagic]

theorem encodeBytes_header (md5 : Bytes → Digest 16) (hbs : 0 < sig.blockSize)
    (target : Bytes) :
    (encodeBytes md5 sig target).blockSize = sig.blockSize ∧
      (encodeBytes md5 sig target).outputSize = target.length := by
  simp [encodeBytes, hbs.ne']

theorem wireLength_ge (ops : List Op) : 5 * ops.length ≤ wireLength ops := by
  induction ops with
  | nil => simp
  | cons op ops ih =>
    have hop : 5 ≤ (marshalOp op).length := by
      cases op <;> simp only [marshalOp, List.length_cons, List.length_append, leBytes_length] <;>
        omega
    simp only [wireLength, List.flatMap_cons, List.length_append, List.length_cons] at ih ⊢
    omega

theorem literal_le_wireLength {ops : List Op} {data : Bytes} (h : Op.literal data ∈ ops) :
    data.length ≤ wireLength ops := by
  obtain ⟨pre, post, rfl⟩ := List.append_of_mem h
  rw [wireLength_append]
  simp only [wireLength, List.flatMap_cons, marshalOp, List.length_append, List.length_cons,
    leBytes_length]
  omega

/-- The delta of a file of supported size is read back unchanged, for any signature within the
limits of its own reader. -/
theorem encoded_travels (hlo : 256 ≤ sig.blockSize) (hhi : sig.blockSize ≤ 2 ^ 20)
    (hblocks : sig.blocks.length ≤ maxDecodeOps) (htarget : target.length ≤ maxOutputSize) :
    unmarshalDelta (marshalDelta (encodeBytes md5 sig target)) =
      .ok (encodeBytes md5 sig target) := by
  obtain ⟨hsize, hout⟩ := encodeBytes_header md5 (by omega : 0 < sig.blockSize) target
  have hwire := encodeBytes_wireLength md5 (by omega : 10 ≤ sig.blockSize) target
  have hcount := wireLength_ge (encodeBytes md5 sig target).ops
  unfold maxOutputSize at htarget
  apply unmarshalDelta_marshalDelta
  · omega
  · rw [hout]
    exact htarget
  · unfold maxDecodeOps
    omega
  · intro op hop
    cases op with
    | literal data =>
      have hle := literal_le_wireLength hop
      simp only [Op.Fits]
      omega
    | copy bi =>
      rw [encodeBytes_ops (by omega)] at hop
      have hlt := (plainFrom_shape md5 sig sig.blockSize 0 [] target).2 bi hop
      unfold maxDecodeOps at hblocks
      simp only [Op.Fits]
      omega

/-- Applying such a delta to any file ends with a result or an error. -/
theorem apply_encoded_ne_panic {basis : Bytes} (hlo : 256 ≤ sig.blockSize)
    (hhi : sig.blockSize ≤ 2 ^ 20) (hblocks : sig.blocks.length ≤ maxDecodeOps)
    (htarget : target.length ≤ maxOutputSize) (hbasis : basis.length ≤ maxAlloc) :
    DeltaBlocks.apply basis (encodeBytes md5 sig target) ≠ .panic := by
  obtain ⟨hsize, hout⟩ := encodeBytes_header md5 (by omega : 0 < sig.blockSize) target
  have hbs : (encodeBytes md5 sig target).effectiveBlockSize = sig.blockSize := by
    rw [Delta.effectiveBlockSize, hsize, if_neg (by omega)]
  have hcopies : ∀ i, Op.copy i ∈ (encodeBytes md5 sig target).ops → i < 2 ^ 24 := by
    intro i hi
    rw [encodeBytes_ops (by omega)] at hi
    have hlt := (plainFrom_shape md5 sig sig.blockSize 0 [] target).2 i hi
    unfold maxDecodeOps at hblocks
    omega
  rw [Ne, apply_panic_iff basis (by rw [hout]; exact htarget), hbs, applyLoop_panic_iff hbasis
    (by omega) _ (fun i hi => (hcopies i hi).trans (by omega)) [] (by simp)]
  rintro ⟨pre, i, post, hops, _, hhigh⟩
  have hi : i < 2 ^ 24 := hcopies i (by rw [hops]; simp)
  have hprod : i * sig.blockSize ≤ 2 ^ 24 * 2 ^ 20 := Nat.mul_le_mul hi.le hhi
  omega

end Encoded

/-- A delta costs at most 25 bytes more than sending the target, whatever signature it answers,
as long as the blocks have ten bytes or more. -/
theorem delta_overhead_le (md5 : Bytes → Digest 16) (sig : Signature) (target : Bytes)
    (hbs : 10 ≤ sig.blockSize) :
    (marshalDelta (encodeBytes md5 sig target)).length ≤ target.length + 25 := by
  have hwire := encodeBytes_wireLength md5 hbs target
  rw [marshalDelta_length]
  omega

def tenByteSignature : Signature :=
  ⟨10, [⟨0, weakChecksum (ascii "0123456789"), paddedDigest 16 (ascii "0123456789")⟩]⟩

/-- The bound is reached when every op stands for as little as it can. -/
theorem delta_overhead_reached :
    10 ≤ tenByteSignature.blockSize ∧
      (marshalDelta (encodeBytes (paddedDigest 16) tenByteSignature
        (ascii "a0123456789b"))).length = (ascii "a0123456789b").length + 25 := by
  have hle := delta_overhead_le (paddedDigest 16) tenByteSignature (ascii "a0123456789b")
    (by decide)
  exact ⟨by decide, le_antisymm hle (by decide +kernel)⟩

end TailSync.DeltaSizes

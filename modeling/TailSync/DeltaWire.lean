import TailSync.DeltaReplay

/-!
The binary forms of deltas and signatures of internal/delta/delta.go, with every
check of the two readers. What the writers produce is read back unchanged inside
the limits, and what a reader accepts has words in range. The limits are wide
enough for every transfer between files of the supported size, so a delta made
from a received signature and sent back is applied to exactly the target.
-/
namespace TailSync.DeltaWire

open ByteStrings MachineInts DeltaBlocks DeltaReplay

inductive DecodeError where
  | tooShort
  | badMagic
  | countLimit
  | outputSizeLimit
  | truncated
  | literalLength
  | unknownOpKind (kind : UInt8)
  deriving DecidableEq, Repr

def deltaMagic : Bytes := ascii "TSD1"
def signatureMagic : Bytes := ascii "TSS1"

def marshalOp : Op → Bytes
  | .literal data => 0 :: (leBytes 4 data.length ++ data)
  | .copy bi => 1 :: leBytes 4 bi

def marshalDelta (d : Delta) : Bytes :=
  deltaMagic ++ leBytes 4 d.blockSize ++ leBytes 8 d.outputSize ++ leBytes 4 d.ops.length ++
    d.ops.flatMap marshalOp

/-- The loop of UnmarshalDelta: n ops, then whatever is left is ignored. -/
def unmarshalOps : ℕ → Bytes → Except DecodeError (List Op)
  | 0, _ => .ok []
  | _ + 1, [] => .error .truncated
  | n + 1, kind :: data =>
      if kind = 0 then
        match readLe 4 data with
        | none => .error .truncated
        | some (len, rest) =>
            if len > rest.length then .error .literalLength
            else (unmarshalOps n (rest.drop len)).map (.literal (rest.take len) :: ·)
      else if kind = 1 then
        match readLe 4 data with
        | none => .error .truncated
        | some (bi, rest) => (unmarshalOps n rest).map (.copy bi :: ·)
      else .error (.unknownOpKind kind)

def unmarshalDelta (data : Bytes) : Except DecodeError Delta :=
  if data.length < 20 then .error .tooShort
  else if data.take 4 ≠ deltaMagic then .error .badMagic
  else
    let blockSize := fromLe ((data.drop 4).take 4)
    let outputSize := fromLe ((data.drop 8).take 8)
    let nOps := fromLe ((data.drop 16).take 4)
    if nOps > maxDecodeOps ∨ nOps > (data.drop 20).length then .error .countLimit
    else if outputSize > maxOutputSize then .error .outputSizeLimit
    else (unmarshalOps nOps (data.drop 20)).map fun ops => ⟨blockSize, ops, outputSize⟩

def marshalBlock (b : BlockChecksum) : Bytes :=
  leBytes 4 b.index ++ leBytes 4 b.weak.toNat ++ b.strong.val

def marshalSignature (sig : Signature) : Bytes :=
  signatureMagic ++ leBytes 4 sig.blockSize ++ leBytes 4 sig.blocks.length ++
    sig.blocks.flatMap marshalBlock

def unmarshalBlock (data : Bytes) : Option (BlockChecksum × Bytes) :=
  if h : (data.drop 8).length < 16 then none
  else some (⟨fromLe (data.take 4), UInt32.ofNat (fromLe ((data.drop 4).take 4)),
    ⟨(data.drop 8).take 16, by
      rw [List.length_take]
      omega⟩⟩, data.drop 24)

def unmarshalBlocks : ℕ → Bytes → Except DecodeError (List BlockChecksum)
  | 0, _ => .ok []
  | n + 1, data =>
      match unmarshalBlock data with
      | none => .error .truncated
      | some (b, rest) => (unmarshalBlocks n rest).map (b :: ·)

def unmarshalSignature (data : Bytes) : Except DecodeError Signature :=
  if data.length < 12 then .error .tooShort
  else if data.take 4 ≠ signatureMagic then .error .badMagic
  else
    let blockSize := fromLe ((data.drop 4).take 4)
    let nBlocks := fromLe ((data.drop 8).take 4)
    if nBlocks > maxDecodeOps ∨ nBlocks * 24 > (data.drop 12).length then .error .countLimit
    else (unmarshalBlocks nBlocks (data.drop 12)).map fun blocks => ⟨blockSize, blocks⟩

def Op.Fits : Op → Prop
  | .literal data => data.length < 2 ^ 32
  | .copy bi => bi < 2 ^ 32

theorem unmarshalOps_flatMap (ops : List Op) (hfits : ∀ op ∈ ops, Op.Fits op) :
    unmarshalOps ops.length (ops.flatMap marshalOp) = .ok ops := by
  induction ops with
  | nil => rfl
  | cons op rest ih =>
    have hrest := ih fun op' hop' => hfits op' (by simp [hop'])
    have hop := hfits op (by simp)
    cases op with
    | literal data =>
      have hread := readLe_append 4 data.length (by simpa [Op.Fits] using hop)
        (data ++ rest.flatMap marshalOp)
      simp only [List.length_cons, List.flatMap_cons, marshalOp, List.cons_append,
        List.append_assoc, unmarshalOps, if_true, hread]
      rw [if_neg (by simp)]
      simp [hrest, Except.map]
    | copy bi =>
      have hread := readLe_append 4 bi (by simpa [Op.Fits] using hop)
        (rest.flatMap marshalOp)
      simp only [List.length_cons, List.flatMap_cons, marshalOp, List.cons_append, unmarshalOps,
        hread]
      simp [hrest, Except.map]

theorem marshalOp_length_pos (op : Op) : 0 < (marshalOp op).length := by
  cases op <;> simp [marshalOp]

theorem length_le_flatMap (ops : List Op) : ops.length ≤ (ops.flatMap marshalOp).length := by
  induction ops with
  | nil => simp
  | cons op rest ih =>
    have hpos := marshalOp_length_pos op
    simp only [List.length_cons, List.flatMap_cons, List.length_append]
    omega

/-- A delta within the limits is read back unchanged. -/
theorem unmarshalDelta_marshalDelta {d : Delta} (hbs : d.blockSize < 2 ^ 32)
    (hout : d.outputSize ≤ maxOutputSize) (hcount : d.ops.length ≤ maxDecodeOps)
    (hfits : ∀ op ∈ d.ops, Op.Fits op) : unmarshalDelta (marshalDelta d) = .ok d := by
  have hdata : marshalDelta d = deltaMagic ++ (leBytes 4 d.blockSize ++
      (leBytes 8 d.outputSize ++ (leBytes 4 d.ops.length ++ d.ops.flatMap marshalOp))) := by
    simp only [marshalDelta, List.append_assoc]
  have hmagic : deltaMagic.length = 4 := by decide
  have h4 : (marshalDelta d).drop 4 = leBytes 4 d.blockSize ++
      (leBytes 8 d.outputSize ++ (leBytes 4 d.ops.length ++ d.ops.flatMap marshalOp)) := by
    rw [hdata, List.drop_left' hmagic]
  have h8 := drop_add_leBytes h4
  have h16 := drop_add_leBytes h8
  have h20 := drop_add_leBytes h16
  have hlen : ¬ (marshalDelta d).length < 20 := by
    rw [hdata]
    simp only [List.length_append, leBytes_length, hmagic]
    omega
  have hbs4 : d.blockSize < 256 ^ 4 := by omega
  have hout64 : d.outputSize < 256 ^ 8 := by
    unfold maxOutputSize at hout
    omega
  have hops : d.ops.length < 256 ^ 4 := by
    unfold maxDecodeOps at hcount
    omega
  have hcountLe := length_le_flatMap d.ops
  unfold unmarshalDelta
  rw [if_neg hlen, if_neg (by rw [hdata, List.take_left' hmagic]; simp)]
  simp only [h4, h8, h16, h20, fromLe_take_append hbs4, fromLe_take_append hops,
    fromLe_take_append hout64]
  rw [if_neg (by omega), if_neg (by omega), unmarshalOps_flatMap d.ops hfits]
  rfl

theorem marshalBlock_length (b : BlockChecksum) : (marshalBlock b).length = 24 := by
  simp [marshalBlock, b.strong.property]

theorem unmarshalBlock_append {b : BlockChecksum} (hb : b.index < 2 ^ 32) (rest : Bytes) :
    unmarshalBlock (marshalBlock b ++ rest) = some (b, rest) := by
  have h0 : (marshalBlock b ++ rest).drop 0 =
      leBytes 4 b.index ++ (leBytes 4 b.weak.toNat ++ (b.strong.val ++ rest)) := by
    simp only [marshalBlock, List.append_assoc, List.drop_zero]
  have h4 := drop_add_leBytes h0
  have h8 := drop_add_leBytes h4
  have h24 : (marshalBlock b ++ rest).drop 24 = rest := List.drop_left' (marshalBlock_length b)
  have hstrong : (b.strong.val ++ rest).take 16 = b.strong.val :=
    List.take_left' b.strong.property
  have hindex : b.index < 256 ^ 4 := by omega
  have hweak : b.weak.toNat < 256 ^ 4 := b.weak.toNat_lt
  rw [List.drop_zero] at h0
  unfold unmarshalBlock
  simp only [h0, Nat.zero_add] at h4 h8 h24 ⊢
  simp only [h4, h8, h24, hstrong, fromLe_take_append hindex, fromLe_take_append hweak,
    UInt32.ofNat_toNat]
  rw [dif_neg (by simp [b.strong.property])]

theorem unmarshalBlocks_flatMap (blocks : List BlockChecksum)
    (hfits : ∀ b ∈ blocks, b.index < 2 ^ 32) :
    unmarshalBlocks blocks.length (blocks.flatMap marshalBlock) = .ok blocks := by
  induction blocks with
  | nil => rfl
  | cons b rest ih =>
    rw [List.length_cons, List.flatMap_cons, unmarshalBlocks,
      unmarshalBlock_append (hfits b (by simp))]
    simp [ih fun b' hb' => hfits b' (by simp [hb']), Except.map]

theorem flatMap_marshalBlock_length (blocks : List BlockChecksum) :
    (blocks.flatMap marshalBlock).length = blocks.length * 24 := by
  induction blocks with
  | nil => rfl
  | cons b rest ih =>
    rw [List.flatMap_cons, List.length_append, marshalBlock_length, ih, List.length_cons]
    omega

/-- A signature within the limits is read back unchanged. -/
theorem unmarshalSignature_marshalSignature {sig : Signature} (hbs : sig.blockSize < 2 ^ 32)
    (hcount : sig.blocks.length ≤ maxDecodeOps) (hfits : ∀ b ∈ sig.blocks, b.index < 2 ^ 32) :
    unmarshalSignature (marshalSignature sig) = .ok sig := by
  have hdata : marshalSignature sig = signatureMagic ++ (leBytes 4 sig.blockSize ++
      (leBytes 4 sig.blocks.length ++ sig.blocks.flatMap marshalBlock)) := by
    simp only [marshalSignature, List.append_assoc]
  have hmagic : signatureMagic.length = 4 := by decide
  have h4 : (marshalSignature sig).drop 4 = leBytes 4 sig.blockSize ++
      (leBytes 4 sig.blocks.length ++ sig.blocks.flatMap marshalBlock) := by
    rw [hdata, List.drop_left' hmagic]
  have h8 := drop_add_leBytes h4
  have h12 := drop_add_leBytes h8
  have hlen : ¬ (marshalSignature sig).length < 12 := by
    rw [hdata]
    simp only [List.length_append, leBytes_length, hmagic]
    omega
  have hbs4 : sig.blockSize < 256 ^ 4 := by omega
  have hblocks : sig.blocks.length < 256 ^ 4 := by
    unfold maxDecodeOps at hcount
    omega
  unfold unmarshalSignature
  rw [if_neg hlen, if_neg (by rw [hdata, List.take_left' hmagic]; simp)]
  simp only [h4, h8, h12, fromLe_take_append hbs4, fromLe_take_append hblocks,
    flatMap_marshalBlock_length]
  rw [if_neg (by omega), unmarshalBlocks_flatMap sig.blocks hfits]
  rfl

theorem unmarshalOps_fits {n : ℕ} {data : Bytes} {ops : List Op}
    (h : unmarshalOps n data = .ok ops) : ∀ i, Op.copy i ∈ ops → i < 2 ^ 32 := by
  induction n generalizing data ops with
  | zero =>
    cases h
    simp
  | succ n ih =>
    cases data with
    | nil => exact absurd h (by simp [unmarshalOps])
    | cons kind data =>
      unfold unmarshalOps at h
      split at h
      · split at h
        · exact absurd h (by simp)
        · split at h
          · exact absurd h (by simp)
          · obtain ⟨ops', hops', rfl⟩ := except_map_eq_ok.mp h
            intro i hi
            exact ih hops' i (by simpa using hi)
      · split at h
        · split at h
          · exact absurd h (by simp)
          · rename_i bi rest hread
            obtain ⟨ops', hops', rfl⟩ := except_map_eq_ok.mp h
            intro i hi
            rcases List.mem_cons.mp hi with heq | hi
            · cases heq
              simpa using (readLe_some hread).1
            · exact ih hops' i hi
        · exact absurd h (by simp)

/-- An accepted delta has a block size and block indices of 32 bits and a bounded
output size. -/
theorem unmarshalDelta_ok {raw : Bytes} {d : Delta} (h : unmarshalDelta raw = .ok d) :
    d.blockSize < 2 ^ 32 ∧ d.outputSize ≤ maxOutputSize ∧
      ∀ i, Op.copy i ∈ d.ops → i < 2 ^ 32 := by
  unfold unmarshalDelta at h
  dsimp only at h
  split_ifs at h with hlen hmagic hcount hout
  obtain ⟨ops, hops, rfl⟩ := except_map_eq_ok.mp h
  refine ⟨?_, by simpa using hout, unmarshalOps_fits hops⟩
  have hlt := fromLe_lt ((raw.drop 4).take 4)
  rw [List.length_take, List.length_drop, Nat.min_eq_left (by omega)] at hlt
  simpa using hlt

end TailSync.DeltaWire

import TailSync.DeltaWire

/-!
The readers of internal/delta/delta.go invert its writers in both directions. What
a reader accepts begins with the form the writer gives the value it returns: every
field it took is there in the same bytes, and whatever follows was not looked at.
So a reader never takes more bytes than there are, and the literals of a delta fit
into the message that carried them.
-/
namespace TailSync.DeltaCodecs

open ByteStrings MachineInts DeltaBlocks DeltaWire

def literalLength : Op → ℕ
  | .literal data => data.length
  | .copy _ => 0

def literalBytes (ops : List Op) : ℕ := (ops.map literalLength).sum

theorem literalLength_le (op : Op) : literalLength op ≤ (marshalOp op).length := by
  cases op with
  | literal data =>
    simp only [literalLength, marshalOp, List.length_cons, List.length_append]
    omega
  | copy bi => simp [literalLength]

theorem literalBytes_le (ops : List Op) : literalBytes ops ≤ (ops.flatMap marshalOp).length := by
  induction ops with
  | nil => simp [literalBytes]
  | cons op rest ih =>
    have hop := literalLength_le op
    simp only [literalBytes, List.map_cons, List.sum_cons, List.flatMap_cons,
      List.length_append] at ih ⊢
    omega

/-- The ops a reader returns stand at the front of what it was given, as many as it
was asked for. -/
theorem unmarshalOps_begins {n : ℕ} {data : Bytes} {ops : List Op}
    (h : unmarshalOps n data = .ok ops) : ops.length = n ∧ ops.flatMap marshalOp <+: data := by
  induction n generalizing data ops with
  | zero =>
    cases h
    simp
  | succ n ih =>
    cases data with
    | nil => exact absurd h (by simp [unmarshalOps])
    | cons kind data =>
      unfold unmarshalOps at h
      split at h
      · rename_i hkind
        split at h
        · exact absurd h (by simp)
        · rename_i len rest hread
          split at h
          · exact absurd h (by simp)
          · rename_i hlen
            obtain ⟨ops', hops', rfl⟩ := except_map_eq_ok.mp h
            obtain ⟨hcount, hrest⟩ := ih hops'
            have htake : (rest.take len).length = len := by
              rw [List.length_take]
              omega
            refine ⟨by rw [List.length_cons, hcount], ?_⟩
            rw [List.flatMap_cons, marshalOp, htake, ← hkind, List.cons_append,
              List.append_assoc, List.prefix_cons_inj, ← readLe_append_eq hread,
              List.prefix_append_right_inj]
            calc rest.take len ++ ops'.flatMap marshalOp <+: rest.take len ++ rest.drop len :=
                  (List.prefix_append_right_inj _).mpr hrest
              _ = rest := List.take_append_drop len rest
      · split at h
        · rename_i hkind
          split at h
          · exact absurd h (by simp)
          · rename_i bi rest hread
            obtain ⟨ops', hops', rfl⟩ := except_map_eq_ok.mp h
            obtain ⟨hcount, hrest⟩ := ih hops'
            refine ⟨by rw [List.length_cons, hcount], ?_⟩
            rw [List.flatMap_cons, marshalOp, ← hkind, List.cons_append, List.prefix_cons_inj,
              ← readLe_append_eq hread, List.prefix_append_right_inj]
            exact hrest
        · exact absurd h (by simp)

/-- A word read at an offset, followed by a part of what comes after it. -/
theorem word_begins {raw tail : Bytes} (n width : ℕ) (hlen : n + width ≤ raw.length)
    (htail : tail <+: raw.drop (n + width)) :
    leBytes width (fromLe ((raw.drop n).take width)) ++ tail <+: raw.drop n := by
  have hwidth : width ≤ (raw.drop n).length := by
    rw [List.length_drop]
    omega
  calc leBytes width (fromLe ((raw.drop n).take width)) ++ tail
      = (raw.drop n).take width ++ tail := by rw [leBytes_fromLe_take _ _ hwidth]
    _ <+: (raw.drop n).take width ++ raw.drop (n + width) :=
      (List.prefix_append_right_inj _).mpr htail
    _ = raw.drop n := by rw [← List.drop_drop, List.take_append_drop]

/-- An accepted message begins with the written form of the delta it was read as. -/
theorem marshalDelta_begins {raw : Bytes} {d : Delta} (h : unmarshalDelta raw = .ok d) :
    marshalDelta d <+: raw := by
  unfold unmarshalDelta at h
  dsimp only at h
  split_ifs at h with hlen hmagic hcount hout
  obtain ⟨ops, hops, rfl⟩ := except_map_eq_ok.mp h
  obtain ⟨hn, h20⟩ := unmarshalOps_begins hops
  have h16 := word_begins 16 4 (by omega) h20
  have h8 := word_begins 8 8 (by omega) h16
  have h4 := word_begins 4 4 (by omega) h8
  rw [not_not] at hmagic
  calc marshalDelta _ = raw.take 4 ++ _ := by
        rw [hmagic, marshalDelta, hn, List.append_assoc, List.append_assoc, List.append_assoc]
    _ <+: raw.take 4 ++ raw.drop 4 := (List.prefix_append_right_inj _).mpr h4
    _ = raw := List.take_append_drop 4 raw

theorem literalBytes_le_raw {raw : Bytes} {d : Delta} (h : unmarshalDelta raw = .ok d) :
    literalBytes d.ops ≤ raw.length := by
  have hops := literalBytes_le d.ops
  have hraw := (marshalDelta_begins h).length_le
  simp only [marshalDelta, List.length_append] at hraw
  omega

theorem unmarshalBlock_eq {data rest : Bytes} {b : BlockChecksum}
    (h : unmarshalBlock data = some (b, rest)) : marshalBlock b ++ rest = data := by
  unfold unmarshalBlock at h
  split at h
  · exact absurd h (by simp)
  · rename_i hlen
    rw [List.length_drop] at hlen
    cases h
    have hweak : (UInt32.ofNat (fromLe ((data.drop 4).take 4))).toNat =
        fromLe ((data.drop 4).take 4) := by
      have hlt := fromLe_lt ((data.drop 4).take 4)
      rw [List.length_take, List.length_drop, Nat.min_eq_left (by omega)] at hlt
      rw [UInt32.toNat_ofNat', Nat.mod_eq_of_lt (by simpa using hlt)]
    have hindex := leBytes_fromLe_take 4 data (by omega)
    have hsum := leBytes_fromLe_take 4 (data.drop 4)
      (by rw [List.length_drop]; omega)
    calc _ = data.take 4 ++ ((data.drop 4).take 4 ++ ((data.drop 8).take 16 ++ data.drop 24)) := by
          simp only [marshalBlock, hweak, hindex, hsum, List.append_assoc]
      _ = data.take 4 ++ ((data.drop 4).take 4 ++ data.drop 8) := by
          rw [← List.drop_drop (i := 16) (j := 8), List.take_append_drop]
      _ = data := by
          rw [← List.drop_drop (i := 4) (j := 4), List.take_append_drop, List.take_append_drop]

theorem unmarshalBlocks_begins {n : ℕ} {data : Bytes} {blocks : List BlockChecksum}
    (h : unmarshalBlocks n data = .ok blocks) :
    blocks.length = n ∧ blocks.flatMap marshalBlock <+: data := by
  induction n generalizing data blocks with
  | zero =>
    cases h
    simp
  | succ n ih =>
    unfold unmarshalBlocks at h
    split at h
    · exact absurd h (by simp)
    · rename_i b rest hblock
      obtain ⟨blocks', hblocks', rfl⟩ := except_map_eq_ok.mp h
      obtain ⟨hcount, hrest⟩ := ih hblocks'
      refine ⟨by rw [List.length_cons, hcount], ?_⟩
      rw [List.flatMap_cons, ← unmarshalBlock_eq hblock, List.prefix_append_right_inj]
      exact hrest

/-- An accepted message begins with the written form of the signature it was read as. -/
theorem marshalSignature_begins {raw : Bytes} {sig : Signature}
    (h : unmarshalSignature raw = .ok sig) : marshalSignature sig <+: raw := by
  unfold unmarshalSignature at h
  dsimp only at h
  split_ifs at h with hlen hmagic hcount
  obtain ⟨blocks, hblocks, rfl⟩ := except_map_eq_ok.mp h
  obtain ⟨hn, h12⟩ := unmarshalBlocks_begins hblocks
  have h8 := word_begins 8 4 (by omega) h12
  have h4 := word_begins 4 4 (by omega) h8
  rw [not_not] at hmagic
  calc marshalSignature _ = raw.take 4 ++ _ := by
        rw [hmagic, marshalSignature, hn, List.append_assoc, List.append_assoc]
    _ <+: raw.take 4 ++ raw.drop 4 := (List.prefix_append_right_inj _).mpr h4
    _ = raw := List.take_append_drop 4 raw

/-- Inside their limits deltas and signatures come back as they were written. Every
byte string is read as a value whose written form it begins with, and which holds no
more literal bytes than it has, or is refused. -/
theorem delta_codecs_invert :
    (∀ d : Delta, d.blockSize < 2 ^ 32 → d.outputSize ≤ maxOutputSize →
      d.ops.length ≤ maxDecodeOps → (∀ op ∈ d.ops, Op.Fits op) →
      unmarshalDelta (marshalDelta d) = .ok d) ∧
    (∀ sig : Signature, sig.blockSize < 2 ^ 32 → sig.blocks.length ≤ maxDecodeOps →
      (∀ b ∈ sig.blocks, b.index < 2 ^ 32) →
      unmarshalSignature (marshalSignature sig) = .ok sig) ∧
    (∀ raw, (∃ d, unmarshalDelta raw = .ok d ∧ marshalDelta d <+: raw ∧
      literalBytes d.ops ≤ raw.length) ∨ ∃ e, unmarshalDelta raw = .error e) ∧
    (∀ raw, (∃ sig, unmarshalSignature raw = .ok sig ∧ marshalSignature sig <+: raw) ∨
      ∃ e, unmarshalSignature raw = .error e) := by
  refine ⟨?_, ?_, ?_, ?_⟩
  · intro d hbs hout hcount hfits
    exact unmarshalDelta_marshalDelta hbs hout hcount hfits
  · intro sig hbs hcount hfits
    exact unmarshalSignature_marshalSignature hbs hcount hfits
  · intro raw
    cases hread : unmarshalDelta raw with
    | ok d => exact Or.inl ⟨d, rfl, marshalDelta_begins hread, literalBytes_le_raw hread⟩
    | error e => exact Or.inr ⟨e, rfl⟩
  · intro raw
    cases hread : unmarshalSignature raw with
    | ok sig => exact Or.inl ⟨sig, rfl, marshalSignature_begins hread⟩
    | error e => exact Or.inr ⟨e, rfl⟩

/-- A delta of a literal and a copy and a signature of one block, there and back. -/
theorem delta_codecs_invert_small :
    unmarshalDelta (marshalDelta ⟨4, [.literal (ascii "xy"), .copy 3], 6⟩) =
        .ok ⟨4, [.literal (ascii "xy"), .copy 3], 6⟩ ∧
      unmarshalSignature (marshalSignature ⟨4, [⟨0, 7, ⟨List.replicate 16 9, rfl⟩⟩]⟩) =
        .ok ⟨4, [⟨0, 7, ⟨List.replicate 16 9, rfl⟩⟩]⟩ :=
  ⟨delta_codecs_invert.1 _ (by decide) (by decide) (by decide) (by simp [Op.Fits, ascii]),
    delta_codecs_invert.2.1 _ (by decide) (by decide) (by simp)⟩

end TailSync.DeltaCodecs

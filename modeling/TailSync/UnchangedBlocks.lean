import TailSync.PlainSearch

/-!
Blocks the receiver has are not sent again. The signature of a basis has a record for
each of its blocks, so a window of the target that is such a block always finds a
record with both its sums, if perhaps that of another block. A target put together
from blocks of the basis is therefore covered by copies, one for each block, with
nothing asked of the two hash functions.
-/
namespace TailSync.UnchangedBlocks

open ByteStrings DeltaBlocks DeltaReplay PlainSearch

def shortEnd (basis : Bytes) (bs : ℕ) : Bytes := basis.drop (basis.length / bs * bs)

def Copied (md5 : Bytes → Digest 16) (sig : Signature) (op : Op) (block : Bytes) : Prop :=
  ∃ bi record, op = .copy bi ∧ sig.blocks[bi]? = some record ∧
    record.weak = weakChecksum block ∧ record.strong = md5 block

section Blocks
variable {basis : Bytes} {bs : ℕ}

theorem blockAt_length {i : ℕ} (hfull : (i + 1) * bs ≤ basis.length) :
    (blockAt basis bs i).length = bs := by
  rw [Nat.succ_mul] at hfull
  rw [blockAt, List.length_take, List.length_drop]
  omega

theorem shortEnd_length (basis : Bytes) (bs : ℕ) :
    (shortEnd basis bs).length = basis.length % bs := by
  have hdiv := Nat.div_add_mod basis.length bs
  rw [Nat.mul_comm] at hdiv
  rw [shortEnd, List.length_drop]
  omega

/-- The short end is the block after the full ones. -/
theorem shortEnd_eq (hbs : 0 < bs) (basis : Bytes) :
    shortEnd basis bs = blockAt basis bs (basis.length / bs) := by
  have hlen := shortEnd_length basis bs
  have hlt := Nat.mod_lt basis.length hbs
  rw [shortEnd] at hlen
  rw [blockAt, shortEnd, List.take_of_length_le (by omega)]

theorem flatMap_blockAt (basis : Bytes) (bs k : ℕ) :
    (List.range k).flatMap (blockAt basis bs) = basis.take (k * bs) := by
  induction k with
  | zero => simp
  | succ k ih =>
    rw [List.range_succ, List.flatMap_append, ih, List.flatMap_singleton, blockAt, Nat.succ_mul,
      List.take_add]

/-- A file is its full blocks and its short end. -/
theorem blocks_append_shortEnd (basis : Bytes) (bs : ℕ) :
    (List.range (basis.length / bs)).flatMap (blockAt basis bs) ++ shortEnd basis bs = basis := by
  rw [flatMap_blockAt, shortEnd, List.take_append_drop]

theorem range_full {i : ℕ} (hi : i ∈ List.range (basis.length / bs)) :
    (i + 1) * bs ≤ basis.length := by
  have hle : i + 1 ≤ basis.length / bs := List.mem_range.mp hi
  exact (Nat.mul_le_mul_right bs hle).trans (Nat.div_mul_le_self basis.length bs)

end Blocks

section Records
variable {md5 : Bytes → Digest 16} {basis : Bytes} {bs : ℕ}

/-- Sign reads to the end of the file. -/
private theorem signFrom_covers (hbs : 0 < bs) (fuel idx : ℕ) (data : Bytes)
    (hfuel : data.length ≤ fuel) : data.length ≤ (signFrom md5 bs fuel idx data).length * bs := by
  induction fuel generalizing idx data with
  | zero => omega
  | succ fuel ih =>
    unfold signFrom
    split
    · rename_i hempty
      simp [List.isEmpty_iff.mp hempty]
    · have hrest := ih (idx + 1) (data.drop bs) (by rw [List.length_drop]; omega)
      rw [List.length_drop] at hrest
      rw [List.length_cons, Nat.succ_mul]
      omega

theorem signBytes_blockSize (hbs : 0 < bs) : (signBytes md5 basis bs).blockSize = bs := by
  rw [signBytes, if_neg hbs.ne']

/-- Every block of the basis has a record. -/
theorem signBytes_record (md5 : Bytes → Digest 16) (hbs : 0 < bs) {i : ℕ}
    (hi : i * bs < basis.length) :
    ∃ record, (signBytes md5 basis bs).blocks[i]? = some record ∧
      record.weak = weakChecksum (blockAt basis bs i) ∧
      record.strong = md5 (blockAt basis bs i) := by
  have hcover : basis.length ≤ (signBytes md5 basis bs).blocks.length * bs := by
    simp only [signBytes, if_neg hbs.ne']
    exact signFrom_covers hbs _ 0 basis (le_refl _)
  have hlt : i < (signBytes md5 basis bs).blocks.length :=
    lt_of_mul_lt_mul_right (hi.trans_le hcover) (Nat.zero_le bs)
  have hget := List.getElem?_eq_getElem hlt
  obtain ⟨_, hrecord⟩ := signBytes_getElem hbs basis hget
  refine ⟨_, hget, ?_, ?_⟩
  · rw [hrecord]
  · rw [hrecord]

/-- A window that is a block of the basis finds a record, its own or an earlier one with
the same sums. -/
theorem firstMatch_block (md5 : Bytes → Digest 16) (hbs : 0 < bs) {i : ℕ}
    (hi : i * bs < basis.length) :
    ∃ bi, firstMatch md5 (signBytes md5 basis bs) (blockAt basis bs i) = some bi ∧
      Copied md5 (signBytes md5 basis bs) (.copy bi) (blockAt basis bs i) := by
  obtain ⟨record, hget, hweak, hstrong⟩ := signBytes_record md5 hbs hi
  have hfound : (firstMatch md5 (signBytes md5 basis bs) (blockAt basis bs i)).isSome := by
    rw [firstMatch, List.findIdx?_isSome, List.any_eq_true]
    exact ⟨record, List.mem_of_getElem? hget, by simp [hweak, hstrong]⟩
  obtain ⟨bi, hbi⟩ := Option.isSome_iff_exists.mp hfound
  refine ⟨bi, hbi, ?_⟩
  obtain ⟨hlt, hsums, _⟩ := List.findIdx?_eq_some_iff_getElem.mp hbi
  rw [Bool.and_eq_true, beq_iff_eq, beq_iff_eq] at hsums
  exact ⟨bi, _, rfl, List.getElem?_eq_getElem hlt, hsums.1, hsums.2⟩

/-- One full block: one copy. -/
theorem plainFrom_block (md5 : Bytes → Digest 16) (hbs : 0 < bs) {i : ℕ}
    (hfull : (i + 1) * bs ≤ basis.length) (rest : Bytes) :
    ∃ op, Copied md5 (signBytes md5 basis bs) op (blockAt basis bs i) ∧
      plainFrom md5 (signBytes md5 basis bs) bs 0 [] (blockAt basis bs i ++ rest) =
        op :: plainFrom md5 (signBytes md5 basis bs) bs 0 [] rest := by
  have hlen := blockAt_length hfull
  have hi : i * bs < basis.length := by
    rw [Nat.succ_mul] at hfull
    omega
  obtain ⟨bi, hfound, hcopied⟩ := firstMatch_block md5 hbs hi
  have htake : (blockAt basis bs i ++ rest).take bs = blockAt basis bs i :=
    List.take_left' hlen
  have hdrop : (blockAt basis bs i ++ rest).drop bs = rest := List.drop_left' hlen
  refine ⟨.copy bi, hcopied, ?_⟩
  rw [plainFrom_hit hbs (by rw [List.length_append]; omega) (htake.symm ▸ hfound), hdrop]
  rfl

/-- The short end, matched by the other code path: one copy. -/
theorem plainFrom_shortEnd (md5 : Bytes → Digest 16) (hbs : 0 < bs)
    (hne : shortEnd basis bs ≠ []) :
    ∃ op, Copied md5 (signBytes md5 basis bs) op (shortEnd basis bs) ∧
      plainFrom md5 (signBytes md5 basis bs) bs 0 [] (shortEnd basis bs) = [op] := by
  have hlen := shortEnd_length basis bs
  have hshort : (shortEnd basis bs).length < bs := by
    rw [hlen]
    exact Nat.mod_lt _ hbs
  have hi : basis.length / bs * bs < basis.length := by
    have hpos := List.length_pos_iff.mpr hne
    rw [shortEnd, List.length_drop] at hpos
    omega
  obtain ⟨bi, hfound, hcopied⟩ := firstMatch_block md5 hbs hi
  rw [← shortEnd_eq hbs] at hfound hcopied
  refine ⟨.copy bi, hcopied, ?_⟩
  obtain ⟨c, tail, hend⟩ := List.exists_cons_of_ne_nil hne
  rw [hend] at hshort hfound ⊢
  rw [plainFrom, if_pos hshort, hfound]
  rfl

/-- Blocks in any order and the end: a copy of each, in that order. -/
theorem plainFrom_blocks (md5 : Bytes → Digest 16) (hbs : 0 < bs) {order : List ℕ}
    (hfull : ∀ i ∈ order, (i + 1) * bs ≤ basis.length) {last : Bytes}
    (hlast : last = [] ∨ last = shortEnd basis bs) :
    List.Forall₂ (Copied md5 (signBytes md5 basis bs))
      (plainFrom md5 (signBytes md5 basis bs) bs 0 [] (order.flatMap (blockAt basis bs) ++ last))
      (order.map (blockAt basis bs) ++ if last = [] then [] else [last]) := by
  induction order with
  | nil =>
    by_cases hnil : last = []
    · simp [hnil, plainFrom_nil, literalRun]
    · have hend := hlast.resolve_left hnil
      rw [hend] at hnil ⊢
      obtain ⟨op, hcopied, heq⟩ := plainFrom_shortEnd md5 hbs hnil
      rw [List.flatMap_nil, List.nil_append, heq, List.map_nil, List.nil_append, if_neg hnil]
      exact .cons hcopied .nil
  | cons i order ih =>
    obtain ⟨op, hcopied, heq⟩ := plainFrom_block md5 hbs (hfull i (by simp))
      (order.flatMap (blockAt basis bs) ++ last)
    rw [List.flatMap_cons, List.append_assoc, heq, List.map_cons, List.cons_append]
    exact .cons hcopied (ih fun j hj => hfull j (by simp [hj]))

theorem encodeBytes_blocks (md5 : Bytes → Digest 16) (hbs : 0 < bs) {order : List ℕ}
    (hfull : ∀ i ∈ order, (i + 1) * bs ≤ basis.length) {last : Bytes}
    (hlast : last = [] ∨ last = shortEnd basis bs) :
    List.Forall₂ (Copied md5 (signBytes md5 basis bs))
      (encodeBytes md5 (signBytes md5 basis bs) (order.flatMap (blockAt basis bs) ++ last)).ops
      (order.map (blockAt basis bs) ++ if last = [] then [] else [last]) := by
  have hsize : (signBytes md5 basis bs).blockSize = bs := signBytes_blockSize hbs
  rw [encodeBytes_ops (by rw [hsize]; exact hbs), plainOps, hsize]
  exact plainFrom_blocks md5 hbs hfull hlast

/-- Ops that copy blocks are no literals. -/
theorem not_literal_of_copied {sig : Signature} {ops : List Op} {blocks : List Bytes}
    (h : List.Forall₂ (Copied md5 sig) ops blocks) (data : Bytes) : Op.literal data ∉ ops := by
  induction h with
  | nil => simp
  | cons hop _ ih =>
    obtain ⟨bi, _, rfl, _⟩ := hop
    simpa using ih

end Records

/-- Rounding up. -/
theorem ceil_blocks {bs : ℕ} (hbs : 0 < bs) (basis : Bytes) :
    basis.length / bs + (if shortEnd basis bs = [] then 0 else 1) =
      (basis.length + bs - 1) / bs := by
  have hlen := shortEnd_length basis bs
  have hdiv := Nat.div_add_mod basis.length bs
  have hlt := Nat.mod_lt basis.length hbs
  symm
  split
  · rename_i hnil
    rw [hnil, List.length_nil] at hlen
    rw [Nat.add_zero]
    apply Nat.div_eq_of_lt_le
    · rw [Nat.mul_comm]
      omega
    · rw [Nat.succ_mul, Nat.mul_comm]
      omega
  · rename_i hne
    have hpos := List.length_pos_iff.mpr hne
    apply Nat.div_eq_of_lt_le
    · rw [Nat.succ_mul, Nat.mul_comm]
      omega
    · rw [Nat.succ_mul, Nat.succ_mul, Nat.mul_comm]
      omega

/-- A target made of full blocks of the basis in any order and number, with or without
its short end, is encoded as one copy for each and no literal; an identical file takes as
many copies as it has blocks, the short one counted. -/
theorem unchanged_blocks_copied (md5 : Bytes → Digest 16) (basis : Bytes) (bs : ℕ)
    (hbs : 0 < bs) :
    (∀ (order : List ℕ) (last : Bytes), (∀ i ∈ order, (i + 1) * bs ≤ basis.length) →
      (last = [] ∨ last = shortEnd basis bs) → ∀ target ops,
      target = order.flatMap (blockAt basis bs) ++ last →
      ops = (encodeBytes md5 (signBytes md5 basis bs) target).ops →
      (∀ data, Op.literal data ∉ ops) ∧
      ops.length = order.length + (if last = [] then 0 else 1) ∧
      List.Forall₂ (Copied md5 (signBytes md5 basis bs)) ops
        (order.map (blockAt basis bs) ++ if last = [] then [] else [last])) ∧
    (∀ data, Op.literal data ∉ (encodeBytes md5 (signBytes md5 basis bs) basis).ops) ∧
    (encodeBytes md5 (signBytes md5 basis bs) basis).ops.length =
      (basis.length + bs - 1) / bs := by
  have hcount : ∀ (order : List ℕ) (last : Bytes),
      (order.map (blockAt basis bs) ++ if last = [] then [] else [last]).length =
        order.length + (if last = [] then 0 else 1) := by
    intro order last
    by_cases hnil : last = [] <;> simp [hnil]
  have hsame := encodeBytes_blocks md5 hbs (fun _ hi => range_full hi)
    (Or.inr rfl : shortEnd basis bs = [] ∨ shortEnd basis bs = shortEnd basis bs)
  rw [blocks_append_shortEnd] at hsame
  refine ⟨?_, not_literal_of_copied hsame, ?_⟩
  · rintro order last hfull hlast target ops rfl rfl
    have hcopied := encodeBytes_blocks md5 hbs hfull hlast
    exact ⟨not_literal_of_copied hcopied, hcopied.length_eq.trans (hcount order last), hcopied⟩
  · rw [hsame.length_eq, hcount, List.length_range, ceil_blocks hbs]

/-- The blocks of aabbc the other way round, under a strong sum that tells nothing
apart. -/
theorem unchanged_blocks_reordered :
    ((encodeBytes (fun _ => paddedDigest 16 []) (signBytes (fun _ => paddedDigest 16 [])
      (ascii "aabbc") 2) (ascii "bbaabbc")).ops = [.copy 1, .copy 0, .copy 1, .copy 2]) ∧
    ∀ data, Op.literal data ∉ (encodeBytes (fun _ => paddedDigest 16 [])
      (signBytes (fun _ => paddedDigest 16 []) (ascii "aabbc") 2) (ascii "bbaabbc")).ops := by
  refine ⟨by decide +kernel, ?_⟩
  exact ((unchanged_blocks_copied (fun _ => paddedDigest 16 []) (ascii "aabbc") 2
    (by decide)).1 [1, 0, 1] (ascii "c") (by decide) (Or.inr (by decide)) (ascii "bbaabbc") _
    (by decide) rfl).1

end TailSync.UnchangedBlocks

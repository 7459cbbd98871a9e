import TailSync.DeltaReplay

/-!
The rolling search finds what the plain search finds. The plain encoder stands at
one position of the target after another, sums the window there from scratch and
takes the first block of the signature with both sums. Its output for the bytes
left, behind the ops and the literal already collected, does not change while the
encoder of internal/delta/delta.go works, whichever of its loops is running and
however the inner one ends. The signature is arbitrary: its records need not be
those of any file.
-/
namespace TailSync.PlainSearch

open ByteStrings DeltaBlocks DeltaReplay

section Reference
variable (md5 : Bytes → Digest 16) (sig : Signature)

/-- The first block, in signature order, with both sums of a window. -/
def firstMatch (w : Bytes) : Option ℕ :=
  sig.blocks.findIdx? fun b => b.weak == weakChecksum w && b.strong == md5 w

def literalRun (lit : Bytes) : List Op := if lit.isEmpty then [] else [.literal lit]

/-- The plain encoder at a position: how many bytes the last copy still covers, the
current literal run, and the target from here on. -/
def plainFrom (bs : ℕ) : ℕ → Bytes → Bytes → List Op
  | _, lit, [] => literalRun lit
  | skip + 1, lit, _ :: tail => plainFrom bs skip lit tail
  | 0, lit, c :: tail =>
      if (c :: tail).length < bs then
        match firstMatch md5 sig (c :: tail) with
        | some bi => literalRun lit ++ [.copy bi]
        | none => literalRun (lit ++ c :: tail)
      else
        match firstMatch md5 sig ((c :: tail).take bs) with
        | some bi => literalRun lit ++ .copy bi :: plainFrom bs (bs - 1) [] tail
        | none => plainFrom bs 0 (lit ++ [c]) tail

def plainOps (target : Bytes) : List Op := plainFrom md5 sig sig.blockSize 0 [] target

end Reference

def isLiteral : Op → Bool
  | .literal _ => true
  | .copy _ => false

/-- What the plain encoder makes of an encoder state: the ops it has, then the plain
search from the pending literal and the bytes left. -/
def completed (md5 : Bytes → Digest 16) (sig : Signature) (bs : ℕ) (s : EncodeState) : List Op :=
  s.ops ++ plainFrom md5 sig bs 0 s.lit s.rest

variable {md5 : Bytes → Digest 16} {sig : Signature} {bs : ℕ} {s : EncodeState}

theorem flushLit_eq (ops : List Op) (lit : Bytes) : flushLit ops lit = ops ++ literalRun lit := by
  unfold flushLit literalRun
  split <;> simp

/-- Looking a weak sum up in the map and then comparing strong sums finds the first
block with both. -/
theorem findBlock_eq (w : Bytes) :
    findBlock md5 sig (weakChecksum w) w = firstMatch md5 sig w := by
  apply Option.ext
  intro bi
  rw [findBlock, candidates, List.find?_filter, List.find?_range_eq_some, firstMatch,
    List.findIdx?_eq_some_iff_getElem]
  constructor
  · rintro ⟨hmatch, hlt, hnone⟩
    rw [List.mem_range] at hlt
    refine ⟨hlt, by simpa [hlt] using hmatch, ?_⟩
    intro j hj
    have hjlt : j < sig.blocks.length := hj.trans hlt
    simpa [hjlt, imp_iff_not_or] using hnone j hj
  · rintro ⟨hlt, hmatch, hnone⟩
    refine ⟨by simpa [hlt] using hmatch, List.mem_range.mpr hlt, ?_⟩
    intro j hj
    have hjlt : j < sig.blocks.length := hj.trans hlt
    simpa [hjlt, imp_iff_not_or] using hnone j hj

theorem firstMatch_lt {w : Bytes} {bi : ℕ} (h : firstMatch md5 sig w = some bi) :
    bi < sig.blocks.length :=
  (List.findIdx?_eq_some_iff_getElem.mp h).1

theorem firstMatch_of_empty (hempty : sig.blocks.isEmpty) (w : Bytes) :
    firstMatch md5 sig w = none := by
  rw [firstMatch, List.isEmpty_iff.mp hempty]
  rfl

theorem plainFrom_skip (bs n : ℕ) (lit rest : Bytes) :
    plainFrom md5 sig bs n lit rest = plainFrom md5 sig bs 0 lit (rest.drop n) := by
  induction rest generalizing n with
  | nil => cases n <;> simp [plainFrom]
  | cons c tail ih =>
    cases n with
    | zero => rfl
    | succ n => rw [plainFrom, ih, List.drop_succ_cons]

theorem plainFrom_nil (bs : ℕ) (lit : Bytes) : plainFrom md5 sig bs 0 lit [] = literalRun lit := rfl

/-- A full window with a match is copied and skipped. -/
theorem plainFrom_hit (hbs : 0 < bs) {lit rest : Bytes} (hlen : bs ≤ rest.length) {bi : ℕ}
    (hfound : firstMatch md5 sig (rest.take bs) = some bi) :
    plainFrom md5 sig bs 0 lit rest =
      literalRun lit ++ .copy bi :: plainFrom md5 sig bs 0 [] (rest.drop bs) := by
  cases rest with
  | nil =>
    rw [List.length_nil] at hlen
    omega
  | cons c tail =>
    rw [plainFrom, if_neg (by omega), hfound, plainFrom_skip, ← List.drop_succ_cons (a := c),
      Nat.sub_add_cancel hbs]

/-- A full window without a match gives its first byte to the literal run. -/
theorem plainFrom_slide {lit tail : Bytes} {c : UInt8} (hlen : bs ≤ (c :: tail).length)
    (hfound : firstMatch md5 sig ((c :: tail).take bs) = none) :
    plainFrom md5 sig bs 0 lit (c :: tail) = plainFrom md5 sig bs 0 (lit ++ [c]) tail := by
  rw [plainFrom, if_neg (by omega), hfound]

theorem completed_hit (hbs : 0 < bs) (hlen : bs ≤ s.rest.length) {bi : ℕ}
    (hfound : firstMatch md5 sig (s.rest.take bs) = some bi) :
    completed md5 sig bs (s.hit bi bs) = completed md5 sig bs s := by
  rw [completed, completed, plainFrom_hit hbs hlen hfound]
  simp [EncodeState.hit, flushLit_eq]

theorem completed_slide {c : UInt8} {tail : Bytes} (hrest : s.rest = c :: tail)
    (hlen : bs ≤ s.rest.length) (hfound : firstMatch md5 sig (s.rest.take bs) = none) :
    completed md5 sig bs ⟨tail, s.lit ++ [c], s.ops⟩ = completed md5 sig bs s := by
  rw [hrest] at hlen hfound
  rw [completed, completed, hrest, plainFrom_slide hlen hfound]

/-- The rolling search keeps what is left to be made, and gives no bytes back. It may
stop at a hit, at the last window, or with the window passed; each leaves a state the
outer loop takes up. -/
theorem rollSearch_completed (md5 : Bytes → Digest 16) (sig : Signature) (hbs : 0 < bs)
    (s : EncodeState) (fuel : ℕ) {sum : UInt32} (hsum : sum = weakChecksum (s.rest.take bs)) :
    completed md5 sig bs (rollSearch md5 sig bs fuel sum s) = completed md5 sig bs s ∧
      (rollSearch md5 sig bs fuel sum s).rest.length ≤ s.rest.length := by
  induction fuel generalizing s sum with
  | zero => exact ⟨rfl, le_refl _⟩
  | succ fuel ih =>
    unfold rollSearch
    split
    · exact ⟨rfl, le_refl _⟩
    · rename_i hlen
      rw [hsum, findBlock_eq]
      split
      · rename_i bi hfound
        refine ⟨completed_hit hbs (by omega) hfound, ?_⟩
        simp [EncodeState.hit]
      · rename_i hfound
        split
        · rename_i out rest inn hrest hinn
          rw [hrest] at hinn
          have hroll : roll (weakChecksum (s.rest.take bs)) out inn bs =
              weakChecksum (rest.take bs) := by
            rw [hrest, roll_window hbs hinn]
          obtain ⟨hsame, hle⟩ := ih ⟨rest, s.lit ++ [out], s.ops⟩ hroll
          rw [completed_slide hrest (by omega) hfound] at hsame
          refine ⟨hsame, hle.trans ?_⟩
          rw [hrest]
          simp
        · exact ⟨rfl, le_refl _⟩

/-- The last bytes, fewer than a block. -/
theorem encodeTail_completed (hne : s.rest ≠ []) (hlen : s.rest.length < bs) :
    completed md5 sig bs (encodeTail md5 sig s) = completed md5 sig bs s ∧
      (encodeTail md5 sig s).rest = [] := by
  obtain ⟨c, tail, hrest⟩ := List.exists_cons_of_ne_nil hne
  have hfound : (if sig.blocks.isEmpty then none
      else findBlock md5 sig (weakChecksum s.rest) s.rest) = firstMatch md5 sig s.rest := by
    split
    · rename_i hempty
      rw [firstMatch_of_empty hempty]
    · exact findBlock_eq s.rest
  have hplain : completed md5 sig bs s = s.ops ++
      match firstMatch md5 sig s.rest with
      | some bi => literalRun s.lit ++ [.copy bi]
      | none => literalRun (s.lit ++ s.rest) := by
    rw [hrest] at hlen
    rw [completed, hrest, plainFrom, if_pos hlen]
  rw [hplain]
  simp only [encodeTail, hfound]
  cases firstMatch md5 sig s.rest with
  | some bi => simp [completed, EncodeState.hit, flushLit_eq, plainFrom_nil, literalRun]
  | none => simp [completed, plainFrom_nil]

/-- As much fuel as there are bytes left takes the outer loop to its end, and the end
is what the plain encoder makes. -/
theorem encodeLoop_completed (md5 : Bytes → Digest 16) (sig : Signature) (hbs : 0 < bs)
    (s : EncodeState) (fuel : ℕ) (hfuel : s.rest.length ≤ fuel) :
    completed md5 sig bs (encodeLoop md5 sig bs fuel s) = completed md5 sig bs s ∧
      (encodeLoop md5 sig bs fuel s).rest = [] := by
  induction fuel generalizing s with
  | zero => exact ⟨rfl, List.length_eq_zero_iff.mp (by simpa [encodeLoop] using hfuel)⟩
  | succ fuel ih =>
    unfold encodeLoop
    split
    · rename_i hrest
      exact ⟨rfl, hrest⟩
    · rename_i c rest hrest
      have hshort : rest.length ≤ fuel := by
        rw [hrest, List.length_cons] at hfuel
        omega
      split
      · rename_i hlen
        exact encodeTail_completed (by simp [hrest]) hlen
      · rename_i hlen
        rw [findBlock_eq]
        split
        · rename_i bi hfound
          rw [← completed_hit hbs (by omega) hfound]
          apply ih
          simp only [EncodeState.hit, List.length_drop]
          omega
        · rename_i hfound
          rw [← completed_slide hrest (by omega) hfound]
          dsimp only
          split
          · obtain ⟨hsame, hle⟩ := rollSearch_completed md5 sig hbs ⟨rest, s.lit ++ [c], s.ops⟩
              rest.length rfl
            rw [← hsame]
            exact ih _ (hle.trans hshort)
          · exact ih _ hshort

theorem rollSearch_of_short (hlen : s.rest.length < bs) (fuel : ℕ) (sum : UInt32) :
    rollSearch md5 sig bs fuel sum s = s := by
  cases fuel with
  | zero => rfl
  | succ fuel => rw [rollSearch, if_pos hlen]

/-- The inner loop takes a byte an iteration. -/
theorem rollSearch_succ (hbs : 0 < bs) {fuel : ℕ} (hfuel : s.rest.length ≤ fuel) (sum : UInt32) :
    rollSearch md5 sig bs (fuel + 1) sum s = rollSearch md5 sig bs fuel sum s := by
  induction fuel generalizing s sum with
  | zero => exact rollSearch_of_short (by omega) 1 sum
  | succ fuel ih =>
    rw [rollSearch]
    conv_rhs => rw [rollSearch]
    by_cases hlen : s.rest.length < bs
    · rw [if_pos hlen, if_pos hlen]
    · rw [if_neg hlen, if_neg hlen]
      split
      · rfl
      · split
        · rename_i out rest inn hrest _
          apply ih
          rw [hrest, List.length_cons] at hfuel
          exact Nat.le_of_succ_le_succ hfuel
        · rfl

theorem rollSearch_fuel (hbs : 0 < bs) {fuel : ℕ} (hfuel : s.rest.length ≤ fuel) (sum : UInt32) :
    rollSearch md5 sig bs fuel sum s = rollSearch md5 sig bs s.rest.length sum s := by
  induction fuel, hfuel using Nat.le_induction with
  | base => rfl
  | succ fuel hfuel ih => rw [rollSearch_succ hbs hfuel, ih]

/-- The outer loop takes a byte an iteration at least. -/
theorem encodeLoop_succ (hbs : 0 < bs) {fuel : ℕ} (hfuel : s.rest.length ≤ fuel) :
    encodeLoop md5 sig bs (fuel + 1) s = encodeLoop md5 sig bs fuel s := by
  induction fuel generalizing s with
  | zero =>
    have hnil : s.rest = [] := List.length_eq_zero_iff.mp (by omega)
    simp [encodeLoop, hnil]
  | succ fuel ih =>
    rw [encodeLoop]
    conv_rhs => rw [encodeLoop]
    split
    · rfl
    · rename_i c rest hrest
      rw [hrest, List.length_cons] at hfuel
      split
      · rfl
      · split
        · apply ih
          simp only [EncodeState.hit, List.length_drop, hrest, List.length_cons]
          omega
        · dsimp only
          split
          · obtain ⟨_, hle⟩ := rollSearch_completed md5 sig hbs ⟨rest, s.lit ++ [c], s.ops⟩
              rest.length rfl
            exact ih (hle.trans (Nat.le_of_succ_le_succ hfuel))
          · exact ih (Nat.le_of_succ_le_succ hfuel)

theorem encodeLoop_fuel (hbs : 0 < bs) {fuel : ℕ} (hfuel : s.rest.length ≤ fuel) :
    encodeLoop md5 sig bs fuel s = encodeLoop md5 sig bs s.rest.length s := by
  induction fuel, hfuel using Nat.le_induction with
  | base => rfl
  | succ fuel hfuel ih => rw [encodeLoop_succ hbs hfuel, ih]

/-- Literal runs are maximal: none is empty and no two stand side by side. -/
def MaximalRuns (ops : List Op) : Prop :=
  (∀ data, Op.literal data ∈ ops → data ≠ []) ∧
    ops.IsChain fun a b => ¬ (isLiteral a = true ∧ isLiteral b = true)

def InRange (sig : Signature) (ops : List Op) : Prop :=
  ∀ bi, Op.copy bi ∈ ops → bi < sig.blocks.length

theorem literalRun_cases (lit : Bytes) :
    literalRun lit = [] ∨ (lit ≠ [] ∧ literalRun lit = [.literal lit]) := by
  cases lit with
  | nil => exact Or.inl rfl
  | cons c lit => exact Or.inr ⟨by simp, rfl⟩

theorem MaximalRuns.literalRun (lit : Bytes) : MaximalRuns (literalRun lit) := by
  rcases literalRun_cases lit with h | ⟨hne, h⟩
  · simp [h, MaximalRuns]
  · simp [h, MaximalRuns, hne]

theorem MaximalRuns.copy {ops : List Op} (h : MaximalRuns ops) (lit : Bytes) (bi : ℕ) :
    MaximalRuns (PlainSearch.literalRun lit ++ .copy bi :: ops) := by
  obtain ⟨hne, hchain⟩ := h
  have htail : (Op.copy bi :: ops).IsChain
      fun a b => ¬ (isLiteral a = true ∧ isLiteral b = true) := by
    cases ops with
    | nil => exact .singleton _
    | cons op rest => exact .cons_cons (by simp [isLiteral]) hchain
  rcases literalRun_cases lit with hrun | ⟨hlit, hrun⟩
  · rw [hrun]
    exact ⟨by simpa using hne, htail⟩
  · rw [hrun]
    refine ⟨?_, ?_⟩
    · intro data hdata
      simp only [List.cons_append, List.nil_append, List.mem_cons, Op.literal.injEq, reduceCtorEq,
        false_or] at hdata
      rcases hdata with rfl | hdata
      · exact hlit
      · exact hne data hdata
    · exact .cons_cons (by simp [isLiteral]) htail

theorem InRange.literalRun (lit : Bytes) : InRange sig (literalRun lit) := by
  rcases literalRun_cases lit with h | ⟨_, h⟩
  · simp [h, InRange]
  · simp [h, InRange]

theorem InRange.copy {ops : List Op} (h : InRange sig ops) (lit : Bytes) {bi : ℕ}
    (hbi : bi < sig.blocks.length) :
    InRange sig (PlainSearch.literalRun lit ++ .copy bi :: ops) := by
  intro bj hbj
  rw [List.mem_append, List.mem_cons, Op.copy.injEq] at hbj
  rcases hbj with hrun | rfl | hops
  · exact InRange.literalRun lit bj hrun
  · exact hbi
  · exact h bj hops

/-- The plain encoder's literal runs are maximal and its copies name blocks. -/
theorem plainFrom_shape (md5 : Bytes → Digest 16) (sig : Signature) (bs n : ℕ) (lit rest : Bytes) :
    MaximalRuns (plainFrom md5 sig bs n lit rest) ∧
      InRange sig (plainFrom md5 sig bs n lit rest) := by
  induction rest generalizing n lit with
  | nil => cases n <;> exact ⟨.literalRun lit, .literalRun lit⟩
  | cons c tail ih =>
    cases n with
    | succ n => exact ih n lit
    | zero =>
      rw [plainFrom]
      split
      · split
        · rename_i bi hfound
          exact ⟨MaximalRuns.copy ⟨by simp, .nil⟩ lit bi,
            InRange.copy (by simp [InRange]) lit (firstMatch_lt hfound)⟩
        · exact ⟨.literalRun _, .literalRun _⟩
      · split
        · rename_i bi hfound
          obtain ⟨hruns, hrange⟩ := ih (bs - 1) []
          exact ⟨hruns.copy lit bi, hrange.copy lit (firstMatch_lt hfound)⟩
        · exact ih 0 (lit ++ [c])

theorem encodeBytes_ops (hbs : 0 < sig.blockSize) (target : Bytes) :
    (encodeBytes md5 sig target).ops = plainOps md5 sig target := by
  obtain ⟨hsame, hrest⟩ := encodeLoop_completed md5 sig hbs ⟨target, [], []⟩ target.length
    (le_refl _)
  rw [completed, completed, hrest, plainFrom_nil, List.nil_append] at hsame
  rw [encodeBytes, if_neg hbs.ne', plainOps, ← hsame]
  exact flushLit_eq _ _

/-- For every target and every signature, honest or not, Encode ends and emits the
ops of the plain encoder. Both loops end by themselves: more fuel than bytes changes
nothing, and the outer one leaves no byte. -/
theorem rolling_search_is_plain (md5 : Bytes → Digest 16) (sig : Signature) (target : Bytes)
    (hbs : 0 < sig.blockSize) :
    (encodeBytes md5 sig target).ops = plainOps md5 sig target ∧
    (∀ fuel, target.length ≤ fuel →
      encodeLoop md5 sig sig.blockSize fuel ⟨target, [], []⟩ =
        encodeLoop md5 sig sig.blockSize target.length ⟨target, [], []⟩ ∧
      (encodeLoop md5 sig sig.blockSize fuel ⟨target, [], []⟩).rest = []) ∧
    (∀ fuel sum s, s.rest.length ≤ fuel →
      rollSearch md5 sig sig.blockSize fuel sum s =
        rollSearch md5 sig sig.blockSize s.rest.length sum s) ∧
    MaximalRuns (encodeBytes md5 sig target).ops ∧
    ∀ bi, Op.copy bi ∈ (encodeBytes md5 sig target).ops → bi < sig.blocks.length := by
  obtain ⟨hruns, hrange⟩ := plainFrom_shape md5 sig sig.blockSize 0 [] target
  rw [encodeBytes_ops hbs]
  refine ⟨rfl, ?_, ?_, hruns, hrange⟩
  · intro fuel hfuel
    exact ⟨encodeLoop_fuel hbs hfuel, (encodeLoop_completed md5 sig hbs _ fuel hfuel).2⟩
  · intro fuel sum s hfuel
    exact rollSearch_fuel hbs hfuel sum

def doubledSignature : Signature :=
  ⟨2, [⟨0, weakChecksum (ascii "ab"), paddedDigest 16 (ascii "ab")⟩,
    ⟨9, weakChecksum (ascii "ab"), paddedDigest 16 (ascii "ab")⟩,
    ⟨1, weakChecksum (ascii "z"), paddedDigest 16 (ascii "z")⟩]⟩

/-- A hit found by rolling, a literal run in front of it, and a short end. -/
theorem rolling_search_finds_block :
    0 < doubledSignature.blockSize ∧
      (encodeBytes (paddedDigest 16) doubledSignature (ascii "xyabz")).ops =
        [.literal (ascii "xy"), .copy 0, .copy 2] ∧
      (encodeBytes (paddedDigest 16) doubledSignature (ascii "xyabz")).ops =
        plainOps (paddedDigest 16) doubledSignature (ascii "xyabz") :=
  ⟨by decide, by decide +kernel,
    (rolling_search_is_plain (paddedDigest 16) doubledSignature (ascii "xyabz") (by decide)).1⟩

end TailSync.PlainSearch

import TailSync.MachineInts

/-!
The rsync-style delta of internal/delta/delta.go: block signatures, the encoder
with its three matching sites, and the decoder. Offsets into the target are
represented by the bytes that are left, so the loop variable i is the length
consumed so far. The strong checksum is a parameter. The decoder multiplies and
adds in wrapping 64-bit integers and panics where a Go slice expression would.
-/
namespace TailSync.DeltaBlocks

open ByteStrings MachineInts

def defaultBlockSize : ℕ := 4096
def maxDecodeOps : ℕ := 16 * 2 ^ 20
def maxOutputSize : ℕ := 64 * 2 ^ 20

structure BlockChecksum where
  index : ℕ
  weak : UInt32
  strong : Digest 16
  deriving DecidableEq

structure Signature where
  blockSize : ℕ
  blocks : List BlockChecksum
  deriving DecidableEq

inductive Op where
  | literal (data : Bytes)
  | copy (blockIndex : ℕ)
  deriving DecidableEq, Repr

structure Delta where
  blockSize : ℕ
  ops : List Op
  outputSize : ℕ
  deriving DecidableEq, Repr

def weakStep (s : UInt32 × UInt32) (c : UInt8) : UInt32 × UInt32 :=
  (s.1 + c.toUInt32, s.2 + (s.1 + c.toUInt32))

def weakChecksum (b : Bytes) : UInt32 :=
  let s := b.foldl weakStep (0, 0)
  (s.2 <<< 16) ||| (s.1 &&& 0xffff)

def roll (sum : UInt32) (out inn : UInt8) (n : ℕ) : UInt32 :=
  let a := sum &&& 0xffff
  let b := sum >>> 16
  let a' := (a - out.toUInt32 + inn.toUInt32) &&& 0xffff
  let b' := (b - UInt32.ofNat n * out.toUInt32 + a') &&& 0xffff
  (b' <<< 16) ||| a'

section Sign
variable (md5 : Bytes → Digest 16)

/-- The blocks ReadFull delivers one after another, the last one short. -/
def signFrom (bs : ℕ) : ℕ → ℕ → Bytes → List BlockChecksum
  | 0, _, _ => []
  | fuel + 1, idx, data =>
      if data.isEmpty then []
      else ⟨idx, weakChecksum (data.take bs), md5 (data.take bs)⟩ ::
        signFrom bs fuel (idx + 1) (data.drop bs)

def signBytes (data : Bytes) (blockSize : ℕ) : Signature :=
  let bs := if blockSize = 0 then defaultBlockSize else blockSize
  ⟨bs, signFrom md5 bs data.length 0 data⟩

end Sign

section Encode
variable (md5 : Bytes → Digest 16) (sig : Signature)

/-- weakMap: the positions of the blocks with a weak sum, in order. -/
def candidates (weak : UInt32) : List ℕ :=
  (List.range sig.blocks.length).filter fun bi =>
    (sig.blocks[bi]?.map BlockChecksum.weak) == some weak

def findBlock (weak : UInt32) (window : Bytes) : Option ℕ :=
  (candidates sig weak).find? fun bi =>
    (sig.blocks[bi]?.map BlockChecksum.strong) == some (md5 window)

/-- The encoder between two iterations: target[i:], the pending literal, the ops. -/
structure EncodeState where
  rest : Bytes
  lit : Bytes
  ops : List Op

def flushLit (ops : List Op) (lit : Bytes) : List Op :=
  if lit.isEmpty then ops else ops ++ [.literal lit]

def EncodeState.hit (s : EncodeState) (bi n : ℕ) : EncodeState :=
  ⟨s.rest.drop n, [], flushLit s.ops s.lit ++ [.copy bi]⟩

/-- Fewer bytes left than a block: match a short final block or keep a literal. -/
def encodeTail (s : EncodeState) : EncodeState :=
  let found :=
    if sig.blocks.isEmpty then none else findBlock md5 sig (weakChecksum s.rest) s.rest
  match found with
  | some bi => s.hit bi s.rest.length
  | none => ⟨[], s.lit ++ s.rest, s.ops⟩

/-- The rolling search: slide by one byte until a block matches. -/
def rollSearch (bs : ℕ) : ℕ → UInt32 → EncodeState → EncodeState
  | 0, _, s => s
  | fuel + 1, sum, s =>
      if s.rest.length < bs then s
      else match findBlock md5 sig sum (s.rest.take bs) with
        | some bi => s.hit bi bs
        | none =>
            match s.rest, s.rest[bs]? with
            | out :: rest, some inn =>
                rollSearch bs fuel (roll sum out inn bs) ⟨rest, s.lit ++ [out], s.ops⟩
            | _, _ => s

def encodeLoop (bs : ℕ) : ℕ → EncodeState → EncodeState
  | 0, s => s
  | fuel + 1, s =>
      match s.rest with
      | [] => s
      | c :: rest =>
          if s.rest.length < bs then encodeTail md5 sig s
          else match findBlock md5 sig (weakChecksum (s.rest.take bs)) (s.rest.take bs) with
            | some bi => encodeLoop bs fuel (s.hit bi bs)
            | none =>
                let s' : EncodeState := ⟨rest, s.lit ++ [c], s.ops⟩
                if bs ≤ rest.length then
                  encodeLoop bs fuel
                    (rollSearch md5 sig bs rest.length (weakChecksum (rest.take bs)) s')
                else encodeLoop bs fuel s'

def encodeBytes (target : Bytes) : Delta :=
  if sig.blockSize = 0 then ⟨defaultBlockSize, [.literal target], target.length⟩
  else
    let s := encodeLoop md5 sig sig.blockSize target.length ⟨target, [], []⟩
    ⟨sig.blockSize, flushLit s.ops s.lit, target.length⟩

end Encode

inductive ApplyError where
  | outputSizeRange
  | copyOutOfRange (blockIndex : ℕ)
  | exceedsDeclared
  | sizeMismatch
  deriving DecidableEq, Repr

def copyRange (basis : Bytes) (bs bi : ℕ) : ℤ × ℤ :=
  let start := wrap64 (bi * bs)
  (start, min (wrap64 (start + bs)) basis.length)

def slice (basis : Bytes) (start stop : ℤ) : Outcome ApplyError Bytes :=
  if 0 ≤ start ∧ start ≤ stop ∧ stop ≤ basis.length then
    .ok ((basis.drop start.toNat).take (stop - start).toNat)
  else .panic

def opBytes (basis : Bytes) (bs : ℕ) : Op → Outcome ApplyError Bytes
  | .literal data => .ok data
  | .copy bi =>
      let range := copyRange basis bs bi
      if range.1 > basis.length then .err (.copyOutOfRange bi)
      else slice basis range.1 range.2

def applyLoop (basis : Bytes) (bs outputSize : ℕ) : Bytes → List Op → Outcome ApplyError Bytes
  | out, [] => .ok out
  | out, op :: rest =>
      match opBytes basis bs op with
      | .ok data =>
          if (out ++ data).length > outputSize then .err .exceedsDeclared
          else applyLoop basis bs outputSize (out ++ data) rest
      | .err e => .err e
      | .panic => .panic

def Delta.effectiveBlockSize (d : Delta) : ℕ :=
  if d.blockSize = 0 then defaultBlockSize else d.blockSize

def apply (basis : Bytes) (d : Delta) : Outcome ApplyError Bytes :=
  if d.outputSize > maxOutputSize then .err .outputSizeRange
  else match applyLoop basis d.effectiveBlockSize d.outputSize [] d.ops with
    | .ok out => if out.length ≠ d.outputSize then .err .sizeMismatch else .ok out
    | .err e => .err e
    | .panic => .panic

end TailSync.DeltaBlocks

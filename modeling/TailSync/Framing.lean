import TailSync.Entries
import TailSync.MachineInts

/-!
Message framing of internal/proto/proto.go: a little-endian header length, a JSON
header, and a payload whose length the header announces. The JSON decoder is a
parameter; all that is known of it is that an int field holds a 64-bit integer.
The check of the total size adds the two announced lengths in wrapping integers,
so a payload length just below 2^63 makes the total negative. Decode is size-safe
on a stream exactly when its header does not announce such a length.
-/
namespace TailSync.Framing

open ByteStrings Entries MachineInts

def maxMessageSize : ℕ := 64 * 2 ^ 20

/-- Type; a header may carry any other string. -/
inductive MessageType where
  | hello
  | helloOK
  | alreadyConnected
  | manifest
  | manifestReq
  | fileReq
  | fileData
  | deltaReq
  | delta
  | syncDone
  | notify
  | notifyOK
  | error
  | ping
  | pong
  | other (name : Bytes)
  deriving DecidableEq, Repr

abbrev GoInt := { x : ℤ // -2 ^ 63 ≤ x ∧ x < 2 ^ 63 }

def zeroInt : GoInt := ⟨0, by decide⟩

structure Header where
  type : MessageType
  payloadLen : GoInt
  nodeID : Bytes
  version : GoInt
  port : GoInt
  path : Bytes
  hash : Bytes
  size : ℤ
  error : Bytes
  modTime : Time
  mode : UInt32
  updatedAt : Time
  deleted : Bool
  entries : List Entry
  blockSize : GoInt
  deriving DecidableEq

structure Message where
  header : Header
  payload : Bytes
  deriving DecidableEq

inductive FrameError where
  | eof
  | invalidHeaderLength (n : ℕ)
  | readHeader
  | unmarshalHeader
  | negativePayloadLength
  | messageTooLarge (total : ℤ)
  | readPayload
  deriving DecidableEq, Repr

/-- io.ReadFull: a short stream is used up. -/
def readFull (n : ℕ) (r : Bytes) : Bytes × Option Bytes :=
  if r.length < n then ([], none) else (r.drop n, some (r.take n))

/-- make([]byte, n) panics on a negative length and on one too large to allocate. -/
def makeslicePanics (n : ℤ) : Bool := decide (n < 0) || decide (n > maxAlloc)

/-- Decode up to the last size check: the header length and the header. -/
def decodeHeader (parse : Bytes → Option Header) (r : Bytes) :
    Bytes × Except FrameError (ℕ × Header) :=
  match readFull 4 r with
  | (r1, none) => (r1, .error .eof)
  | (r1, some lenBuf) =>
      let hLen := fromLe lenBuf
      if hLen = 0 ∨ hLen > maxMessageSize - 4 then (r1, .error (.invalidHeaderLength hLen))
      else match readFull hLen r1 with
        | (r2, none) => (r2, .error .readHeader)
        | (r2, some hb) =>
            match parse hb with
            | none => (r2, .error .unmarshalHeader)
            | some h =>
                if h.payloadLen.val < 0 then (r2, .error .negativePayloadLength)
                else
                  let total := wrap64 (wrap64 (4 + hLen) + h.payloadLen.val)
                  if total > maxMessageSize then (r2, .error (.messageTooLarge total))
                  else (r2, .ok (hLen, h))

/-- Decode: what is left of the stream, and how the call ends. -/
def decode (parse : Bytes → Option Header) (r : Bytes) : Bytes × Outcome FrameError Message :=
  match decodeHeader parse r with
  | (r2, .error e) => (r2, .err e)
  | (r2, .ok (_, h)) =>
      if h.payloadLen.val > 0 then
        if makeslicePanics h.payloadLen.val then (r2, .panic)
        else match readFull h.payloadLen.val.toNat r2 with
          | (r3, none) => (r3, .err .readPayload)
          | (r3, some payload) => (r3, .ok ⟨h, payload⟩)
      else (r2, .ok ⟨h, []⟩)

/-- The stream starts with a header whose announced sizes add up to 2^63 or more. -/
def OverflowingHeader (parse : Bytes → Option Header) (r : Bytes) : Prop :=
  ∃ lenBuf hb rest h, r = lenBuf ++ hb ++ rest ∧ lenBuf.length = 4 ∧
    hb.length = fromLe lenBuf ∧ 0 < hb.length ∧ hb.length ≤ maxMessageSize - 4 ∧
    parse hb = some h ∧ 2 ^ 63 ≤ 4 + hb.length + h.payloadLen.val

section Decode
variable {parse : Bytes → Option Header} {r : Bytes}

theorem readFull_cases (n : ℕ) (r : Bytes) :
    (r.length < n ∧ readFull n r = ([], none)) ∨
      ∃ data rest, r = data ++ rest ∧ data.length = n ∧ readFull n r = (rest, some data) := by
  unfold readFull
  by_cases h : r.length < n
  · exact Or.inl ⟨h, if_pos h⟩
  · refine Or.inr ⟨r.take n, r.drop n, (List.take_append_drop n r).symm, ?_, if_neg h⟩
    rw [List.length_take]
    omega

/-- A header that passes all checks stands at the front of the stream, and the
wrapped total is within the limit. -/
theorem decodeHeader_ok {rest : Bytes} {hLen : ℕ} {h : Header}
    (hdec : decodeHeader parse r = (rest, .ok (hLen, h))) :
    ∃ lenBuf hb, r = lenBuf ++ hb ++ rest ∧ lenBuf.length = 4 ∧ fromLe lenBuf = hLen ∧
      hb.length = hLen ∧ 0 < hLen ∧ hLen ≤ maxMessageSize - 4 ∧ parse hb = some h ∧
      0 ≤ h.payloadLen.val ∧
      wrap64 (wrap64 (4 + hLen) + h.payloadLen.val) ≤ maxMessageSize := by
  unfold decodeHeader at hdec
  rcases readFull_cases 4 r with ⟨_, hread⟩ | ⟨lenBuf, r1, hr, hlen, hread⟩
  · rw [hread] at hdec
    exact absurd hdec (by simp)
  · rw [hread] at hdec
    dsimp only at hdec
    split at hdec
    · exact absurd hdec (by simp)
    · rename_i hrange
      rcases readFull_cases (fromLe lenBuf) r1 with ⟨_, hread'⟩ | ⟨hb, r2, hr1, hlen', hread'⟩
      · rw [hread'] at hdec
        exact absurd hdec (by simp)
      · rw [hread'] at hdec
        dsimp only at hdec
        split at hdec
        · exact absurd hdec (by simp)
        · rename_i h' hparse
          split at hdec
          · exact absurd hdec (by simp)
          · rename_i hneg
            split at hdec
            · exact absurd hdec (by simp)
            · rename_i htotal
              simp only [Prod.mk.injEq, Except.ok.injEq] at hdec
              obtain ⟨rfl, rfl, rfl⟩ := hdec
              exact ⟨lenBuf, hb, by rw [hr, hr1, List.append_assoc], hlen, rfl, hlen',
                by omega, by omega, hparse, by omega, by omega⟩

theorem readFull_append {n : ℕ} {data : Bytes} (h : data.length = n) (rest : Bytes) :
    readFull n (data ++ rest) = (rest, some data) := by
  unfold readFull
  rw [if_neg (by simp [h]), List.drop_left' h, List.take_left' h]

/-- A header at the front of the stream whose wrapped total is within the limit
passes all checks, whatever follows it. -/
theorem decodeHeader_of_checks {lenBuf hb : Bytes} {h : Header} (hlen : lenBuf.length = 4)
    (hhb : hb.length = fromLe lenBuf) (hpos : 0 < hb.length)
    (hmax : hb.length ≤ maxMessageSize - 4) (hparse : parse hb = some h)
    (hneg : 0 ≤ h.payloadLen.val)
    (htotal : wrap64 (wrap64 (4 + hb.length) + h.payloadLen.val) ≤ maxMessageSize)
    (rest : Bytes) :
    decodeHeader parse (lenBuf ++ hb ++ rest) = (rest, .ok (hb.length, h)) := by
  unfold decodeHeader
  rw [List.append_assoc, readFull_append hlen]
  dsimp only
  rw [← hhb, if_neg (by omega), readFull_append rfl]
  dsimp only
  rw [hparse]
  dsimp only
  rw [if_neg (by omega), if_neg (by omega)]

/-- An overflowing header passes the size checks. -/
theorem decodeHeader_overflowing {lenBuf hb rest : Bytes} {h : Header}
    (hlen : lenBuf.length = 4) (hhb : hb.length = fromLe lenBuf) (hpos : 0 < hb.length)
    (hmax : hb.length ≤ maxMessageSize - 4) (hparse : parse hb = some h)
    (hsum : 2 ^ 63 ≤ 4 + hb.length + h.payloadLen.val) :
    decodeHeader parse (lenBuf ++ hb ++ rest) = (rest, .ok (hb.length, h)) := by
  have hpayload := h.payloadLen.property
  have hsmall : hb.length ≤ 64 * 2 ^ 20 - 4 := hmax
  have hinner : wrap64 (4 + (hb.length : ℤ)) = 4 + hb.length :=
    wrap64_eq_self (by omega) (by omega)
  refine decodeHeader_of_checks hlen hhb hpos hmax hparse (by omega) ?_ rest
  rw [hinner, wrap64_of_high (by omega) (by omega)]
  omega

/-- A header that does not overflow and passes the checks announces a message
within the limit. -/
theorem decodeHeader_sum {rest : Bytes} {hLen : ℕ} {h : Header}
    (hdec : decodeHeader parse r = (rest, .ok (hLen, h)))
    (hsafe : ¬ OverflowingHeader parse r) :
    0 ≤ h.payloadLen.val ∧ 4 + hLen + h.payloadLen.val ≤ maxMessageSize := by
  obtain ⟨lenBuf, hb, hr, hlen, hval, hhb, hpos, hmax, hparse, hneg, htotal⟩ :=
    decodeHeader_ok hdec
  have hsum : 4 + (hLen : ℤ) + h.payloadLen.val < 2 ^ 63 := by
    by_contra hge
    refine hsafe ⟨lenBuf, hb, rest, h, hr, hlen, ?_, ?_, ?_, hparse, ?_⟩ <;> omega
  unfold maxMessageSize at hmax
  have hinner : wrap64 (4 + (hLen : ℤ)) = 4 + hLen := wrap64_eq_self (by omega) (by omega)
  rw [hinner, wrap64_eq_self (by omega) (by omega)] at htotal
  exact ⟨hneg, htotal⟩

/-- Up to the size checks no more than a full message is read. -/
theorem decodeHeader_consumed (parse : Bytes → Option Header) (r : Bytes) :
    r.length - (decodeHeader parse r).1.length ≤ maxMessageSize := by
  unfold decodeHeader maxMessageSize
  rcases readFull_cases 4 r with ⟨hshort, hread⟩ | ⟨lenBuf, r1, hr, hlen, hread⟩
  · rw [hread]
    dsimp only
    omega
  · rw [hread]
    have hrlen : r.length = 4 + r1.length := by rw [hr, List.length_append, hlen]
    dsimp only
    split
    · dsimp only
      omega
    · rename_i hrange
      rcases readFull_cases (fromLe lenBuf) r1 with ⟨hshort, hread'⟩ | ⟨hb, r2, hr1, hlen', hread'⟩
      · rw [hread']
        simp only [List.length_nil]
        omega
      · have hr1len : r1.length = fromLe lenBuf + r2.length := by
          rw [hr1, List.length_append, hlen']
        have hrest : r.length - r2.length ≤ 64 * 2 ^ 20 := by omega
        rw [hread']
        dsimp only
        split
        · exact hrest
        · split
          · exact hrest
          · split <;> exact hrest

/-- Decode is size-safe on a stream exactly when its header does not overflow:
past the checks the announced sizes add up to at most MaxMessageSize, no
allocation panics, and no more than MaxMessageSize bytes are read. -/
theorem decode_size_safe_iff (parse : Bytes → Option Header) (r : Bytes) :
    ((∀ rest hLen h, decodeHeader parse r = (rest, .ok (hLen, h)) →
        0 ≤ h.payloadLen.val ∧ 4 + hLen + h.payloadLen.val ≤ maxMessageSize) ∧
      (decode parse r).2 ≠ .panic ∧
      r.length - (decode parse r).1.length ≤ maxMessageSize) ↔
    ¬ OverflowingHeader parse r := by
  constructor
  · rintro ⟨hsum, _, _⟩ ⟨lenBuf, hb, rest, h, rfl, hlen, hhb, hpos, hmax, hparse, hover⟩
    have hle := (hsum rest hb.length h
      (decodeHeader_overflowing hlen hhb hpos hmax hparse hover)).2
    unfold maxMessageSize at hle
    omega
  · intro hsafe
    refine ⟨fun rest hLen h hdec => decodeHeader_sum hdec hsafe, ?_⟩
    have hconsumed := decodeHeader_consumed parse r
    unfold decode
    cases hdec : decodeHeader parse r with
    | mk r2 result =>
      rw [hdec] at hconsumed
      cases result with
      | error e => exact ⟨by simp, hconsumed⟩
      | ok value =>
        obtain ⟨hLen, h⟩ := value
        obtain ⟨hneg, hle⟩ := decodeHeader_sum hdec hsafe
        obtain ⟨lenBuf, hb, hr, hlen, _, hhb, _⟩ := decodeHeader_ok hdec
        have hrlen : r.length = 4 + hLen + r2.length := by
          rw [hr, List.length_append, List.length_append, hlen, hhb]
        have hmake : makeslicePanics h.payloadLen.val = false := by
          have hsmall : ¬ h.payloadLen.val > (maxAlloc : ℤ) := by
            unfold maxMessageSize at hle
            unfold maxAlloc
            omega
          simp [makeslicePanics, hneg, hsmall]
        dsimp only
        split
        · rw [hmake]
          rcases readFull_cases h.payloadLen.val.toNat r2 with
            ⟨hshort, hread⟩ | ⟨payload, r3, hr2, hlen', hread⟩
          · rw [hread]
            refine ⟨by simp, ?_⟩
            simp only [Bool.false_eq_true, if_false, List.length_nil]
            omega
          · rw [hread]
            have hr2len : r2.length = h.payloadLen.val.toNat + r3.length := by
              rw [hr2, List.length_append, hlen']
            refine ⟨by simp, ?_⟩
            simp only [Bool.false_eq_true, if_false]
            omega
        · exact ⟨by simp, hconsumed⟩

end Decode

def decimal : Bytes → Option ℕ
  | [] => none
  | ds => ds.foldl (fun acc c => acc.bind fun n =>
      if 48 ≤ c ∧ c ≤ 57 then some (10 * n + (c.toNat - 48)) else none) (some 0)

def emptyHeader (payloadLen : GoInt) : Header where
  type := .other []
  payloadLen := payloadLen
  nodeID := []
  version := zeroInt
  port := zeroInt
  path := []
  hash := []
  size := 0
  error := []
  modTime := 0
  mode := 0
  updatedAt := 0
  deleted := false
  entries := []
  blockSize := zeroInt

/-- The JSON objects whose only member is payload_len with a non-negative int. -/
def payloadLenJson (hb : Bytes) : Option Header :=
  let opening := ascii "\x7b\"payload_len\":"
  if hb.take opening.length = opening ∧ hb.getLast? = some 125 then
    match decimal (hb.drop opening.length).dropLast with
    | some n => if h : -2 ^ 63 ≤ (n : ℤ) ∧ (n : ℤ) < 2 ^ 63 then some (emptyHeader ⟨n, h⟩) else none
    | none => none
  else none

def hostileFrame : Bytes :=
  leBytes 4 35 ++ ascii "\x7b\"payload_len\":9223372036854775807\x7d"

/-- 39 bytes from any peer make Decode panic. -/
theorem hostileFrame_panics : (decode payloadLenJson hostileFrame).2 = .panic := by
  decide +kernel

end TailSync.Framing

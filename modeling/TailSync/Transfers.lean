import TailSync.DeltaWire
import TailSync.Framing
import TailSync.Scanning

/-!
The unlocked half of an apply in daemon/apply.go: fetching the bytes of one
remote entry over a stream of its own, as a delta against the local file or in
full, and checking them against the announced hash. What the network delivers is
a parameter of each request, a message of any content or a failure. Whatever is
delivered, bytes that come out of PullAndVerify have the announced hash.
-/
namespace TailSync.Transfers

open ByteStrings Entries SyncRoot Scanning MachineInts DeltaBlocks DeltaWire Framing
open RelativePaths (PathError)

structure Hashes where
  sha256 : Bytes → Digest 32
  md5 : Bytes → Digest 16

def Hashes.plain : Hashes where
  sha256 := paddedDigest 32
  md5 := paddedDigest 16

inductive PeerFailure where
  | missingHash (path : Bytes)
  | reported (text : Bytes)
  | basis (e : FsError)
  | basisTooLarge (path : Bytes) (size : ℤ)
  | badDelta (e : DecodeError)
  | applyDelta (e : DeltaBlocks.ApplyError)
  | hashMismatch (path got want : Bytes)
  deriving DecidableEq, Repr

inductive ApplyError where
  | rejectPath (e : PathError)
  | cancelled
  | transport
  | peerLogical (e : PeerFailure)
  | tooLarge (path : Bytes) (size : ℤ)
  | stat (path : Bytes) (e : FsError)
  | delete (path : Bytes) (e : FsError)
  | chtimes (path : Bytes) (e : FsError)
  | chmod (path : Bytes) (e : FsError)
  | write (e : FsError)
  deriving DecidableEq, Repr

def isTransportErr : ApplyError → Bool
  | .transport => true
  | _ => false

inductive Reply where
  | cancelled
  | failed
  | message (msg : Message)

/-- What the network delivers during one apply: for the delta request with the
signature it carries, for the first full request, and for the full request that
follows a hash mismatch. -/
structure Replies where
  delta : Bytes → Reply
  full : Reply
  retry : Reply

def Replies.serving (data : Bytes) : Replies :=
  let reply := .message ⟨{ emptyHeader zeroInt with type := .fileData }, data⟩
  ⟨fun _ => .failed, reply, reply⟩

def checkFileSize (cfg : Config) (path : Bytes) (size : ℤ) : Except ApplyError Unit :=
  if size > cfg.maxFileBytes then .error (.tooLarge path size) else .ok ()

/-- readFileLimited, with its error as pullDelta reports it. -/
def readFileLimited (cfg : Config) (h : Host) (root : Root) (rel : Bytes) :
    Except PeerFailure Bytes :=
  match stat h .statBasis root rel with
  | .error e => .error (.basis e)
  | .ok fi =>
      if fi.size > cfg.maxFileBytes then .error (.basisTooLarge rel fi.size)
      else match readFile h root rel with
        | .error e => .error (.basis e)
        | .ok data => .ok data

def expectType (want : MessageType) : Reply → Except ApplyError Bytes
  | .cancelled => .error .cancelled
  | .failed => .error .transport
  | .message msg =>
      if msg.header.type = .error then .error (.peerLogical (.reported msg.header.error))
      else if msg.header.type ≠ want then .error .transport
      else .ok msg.payload

def pullFull (h : Host) (reply : Reply) : Outcome ApplyError Bytes :=
  if h.cancelled then .err .cancelled
  else match expectType .fileData reply with
    | .error e => .err e
    | .ok payload => .ok payload

def pullDelta (cfg : Config) (hs : Hashes) (h : Host) (root : Root) (remote : Entry)
    (reply : Bytes → Reply) : Outcome ApplyError Bytes :=
  if h.cancelled then .err .cancelled
  else match readFileLimited cfg h root remote.path with
    | .error e => .err (.peerLogical e)
    | .ok basis =>
        let sigRaw := marshalSignature (signBytes hs.md5 basis cfg.blockSize)
        match expectType .delta (reply sigRaw) with
        | .error e => .err e
        | .ok payload =>
            match unmarshalDelta payload with
            | .error e => .err (.peerLogical (.badDelta e))
            | .ok d =>
                match DeltaBlocks.apply basis d with
                | .ok out => .ok out
                | .err e => .err (.peerLogical (.applyDelta e))
                | .panic => .panic

/-- pullContent: a delta, and the whole file when the delta fails for a reason
that leaves the session usable. -/
def pullContent (cfg : Config) (hs : Hashes) (h : Host) (root : Root) (remote : Entry)
    (useDelta : Bool) (replies : Replies) : Outcome ApplyError Bytes :=
  if useDelta then
    match pullDelta cfg hs h root remote replies.delta with
    | .ok data => .ok data
    | .err e => if isTransportErr e then .err e else pullFull h replies.full
    | .panic => .panic
  else pullFull h replies.full

def verified (hs : Hashes) (remote : Entry) (data : Bytes) : Option (Bytes × Bytes) :=
  let got := contentHash hs.sha256 data
  if got = remote.hash then some (data, got) else none

/-- pullAndVerify: the bytes and their hash; a delta whose result has another
hash is followed by one full pull. -/
def pullAndVerify (cfg : Config) (hs : Hashes) (h : Host) (root : Root) (remote : Entry)
    (useDelta : Bool) (replies : Replies) : Outcome ApplyError (Bytes × Bytes) :=
  let mismatch (data : Bytes) : Outcome ApplyError (Bytes × Bytes) :=
    .err (.peerLogical (.hashMismatch remote.path (contentHash hs.sha256 data) remote.hash))
  match pullContent cfg hs h root remote useDelta replies with
  | .err e => .err e
  | .panic => .panic
  | .ok data =>
      match verified hs remote data with
      | some result => .ok result
      | none =>
          if useDelta then
            match pullFull h replies.retry with
            | .err e => .err e
            | .panic => .panic
            | .ok data' =>
                match verified hs remote data' with
                | some result => .ok result
                | none => mismatch data'
          else mismatch data

/-- The transfer of applyRemote: pullAndVerify and the size check. -/
def transfer (cfg : Config) (hs : Hashes) (h : Host) (root : Root) (remote : Entry)
    (useDelta : Bool) (replies : Replies) : Outcome ApplyError (Bytes × Bytes) :=
  match pullAndVerify cfg hs h root remote useDelta replies with
  | .ok (data, got) =>
      match checkFileSize cfg remote.path data.length with
      | .ok () => .ok (data, got)
      | .error e => .err e
  | .err e => .err e
  | .panic => .panic

section Verified
variable {cfg : Config} {hs : Hashes} {h : Host} {root : Root} {remote : Entry}
  {useDelta : Bool} {replies : Replies}

theorem verified_some {data d got : Bytes} (hv : verified hs remote data = some (d, got)) :
    got = contentHash hs.sha256 d ∧ got = remote.hash := by
  unfold verified at hv
  dsimp only at hv
  split at hv
  · rename_i heq
    cases hv
    exact ⟨rfl, heq⟩
  · exact absurd hv (by simp)

/-- On every route the delivered bytes have the announced hash. -/
theorem pullAndVerify_ok {data got : Bytes}
    (hpull : pullAndVerify cfg hs h root remote useDelta replies = .ok (data, got)) :
    got = contentHash hs.sha256 data ∧ got = remote.hash := by
  unfold pullAndVerify at hpull
  dsimp only at hpull
  split at hpull
  · exact absurd hpull (by simp)
  · exact absurd hpull (by simp)
  · split at hpull
    · rename_i result hverified
      cases hpull
      exact verified_some hverified
    · split at hpull
      · split at hpull
        · exact absurd hpull (by simp)
        · exact absurd hpull (by simp)
        · split at hpull
          · rename_i result hverified
            cases hpull
            exact verified_some hverified
          · exact absurd hpull (by simp)
      · exact absurd hpull (by simp)

/-- What reaches the commit has the announced hash and a permitted size. -/
theorem transfer_ok {data got : Bytes}
    (ht : transfer cfg hs h root remote useDelta replies = .ok (data, got)) :
    got = contentHash hs.sha256 data ∧ got = remote.hash ∧
      (data.length : ℤ) ≤ cfg.maxFileBytes := by
  unfold transfer at ht
  split at ht
  · rename_i data' got' hpull
    unfold checkFileSize at ht
    split at ht
    · rename_i hsize
      cases ht
      obtain ⟨hgot, hhash⟩ := pullAndVerify_ok hpull
      refine ⟨hgot, hhash, ?_⟩
      split at hsize
      · exact absurd hsize (by simp)
      · omega
    · exact absurd ht (by simp)
  · exact absurd ht (by simp)
  · exact absurd ht (by simp)

end Verified

end TailSync.Transfers

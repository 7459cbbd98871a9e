import TailSync.OpStreams

/-!
A pull from a node that serves as daemon/serve.go does. The requests of pullFull and
pullDelta go through Encode, the stream of the other node and Decode. If the file is
unchanged over there and has the hash that was announced, the pull delivers it, on
whichever route: a delta that cannot be made or applied is followed by the whole file,
and so is one that yields other bytes because checksums collided. The delta suffices on
its own when the strong sum distinguishes the blocks.
-/
namespace TailSync.PeerPulls

open ByteStrings Entries IndexMap SyncRoot Scanning MachineInts DeltaBlocks DeltaReplay DeltaWire
open DeltaTransfers DeltaSizes Framing FrameRoundTrips Transfers FileServing Handshakes OpStreams

/-- One request on a stream of its own: what the caller makes of it. No reply stands for a
panic on either side. -/
def ask (s : Server) (msg : Message) : Option Reply :=
  match encode s.json [] msg with
  | (_, .error _) => some .failed
  | (w, .ok ()) =>
      match s.handleInboundStream true w with
      | .ok (reply, _) =>
          match (decode s.json.unmarshal reply).2 with
          | .ok answer => some (.message answer)
          | .err _ => some .failed
          | .panic => none
      | _ => none

def requestBlockSize (cfg : Config) : GoInt := ⟨wrap64 cfg.blockSize, wrap64_bounds _⟩

def deltaRequest (cfg : Config) (remote : Entry) (sigRaw : Bytes) : Message :=
  newDeltaReq remote.path remote.hash (requestBlockSize cfg) sigRaw

def fullRequest (remote : Entry) : Message := newFileReq remote.path remote.hash

/-- The replies that a node gives to the requests of one apply; a stream that breaks down has
failed. -/
def repliesOf (s : Server) (cfg : Config) (remote : Entry) : Replies where
  delta sigRaw := (ask s (deltaRequest cfg remote sigRaw)).getD .failed
  full := (ask s (fullRequest remote)).getD .failed
  retry := (ask s (fullRequest remote)).getD .failed

theorem repliesOf_delta {s : Server} {cfg : Config} {remote : Entry} {sigRaw : Bytes}
    {reply : Reply} (h : ask s (deltaRequest cfg remote sigRaw) = some reply) :
    (repliesOf s cfg remote).delta sigRaw = reply := by
  simp only [repliesOf, h, Option.getD_some]

/-- The request for a delta against the bytes of the local file. -/
def basisRequest (cfg : Config) (hs : Hashes) (remote : Entry) (basis : Bytes) : Message :=
  deltaRequest cfg remote (marshalSignature (signBytes hs.md5 basis cfg.blockSize))

def basisSignature (cfg : Config) (hs : Hashes) (basis : Bytes) : Except StreamError Signature :=
  requestSignature (requestBlockSize cfg)
    (marshalSignature (signBytes hs.md5 basis cfg.blockSize))

/-- The other node has the announced file under a path of its index, unchanged since its last
scan. -/
structure Offers (s : Server) (hs : Hashes) (remote : Entry) (p : Bytes) (e : Entry)
    (data : Bytes) : Prop where
  ready : s.host.cancelled = false
  served : serveEntry s.cfg s.host s.daemon remote.path = .ok (e, p)
  read : readFile s.host s.daemon.root p = .ok data
  hashed : contentHash hs.sha256 data = remote.hash

/-- The request for the whole file and the file itself come through. -/
structure FullExchange (s : Server) (remote : Entry) (p : Bytes) (e : Entry) (data : Bytes) :
    Prop where
  asked : Crosses s.json (fullRequest remote)
  sent : Crosses s.json (newFileData p e data)

/-- The request for a delta comes through, and so does what it is answered with: the delta, if
it fits into a frame, or the error that the other node meets on it. -/
structure DeltaExchange (s : Server) (cfg : Config) (hs : Hashes) (remote : Entry) (p : Bytes)
    (e : Entry) (data basis : Bytes) : Prop where
  asked : Crosses s.json (basisRequest cfg hs remote basis)
  sent : ∀ sig, basisSignature cfg hs basis = .ok sig →
    s.json.Keeps (framedHeader (newDelta p e (marshalDelta (encodeBytes s.md5 sig data))))
  refused : ∀ err, s.serveMsg [] (framed (basisRequest cfg hs remote basis)) = ([], .error err) →
    Crosses s.json (newError (s.text err))

/-- The bytes that the delta of the other node makes of the local file. -/
def Rebuilt (s : Server) (cfg : Config) (hs : Hashes) (basis data out : Bytes) : Prop :=
  ∃ sig, basisSignature cfg hs basis = .ok sig ∧
    DeltaBlocks.apply basis (encodeBytes s.md5 sig data) = .ok out

/-- Encode only fills in the payload length. -/
theorem framed_fields (msg : Message) : (framed msg).header.type = msg.header.type ∧
    (framed msg).header.path = msg.header.path ∧
    (framed msg).header.blockSize = msg.header.blockSize ∧
    (framed msg).header.error = msg.header.error := by
  have hfields : ∀ (h : Header) (n : GoInt), ({ h with payloadLen := n } : Header).type = h.type ∧
      ({ h with payloadLen := n } : Header).path = h.path ∧
      ({ h with payloadLen := n } : Header).blockSize = h.blockSize ∧
      ({ h with payloadLen := n } : Header).error = h.error := by
    intro h n
    cases h
    exact ⟨rfl, rfl, rfl, rfl⟩
  exact hfields msg.header (goLen msg.payload)

section Asked
variable {s : Server} {cfg : Config} {hs : Hashes} {h : Host} {root : Root} {remote e : Entry}
  {p data sigRaw : Bytes}

/-- A request that arrives is handled, and its answer comes back. -/
theorem ask_answered {msg answer : Message} (hasked : Crosses s.json msg)
    (hping : msg.header.type ≠ .ping)
    (hreply : (s.handleStream true (framed msg)).1 = s.written [] answer)
    (hanswer : Crosses s.json answer) :
    ask s msg = some (.message (framed answer)) := by
  have hsent : encode s.json [] msg = ((encode s.json [] msg).1, .ok ()) := by
    rw [← (encode_ok_iff []).mpr hasked.2]
  rcases decode_written hasked.1 with ⟨_, _, hdec⟩ | ⟨hno, _⟩
  · have hhandled : s.handleInboundStream true (encode s.json [] msg).1 =
        .ok (s.handleStream true (framed msg)) := by
      unfold Server.handleInboundStream
      rw [hdec]
      dsimp only
      rw [if_neg (by rw [(framed_fields msg).1]; exact hping)]
    rcases decode_written hanswer.1 with ⟨_, _, hback⟩ | ⟨hno, _⟩
    · unfold ask
      rw [hsent]
      dsimp only
      rw [hhandled]
      dsimp only
      rw [hreply, Server.written, hback]
    · exact absurd hanswer.2 hno
  · exact absurd hasked.2 hno

/-- A request for a file or a delta gets what comes out of the serve slot. -/
theorem ask_slot {msg answer : Message} (hasked : Crosses s.json msg)
    (htype : msg.header.type = .fileReq ∨ msg.header.type = .deltaReq)
    (hslot : s.serveInSlot true (framed msg) = s.written [] answer)
    (hanswer : Crosses s.json answer) : ask s msg = some (.message (framed answer)) := by
  have hping : msg.header.type ≠ .ping := by
    rcases htype with h | h <;> simp [h]
  refine ask_answered hasked hping ?_ hanswer
  rw [← hslot]
  unfold Server.handleStream
  rw [(framed_fields msg).1]
  rcases htype with h | h <;> rw [h]

theorem expectType_framed {want : MessageType} {msg : Message} (hwant : want ≠ .error)
    (htype : msg.header.type = want) :
    expectType want (.message (framed msg)) = .ok msg.payload := by
  have hframed : (framed msg).header.type = want := (framed_fields msg).1.trans htype
  unfold expectType
  dsimp only
  rw [if_neg (by rw [hframed]; exact hwant), if_neg (not_not.mpr hframed), framed]

theorem expectType_error (want : MessageType) (text : Bytes) :
    expectType want (.message (framed (newError text))) =
      .error (.peerLogical (.reported text)) := by
  have hframed : (framed (newError text)).header.type = .error := (framed_fields _).1
  unfold expectType
  dsimp only
  rw [if_pos hframed, (framed_fields _).2.2.2]
  rfl

theorem FullExchange.data_le (hfull : FullExchange s remote p e data) :
    data.length ≤ maxOutputSize := by
  obtain ⟨jb, _, hlen⟩ := hfull.sent.2
  have hpayload : (newFileData p e data).payload = data := rfl
  rw [hpayload] at hlen
  unfold maxMessageSize at hlen
  unfold maxOutputSize
  omega

/-- A request for the whole file brings it. -/
theorem ask_full (hfull : FullExchange s remote p e data) (hoffers : Offers s hs remote p e data) :
    ask s (fullRequest remote) = some (.message (framed (newFileData p e data))) := by
  refine ask_slot hfull.asked (Or.inl rfl) ?_ hfull.sent
  have henc : encode s.json [] (newFileData p e data) =
      (s.written [] (newFileData p e data), .ok ()) := by
    rw [Server.written, ← (encode_ok_iff []).mpr hfull.sent.2]
  have hmsg : s.serveMsg [] (framed (fullRequest remote)) =
      (s.written [] (newFileData p e data), .ok ()) := by
    unfold Server.serveMsg
    rw [hoffers.ready, (framed_fields _).1, (framed_fields _).2.1]
    simp only [fullRequest, newFileReq, Bool.false_eq_true, if_false]
    rw [serveFile_eq hoffers.served hoffers.read, henc]
    rfl
  rw [Server.serveInSlot, hmsg]
  rfl

theorem serveMsg_delta (cfg : Config) (basis : Bytes) (hoffers : Offers s hs remote p e data) :
    s.serveMsg [] (framed (basisRequest cfg hs remote basis)) =
      match basisSignature cfg hs basis with
      | .error err => ([], .error err)
      | .ok sig => s.send [] (newDelta p e (marshalDelta (encodeBytes s.md5 sig data))) := by
  unfold Server.serveMsg
  rw [hoffers.ready, (framed_fields _).1, (framed_fields _).2.1, (framed_fields _).2.2.1]
  simp only [basisRequest, deltaRequest, newDeltaReq, Bool.false_eq_true, if_false]
  unfold Server.serveDelta
  rw [hoffers.served]
  dsimp only
  rw [hoffers.read]
  rfl

/-- A request for a delta brings the delta, if its signature passes and the delta can be
sent. -/
theorem ask_delta {sig : Signature} {basis : Bytes}
    (hasked : Crosses s.json (basisRequest cfg hs remote basis))
    (hoffers : Offers s hs remote p e data) (hsig : basisSignature cfg hs basis = .ok sig)
    (hsent : Crosses s.json (newDelta p e (marshalDelta (encodeBytes s.md5 sig data)))) :
    ask s (basisRequest cfg hs remote basis) =
      some (.message (framed (newDelta p e (marshalDelta (encodeBytes s.md5 sig data))))) := by
  refine ask_slot hasked (Or.inr rfl) ?_ hsent
  rw [Server.serveInSlot, serveMsg_delta cfg basis hoffers, hsig]
  dsimp only
  rw [send_ok hsent.2]
  rfl

/-- Otherwise it brings an error of the other node. -/
theorem ask_delta_cases {basis : Bytes} (hdelta : DeltaExchange s cfg hs remote p e data basis)
    (hoffers : Offers s hs remote p e data) :
    (∃ text, ask s (basisRequest cfg hs remote basis) =
      some (.message (framed (newError text)))) ∨
    ∃ sig, basisSignature cfg hs basis = .ok sig ∧
      ask s (basisRequest cfg hs remote basis) =
        some (.message (framed (newDelta p e (marshalDelta (encodeBytes s.md5 sig data))))) := by
  have hfailed : ∀ err, s.serveMsg [] (framed (basisRequest cfg hs remote basis)) =
      ([], .error err) → ask s (basisRequest cfg hs remote basis) =
        some (.message (framed (newError (s.text err)))) := by
    intro err hmsg
    refine ask_slot hdelta.asked (Or.inr rfl) ?_ (hdelta.refused err hmsg)
    rw [Server.serveInSlot, hmsg]
    rfl
  have hmsg := serveMsg_delta cfg basis hoffers
  cases hsig : basisSignature cfg hs basis with
  | error err => exact Or.inl ⟨_, hfailed err (by rw [hmsg, hsig])⟩
  | ok sig =>
    rw [hsig] at hmsg
    dsimp only at hmsg
    rcases send_cases s (newDelta p e (marshalDelta (encodeBytes s.md5 sig data))) with
      ⟨hfits, _⟩ | ⟨err, _, hsend⟩
    · exact Or.inr ⟨sig, rfl, ask_delta hdelta.asked hoffers hsig ⟨hdelta.sent sig hsig, hfits⟩⟩
    · exact Or.inl ⟨_, hfailed _ (by rw [hmsg, hsend])⟩

end Asked

theorem readFileLimited_ok {cfg : Config} {h : Host} {root : Root} {rel data : Bytes}
    (hread : readFileLimited cfg h root rel = .ok data) :
    readFile h root rel = .ok data ∧ (data.length : ℤ) ≤ cfg.maxFileBytes := by
  unfold readFileLimited at hread
  split at hread
  · exact absurd hread (by simp)
  · rename_i fi hstat
    split at hread
    · exact absurd hread (by simp)
    · rename_i hmax
      split at hread
      · exact absurd hread (by simp)
      · rename_i data' hfile
        cases hread
        rw [← stat_size_of_readFile hstat hfile]
        exact ⟨hfile, not_lt.mp hmax⟩

theorem marshalSignature_ne_nil (sig : Signature) : marshalSignature sig ≠ [] := by
  intro hnil
  have hlen := congrArg List.length hnil
  simp only [marshalSignature, List.length_append, leBytes_length, List.length_nil] at hlen
  omega

section Pulled
variable {s : Server} {cfg : Config} {hs : Hashes} {h : Host} {root : Root} {remote e : Entry}
  {p data : Bytes}

theorem pullFull_delivers (hrunning : h.cancelled = false)
    (hfull : FullExchange s remote p e data) (hoffers : Offers s hs remote p e data) :
    pullFull h ((ask s (fullRequest remote)).getD .failed) = .ok data := by
  have hfile : expectType .fileData (.message (framed (newFileData p e data))) = .ok data :=
    expectType_framed (by simp) rfl
  unfold pullFull
  rw [ask_full hfull hoffers, Option.getD_some, hrunning, hfile]
  rfl

/-- A delta that arrives is applied to the local file. -/
theorem pullDelta_applied {reply : Bytes → Reply} {basis : Bytes} {d : Delta}
    (hrunning : h.cancelled = false)
    (hbasis : readFileLimited cfg h root remote.path = .ok basis)
    (hreply : reply (marshalSignature (signBytes hs.md5 basis cfg.blockSize)) =
      .message (framed (newDelta p e (marshalDelta d))))
    (hdelta : unmarshalDelta (marshalDelta d) = .ok d) :
    pullDelta cfg hs h root remote reply =
      match DeltaBlocks.apply basis d with
      | .ok out => .ok out
      | .err e => .err (.peerLogical (.applyDelta e))
      | .panic => .panic := by
  have hpayload : expectType .delta (.message (framed (newDelta p e (marshalDelta d)))) =
      .ok (marshalDelta d) := expectType_framed (by simp) rfl
  unfold pullDelta
  rw [hrunning, hbasis]
  dsimp only
  rw [hreply, hpayload]
  dsimp only
  rw [hdelta]
  rfl

/-- The delta route ends with the rebuilt bytes, or with an error that leads on to the whole
file. -/
theorem pullDelta_usable (hrunning : h.cancelled = false) (hmax : cfg.maxFileBytes ≤ maxAlloc)
    (hdata : data.length ≤ maxOutputSize) (hoffers : Offers s hs remote p e data)
    (hdelta : ∀ basis, readFileLimited cfg h root remote.path = .ok basis →
      DeltaExchange s cfg hs remote p e data basis) :
    (∃ basis out, readFileLimited cfg h root remote.path = .ok basis ∧
      Rebuilt s cfg hs basis data out ∧
      pullDelta cfg hs h root remote (repliesOf s cfg remote).delta = .ok out) ∨
    ∃ f, pullDelta cfg hs h root remote (repliesOf s cfg remote).delta =
      .err (.peerLogical f) := by
  cases hbasis : readFileLimited cfg h root remote.path with
  | error f =>
    right
    unfold pullDelta
    rw [hrunning, hbasis]
    exact ⟨f, rfl⟩
  | ok basis =>
    have hlen := (readFileLimited_ok hbasis).2
    rcases ask_delta_cases (hdelta basis hbasis) hoffers with ⟨text, htext⟩ | ⟨sig, hsig, hask⟩
    · right
      rw [basisRequest] at htext
      unfold pullDelta repliesOf
      rw [hrunning, hbasis]
      dsimp only
      rw [htext, Option.getD_some, expectType_error]
      exact ⟨_, rfl⟩
    · obtain ⟨_, hlo, hhi, hcount⟩ := requestSignature_parsed (marshalSignature_ne_nil _) hsig
      rw [pullDelta_applied hrunning hbasis (repliesOf_delta hask)
        (encoded_travels hlo hhi hcount hdata)]
      have hne := @apply_encoded_ne_panic s.md5 sig data basis hlo hhi hcount hdata (by omega)
      cases happly : DeltaBlocks.apply basis (encodeBytes s.md5 sig data) with
      | ok out => exact Or.inl ⟨basis, out, rfl, ⟨sig, hsig, happly⟩, rfl⟩
      | err e => exact Or.inr ⟨_, rfl⟩
      | panic => exact absurd happly hne

theorem requestBlockSize_val (hhi : cfg.blockSize ≤ 2 ^ 20) :
    (requestBlockSize cfg).val = cfg.blockSize := by
  simp only [requestBlockSize]
  apply wrap64_eq_self <;> omega

/-- The signature of a file within the limits passes the checks of serveDelta. -/
theorem basisSignature_own {basis : Bytes} (hbasis : basis.length ≤ maxOutputSize)
    (hlo : 256 ≤ cfg.blockSize) (hhi : cfg.blockSize ≤ 2 ^ 20) :
    basisSignature cfg hs basis = .ok (signBytes hs.md5 basis cfg.blockSize) := by
  have hsize : (signBytes hs.md5 basis cfg.blockSize).blockSize = cfg.blockSize :=
    if_neg (by omega)
  have hvalid : validateBlockSize cfg.blockSize = .ok () := by
    unfold validateBlockSize minDeltaBlockSize maxDeltaBlockSize
    rw [if_neg (by push_cast; omega)]
  unfold basisSignature requestSignature
  rw [if_pos (marshalSignature_ne_nil _), signature_travels hbasis hlo hhi]
  dsimp only
  rw [hsize, requestBlockSize_val hhi, if_neg (by simp), hvalid]

def Source (s : Server) (cfg : Config) (hs : Hashes) (h : Host) (root : Root) (remote : Entry)
    (data : Bytes) (useDelta : Bool) (out : Bytes) : Prop :=
  out = data ∨ useDelta = true ∧ ∃ basis,
    readFileLimited cfg h root remote.path = .ok basis ∧ Rebuilt s cfg hs basis data out

theorem pullContent_arrives (useDelta : Bool) (hrunning : h.cancelled = false)
    (hmax : cfg.maxFileBytes ≤ maxAlloc) (hoffers : Offers s hs remote p e data)
    (hfull : FullExchange s remote p e data)
    (hdelta : useDelta = true → ∀ basis, readFileLimited cfg h root remote.path = .ok basis →
      DeltaExchange s cfg hs remote p e data basis) :
    ∃ out, pullContent cfg hs h root remote useDelta (repliesOf s cfg remote) = .ok out ∧
      Source s cfg hs h root remote data useDelta out := by
  have hwhole : pullFull h (repliesOf s cfg remote).full = .ok data :=
    pullFull_delivers hrunning hfull hoffers
  cases useDelta with
  | false => exact ⟨data, hwhole, Or.inl rfl⟩
  | true =>
    unfold pullContent
    rcases pullDelta_usable hrunning hmax hfull.data_le hoffers (hdelta rfl) with
      ⟨basis, out, hbasis, hrebuilt, hout⟩ | ⟨f, hf⟩
    · exact ⟨out, by rw [hout]; rfl, Or.inr ⟨rfl, basis, hbasis, hrebuilt⟩⟩
    · exact ⟨data, by rw [hf, hwhole]; rfl, Or.inl rfl⟩

/-- Bytes with the announced hash arrive. -/
theorem pullAndVerify_arrives (useDelta : Bool) (hrunning : h.cancelled = false)
    (hmax : cfg.maxFileBytes ≤ maxAlloc) (hoffers : Offers s hs remote p e data)
    (hfull : FullExchange s remote p e data)
    (hdelta : useDelta = true → ∀ basis, readFileLimited cfg h root remote.path = .ok basis →
      DeltaExchange s cfg hs remote p e data basis) :
    ∃ out, pullAndVerify cfg hs h root remote useDelta (repliesOf s cfg remote) =
        .ok (out, remote.hash) ∧ Source s cfg hs h root remote data useDelta out := by
  have hretry : pullFull h (repliesOf s cfg remote).retry = .ok data :=
    pullFull_delivers hrunning hfull hoffers
  have hverified : ∀ out, contentHash hs.sha256 out = remote.hash →
      verified hs remote out = some (out, remote.hash) := by
    intro out hout
    unfold verified
    rw [hout]
    exact if_pos rfl
  obtain ⟨out, hcontent, hsource⟩ :=
    pullContent_arrives useDelta hrunning hmax hoffers hfull hdelta
  unfold pullAndVerify
  dsimp only
  rw [hcontent]
  dsimp only
  by_cases hhash : contentHash hs.sha256 out = remote.hash
  · rw [hverified out hhash]
    exact ⟨out, rfl, hsource⟩
  · -- only a delta leads to other bytes, and then the whole file is asked for
    have huse : useDelta = true := by
      rcases hsource with rfl | ⟨huse, _⟩
      · exact absurd hoffers.hashed hhash
      · exact huse
    have hnone : verified hs remote out = none := if_neg hhash
    rw [hnone, huse, if_pos rfl, hretry]
    dsimp only
    rw [hverified data hoffers.hashed]
    exact ⟨data, rfl, Or.inl rfl⟩

end Pulled

/-- A file that another node announced and has not changed since is pulled, with or without a
local copy to start from, if the messages about it come through. The bytes have the announced
hash, and they are the file's own unless the delta led to other bytes of the same hash. -/
theorem honest_pull_delivers (s : Server) (cfg : Config) (hs : Hashes) (h : Host) (root : Root)
    (remote e : Entry) (p data : Bytes) (useDelta : Bool)
    (hrunning : h.cancelled = false) (hmax : cfg.maxFileBytes ≤ maxAlloc)
    (hoffers : Offers s hs remote p e data) (hfull : FullExchange s remote p e data)
    (hdelta : useDelta = true → ∀ basis, readFileLimited cfg h root remote.path = .ok basis →
      DeltaExchange s cfg hs remote p e data basis) :
    ∃ out, pullAndVerify cfg hs h root remote useDelta (repliesOf s cfg remote) =
        .ok (out, remote.hash) ∧
      contentHash hs.sha256 out = remote.hash ∧
      Source s cfg hs h root remote data useDelta out := by
  obtain ⟨out, hpull, hsource⟩ :=
    pullAndVerify_arrives useDelta hrunning hmax hoffers hfull hdelta
  exact ⟨out, hpull, (pullAndVerify_ok hpull).1.symm, hsource⟩

/-- With a local copy and a strong sum that distinguishes the blocks, the delta alone brings
the file, whatever the replies to a full request would be. Only the request for the delta and
the delta itself have to come through. -/
theorem honest_delta_suffices (s : Server) (cfg : Config) (hs : Hashes) (h : Host) (root : Root)
    (remote e : Entry) (p data basis : Bytes) (full retry : Reply)
    (hrunning : h.cancelled = false) (hmd5 : s.md5 = hs.md5)
    (hoffers : Offers s hs remote p e data)
    (hread : readFileLimited cfg h root remote.path = .ok basis)
    (hbasis : basis.length ≤ 64 * 2 ^ 20) (hdata : data.length ≤ 64 * 2 ^ 20)
    (hlo : 256 ≤ cfg.blockSize) (hhi : cfg.blockSize ≤ 2 ^ 20)
    (hsums : Distinguishes hs.md5 cfg.blockSize basis data)
    (hasked : Crosses s.json (basisRequest cfg hs remote basis))
    (hsent : Crosses s.json (newDelta p e (marshalDelta
      (encodeBytes hs.md5 (signBytes hs.md5 basis cfg.blockSize) data)))) :
    pullAndVerify cfg hs h root remote true ⟨(repliesOf s cfg remote).delta, full, retry⟩ =
      .ok (data, remote.hash) := by
  have hpos : 0 < cfg.blockSize := by omega
  have hask := ask_delta hasked hoffers (basisSignature_own hbasis hlo hhi)
    (by rw [hmd5]; exact hsent)
  rw [hmd5] at hask
  obtain ⟨hsize, hout, htext, hcopies, _⟩ := encodeBytes_spec hpos hsums
  have happly : DeltaBlocks.apply basis
      (encodeBytes hs.md5 (signBytes hs.md5 basis cfg.blockSize) data) = .ok data := by
    apply apply_expand
    · omega
    · rw [hsize]
      exact hpos
    · rw [hsize]
      omega
    · intro i hi
      rw [hsize]
      exact (hcopies i hi).le
    · rw [hsize]
      exact htext
    · exact hout
    · exact hdata
  have hpull := pullDelta_applied hrunning hread (repliesOf_delta hask)
    (delta_travels hbasis hdata hlo hhi hsums)
  rw [happly] at hpull
  have hverified : verified hs remote data = some (data, remote.hash) := by
    unfold verified
    rw [hoffers.hashed]
    exact if_pos rfl
  unfold pullAndVerify pullContent
  dsimp only
  rw [if_pos rfl, hpull]
  dsimp only
  rw [hverified]

def pullingConfig : Config := { standardConfig with blockSize := 256 }

def grown : Entry := servedEntry [9, 1, 2, 3]

def staleRoot : Root := (servingDaemon [1, 2, 3]).root

def staleSignature : Bytes := marshalSignature (signBytes (paddedDigest 16) [1, 2, 3] 256)

def grownDelta : Bytes :=
  marshalDelta (encodeBytes (paddedDigest 16) (signBytes (paddedDigest 16) [1, 2, 3] 256)
    [9, 1, 2, 3])

def fileJson (type fields : String) : Bytes :=
  ascii ("\x7b\"type\":\"" ++ type ++ "\",\"path\":\"f\"," ++ fields) ++
    ascii "\"mod_time\":\"0001-01-01T00:00:00Z\",\"updated_at\":\"0001-01-01T00:00:00Z\"\x7d"

def grownTable : List (Header × Bytes) :=
  [(framedHeader (fullRequest grown), fileJson "file_req" ""),
    (framedHeader (deltaRequest pullingConfig grown staleSignature),
      fileJson "delta_req" "\"block_size\":256,"),
    (framedHeader (newFileData (ascii "f") grown [9, 1, 2, 3]), fileJson "file_data" "\"size\":4,"),
    (framedHeader (newDelta (ascii "f") grown grownDelta), fileJson "delta" "\"size\":4,"),
    (framedHeader (newError []), ascii "\x7b\"type\":\"error\"\x7d")]

def grownCodec : HeaderJson := tableCodec grownTable (by decide +kernel)

def grownServer : Server where
  cfg := standardConfig
  json := grownCodec
  md5 := paddedDigest 16
  host := .plain
  daemon := servingDaemon [9, 1, 2, 3]
  self := selfB
  listed := [grown]
  complete := List.Perm.refl _
  text _ := []

theorem grown_keeps (h : Header) : grownCodec.Keeps h :=
  tableCodec_keeps (by decide +kernel) h

/-- The messages of the table can be sent. -/
theorem grown_fits {msg : Message} (hlen : msg.payload.length ≤ 1024)
    (hmem : framedHeader msg ∈ grownTable.map Prod.fst) : FitsFrame grownCodec msg :=
  tableCodec_fits (by decide +kernel) hlen hmem

theorem stale_basis :
    readFileLimited pullingConfig .plain staleRoot grown.path = .ok [1, 2, 3] := by
  decide +kernel

theorem grown_crosses {msg : Message} (hlen : msg.payload.length ≤ 1024)
    (hmem : framedHeader msg ∈ grownTable.map Prod.fst) : Crosses grownCodec msg :=
  ⟨grown_keeps _, grown_fits hlen hmem⟩

theorem grown_request :
    Crosses grownCodec (basisRequest pullingConfig .plain grown [1, 2, 3]) :=
  grown_crosses (by decide +kernel)
    (by simp [grownTable, basisRequest, staleSignature, pullingConfig, Hashes.plain])

theorem grown_full : FullExchange grownServer grown (ascii "f") grown [9, 1, 2, 3] where
  asked := grown_crosses (by decide) (by simp [grownTable])
  sent := grown_crosses (by decide) (by simp [grownTable])

theorem grown_delta {basis : Bytes}
    (hbasis : readFileLimited pullingConfig .plain staleRoot grown.path = .ok basis) :
    DeltaExchange grownServer pullingConfig .plain grown (ascii "f") grown [9, 1, 2, 3] basis := by
  rw [stale_basis] at hbasis
  cases hbasis
  exact ⟨grown_request, fun _ _ => grown_keeps _,
    fun _ _ => grown_crosses (by simp [newError]) (by simp [grownTable, grownServer])⟩

theorem grown_distinguishes :
    Distinguishes Hashes.plain.md5 pullingConfig.blockSize [1, 2, 3] [9, 1, 2, 3] :=
  distinguishes_of_tails (by decide) (by decide)

theorem grown_offered :
    Offers grownServer .plain grown (ascii "f") grown [9, 1, 2, 3] where
  ready := rfl
  served := servingDaemon_serves (by decide)
  read := servingDaemon_reads _
  hashed := rfl

theorem honest_pull_delivers_grown :
    ∃ out, pullAndVerify pullingConfig .plain .plain staleRoot grown true
        (repliesOf grownServer pullingConfig grown) = .ok (out, grown.hash) ∧
      contentHash Hashes.plain.sha256 out = grown.hash := by
  obtain ⟨out, hpull, hhash, _⟩ := honest_pull_delivers grownServer pullingConfig .plain .plain
    staleRoot grown grown (ascii "f") [9, 1, 2, 3] true rfl (by decide) grown_offered grown_full
    fun _ _ hbasis => grown_delta hbasis
  exact ⟨out, hpull, hhash⟩

theorem honest_delta_suffices_grown :
    pullAndVerify pullingConfig .plain .plain staleRoot grown true
      ⟨(repliesOf grownServer pullingConfig grown).delta, .failed, .failed⟩ =
        .ok ([9, 1, 2, 3], grown.hash) := by
  refine honest_delta_suffices grownServer pullingConfig .plain .plain staleRoot grown grown
    (ascii "f") [9, 1, 2, 3] [1, 2, 3] .failed .failed rfl rfl grown_offered stale_basis
    (by decide) (by decide) (by decide) (by decide) grown_distinguishes grown_request ?_
  exact grown_crosses (by decide +kernel)
    (by simp [grownTable, grownDelta, pullingConfig, Hashes.plain])

end TailSync.PeerPulls

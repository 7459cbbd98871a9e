import TailSync.DeltaCodecs
import TailSync.DeltaSizes
import TailSync.FileServing
import TailSync.Handshakes

/-!
One inbound stream of an established session, from the bytes a peer sends to the bytes it
gets back: handleInboundStream of session.go and handleStream, serveMsg and serveDelta of
daemon/serve.go. The texts of errors are a parameter. Whatever a peer asks for, it is
answered with at most one message. File contents leave the node only for a path that is
live in the index, unreserved and unchanged since the last scan, and an error says something
of the disk only for a path that is live in the index.
-/
namespace TailSync.OpStreams

open ByteStrings Entries IndexMap SyncRoot RootEffects Scanning MachineInts DeltaBlocks DeltaWire
open Framing FrameRoundTrips FileServing Handshakes

inductive StreamError where
  | serve (e : ServeError)
  | badSignature (e : DecodeError)
  | blockSizeMismatch (header : GoInt) (signature : ℕ)
  | blockSizeRange (blockSize : ℤ)
  | unexpectedType (type : MessageType)
  deriving DecidableEq, Repr

def newPong : Message := ⟨{ emptyHeader zeroInt with type := .pong }, []⟩

def newNotifyOK (nodeID : Bytes) (port : GoInt) : Message := announcement .notifyOK nodeID port

def newManifest (entries : List Entry) : Message :=
  ⟨{ emptyHeader zeroInt with type := .manifest, entries := entries }, []⟩

def newFileReq (path hash : Bytes) : Message :=
  ⟨{ emptyHeader zeroInt with type := .fileReq, path := path, hash := hash }, []⟩

def newDeltaReq (path wantHash : Bytes) (blockSize : GoInt) (sig : Bytes) : Message :=
  ⟨{ emptyHeader zeroInt with
      type := .deltaReq, path := path, hash := wantHash, blockSize := blockSize }, sig⟩

/-- NewDelta: the header of NewFileData under another type. -/
def newDelta (path : Bytes) (e : Entry) (delta : Bytes) : Message :=
  ⟨{ (newFileData path e delta).header with type := .delta }, delta⟩

/-- A node that serves: its state, its name, the order in which it lists its index and the
texts of its errors. -/
structure Server where
  cfg : Config
  json : HeaderJson
  md5 : Bytes → Digest 16
  host : Host
  daemon : Daemon
  self : Self
  listed : List Entry
  complete : daemon.idx.IsManifest listed
  text : StreamError → Bytes

def minDeltaBlockSize : ℕ := 256
def maxDeltaBlockSize : ℕ := 2 ^ 20

def validateBlockSize (bs : ℤ) : Except StreamError Unit :=
  if bs < minDeltaBlockSize ∨ bs > maxDeltaBlockSize then .error (.blockSizeRange bs) else .ok ()

/-- The signature that serveDelta encodes against; one without a block size stands for nil. -/
def requestSignature (blockSize : GoInt) (sigRaw : Bytes) : Except StreamError Signature :=
  if sigRaw ≠ [] then
    match unmarshalSignature sigRaw with
    | .error e => .error (.badSignature e)
    | .ok sig =>
        if blockSize.val > 0 ∧ sig.blockSize > 0 ∧ blockSize.val ≠ sig.blockSize then
          .error (.blockSizeMismatch blockSize sig.blockSize)
        else match validateBlockSize sig.blockSize with
          | .error e => .error e
          | .ok () => .ok sig
  else if blockSize.val > 0 then
    match validateBlockSize blockSize.val with
    | .error e => .error e
    | .ok () => .ok ⟨0, []⟩
  else .ok ⟨0, []⟩

namespace Server
variable (s : Server)

def send (w : Bytes) (msg : Message) : Bytes × Except StreamError Unit :=
  match encode s.json w msg with
  | (w1, .error e) => (w1, .error (.serve (.encode e)))
  | (w1, .ok ()) => (w1, .ok ())

def serveDelta (w rel : Bytes) (blockSize : GoInt) (sigRaw : Bytes) :
    Bytes × Except StreamError Unit :=
  match serveEntry s.cfg s.host s.daemon rel with
  | .error e => (w, .error (.serve e))
  | .ok (e, rel) =>
      match readFile s.host s.daemon.root rel with
      | .error err => (w, .error (.serve (.read rel err)))
      | .ok data =>
          match requestSignature blockSize sigRaw with
          | .error err => (w, .error err)
          | .ok sig => s.send w (newDelta rel e (marshalDelta (encodeBytes s.md5 sig data)))

def serveMsg (w : Bytes) (msg : Message) : Bytes × Except StreamError Unit :=
  if s.host.cancelled then (w, .error (.serve .cancelled))
  else match msg.header.type with
    | .ping => s.send w newPong
    | .manifestReq => s.send w (newManifest s.listed)
    | .fileReq =>
        match serveFile s.cfg s.json s.host s.daemon w msg.header.path with
        | (w1, .error e) => (w1, .error (.serve e))
        | (w1, .ok ()) => (w1, .ok ())
    | .deltaReq => s.serveDelta w msg.header.path msg.header.blockSize msg.payload
    | type => (w, .error (.unexpectedType type))

/-- What is on the stream when Encode has run, its result ignored. -/
def written (w : Bytes) (msg : Message) : Bytes := (encode s.json w msg).1

/-- The requests that take a serve slot; slot says whether acquireServeSlot got one. -/
def serveInSlot (slot : Bool) (first : Message) : Bytes :=
  if !slot then s.written [] (newError (ascii "server busy"))
  else match s.serveMsg [] first with
    | (w, .ok ()) => w
    | (w, .error e) => s.written w (newError (s.text e))

/-- handleStream on an empty stream: the reply, and the hints passed on to onNotify. -/
def handleStream (slot : Bool) (first : Message) : Bytes × Option (List Entry) :=
  match first.header.type with
  | .notify => (s.written [] (newNotifyOK s.self.id s.self.port), some first.header.entries)
  | .ping => (s.written [] newPong, none)
  | .manifestReq => (s.serveInSlot slot first, none)
  | .fileReq => (s.serveInSlot slot first, none)
  | .deltaReq => (s.serveInSlot slot first, none)
  | type => (s.written [] (newError (s.text (.unexpectedType type))), none)

/-- handleInboundStream: the first message of the stream, and what is done with it. -/
def handleInboundStream (slot : Bool) (request : Bytes) :
    Outcome FrameError (Bytes × Option (List Entry)) :=
  match (decode s.json.unmarshal request).2 with
  | .panic => .panic
  | .err _ => .ok ([], none)
  | .ok msg =>
      if msg.header.type = .ping then .ok (s.written [] newPong, none)
      else .ok (s.handleStream slot msg)

end Server

/-- What a request asks for. -/
inductive Content (s : Server) (msg : Message) : Message → Prop
  | pong (asked : msg.header.type = .ping) : Content s msg newPong
  | manifest (asked : msg.header.type = .manifestReq) : Content s msg (newManifest s.listed)
  | file {p data : Bytes} {e : Entry} (asked : msg.header.type = .fileReq)
      (served : Served s.cfg s.host s.daemon msg.header.path p e)
      (read : readFile s.host s.daemon.root p = .ok data) : Content s msg (newFileData p e data)
  | delta {p data : Bytes} {e : Entry} {sig : Signature} (asked : msg.header.type = .deltaReq)
      (served : Served s.cfg s.host s.daemon msg.header.path p e)
      (read : readFile s.host s.daemon.root p = .ok data)
      (accepted : requestSignature msg.header.blockSize msg.payload = .ok sig)
      (sized : sig = ⟨0, []⟩ ∨ 256 ≤ sig.blockSize ∧ sig.blockSize ≤ 2 ^ 20 ∧
        sig.blocks.length ≤ maxDecodeOps) :
      Content s msg (newDelta p e (marshalDelta (encodeBytes s.md5 sig data)))

/-- The errors that a request can meet, each with what it rests on. -/
inductive Raised (s : Server) (msg : Message) : StreamError → Prop
  | cancelled (cancelled : s.host.cancelled = true) : Raised s msg (.serve .cancelled)
  | refused {err : ServeError} (refused : Refused s.cfg s.host s.daemon msg.header.path err) :
      Raised s msg (.serve err)
  | unread {p : Bytes} {e : Entry} {err : FsError}
      (served : Served s.cfg s.host s.daemon msg.header.path p e)
      (read : readFile s.host s.daemon.root p = .error err) : Raised s msg (.serve (.read p err))
  | signature {err : StreamError}
      (bad : requestSignature msg.header.blockSize msg.payload = .error err) : Raised s msg err
  | unsent {answer : Message} {err : EncodeError} (content : Content s msg answer)
      (encode : encode s.json [] answer = ([], .error err)) : Raised s msg (.serve (.encode err))
  | unexpected : Raised s msg (.unexpectedType msg.header.type)

inductive Answer (s : Server) (msg : Message) : Message → Prop
  | content {answer : Message} (content : Content s msg answer) : Answer s msg answer
  | acknowledged (asked : msg.header.type = .notify) :
      Answer s msg (newNotifyOK s.self.id s.self.port)
  | busy : Answer s msg (newError (ascii "server busy"))
  | failed {err : StreamError} (raised : Raised s msg err) :
      Answer s msg (newError (s.text err))

theorem validateBlockSize_ok {bs : ℤ} (h : validateBlockSize bs = .ok ()) :
    256 ≤ bs ∧ bs ≤ 2 ^ 20 := by
  unfold validateBlockSize minDeltaBlockSize maxDeltaBlockSize at h
  split_ifs at h with hrange
  push_cast at hrange
  omega

theorem unmarshalSignature_count {raw : Bytes} {sig : Signature}
    (h : unmarshalSignature raw = .ok sig) : sig.blocks.length ≤ maxDecodeOps := by
  unfold unmarshalSignature at h
  dsimp only at h
  split_ifs at h with hshort hmagic hcount
  obtain ⟨blocks, hblocks, rfl⟩ := except_map_eq_ok.mp h
  rw [(DeltaCodecs.unmarshalBlocks_begins hblocks).1]
  omega

/-- What a peer sends as a signature is refused, or within the limits. -/
theorem requestSignature_parsed {blockSize : GoInt} {sigRaw : Bytes} {sig : Signature}
    (hraw : sigRaw ≠ []) (h : requestSignature blockSize sigRaw = .ok sig) :
    unmarshalSignature sigRaw = .ok sig ∧ 256 ≤ sig.blockSize ∧ sig.blockSize ≤ 2 ^ 20 ∧
      sig.blocks.length ≤ maxDecodeOps := by
  unfold requestSignature at h
  rw [if_pos hraw] at h
  split at h
  · exact absurd h (by simp)
  · rename_i sig' hsig
    split at h
    · exact absurd h (by simp)
    · split at h
      · exact absurd h (by simp)
      · rename_i hvalid
        cases h
        obtain ⟨hlo, hhi⟩ := validateBlockSize_ok hvalid
        exact ⟨hsig, by omega, by omega, unmarshalSignature_count hsig⟩

theorem requestSignature_sized {blockSize : GoInt} {sigRaw : Bytes} {sig : Signature}
    (h : requestSignature blockSize sigRaw = .ok sig) :
    sig = ⟨0, []⟩ ∨ 256 ≤ sig.blockSize ∧ sig.blockSize ≤ 2 ^ 20 ∧
      sig.blocks.length ≤ maxDecodeOps := by
  by_cases hraw : sigRaw = []
  · left
    unfold requestSignature at h
    rw [if_neg (not_not.mpr hraw)] at h
    split at h
    · split at h
      · exact absurd h (by simp)
      · cases h
        rfl
    · cases h
      rfl
  · exact Or.inr (requestSignature_parsed hraw h).2

section Replies
variable {s : Server}

theorem send_ok {msg : Message} (hfits : FitsFrame s.json msg) :
    s.send [] msg = (s.written [] msg, .ok ()) := by
  unfold Server.send Server.written
  rcases encode_cases s.json [] msg with ⟨_, _, _, henc⟩ | ⟨hno, _⟩
  · rw [henc]
  · exact absurd hfits hno

/-- What Encode leaves on an empty stream if it fails is the empty stream. -/
theorem send_cases (s : Server) (msg : Message) :
    (FitsFrame s.json msg ∧ s.send [] msg = (s.written [] msg, .ok ())) ∨
      ∃ err, encode s.json [] msg = ([], .error err) ∧
        s.send [] msg = ([], .error (.serve (.encode err))) := by
  rcases encode_cases s.json [] msg with ⟨jb, hjb, hfits, _⟩ | ⟨_, err, henc⟩
  · exact Or.inl ⟨⟨jb, hjb, hfits⟩, send_ok ⟨jb, hjb, hfits⟩⟩
  · exact Or.inr ⟨err, henc, by rw [Server.send, henc]⟩

def Serves (s : Server) (msg : Message) (result : Bytes × Except StreamError Unit) : Prop :=
  (∃ answer, Content s msg answer ∧ result = (s.written [] answer, .ok ())) ∨
    ∃ err, Raised s msg err ∧ result = ([], .error err)

theorem Serves.of_send {msg answer : Message} (hcontent : Content s msg answer) :
    Serves s msg (s.send [] answer) := by
  rcases send_cases s answer with ⟨_, hsend⟩ | ⟨err, henc, hsend⟩
  · exact Or.inl ⟨answer, hcontent, hsend⟩
  · exact Or.inr ⟨_, .unsent hcontent henc, hsend⟩

theorem serveFile_serves {msg : Message} (htype : msg.header.type = .fileReq)
    {w1 : Bytes} {result : Except ServeError Unit}
    (hserve : serveFile s.cfg s.json s.host s.daemon [] msg.header.path = (w1, result)) :
    Serves s msg (w1, result.mapError .serve) := by
  rcases serveEntry_cases s.cfg s.host s.daemon msg.header.path with
    ⟨err, herr, hrefused⟩ | ⟨e, p, hok, hserved⟩
  · simp only [serveFile, herr] at hserve
    cases hserve
    exact Or.inr ⟨_, .refused hrefused, rfl⟩
  · cases hread : readFile s.host s.daemon.root p with
    | error err =>
      simp only [serveFile, hok, hread] at hserve
      cases hserve
      exact Or.inr ⟨_, .unread hserved hread, rfl⟩
    | ok data =>
      have hcontent := Content.file htype hserved hread
      rw [serveFile_eq hok hread] at hserve
      cases hserve
      rcases encode_cases s.json [] (newFileData p e data) with ⟨_, _, _, henc⟩ | ⟨_, err, henc⟩
      · exact Or.inl ⟨_, hcontent, by rw [Server.written, henc]; rfl⟩
      · exact Or.inr ⟨_, .unsent hcontent henc, by rw [henc]; rfl⟩

theorem serveDelta_serves {msg : Message} (htype : msg.header.type = .deltaReq) :
    Serves s msg (s.serveDelta [] msg.header.path msg.header.blockSize msg.payload) := by
  unfold Server.serveDelta
  rcases serveEntry_cases s.cfg s.host s.daemon msg.header.path with
    ⟨err, herr, hrefused⟩ | ⟨e, p, hok, hserved⟩
  · rw [herr]
    exact Or.inr ⟨_, .refused hrefused, rfl⟩
  · rw [hok]
    dsimp only
    cases hread : readFile s.host s.daemon.root p with
    | error err => exact Or.inr ⟨_, .unread hserved hread, rfl⟩
    | ok data =>
      dsimp only
      cases hsig : requestSignature msg.header.blockSize msg.payload with
      | error err => exact Or.inr ⟨_, .signature hsig, rfl⟩
      | ok sig => exact .of_send (.delta htype hserved hread hsig (requestSignature_sized hsig))

theorem serveMsg_serves (s : Server) (msg : Message) : Serves s msg (s.serveMsg [] msg) := by
  unfold Server.serveMsg
  split
  · rename_i hcancelled
    exact Or.inr ⟨_, .cancelled hcancelled, rfl⟩
  · split
    · rename_i htype
      exact .of_send (.pong htype)
    · rename_i htype
      exact .of_send (.manifest htype)
    · rename_i htype
      split
      · rename_i hserve
        exact serveFile_serves htype hserve
      · rename_i hserve
        exact serveFile_serves htype hserve
    · rename_i htype
      exact serveDelta_serves htype
    · exact Or.inr ⟨_, .unexpected, rfl⟩

theorem serveInSlot_answers (s : Server) (slot : Bool) (first : Message) :
    ∃ answer, Answer s first answer ∧ s.serveInSlot slot first = s.written [] answer := by
  unfold Server.serveInSlot
  split
  · exact ⟨_, .busy, rfl⟩
  · rcases serveMsg_serves s first with ⟨answer, hcontent, hserve⟩ | ⟨err, hraised, hserve⟩
    · exact ⟨answer, .content hcontent, by rw [hserve]⟩
    · exact ⟨_, .failed hraised, by rw [hserve]⟩

theorem handleStream_answers (s : Server) (slot : Bool) (first : Message) :
    ∃ answer, Answer s first answer ∧ (s.handleStream slot first).1 = s.written [] answer := by
  unfold Server.handleStream
  split
  · rename_i htype
    exact ⟨_, .acknowledged htype, rfl⟩
  · rename_i htype
    exact ⟨_, .content (.pong htype), rfl⟩
  · exact serveInSlot_answers s slot first
  · exact serveInSlot_answers s slot first
  · exact serveInSlot_answers s slot first
  · exact ⟨_, .failed .unexpected, rfl⟩

end Replies

/-- Whatever a peer sends on a stream, unless Decode panics on it, its reply is nothing or one
frame. A frame holds what the request asks for: a pong, the manifest, or a file or a delta of a
file that is live in the index under an unreserved path and has the size and time the index has
for it; or it holds an acknowledgement, or the text of an error that the request met, which
says something of the disk only for a path that is live in the index. Hints reach onNotify only
from a notify, and then the reply is its acknowledgement. -/
theorem stream_reveals_only_indexed (s : Server) (slot : Bool) (request reply : Bytes)
    (hints : Option (List Entry))
    (h : s.handleInboundStream slot request = .ok (reply, hints)) :
    (reply = [] ∨ ∃ msg answer, (decode s.json.unmarshal request).2 = .ok msg ∧
      Answer s msg answer ∧ FitsFrame s.json answer ∧ encode s.json [] answer = (reply, .ok ())) ∧
    ∀ entries, hints = some entries →
      ∃ msg, (decode s.json.unmarshal request).2 = .ok msg ∧ msg.header.type = .notify ∧
        msg.header.entries = entries ∧
        reply = (encode s.json [] (newNotifyOK s.self.id s.self.port)).1 := by
  unfold Server.handleInboundStream at h
  split at h
  · exact absurd h (by simp)
  · cases h
    exact ⟨Or.inl rfl, by simp⟩
  · rename_i msg hdec
    have hwritten : ∀ answer, Answer s msg answer → s.written [] answer = [] ∨
        ∃ msg' answer', (decode s.json.unmarshal request).2 = .ok msg' ∧ Answer s msg' answer' ∧
          FitsFrame s.json answer' ∧ encode s.json [] answer' = (s.written [] answer, .ok ()) := by
      intro answer hanswer
      unfold Server.written
      rcases encode_cases s.json [] answer with ⟨jb, hjb, hfits, henc⟩ | ⟨_, e, henc⟩
      · exact Or.inr ⟨msg, answer, hdec, hanswer, ⟨jb, hjb, hfits⟩, by rw [henc]⟩
      · exact Or.inl (by rw [henc])
    split at h
    · rename_i htype
      cases h
      exact ⟨hwritten _ (.content (.pong htype)), by simp⟩
    · obtain ⟨answer, hanswer, hreply⟩ := handleStream_answers s slot msg
      have hpair : s.handleStream slot msg = (reply, hints) := by
        simpa using h
      rw [hpair] at hreply
      dsimp only at hreply
      subst hreply
      refine ⟨hwritten answer hanswer, ?_⟩
      rintro entries rfl
      unfold Server.handleStream at hpair
      split at hpair
      · rename_i htype
        obtain ⟨hreply, hhints⟩ := Prod.mk.inj hpair
        exact ⟨msg, hdec, htype, Option.some.inj hhints, hreply.symm⟩
      all_goals exact absurd (Prod.mk.inj hpair).2 (by simp)

def fileReqJson : Bytes :=
  ascii "\x7b\"type\":\"file_req\",\"path\":\"f\",\"mod_time\":\"0001-01-01T00:00:00Z\"," ++
    ascii "\"updated_at\":\"0001-01-01T00:00:00Z\"\x7d"

def fileTable : List (Header × Bytes) :=
  [(framedHeader (newFileReq (ascii "f") []), fileReqJson),
    (framedHeader (newFileData (ascii "f") (servedEntry (ascii "x")) (ascii "x")), smallJson)]

def fileServer : Server where
  cfg := standardConfig
  json := tableCodec fileTable (by decide +kernel)
  md5 := paddedDigest 16
  host := .plain
  daemon := servingDaemon (ascii "x")
  self := selfB
  listed := [servedEntry (ascii "x")]
  complete := List.Perm.refl _
  text _ := []

theorem stream_reveals_file :
    ∃ reply, fileServer.handleInboundStream true
        (encode fileServer.json [] (newFileReq (ascii "f") [])).1 = .ok (reply, none) ∧
      ∃ msg answer, Answer fileServer msg answer ∧
        encode fileServer.json [] answer = (reply, .ok ()) := by
  have hexists : ∃ reply, fileServer.handleInboundStream true
      (encode fileServer.json [] (newFileReq (ascii "f") [])).1 = .ok (reply, none) ∧
      reply ≠ [] :=
    ⟨leBytes 4 smallJson.length ++ smallJson ++ ascii "x", by decide +kernel, by decide +kernel⟩
  obtain ⟨reply, hreply, hne⟩ := hexists
  obtain ⟨msg, answer, _, hanswer, _, henc⟩ :=
    ((stream_reveals_only_indexed fileServer true _ reply none hreply).1).resolve_left hne
  exact ⟨reply, hreply, msg, answer, hanswer, henc⟩

end TailSync.OpStreams

import TailSync.FrameRoundTrips
import TailSync.ManagerClose
import TailSync.PeerIdentity

/-!
The Hello exchange of internal/peer/handshake.go, both sides of it down to the bytes, and
the sessions that manager.go makes of it. The other side of a connection is any function
from what it reads to what it writes. Two nodes that both follow the protocol agree on the
outcome and on each other's ID and port. Whatever the other sides do, no session gets into
a roster whose node ID was not checked against the address its connection came from, by the
LocalAPI as it was at that time.
-/
namespace TailSync.Handshakes

open ByteStrings MachineInts Framing FrameRoundTrips PeerIdentity Rosters ManagerClose
open Runs (Run)

/-- What a manager announces of itself; NewManager rejects an empty node ID. -/
structure Self where
  id : Bytes
  port : GoInt
  named : id ≠ []

def version : GoInt := ⟨2, by decide⟩

def announcement (type : MessageType) (nodeID : Bytes) (port : GoInt) : Message :=
  ⟨{ emptyHeader zeroInt with type := type, nodeID := nodeID, version := version, port := port },
    []⟩

def newHello (nodeID : Bytes) (port : GoInt) : Message := announcement .hello nodeID port

def newHelloOK (nodeID : Bytes) (port : GoInt) : Message := announcement .helloOK nodeID port

def newAlreadyConnected (nodeID : Bytes) (port : GoInt) : Message :=
  announcement .alreadyConnected nodeID port

def newError (text : Bytes) : Message :=
  ⟨{ emptyHeader zeroInt with type := .error, error := text }, []⟩

def unsupportedVersion (v : GoInt) : Bytes := ascii ("unsupported version " ++ toString v.val)

inductive HandshakeError where
  | encodeHello (e : EncodeError)
  | response (e : FrameError)
  | decodeHello (e : FrameError)
  | expectedHello (type : MessageType)
  | unsupportedVersion (v : GoInt)
  | emptyNodeID
  | self
  | alreadyConnected (nodeID : Bytes) (port : GoInt)
  | helloError (text : Bytes)
  | unexpectedResponse (type : MessageType)
  | identity (e : VerifyError)
  | encodeHelloOK (e : EncodeError)
  deriving DecidableEq, Repr

def helloResponse (localID : Bytes) (h : Header) : Outcome HandshakeError (Bytes × GoInt) :=
  match h.type with
  | .helloOK =>
      if h.version ≠ version then .err (.unsupportedVersion h.version)
      else if h.nodeID = [] then .err .emptyNodeID
      else if h.nodeID = localID then .err .self
      else .ok (h.nodeID, h.port)
  | .alreadyConnected => .err (.alreadyConnected h.nodeID h.port)
  | .error => .err (.helloError h.error)
  | type => .err (.unexpectedResponse type)

/-- outboundHandshake against a peer that answers what it is sent with respond. -/
def outboundHandshake (json : HeaderJson) (self : Self) (respond : Bytes → Bytes) :
    Outcome HandshakeError (Bytes × GoInt) :=
  match encode json [] (newHello self.id self.port) with
  | (_, .error e) => .err (.encodeHello e)
  | (w, .ok ()) =>
      match (decode json.unmarshal (respond w)).2 with
      | .err e => .err (.response e)
      | .panic => .panic
      | .ok msg => helloResponse self.id msg.header

structure Inbound where
  remoteID : Bytes
  remotePort : GoInt
  accepted : Bool
  deriving DecidableEq, Repr

/-- inboundHandshake on a stream: what it writes, and how it ends. -/
def inboundHandshake (json : HeaderJson) (self : Self) (decide : Bytes → Bool)
    (verify : Bytes → Except VerifyError Unit) (request : Bytes) :
    Bytes × Outcome HandshakeError Inbound :=
  match (decode json.unmarshal request).2 with
  | .err e => ([], .err (.decodeHello e))
  | .panic => ([], .panic)
  | .ok msg =>
      let h := msg.header
      let reply (m : Message) : Bytes := (encode json [] m).1
      if h.type ≠ .hello then (reply (newError (ascii "expected hello")),
        .err (.expectedHello h.type))
      else if h.version ≠ version then (reply (newError (unsupportedVersion h.version)),
        .err (.unsupportedVersion h.version))
      else if h.nodeID = [] then (reply (newError (ascii "empty node id")), .err .emptyNodeID)
      else if h.nodeID = self.id then (reply (newError (ascii "connected to self")), .err .self)
      else if !decide h.nodeID then
        (reply (newAlreadyConnected self.id self.port), .ok ⟨h.nodeID, h.port, false⟩)
      else match verify h.nodeID with
        | .error e => (reply (newError (ascii "identity mismatch")), .err (.identity e))
        | .ok () =>
            match encode json [] (newHelloOK self.id self.port) with
            | (w, .error e) => (w, .err (.encodeHelloOK e))
            | (w, .ok ()) => (w, .ok ⟨h.nodeID, h.port, true⟩)

/-- verifyRemote; no function stands for a nil VerifyRemoteID. -/
def verifyRemote (verifyRemoteID : Option (Bytes → Bytes → Except VerifyError Unit))
    (remoteAddr claimed : Bytes) : Except VerifyError Unit :=
  match verifyRemoteID with
  | none => .ok ()
  | some verify => if claimed = [] then .ok () else verify remoteAddr claimed

section Manager
variable {σ : Type*}

def decideInbound (r : Roster σ) (localID remoteID : Bytes) : Bool :=
  match r.get remoteID with
  | none => true
  | some cur =>
      if !r.healthy cur then true else decide (preferredDialer localID remoteID = remoteID)

/-- handleInbound up to the session it installs. -/
def handleInbound (json : HeaderJson) (self : Self)
    (verifyRemoteID : Option (Bytes → Bytes → Except VerifyError Unit)) (r : Roster σ)
    (remote request : Bytes) : Bytes × Option SessionConfig :=
  match inboundHandshake json self (decideInbound r self.id) (verifyRemote verifyRemoteID remote)
    request with
  | (w, .ok ⟨remoteID, _, true⟩) => (w, some ⟨remoteID, self.id, false⟩)
  | (w, _) => (w, none)

/-- dialAndInstall from the connection to the session it installs; the peer is seen at
verifyAddr. -/
def dialAndInstall (json : HeaderJson) (self : Self)
    (verifyRemoteID : Option (Bytes → Bytes → Except VerifyError Unit)) (verifyAddr : Bytes)
    (respond : Bytes → Bytes) : Option SessionConfig :=
  match outboundHandshake json self respond with
  | .ok (remoteID, _) =>
      if remoteID = self.id then none
      else match verifyRemote verifyRemoteID verifyAddr remoteID with
        | .error _ => none
        | .ok () => some ⟨remoteID, self.id, true⟩
  | _ => none

end Manager

/-- What Encode wrote to an empty stream decodes to the message, and nothing at all to the end
of the stream. -/
theorem decode_written {json : HeaderJson} {msg : Message}
    (hkeeps : json.Keeps (framedHeader msg)) :
    (FitsFrame json msg ∧ (encode json [] msg).2 = .ok () ∧
      (decode json.unmarshal (encode json [] msg).1).2 = .ok (framed msg)) ∨
    (¬ FitsFrame json msg ∧ (∃ e, (encode json [] msg).2 = .error e) ∧
      (decode json.unmarshal (encode json [] msg).1).2 = .err .eof) := by
  rcases encode_cases json [] msg with ⟨jb, hjb, hfits, henc⟩ | ⟨hno, e, henc⟩
  · refine Or.inl ⟨⟨jb, hjb, hfits⟩, by rw [henc], ?_⟩
    rw [henc, List.nil_append, decode_frame hkeeps hjb hfits]
  · refine Or.inr ⟨hno, ⟨e, by rw [henc]⟩, ?_⟩
    rw [henc]
    rfl

/-- The ways inboundHandshake ends after it has read a Hello that names the sender. -/
theorem inboundHandshake_hello {json : HeaderJson} {self : Self} (decide : Bytes → Bool)
    (verify : Bytes → Except VerifyError Unit) {request id : Bytes} {port : GoInt}
    (hdec : (decode json.unmarshal request).2 = .ok (framed (newHello id port)))
    (hid : id ≠ []) (hself : id ≠ self.id) :
    inboundHandshake json self decide verify request =
      if !decide id then
        ((encode json [] (newAlreadyConnected self.id self.port)).1, .ok ⟨id, port, false⟩)
      else match verify id with
        | .error e =>
            ((encode json [] (newError (ascii "identity mismatch"))).1, .err (.identity e))
        | .ok () =>
            match encode json [] (newHelloOK self.id self.port) with
            | (w, .error e) => (w, .err (.encodeHelloOK e))
            | (w, .ok ()) => (w, .ok ⟨id, port, true⟩) := by
  unfold inboundHandshake
  rw [hdec]
  simp [framed, framedHeader, newHello, announcement, hid, hself]

/-- A request that is accepted is a Hello of this version from another node that decide and
verify let through, and HelloOK is written. -/
theorem inboundHandshake_accepted {json : HeaderJson} {self : Self} {decide : Bytes → Bool}
    {verify : Bytes → Except VerifyError Unit} {request w : Bytes} {p : Inbound}
    (h : inboundHandshake json self decide verify request = (w, .ok p))
    (haccepted : p.accepted = true) :
    p.remoteID ≠ [] ∧ p.remoteID ≠ self.id ∧ decide p.remoteID = true ∧
      verify p.remoteID = .ok () ∧
      encode json [] (newHelloOK self.id self.port) = (w, .ok ()) := by
  unfold inboundHandshake at h
  split at h
  · exact absurd h (by simp)
  · exact absurd h (by simp)
  · rename_i msg _
    dsimp only at h
    split_ifs at h with htype hversion hempty hself hdecide
    · exact absurd h (by simp)
    · exact absurd h (by simp)
    · exact absurd h (by simp)
    · exact absurd h (by simp)
    · obtain ⟨_, hp⟩ := Prod.mk.inj h
      cases hp
      exact absurd haccepted (by simp)
    · split at h
      · exact absurd h (by simp)
      · rename_i hverify
        split at h
        · exact absurd h (by simp)
        · rename_i w' henc
          obtain ⟨rfl, hp⟩ := Prod.mk.inj h
          cases hp
          exact ⟨hempty, hself, by simpa using hdecide, hverify, henc⟩

/-- An answer that outboundHandshake takes names another node. -/
theorem outboundHandshake_ok {json : HeaderJson} {self : Self} {respond : Bytes → Bytes}
    {id : Bytes} {port : GoInt} (h : outboundHandshake json self respond = .ok (id, port)) :
    id ≠ [] ∧ id ≠ self.id := by
  unfold outboundHandshake at h
  split at h
  · exact absurd h (by simp)
  · split at h
    · exact absurd h (by simp)
    · exact absurd h (by simp)
    · unfold helloResponse at h
      split at h
      · split_ifs at h with hversion hempty hself
        cases h
        exact ⟨hempty, hself⟩
      · exact absurd h (by simp)
      · exact absurd h (by simp)
      · exact absurd h (by simp)

def exchanged (a b : Self) : List Message :=
  [newHello a.id a.port, newHelloOK b.id b.port, newAlreadyConnected b.id b.port,
    newError (ascii "connected to self"), newError (ascii "identity mismatch")]

def Admitted (json : HeaderJson) (a b : Self) (decide : Bytes → Bool)
    (verify : Bytes → Except VerifyError Unit) : Prop :=
  a.id ≠ b.id ∧ decide a.id = true ∧ verify a.id = .ok () ∧
    FitsFrame json (newHello a.id a.port) ∧ FitsFrame json (newHelloOK b.id b.port)

section Agreement
variable {json : HeaderJson} {a b : Self} {decide : Bytes → Bool}
  {verify : Bytes → Except VerifyError Unit}

/-- The payload length of the answer does not matter. -/
theorem helloResponse_payloadLen (localID : Bytes) (h : Header) (n : GoInt) :
    helloResponse localID { h with payloadLen := n } = helloResponse localID h := by
  cases h
  rfl

/-- The dialer reads the answer, or nothing if the answer was too long to be written. -/
theorem outboundHandshake_reads (respond : Bytes → Bytes) {msg : Message}
    (hsent : (encode json [] (newHello a.id a.port)).2 = .ok ())
    (hreply : respond (encode json [] (newHello a.id a.port)).1 = (encode json [] msg).1)
    (hkeeps : json.Keeps (framedHeader msg)) :
    (FitsFrame json msg ∧ outboundHandshake json a respond = helloResponse a.id msg.header) ∨
      (¬ FitsFrame json msg ∧ outboundHandshake json a respond = .err (.response .eof)) := by
  have hpair : encode json [] (newHello a.id a.port) =
      ((encode json [] (newHello a.id a.port)).1, .ok ()) := by rw [← hsent]
  unfold outboundHandshake
  rw [hpair]
  dsimp only
  rw [hreply]
  rcases decode_written hkeeps with ⟨hfits, _, hdec⟩ | ⟨hno, _, hdec⟩
  · exact Or.inl ⟨hfits, by rw [hdec]; exact helloResponse_payloadLen _ _ _⟩
  · exact Or.inr ⟨hno, by rw [hdec]⟩

/-- An answer other than HelloOK ends the dialer's side with an error, whether or not it could
be written. -/
theorem outboundHandshake_refused (respond : Bytes → Bytes) {msg : Message}
    (hsent : (encode json [] (newHello a.id a.port)).2 = .ok ())
    (hreply : respond (encode json [] (newHello a.id a.port)).1 = (encode json [] msg).1)
    (hkeeps : json.Keeps (framedHeader msg))
    (hrefused : ∃ e, helloResponse a.id msg.header = .err e) :
    ∃ e, outboundHandshake json a respond = .err e := by
  rcases outboundHandshake_reads respond hsent hreply hkeeps with ⟨_, hout⟩ | ⟨_, hout⟩
  · rw [hout]
    exact hrefused
  · exact ⟨_, hout⟩

/-- Two nodes agree on how their handshake ends. If the acceptor lets the dialer through and
the messages fit, both sides succeed and each has the ID and the port of the other. In every
other case the dialer gets an error and the acceptor does not accept. -/
theorem handshake_agrees (json : HeaderJson) (a b : Self) (decide : Bytes → Bool)
    (verify : Bytes → Except VerifyError Unit)
    (hkeeps : ∀ msg ∈ exchanged a b, json.Keeps (framedHeader msg)) :
    (Admitted json a b decide verify →
      outboundHandshake json a (fun w => (inboundHandshake json b decide verify w).1) =
          .ok (b.id, b.port) ∧
        (inboundHandshake json b decide verify
          (encode json [] (newHello a.id a.port)).1).2 = .ok ⟨a.id, a.port, true⟩) ∧
    (¬ Admitted json a b decide verify →
      (∃ e, outboundHandshake json a (fun w => (inboundHandshake json b decide verify w).1) =
          .err e) ∧
        ∀ p, (inboundHandshake json b decide verify
          (encode json [] (newHello a.id a.port)).1).2 = .ok p → p.accepted = false) := by
  have hkept : ∀ {msg}, msg ∈ exchanged a b → json.Keeps (framedHeader msg) :=
    fun hmsg => hkeeps _ hmsg
  rcases decode_written (hkept (by simp [exchanged] : newHello a.id a.port ∈ exchanged a b)) with
    ⟨hfits, hsent, hdec⟩ | ⟨hno, ⟨e, hsent⟩, hdec⟩
  · by_cases hself : a.id = b.id
    · -- the acceptor is the dialer itself
      have hin : inboundHandshake json b decide verify (encode json [] (newHello a.id a.port)).1 =
          ((encode json [] (newError (ascii "connected to self"))).1, .err .self) := by
        unfold inboundHandshake
        rw [hdec]
        simp [framed, framedHeader, newHello, announcement, hself, b.named]
      refine ⟨fun h => absurd hself h.1, fun _ => ⟨?_, by simp [hin]⟩⟩
      exact outboundHandshake_refused _ hsent (congrArg Prod.fst hin)
        (hkept (by simp [exchanged])) ⟨_, rfl⟩
    · have hin := inboundHandshake_hello decide verify hdec a.named hself
      by_cases hdecide : decide a.id = true
      · rw [hdecide] at hin
        cases hverify : verify a.id with
        | error e =>
          simp only [hverify, Bool.not_true, Bool.false_eq_true, if_false] at hin
          refine ⟨fun h => absurd h.2.2.1 (by simp [hverify]), fun _ => ⟨?_, by simp [hin]⟩⟩
          exact outboundHandshake_refused _ hsent (congrArg Prod.fst hin)
            (hkept (by simp [exchanged])) ⟨_, rfl⟩
        | ok u =>
          simp only [hverify, Bool.not_true, Bool.false_eq_true, if_false] at hin
          have hok : json.Keeps (framedHeader (newHelloOK b.id b.port)) :=
            hkept (by simp [exchanged])
          have hreply : (inboundHandshake json b decide verify
              (encode json [] (newHello a.id a.port)).1).1 =
                (encode json [] (newHelloOK b.id b.port)).1 := by
            rw [hin]
            cases henc : encode json [] (newHelloOK b.id b.port) with
            | mk w result => cases result <;> rfl
          rcases outboundHandshake_reads (fun w => (inboundHandshake json b decide verify w).1)
            hsent hreply hok with ⟨hfitsOK, hout⟩ | ⟨hno, hout⟩
          · have henc : encode json [] (newHelloOK b.id b.port) =
                ((encode json [] (newHelloOK b.id b.port)).1, .ok ()) := by
              rw [← (encode_ok_iff []).mpr hfitsOK]
            rw [henc] at hin
            refine ⟨fun _ => ⟨?_, by rw [hin]⟩, fun hnot => ?_⟩
            · rw [hout]
              simp [helloResponse, newHelloOK, announcement, b.named, Ne.symm hself]
            · exact absurd ⟨hself, hdecide, hverify, hfits, hfitsOK⟩ hnot
          · refine ⟨fun h => absurd h.2.2.2.2 hno, fun _ => ⟨⟨_, hout⟩, ?_⟩⟩
            intro p hp
            by_contra haccepted
            have henc := (inboundHandshake_accepted (Prod.ext rfl hp)
              (by simpa using haccepted)).2.2.2.2
            exact hno ((encode_ok_iff []).mp (by rw [henc]))
      · have hrefused : decide a.id = false := by simpa using hdecide
        rw [hrefused] at hin
        simp only [Bool.not_false, if_true] at hin
        refine ⟨fun h => absurd h.2.1 hdecide, fun _ => ⟨?_, ?_⟩⟩
        · exact outboundHandshake_refused _ hsent (congrArg Prod.fst hin)
            (hkept (by simp [exchanged])) ⟨_, rfl⟩
        · intro p hp
          rw [hin] at hp
          cases hp
          rfl
  · -- the Hello itself cannot be written
    have hpair : encode json [] (newHello a.id a.port) =
        ((encode json [] (newHello a.id a.port)).1, .error e) := by rw [← hsent]
    refine ⟨fun h => absurd h.2.2.2.1 hno, fun _ => ⟨⟨.encodeHello e, ?_⟩, ?_⟩⟩
    · unfold outboundHandshake
      rw [hpair]
    · intro p hp
      unfold inboundHandshake at hp
      rw [hdec] at hp
      exact absurd hp (by simp)

end Agreement

def tableCodec (table : List (Header × Bytes)) (written : ∀ p ∈ table, p.2 ≠ []) :
    HeaderJson where
  marshal h := (table.find? fun p => p.1 = h).map Prod.snd
  unmarshal jb := (table.find? fun p => p.2 = jb).map Prod.fst
  unmarshal_empty := by
    rw [Option.map_eq_none_iff, List.find?_eq_none]
    intro p hp
    simpa using written p hp

/-- Different texts in the table keep the headers apart. -/
theorem tableCodec_keeps {table : List (Header × Bytes)} {written : ∀ p ∈ table, p.2 ≠ []}
    (hdistinct : (table.map Prod.snd).Nodup) (h : Header) : (tableCodec table written).Keeps h := by
  intro jb hjb
  obtain ⟨p, hp, rfl⟩ := Option.map_eq_some_iff.mp hjb
  have hmem := List.mem_of_find?_eq_some hp
  have hh : p.1 = h := by simpa using List.find?_some hp
  have hfind : table.find? (fun q => decide (q.2 = p.2)) = some p := by
    cases hq : table.find? (fun q => decide (q.2 = p.2)) with
    | none => exact absurd (List.find?_eq_none.mp hq p hmem) (by simp)
    | some q =>
      have heq : q.2 = p.2 := by simpa using List.find?_some hq
      rw [List.inj_on_of_nodup_map hdistinct (List.mem_of_find?_eq_some hq) hmem heq]
  simp [tableCodec, hfind, hh]

/-- The messages of a table of short texts can be sent. -/
theorem tableCodec_fits {table : List (Header × Bytes)} {written : ∀ p ∈ table, p.2 ≠ []}
    (hshort : ∀ q ∈ table, q.2.length ≤ 1024) {msg : Message} (hlen : msg.payload.length ≤ 1024)
    (hmem : framedHeader msg ∈ table.map Prod.fst) : FitsFrame (tableCodec table written) msg := by
  obtain ⟨row, hrow, hheader⟩ := List.mem_map.mp hmem
  have hfound : ∃ row', table.find? (fun q => decide (q.1 = framedHeader msg)) = some row' := by
    rw [← Option.isSome_iff_exists, List.find?_isSome]
    exact ⟨row, hrow, by simpa using hheader⟩
  obtain ⟨row', hfind⟩ := hfound
  refine ⟨row'.2, ?_, ?_⟩
  · change (table.find? (fun q => decide (q.1 = framedHeader msg))).map Prod.snd = _
    rw [hfind]
    rfl
  · have hle := hshort row' (List.mem_of_find?_eq_some hfind)
    unfold maxMessageSize
    omega

def announcementJson (type id : String) : Bytes :=
  ascii ("\x7b\"type\":\"" ++ type ++ "\",\"node_id\":\"" ++ id) ++
    ascii "\",\"version\":2,\"port\":7," ++
    ascii "\"mod_time\":\"0001-01-01T00:00:00Z\",\"updated_at\":\"0001-01-01T00:00:00Z\"\x7d"

def selfA : Self := ⟨ascii "a", ⟨7, by decide⟩, by decide⟩
def selfB : Self := ⟨ascii "b", ⟨7, by decide⟩, by decide⟩

def helloTable : List (Header × Bytes) :=
  [(framedHeader (newHello selfA.id selfA.port), announcementJson "hello" "a"),
    (framedHeader (newHelloOK selfB.id selfB.port), announcementJson "hello_ok" "b")]

def helloCodec : HeaderJson := tableCodec helloTable (by decide +kernel)

theorem handshake_agrees_plain :
    outboundHandshake helloCodec selfA (fun w =>
        (inboundHandshake helloCodec selfB (fun _ => true) (fun _ => .ok ()) w).1) =
      .ok (ascii "b", ⟨7, by decide⟩) := by
  have hkeeps : ∀ msg ∈ exchanged selfA selfB, helloCodec.Keeps (framedHeader msg) :=
    fun msg _ => tableCodec_keeps (by decide +kernel) _
  refine ((handshake_agrees helloCodec selfA selfB (fun _ => true) (fun _ => .ok ()) hkeeps).1
    ⟨by decide, rfl, rfl, ⟨announcementJson "hello" "a", ?_, by decide +kernel⟩,
      ⟨announcementJson "hello_ok" "b", ?_, by decide +kernel⟩⟩).1
  · simp [helloCodec, tableCodec, helloTable]
  · have hne : framedHeader (newHello selfA.id selfA.port) ≠
        framedHeader (newHelloOK selfB.id selfB.port) := by decide +kernel
    simp [helloCodec, tableCodec, helloTable, hne]

section Verified
variable {σ : Type*}

/-- The connection of a session: the address it is seen at, and what the LocalAPI answers
while the session is brought up. -/
structure Connection where
  remoteAddr : Bytes
  api : LocalAPI

/-- For the address of the connection the LocalAPI names a node that has the claimed ID and
that the mesh gate allows. -/
structure Verified (fold : CaseFold) (conn : Connection) (claimed : Bytes) : Prop where
  seen : ∃ (n : Node) (g : MeshGate) (pid : MeshIdentity),
    conn.api.whoIs conn.remoteAddr = some (some n) ∧
      claimedMatchesWhoIs fold claimed (some n) = true ∧ meshGateForHello conn.api = .ok g ∧
      meshIdentityFromWhoIs (some n) = some pid ∧ g.allows fold pid = true

theorem verified_of_verify {fold : CaseFold} {conn : Connection} {claimed : Bytes}
    (h : verifyPeerNodeID fold conn.api conn.remoteAddr claimed = .ok ()) :
    Verified fold conn claimed := by
  obtain ⟨n, g, pid, _, hwho, hmatch, hgate, hpid, hallows⟩ := verify_ok h
  exact ⟨n, g, pid, hwho, hmatch, hgate, hpid, hallows⟩

/-- The session was made on its connection by handleInbound or by dialAndInstall, with any
peer and any state of the roster at that time. -/
def Shaken (σ : Type*) (json : HeaderJson) (self : Self) (fold : CaseFold) (conn : Connection)
    (c : SessionConfig) : Prop :=
  (∃ (r : Roster σ) (request w : Bytes),
    handleInbound json self (some (verifyPeerNodeID fold conn.api)) r conn.remoteAddr request =
      (w, some c)) ∨
  ∃ respond, dialAndInstall json self (some (verifyPeerNodeID fold conn.api)) conn.remoteAddr
    respond = some c

structure Trusted (self : Self) (fold : CaseFold) (conn : Connection) (c : SessionConfig) :
    Prop where
  named : c.nodeID ≠ []
  other : c.nodeID ≠ self.id
  local_ : c.localID = self.id
  verified : Verified fold conn c.nodeID

theorem handleInbound_trusted {json : HeaderJson} {self : Self} {fold : CaseFold}
    {conn : Connection} {r : Roster σ} {request w : Bytes} {c : SessionConfig}
    (h : handleInbound json self (some (verifyPeerNodeID fold conn.api)) r conn.remoteAddr
      request = (w, some c)) : Trusted self fold conn c := by
  unfold handleInbound at h
  split at h
  · rename_i w' remoteID port hin
    obtain ⟨_, hc⟩ := Prod.mk.inj h
    cases hc
    obtain ⟨hnamed, hother, _, hverify, _⟩ := inboundHandshake_accepted hin rfl
    dsimp only at hnamed hother hverify
    simp only [verifyRemote, if_neg hnamed] at hverify
    exact ⟨hnamed, hother, rfl, verified_of_verify hverify⟩
  · exact absurd h (by simp)

theorem dialAndInstall_trusted {json : HeaderJson} {self : Self} {fold : CaseFold}
    {conn : Connection} {respond : Bytes → Bytes} {c : SessionConfig}
    (h : dialAndInstall json self (some (verifyPeerNodeID fold conn.api)) conn.remoteAddr
      respond = some c) : Trusted self fold conn c := by
  unfold dialAndInstall at h
  split at h
  · rename_i remoteID port hout
    obtain ⟨hnamed, hother⟩ := outboundHandshake_ok hout
    rw [if_neg hother] at h
    split at h
    · exact absurd h (by simp)
    · rename_i hverify
      cases h
      simp only [verifyRemote, if_neg hnamed] at hverify
      exact ⟨hnamed, hother, rfl, verified_of_verify hverify⟩
  · exact absurd h (by simp)

theorem Shaken.trusted {json : HeaderJson} {self : Self} {fold : CaseFold} {conn : Connection}
    {c : SessionConfig} (h : Shaken σ json self fold conn c) : Trusted self fold conn c := by
  rcases h with ⟨r, request, w, hin⟩ | ⟨respond, hout⟩
  · exact handleInbound_trusted hin
  · exact dialAndInstall_trusted hout

variable [DecidableEq σ] {info : σ → SessionConfig}

structure Attributed (P : σ → Prop) (m : Manager σ) : Prop where
  mapped : ∀ id s, m.roster.sessions id = some s → P s
  waiting : ∀ k s, .install s ∈ m.todo k → P s

theorem exec_installs {done : Bool} {r : Roster σ} {op : Op σ} {s : σ} :
    .install s ∉ (exec info done r op).2 := by
  intro h
  cases op with
  | install t =>
    simp only [exec] at h
    cases hresult : (install info r t).2 <;> rw [hresult] at h <;> simp [afterInstall] at h
  | activate t stage =>
    cases stage <;> simp only [exec, activate] at h <;> split at h <;>
      simp [discardSession] at h
  | close t =>
    simp only [exec, close] at h
    split at h
    · simp at h
    · dsimp only at h
      split at h <;> simp at h
  | clearOnClose t => simp [exec] at h
  | removeIfCurrent t => simp [exec] at h
  | onSessionClose t => simp [exec] at h
  | markUnhealthy t => simp [exec] at h

/-- A step maps only sessions that were to be installed, and only connections add to those. -/
theorem Attributed.step {P : σ → Prop} {m m' : Manager σ} {a : ManagerAction σ}
    (h : Attributed P m) (hstep : ManagerStep info m a m')
    (hconnect : ∀ k s, a = .connect k s → P s) : Attributed P m' := by
  cases hstep with
  | @connect k s g spawn =>
    cases spawn with
    | spawn idle =>
      refine ⟨h.mapped, ?_⟩
      intro j t hmem
      rcases ThreadPools.Pool.mem_spawn_cases hmem with hprog | hold
      · simp only [List.mem_singleton, Op.install.injEq] at hprog
        exact hprog ▸ hconnect k s rfl
      · exact h.waiting j t hold
  | @shut k s prog g reaction spawn =>
    cases spawn with
    | spawn idle =>
      refine ⟨h.mapped, ?_⟩
      intro j t hmem
      rcases ThreadPools.Pool.mem_spawn_cases hmem with hprog | hold
      · rcases reaction with rfl | rfl <;> simp [invalidate] at hprog
      · exact h.waiting j t hold
  | @run k g turn =>
    cases turn with
    | @run _ _ op rest next =>
      refine ⟨?_, ?_⟩
      · intro id s hs
        have heffect := exec_keyEffect info m.cancelled m.roster op id
        simp only [Manager.roster] at heffect hs
        generalize exec info m.cancelled m.goroutines.shared op = after at heffect hs
        cases heffect with
        | kept same => exact h.mapped id s (same.symm.trans hs)
        | @displaced t key mapped _ =>
          obtain rfl : t = s := Option.some.inj (mapped.symm.trans hs)
          exact h.waiting k t (by rw [Manager.todo, next]; exact List.mem_cons_self)
        | removed _ _ gone => exact absurd (gone.symm.trans hs) (by simp)
      · intro j s hmem
        rcases ThreadPools.Pool.mem_run_cases next hmem with hleft | hold
        · exact absurd hleft exec_installs
        · exact h.waiting j s hold
  | cancel => exact ⟨h.mapped, h.waiting⟩
  | @closeAll k all done idle listed =>
    refine ⟨fun id s hs => absurd hs (by simp [Manager.closeAll, Manager.roster]), ?_⟩
    intro j s hmem
    rcases ThreadPools.Pool.mem_spawn_cases hmem with hprog | hold
    · simp at hprog
    · exact h.waiting j s hold

theorem run_attributed {P : σ → Prop} {m m' : Manager σ} {as : List (ManagerAction σ)}
    (hrun : Run (ManagerStep info) m as m') (hconnect : ∀ k s, .connect k s ∈ as → P s)
    (h : Attributed P m) : Attributed P m' := by
  induction hrun with
  | nil _ => exact h
  | cons hstep _ ih =>
    refine ih (fun k s hmem => hconnect k s (List.mem_cons_of_mem _ hmem)) (h.step hstep ?_)
    rintro k s rfl
    exact hconnect k s List.mem_cons_self

/-- No unverified session. Whatever the peers send and however the goroutines interleave, if
sessions are brought up by handleInbound and dialAndInstall only, then a session in the
roster is one with another, named node, and its ID was matched against the names that the
LocalAPI had for the address of its connection, of a node the mesh gate allowed. -/
theorem roster_sessions_trusted (json : HeaderJson) (self : Self) (fold : CaseFold)
    (conn : σ → Connection) {m : Manager σ} {as : List (ManagerAction σ)}
    (hrun : Run (ManagerStep info) .started as m)
    (hshaken : ∀ k s, .connect k s ∈ as → Shaken σ json self fold (conn s) (info s))
    (id : Bytes) (s : σ) (hmapped : m.roster.sessions id = some s) :
    (info s).nodeID = id ∧ Trusted self fold (conn s) (info s) := by
  have hattributed : Attributed (fun s => Trusted self fold (conn s) (info s)) m :=
    run_attributed hrun (fun k s hmem => (hshaken k s hmem).trusted)
      ⟨by simp [Manager.started, Manager.roster], by simp [Manager.started, Manager.todo]⟩
  have hkeyed := (run_accounted hrun orderly_started).1.keyed
  exact ⟨hkeyed id s hmapped, hattributed.mapped id s hmapped⟩

end Verified

def onePeer : LocalAPI where
  connected := true
  whoIs addr :=
    if addr = ascii "1" then some (some (tailnetNode "b.tail.ts.net." "n1" "b")) else none
  self := none
  cachedGate := some ⟨[], 7⟩
  meshTag := []

def answerOfB (request : Bytes) : Bytes :=
  (inboundHandshake helloCodec selfB (fun _ => true) (fun _ => .ok ()) request).1

def connectionToB : Connection := ⟨ascii "1", onePeer⟩

theorem dial_of_b_shaken :
    Shaken Bool helloCodec selfA asciiFold connectionToB (crossing true) :=
  Or.inr ⟨answerOfB, by decide +kernel⟩

theorem roster_sessions_trusted_dial :
    ∃ m, Run (ManagerStep crossing) .started [.connect 0 true, .run 0] m ∧
      m.roster.sessions (ascii "b") = some true ∧
      Trusted selfA asciiFold connectionToB (crossing true) := by
  have hexists : ∃ m, Run (ManagerStep crossing) .started [.connect 0 true, .run 0] m ∧
      m.roster.sessions (ascii "b") = some true :=
    ⟨_, .cons (.connect (.spawn rfl)) (.single (.run (.run rfl))), rfl⟩
  obtain ⟨m, hrun, hmapped⟩ := hexists
  refine ⟨m, hrun, hmapped, (roster_sessions_trusted helloCodec selfA asciiFold
    (fun _ => connectionToB) hrun ?_ _ _ hmapped).2⟩
  intro k s hmem
  simp only [List.mem_cons, ManagerAction.connect.injEq, List.not_mem_nil, or_false,
    reduceCtorEq] at hmem
  rw [hmem.2]
  exact dial_of_b_shaken

end TailSync.Handshakes

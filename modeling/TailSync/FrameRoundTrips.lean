import TailSync.Framing

/-!
The sending half of internal/proto/proto.go and its round trip through Decode.
The JSON codec of headers is a parameter. Encode checks the size of the whole
frame and Decode the header first and the total after it; the two accept the same
frames, and a frame ends where its payload does. What Decode makes of a stream
does not depend on the bytes after the message, so no frame is a strict beginning
of another one.
-/
namespace TailSync.FrameRoundTrips

open ByteStrings Entries MachineInts Framing

/-- json.Marshal and json.Unmarshal on headers. Marshalling fails on times that have
no RFC 3339 form; unmarshalling rejects empty input. -/
structure HeaderJson where
  marshal : Header → Option Bytes
  unmarshal : Bytes → Option Header
  unmarshal_empty : unmarshal [] = none

def HeaderJson.Keeps (json : HeaderJson) (h : Header) : Prop :=
  ∀ jb, json.marshal h = some jb → json.unmarshal jb = some h

/-- The JSON of the header has at most six bytes for each byte of its strings, which is what
the longest escape takes, and 512 for the rest. -/
def HeaderJson.Compact (json : HeaderJson) (h : Header) : Prop :=
  ∀ jb, json.marshal h = some jb →
    jb.length ≤ 512 + 6 * (h.nodeID.length + h.path.length + h.hash.length + h.error.length)

def goLen (data : Bytes) : GoInt := ⟨wrap64 data.length, wrap64_bounds _⟩

theorem goLen_val {data : Bytes} (h : data.length ≤ maxMessageSize) :
    (goLen data).val = data.length := by
  unfold maxMessageSize at h
  simp only [goLen]
  apply wrap64_eq_self <;> omega

def framedHeader (msg : Message) : Header := { msg.header with payloadLen := goLen msg.payload }

def framed (msg : Message) : Message := ⟨framedHeader msg, msg.payload⟩

inductive EncodeError where
  | marshalHeader
  | messageTooLarge (total : ℕ)
  deriving DecidableEq, Repr

/-- Encode to a writer that takes every byte: what has been written, and how the call
ends. Slices in memory are too short for their lengths to wrap when added. -/
def encode (json : HeaderJson) (w : Bytes) (msg : Message) : Bytes × Except EncodeError Unit :=
  match json.marshal (framedHeader msg) with
  | none => (w, .error .marshalHeader)
  | some jb =>
      let total := 4 + jb.length + msg.payload.length
      if total > maxMessageSize then (w, .error (.messageTooLarge total))
      else
        let w1 := w ++ leBytes 4 jb.length
        let w2 := w1 ++ jb
        (if msg.payload.length > 0 then w2 ++ msg.payload else w2, .ok ())

def encodeAll (json : HeaderJson) : Bytes → List Message → Bytes × Except EncodeError Unit
  | w, [] => (w, .ok ())
  | w, msg :: msgs =>
      match encode json w msg with
      | (w1, .ok ()) => encodeAll json w1 msgs
      | (w1, .error e) => (w1, .error e)

def decodeMany (parse : Bytes → Option Header) :
    ℕ → Bytes → Bytes × Outcome FrameError (List Message)
  | 0, r => (r, .ok [])
  | n + 1, r =>
      match decode parse r with
      | (r1, .panic) => (r1, .panic)
      | (r1, .err e) => (r1, .err e)
      | (r1, .ok msg) =>
          match decodeMany parse n r1 with
          | (r2, .ok msgs) => (r2, .ok (msg :: msgs))
          | other => other

def FitsFrame (json : HeaderJson) (msg : Message) : Prop :=
  ∃ jb, json.marshal (framedHeader msg) = some jb ∧
    4 + jb.length + msg.payload.length ≤ maxMessageSize

def Crosses (json : HeaderJson) (msg : Message) : Prop :=
  json.Keeps (framedHeader msg) ∧ FitsFrame json msg

section Encode
variable {json : HeaderJson} {msg : Message}

/-- Either the whole frame is written, or nothing is. -/
theorem encode_cases (json : HeaderJson) (w : Bytes) (msg : Message) :
    (∃ jb, json.marshal (framedHeader msg) = some jb ∧
      4 + jb.length + msg.payload.length ≤ maxMessageSize ∧
      encode json w msg = (w ++ (leBytes 4 jb.length ++ jb ++ msg.payload), .ok ())) ∨
    ¬ FitsFrame json msg ∧ ∃ e, encode json w msg = (w, .error e) := by
  unfold encode
  cases hmarshal : json.marshal (framedHeader msg) with
  | none =>
    refine Or.inr ⟨?_, .marshalHeader, rfl⟩
    rintro ⟨jb, hjb, _⟩
    rw [hmarshal] at hjb
    exact absurd hjb (by simp)
  | some jb =>
    by_cases htotal : 4 + jb.length + msg.payload.length > maxMessageSize
    · refine Or.inr ⟨?_, .messageTooLarge _, by simp only [if_pos htotal]; rfl⟩
      rintro ⟨jb', hjb', hfits⟩
      rw [hmarshal] at hjb'
      cases hjb'
      omega
    · refine Or.inl ⟨jb, rfl, by omega, ?_⟩
      simp only [if_neg htotal, Prod.mk.injEq, and_true, List.append_assoc]
      split
      · rfl
      · rename_i hempty
        rw [List.eq_nil_of_length_eq_zero (by omega : msg.payload.length = 0), List.append_nil]

theorem encode_ok_iff (w : Bytes) : (encode json w msg).2 = .ok () ↔ FitsFrame json msg := by
  rcases encode_cases json w msg with ⟨jb, hjb, hfits, henc⟩ | ⟨hno, e, henc⟩
  · exact ⟨fun _ => ⟨jb, hjb, hfits⟩, fun _ => by rw [henc]⟩
  · exact ⟨fun hok => absurd hok (by simp [henc]), fun hfits => absurd hfits hno⟩

theorem encode_error (w : Bytes) (hfail : (encode json w msg).2 ≠ .ok ()) :
    (encode json w msg).1 = w := by
  rcases encode_cases json w msg with ⟨jb, _, _, henc⟩ | ⟨_, e, henc⟩
  · exact absurd (by rw [henc]) hfail
  · rw [henc]

end Encode

section Decode
variable {parse : Bytes → Option Header} {r rest : Bytes} {msg : Message}

theorem decodeHeader_append {hLen : ℕ} {h : Header}
    (hdec : decodeHeader parse r = (rest, .ok (hLen, h))) (more : Bytes) :
    decodeHeader parse (r ++ more) = (rest ++ more, .ok (hLen, h)) := by
  obtain ⟨lenBuf, hb, rfl, hlen, hval, rfl, hpos, hmax, hparse, hneg, htotal⟩ :=
    decodeHeader_ok hdec
  rw [List.append_assoc]
  exact decodeHeader_of_checks hlen hval.symm hpos hmax hparse hneg htotal _

/-- What follows a decoded message is left as it is. -/
theorem decode_append (hdec : decode parse r = (rest, .ok msg)) (more : Bytes) :
    decode parse (r ++ more) = (rest ++ more, .ok msg) := by
  unfold decode at hdec ⊢
  cases hhead : decodeHeader parse r with
  | mk r2 result =>
    rw [hhead] at hdec
    cases result with
    | error e => exact absurd hdec (by simp)
    | ok value =>
      obtain ⟨hLen, h⟩ := value
      rw [decodeHeader_append hhead more]
      dsimp only at hdec ⊢
      by_cases hpayload : h.payloadLen.val > 0
      · rw [if_pos hpayload] at hdec ⊢
        by_cases hpanic : makeslicePanics h.payloadLen.val = true
        · rw [if_pos hpanic] at hdec
          exact absurd hdec (by simp)
        · rw [if_neg hpanic] at hdec ⊢
          rcases readFull_cases h.payloadLen.val.toNat r2 with
            ⟨_, hread⟩ | ⟨data, r3, rfl, hlen, hread⟩
          · rw [hread] at hdec
            exact absurd hdec (by simp)
          · rw [hread] at hdec
            cases hdec
            rw [List.append_assoc, readFull_append hlen]
      · rw [if_neg hpayload] at hdec ⊢
        cases hdec
        rfl

end Decode

section RoundTrip
variable {json : HeaderJson} {msg : Message} {jb : Bytes}

/-- A frame within the limit decodes to its message, and nothing is left of it. -/
theorem decode_frame (hkeeps : json.Keeps (framedHeader msg))
    (hjb : json.marshal (framedHeader msg) = some jb)
    (hfits : 4 + jb.length + msg.payload.length ≤ maxMessageSize) :
    decode json.unmarshal (leBytes 4 jb.length ++ jb ++ msg.payload) = ([], .ok (framed msg)) := by
  have hparse := hkeeps jb hjb
  have hpos : 0 < jb.length := by
    rw [List.length_pos_iff]
    rintro rfl
    rw [json.unmarshal_empty] at hparse
    exact absurd hparse (by simp)
  have hlimit : 4 + jb.length + msg.payload.length ≤ 64 * 2 ^ 20 := hfits
  have hlen : (framedHeader msg).payloadLen.val = msg.payload.length :=
    goLen_val (by unfold maxMessageSize; omega)
  have hword : jb.length = fromLe (leBytes 4 jb.length) := by
    rw [fromLe_leBytes, Nat.mod_eq_of_lt (by omega)]
  have hinner : wrap64 (4 + (jb.length : ℤ)) = 4 + jb.length :=
    wrap64_eq_self (by omega) (by omega)
  have hhead := decodeHeader_of_checks (leBytes_length 4 jb.length) hword hpos
    (by unfold maxMessageSize; omega) hparse (by omega)
    (by rw [hinner, hlen, wrap64_eq_self (by omega) (by omega)]; omega) msg.payload
  have hmake : makeslicePanics (msg.payload.length : ℤ) = false := by
    have hsmall : ¬ (msg.payload.length : ℤ) > maxAlloc := by
      unfold maxAlloc
      omega
    simp [makeslicePanics, hsmall]
  unfold decode
  rw [hhead]
  dsimp only
  rw [hlen]
  by_cases hempty : (msg.payload.length : ℤ) > 0
  · have hread : readFull msg.payload.length msg.payload = ([], some msg.payload) := by
      simpa using readFull_append (rfl : msg.payload.length = _) []
    rw [if_pos hempty, hmake, Int.toNat_natCast, hread]
    rfl
  · have hnil : msg.payload = [] := List.eq_nil_of_length_eq_zero (by omega)
    rw [if_neg hempty, hnil, framed, hnil]

/-- What Encode appends decodes to the message, followed by anything. -/
theorem decode_encoded (hkeeps : json.Keeps (framedHeader msg)) {w w' : Bytes}
    (henc : encode json w msg = (w', .ok ())) :
    ∃ frame, w' = w ++ frame ∧
      ∀ rest, decode json.unmarshal (frame ++ rest) = (rest, .ok (framed msg)) := by
  rcases encode_cases json w msg with ⟨jb, hjb, hfits, henc'⟩ | ⟨_, e, henc'⟩
  · rw [henc'] at henc
    cases henc
    exact ⟨_, rfl, fun rest => decode_append (decode_frame hkeeps hjb hfits) rest⟩
  · rw [henc'] at henc
    exact absurd henc (by simp)

/-- A stream that decodes up to its end has no strict beginning that decodes. -/
theorem strict_beginning_not_decoded {parse : Bytes → Option Header} {frame pre : Bytes}
    (hdec : decode parse frame = ([], .ok msg)) (hpre : pre <+: frame) (hne : pre ≠ frame)
    (msg' : Message) : (decode parse pre).2 ≠ .ok msg' := by
  intro hok
  obtain ⟨more, rfl⟩ := hpre
  have hpart : decode parse pre = ((decode parse pre).1, .ok msg') := by rw [← hok]
  rw [decode_append hpart more] at hdec
  have hmore := (List.append_eq_nil_iff.mp (Prod.mk.inj hdec).1).2
  exact hne (by rw [hmore, List.append_nil])

theorem decodeMany_encodeAll {msgs : List Message}
    (hkeeps : ∀ msg ∈ msgs, json.Keeps (framedHeader msg)) {w w' : Bytes}
    (henc : encodeAll json w msgs = (w', .ok ())) :
    ∃ stream, w' = w ++ stream ∧
      ∀ rest, decodeMany json.unmarshal msgs.length (stream ++ rest) =
        (rest, .ok (msgs.map framed)) := by
  induction msgs generalizing w with
  | nil =>
    cases henc
    exact ⟨[], by simp, fun rest => rfl⟩
  | cons msg msgs ih =>
    unfold encodeAll at henc
    cases hfirst : encode json w msg with
    | mk w1 result =>
      rw [hfirst] at henc
      cases result with
      | error e => exact absurd henc (by simp)
      | ok u =>
        obtain ⟨frame, rfl, hframe⟩ := decode_encoded (hkeeps msg (by simp)) hfirst
        obtain ⟨stream, rfl, hstream⟩ := ih (fun m hm => hkeeps m (by simp [hm])) henc
        refine ⟨frame ++ stream, by simp, fun rest => ?_⟩
        simp only [List.length_cons, decodeMany, List.append_assoc, hframe, hstream,
          List.map_cons]

end RoundTrip

/-- Framing round-trips and delimits exactly. Encode writes a frame exactly when the
frame is within the limit and otherwise leaves the writer alone; followed by anything,
the frame decodes to the message with its payload length filled in and exactly what
follows is left; no strict beginning of it decodes; and a sequence of encoded messages
decodes to the same sequence. -/
theorem framing_round_trips (json : HeaderJson) (msgs : List Message)
    (hkeeps : ∀ msg ∈ msgs, json.Keeps (framedHeader msg)) :
    (∀ msg ∈ msgs, ∀ w,
      ((encode json w msg).2 = .ok () ↔ FitsFrame json msg) ∧
      ((encode json w msg).2 ≠ .ok () → (encode json w msg).1 = w) ∧
      ((encode json w msg).2 = .ok () → ∃ frame, (encode json w msg).1 = w ++ frame ∧
        (∀ rest, decode json.unmarshal (frame ++ rest) = (rest, .ok (framed msg))) ∧
        ∀ pre, pre <+: frame → pre ≠ frame →
          ∀ msg', (decode json.unmarshal pre).2 ≠ .ok msg')) ∧
    (∀ w w', encodeAll json w msgs = (w', .ok ()) → ∃ stream, w' = w ++ stream ∧
      ∀ rest, decodeMany json.unmarshal msgs.length (stream ++ rest) =
        (rest, .ok (msgs.map framed))) := by
  refine ⟨?_, fun w w' henc => decodeMany_encodeAll hkeeps henc⟩
  intro msg hmsg w
  refine ⟨encode_ok_iff w, encode_error w, ?_⟩
  intro hok
  have henc : encode json w msg = ((encode json w msg).1, .ok ()) := by rw [← hok]
  obtain ⟨frame, hw, hframe⟩ := decode_encoded (hkeeps msg hmsg) henc
  refine ⟨frame, hw, hframe, ?_⟩
  intro pre hpre hne msg'
  have hwhole : decode json.unmarshal frame = ([], .ok (framed msg)) := by
    simpa using hframe []
  exact strict_beginning_not_decoded hwhole hpre hne msg'

def newPing : Message := ⟨{ emptyHeader zeroInt with type := .ping }, []⟩

def pingJson : Bytes :=
  ascii "\x7b\"type\":\"ping\",\"mod_time\":\"0001-01-01T00:00:00Z\"," ++
    ascii "\"updated_at\":\"0001-01-01T00:00:00Z\"\x7d"

def pingCodec : HeaderJson where
  marshal h := if h = framedHeader newPing then some pingJson else none
  unmarshal jb := if jb = pingJson then some (framedHeader newPing) else none
  unmarshal_empty := by decide +kernel

theorem pingCodec_keeps : pingCodec.Keeps (framedHeader newPing) := by
  intro jb hjb
  have hping : pingJson = jb := by simpa [pingCodec] using hjb
  simp [pingCodec, hping]

theorem framing_round_trips_two_pings :
    ∃ stream, encodeAll pingCodec [] [newPing, newPing] = (stream, .ok ()) ∧
      decodeMany pingCodec.unmarshal 2 (stream ++ [7]) =
        ([7], .ok [framed newPing, framed newPing]) := by
  have hkeeps : ∀ msg ∈ [newPing, newPing], pingCodec.Keeps (framedHeader msg) := by
    intro msg hmsg
    simp only [List.mem_cons, List.not_mem_nil, or_false, or_self] at hmsg
    rw [hmsg]
    exact pingCodec_keeps
  have henc : encodeAll pingCodec [] [newPing, newPing] =
      ((encodeAll pingCodec [] [newPing, newPing]).1, .ok ()) := by decide +kernel
  obtain ⟨stream, hw, hdec⟩ :=
    (framing_round_trips pingCodec [newPing, newPing] hkeeps).2 [] _ henc
  exact ⟨stream, by rw [henc, hw, List.nil_append], hdec [7]⟩

end TailSync.FrameRoundTrips

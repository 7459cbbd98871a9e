import TailSync.FrameRoundTrips
import TailSync.RootEffects
import TailSync.Transfers

/-!
Serving a whole file, from daemon/serve.go, up to the size check on the other side.
The size check on the file and the limit on the frame are the same number, and the
frame also holds its length word and a JSON header. So a file that the size check
admits can be pulled exactly when its bytes leave room for them.
-/
namespace TailSync.FileServing

open ByteStrings Entries IndexMap SyncRoot RootEffects Scanning MachineInts Framing
open FrameRoundTrips Transfers
open RelativePaths (PathError relPath cleanRel_ok CleanPath)

def defaultMaxFileBytes : ℤ := 64 * 2 ^ 20

inductive ServeError where
  | rejectPath (e : PathError)
  | fileNotFound (path : Bytes)
  | stat (path : Bytes) (e : FsError)
  | tooLarge (e : ApplyError)
  | changedSinceScan (path : Bytes)
  | cancelled
  | read (path : Bytes) (e : FsError)
  | encode (e : EncodeError)
  deriving DecidableEq, Repr

/-- serveEntry: the live entry of a path and the cleaned path, refused if the file has
drifted from the index. Its Stat and ReadFile are labelled as those of a transfer. -/
def serveEntry (cfg : Config) (h : Host) (d : Daemon) (rel : Bytes) :
    Except ServeError (Entry × Bytes) :=
  match relPath cfg.dir rel with
  | .error e => .error (.rejectPath e)
  | .ok rel =>
      match (d.idx.get rel).filter fun e => !e.deleted with
      | none => .error (.fileNotFound rel)
      | some e =>
          match stat h .statBasis d.root rel with
          | .error err => .error (.stat rel err)
          | .ok fi =>
              match checkFileSize cfg rel fi.size with
              | .error err => .error (.tooLarge err)
              | .ok () =>
                  if fi.size ≠ e.size ∨ fi.modTime ≠ e.modTime then
                    .error (.changedSinceScan rel)
                  else if h.cancelled then .error .cancelled
                  else .ok (e, rel)

def newFileData (path : Bytes) (e : Entry) (data : Bytes) : Message where
  header :=
    { emptyHeader zeroInt with
      type := .fileData
      path := path
      hash := e.hash
      size := e.size
      modTime := e.modTime
      mode := e.mode
      updatedAt := e.updatedAt }
  payload := data

def serveFile (cfg : Config) (json : HeaderJson) (h : Host) (d : Daemon) (w rel : Bytes) :
    Bytes × Except ServeError Unit :=
  match serveEntry cfg h d rel with
  | .error e => (w, .error e)
  | .ok (e, rel) =>
      match readFile h d.root rel with
      | .error err => (w, .error (.read rel err))
      | .ok data =>
          match encode json w (newFileData rel e data) with
          | (w1, .error err) => (w1, .error (.encode err))
          | (w1, .ok ()) => (w1, .ok ())

/-- Why a request under a path gets no file. About a file that is not live in the index
nothing is said but that. -/
inductive Refused (cfg : Config) (h : Host) (d : Daemon) (rel : Bytes) : ServeError → Prop
  | rejected {e : PathError} (path : relPath cfg.dir rel = .error e) :
      Refused cfg h d rel (.rejectPath e)
  | missing {p : Bytes} (path : relPath cfg.dir rel = .ok p)
      (dead : ∀ e, d.idx.get p = some e → e.deleted = true) :
      Refused cfg h d rel (.fileNotFound p)
  | unseen {p : Bytes} {e : Entry} {err : FsError} (path : relPath cfg.dir rel = .ok p)
      (live : d.idx.get p = some e) (kept : e.deleted = false)
      (stat : stat h .statBasis d.root p = .error err) : Refused cfg h d rel (.stat p err)
  | tooLarge {p : Bytes} {e : Entry} {fi : FileInfo} (path : relPath cfg.dir rel = .ok p)
      (live : d.idx.get p = some e) (kept : e.deleted = false)
      (stat : stat h .statBasis d.root p = .ok fi) (size : cfg.maxFileBytes < fi.size) :
      Refused cfg h d rel (.tooLarge (.tooLarge p fi.size))
  | changed {p : Bytes} {e : Entry} {fi : FileInfo} (path : relPath cfg.dir rel = .ok p)
      (live : d.idx.get p = some e) (kept : e.deleted = false)
      (stat : stat h .statBasis d.root p = .ok fi)
      (drift : fi.size ≠ e.size ∨ fi.modTime ≠ e.modTime) :
      Refused cfg h d rel (.changedSinceScan p)
  | cancelled (cancelled : h.cancelled = true) : Refused cfg h d rel .cancelled

/-- A file that a request under a path gets: live in the index, in no reserved place, and of
the size and time that the index has. -/
structure Served (cfg : Config) (h : Host) (d : Daemon) (rel p : Bytes) (e : Entry) : Prop where
  path : relPath cfg.dir rel = .ok p
  clean : CleanPath p
  live : d.idx.get p = some e
  kept : e.deleted = false
  unchanged : ∃ fi, stat h .statBasis d.root p = .ok fi ∧ fi.size = e.size ∧
    fi.modTime = e.modTime ∧ fi.size ≤ cfg.maxFileBytes

theorem relPath_clean {dir rel p : Bytes} (h : relPath dir rel = .ok p) : CleanPath p := by
  unfold relPath at h
  split at h
  · exact absurd h (by simp)
  · rename_i cleaned hclean
    split at h
    · split at h
      · cases h
        exact (cleanRel_ok hclean).2.2.2
      · exact absurd h (by simp)
    · exact absurd h (by simp)

theorem serveEntry_cases (cfg : Config) (h : Host) (d : Daemon) (rel : Bytes) :
    (∃ err, serveEntry cfg h d rel = .error err ∧ Refused cfg h d rel err) ∨
      ∃ e p, serveEntry cfg h d rel = .ok (e, p) ∧ Served cfg h d rel p e := by
  unfold serveEntry
  split
  · rename_i e hrel
    exact Or.inl ⟨_, rfl, .rejected hrel⟩
  · rename_i p hrel
    split
    · rename_i hnone
      refine Or.inl ⟨_, rfl, .missing hrel fun e he => ?_⟩
      rw [he] at hnone
      simpa using hnone
    · rename_i e hget
      obtain ⟨hlive, hkept⟩ := Option.filter_eq_some_iff.mp hget
      have hkept : e.deleted = false := by simpa using hkept
      split
      · rename_i err hstat
        exact Or.inl ⟨_, rfl, .unseen hrel hlive hkept hstat⟩
      · rename_i fi hstat
        unfold checkFileSize
        by_cases hsize : fi.size > cfg.maxFileBytes
        · rw [if_pos hsize]
          exact Or.inl ⟨_, rfl, .tooLarge hrel hlive hkept hstat hsize⟩
        · rw [if_neg hsize]
          dsimp only
          split_ifs with hdrift hcancelled
          · exact Or.inl ⟨_, rfl, .changed hrel hlive hkept hstat hdrift⟩
          · exact Or.inl ⟨_, rfl, .cancelled hcancelled⟩
          · rw [not_or, not_not, not_not] at hdrift
            exact Or.inr ⟨e, p, rfl, hrel, relPath_clean hrel, hlive, hkept, fi, hstat,
              hdrift.1, hdrift.2, not_lt.mp hsize⟩

section Served
variable {cfg : Config} {h : Host} {d : Daemon} {rel p data : Bytes} {e : Entry}

theorem served_of_serveEntry (hserve : serveEntry cfg h d rel = .ok (e, p)) :
    Served cfg h d rel p e := by
  rcases serveEntry_cases cfg h d rel with ⟨err, herr, _⟩ | ⟨e', p', hok, hserved⟩
  · rw [hserve] at herr
    exact absurd herr (by simp)
  · rw [hserve] at hok
    cases hok
    exact hserved

/-- The size check has passed on the file that is then read. -/
theorem Served.size_le (hserved : Served cfg h d rel p e)
    (hread : readFile h d.root p = .ok data) : (data.length : ℤ) ≤ cfg.maxFileBytes := by
  obtain ⟨fi, hstat, _, _, hmax⟩ := hserved.unchanged
  rw [← stat_size_of_readFile hstat hread]
  exact hmax

theorem serveFile_eq {json : HeaderJson} {w : Bytes}
    (hserve : serveEntry cfg h d rel = .ok (e, p)) (hread : readFile h d.root p = .ok data) :
    serveFile cfg json h d w rel =
      ((encode json w (newFileData p e data)).1,
        (encode json w (newFileData p e data)).2.mapError ServeError.encode) := by
  unfold serveFile
  rw [hserve]
  dsimp only
  rw [hread]
  dsimp only
  cases encode json w (newFileData p e data) with
  | mk w1 result => cases result <;> rfl

end Served

/-- The other side gets the file from the stream, and its size check lets it pass. -/
def Delivers (cfg cfgR : Config) (json : HeaderJson) (h : Host) (d : Daemon)
    (w rel p data : Bytes) : Prop :=
  ∃ frame msg, serveFile cfg json h d w rel = (w ++ frame, .ok ()) ∧
    (∀ rest, decode json.unmarshal (frame ++ rest) = (rest, .ok msg)) ∧
    expectType .fileData (.message msg) = .ok data ∧
    checkFileSize cfgR p data.length = .ok ()

theorem delivers_of_fits {cfg cfgR : Config} (hmax : cfg.maxFileBytes = cfgR.maxFileBytes)
    {json : HeaderJson} {h : Host} {d : Daemon} {rel p data : Bytes} {e : Entry}
    (hserve : serveEntry cfg h d rel = .ok (e, p)) (hread : readFile h d.root p = .ok data)
    (hkeeps : json.Keeps (framedHeader (newFileData p e data)))
    (hfits : FitsFrame json (newFileData p e data)) (w : Bytes) :
    Delivers cfg cfgR json h d w rel p data := by
  have hok := (encode_ok_iff w).mpr hfits
  have henc : encode json w (newFileData p e data) =
      ((encode json w (newFileData p e data)).1, .ok ()) := by rw [← hok]
  obtain ⟨frame, hw, hframe⟩ := decode_encoded hkeeps henc
  refine ⟨frame, framed (newFileData p e data), ?_, hframe, rfl, ?_⟩
  · rw [serveFile_eq hserve hread, hok, hw]
    rfl
  · have hsize := (served_of_serveEntry hserve).size_le hread
    unfold checkFileSize
    rw [if_neg (by omega)]

/-- A file that serveEntry admits goes through Encode, Decode and the size check of the
receiver exactly when its bytes, its JSON header and the length word together are within
the limit on messages. -/
theorem admitted_file_pulled_iff {cfg cfgR : Config}
    (hmax : cfg.maxFileBytes = defaultMaxFileBytes)
    (hmaxR : cfgR.maxFileBytes = defaultMaxFileBytes)
    {json : HeaderJson} {h : Host} {d : Daemon} {rel p data : Bytes} {e : Entry}
    (hserve : serveEntry cfg h d rel = .ok (e, p)) (hread : readFile h d.root p = .ok data)
    (hkeeps : json.Keeps (framedHeader (newFileData p e data))) (w : Bytes) :
    (∃ frame msg, serveFile cfg json h d w rel = (w ++ frame, .ok ()) ∧
      (∀ rest, decode json.unmarshal (frame ++ rest) = (rest, .ok msg)) ∧
      expectType .fileData (.message msg) = .ok data ∧
      checkFileSize cfgR p data.length = .ok ()) ↔
    ∃ jb, json.marshal (framedHeader (newFileData p e data)) = some jb ∧
      4 + jb.length + data.length ≤ maxMessageSize := by
  constructor
  · rintro ⟨frame, msg, hok, _⟩
    rw [serveFile_eq hserve hread] at hok
    apply (encode_ok_iff w).mp
    cases hresult : (encode json w (newFileData p e data)).2 with
    | ok u => rfl
    | error err =>
      rw [hresult] at hok
      exact absurd (Prod.mk.inj hok).2 (by simp [Except.mapError])
  · intro hfits
    exact delivers_of_fits (hmax.trans hmaxR.symm) hserve hread hkeeps hfits w

/-- In compact JSON the room that the header takes is known from the path and the hash, so a
file can be pulled if it is smaller than the limit by that much. -/
theorem roomy_file_delivered {cfg cfgR : Config} (hmax : cfg.maxFileBytes = cfgR.maxFileBytes)
    {json : HeaderJson} {h : Host} {d : Daemon} {rel p data jb : Bytes} {e : Entry}
    (hserve : serveEntry cfg h d rel = .ok (e, p)) (hread : readFile h d.root p = .ok data)
    (hkeeps : json.Keeps (framedHeader (newFileData p e data)))
    (hjson : json.marshal (framedHeader (newFileData p e data)) = some jb)
    (hcompact : json.Compact (framedHeader (newFileData p e data)))
    (hroom : 516 + 6 * (p.length + e.hash.length) + data.length ≤ maxMessageSize) (w : Bytes) :
    Delivers cfg cfgR json h d w rel p data := by
  refine delivers_of_fits hmax hserve hread hkeeps ⟨jb, hjson, ?_⟩ w
  have hlen : jb.length ≤ 512 + 6 * (0 + p.length + e.hash.length + 0) := hcompact jb hjson
  have hpayload : (newFileData p e data).payload = data := rfl
  rw [hpayload]
  omega

def standardConfig : Config := { Config.plain with maxFileBytes := defaultMaxFileBytes }

def servedEntry (data : Bytes) : Entry :=
  ⟨ascii "f", data.length, 1, 0o644, contentHash Hashes.plain.sha256 data, false, 0, 1⟩

def servingDaemon (data : Bytes) : Daemon where
  idx := .set .empty (servedEntry data)
  root := (writeFileRoot .plain .empty (ascii "f") data 0o644).1
  appliesSinceSave := 0
  saved := .empty

theorem servingDaemon_locate (data : Bytes) :
    ∃ q, locate (servingDaemon data).root true (ascii "f") = .ok (q, .file ⟨data, 1, 0o644⟩) :=
  ⟨_, rfl⟩

theorem servingDaemon_serves {data : Bytes} (hdata : data.length ≤ 64 * 2 ^ 20) :
    serveEntry standardConfig .plain (servingDaemon data) (ascii "f") =
      .ok (servedEntry data, ascii "f") := by
  have hrel : relPath standardConfig.dir (ascii "f") = .ok (ascii "f") := by decide +kernel
  have hget : ((servingDaemon data).idx.get (ascii "f")).filter (fun e => !e.deleted) =
      some (servedEntry data) := rfl
  have hstat : stat .plain .statBasis (servingDaemon data).root (ascii "f") =
      .ok ⟨data.length, 1, 0o644⟩ := by
    obtain ⟨q, hloc⟩ := servingDaemon_locate data
    unfold stat
    rw [hloc]
    rfl
  have hsize : checkFileSize standardConfig (ascii "f") data.length = .ok () := by
    have hmax : standardConfig.maxFileBytes = 64 * 2 ^ 20 := rfl
    unfold checkFileSize
    rw [hmax, if_neg (by omega)]
  simp only [serveEntry, hrel, hget, hstat, hsize, servedEntry, ne_eq, not_true_eq_false, or_self,
    if_false]
  rfl

theorem servingDaemon_reads (data : Bytes) :
    readFile .plain (servingDaemon data).root (ascii "f") = .ok data := by
  obtain ⟨q, hloc⟩ := servingDaemon_locate data
  unfold readFile
  rw [hloc]
  rfl

def smallJson : Bytes :=
  ascii "\x7b\"type\":\"file_data\",\"payload_len\":1,\"path\":\"f\",\"hash\":\"" ++
    contentHash Hashes.plain.sha256 (ascii "x") ++
    ascii "\",\"size\":1,\"mod_time\":\"0001-01-01T00:00:00.000000001Z\",\"mode\":420," ++
    ascii "\"updated_at\":\"0001-01-01T00:00:00.000000001Z\"\x7d"

def smallCodec : HeaderJson where
  marshal h :=
    if h = framedHeader (newFileData (ascii "f") (servedEntry (ascii "x")) (ascii "x")) then
      some smallJson else none
  unmarshal jb :=
    if jb = smallJson then
      some (framedHeader (newFileData (ascii "f") (servedEntry (ascii "x")) (ascii "x"))) else none
  unmarshal_empty := by decide +kernel

theorem admitted_file_pulled_iff_small :
    ∃ frame msg, serveFile standardConfig smallCodec .plain (servingDaemon (ascii "x")) []
        (ascii "f") = (frame, .ok ()) ∧
      (∀ rest, decode smallCodec.unmarshal (frame ++ rest) = (rest, .ok msg)) ∧
      expectType .fileData (.message msg) = .ok (ascii "x") := by
  have hmax : standardConfig.maxFileBytes = defaultMaxFileBytes := rfl
  have hkeeps : smallCodec.Keeps
      (framedHeader (newFileData (ascii "f") (servedEntry (ascii "x")) (ascii "x"))) := by
    intro jb hjb
    have heq : smallJson = jb := by simpa [smallCodec] using hjb
    simp [smallCodec, heq]
  have hfits : ∃ jb, smallCodec.marshal
        (framedHeader (newFileData (ascii "f") (servedEntry (ascii "x")) (ascii "x"))) = some jb ∧
      4 + jb.length + (ascii "x").length ≤ maxMessageSize :=
    ⟨smallJson, by simp [smallCodec], by decide +kernel⟩
  obtain ⟨frame, msg, hserved, hdec, htype, _⟩ :=
    (admitted_file_pulled_iff hmax hmax (servingDaemon_serves (by decide))
      (servingDaemon_reads _) hkeeps []).mpr hfits
  exact ⟨frame, msg, hserved, hdec, htype⟩

/-- A file of exactly MaxFileBytes bytes is admitted, and whatever its header looks like in
JSON, nothing of it is sent. -/
theorem full_size_file_not_sent :
    ∃ data : Bytes, (data.length : ℤ) = defaultMaxFileBytes ∧
      serveEntry standardConfig .plain (servingDaemon data) (ascii "f") =
        .ok (servedEntry data, ascii "f") ∧
      ∀ json w, ∃ e, serveFile standardConfig json .plain (servingDaemon data) w (ascii "f") =
        (w, .error (.encode e)) := by
  have hlen : (List.replicate (64 * 2 ^ 20) (0 : UInt8)).length = 64 * 2 ^ 20 :=
    List.length_replicate
  refine ⟨List.replicate (64 * 2 ^ 20) 0, by rw [hlen]; rfl, servingDaemon_serves hlen.le, ?_⟩
  intro json w
  rw [serveFile_eq (servingDaemon_serves hlen.le) (servingDaemon_reads _)]
  rcases encode_cases json w (newFileData (ascii "f") (servedEntry (List.replicate (64 * 2 ^ 20) 0))
    (List.replicate (64 * 2 ^ 20) 0)) with ⟨jb, _, hfits, _⟩ | ⟨_, e, henc⟩
  · simp only [newFileData, hlen, maxMessageSize] at hfits
    omega
  · exact ⟨e, by rw [henc]; rfl⟩

end TailSync.FileServing

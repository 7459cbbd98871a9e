import TailSync.AppliedVersions
import TailSync.IndexFiles

/-!
Which indexes survive a restart. The paths and times of an index come from the tree, from
the clock, from peers and from the stamp of a scan, which adds a nanosecond to the one
before. A peer's strings and times have been through JSON already and its path is checked
to be UTF-8; the tree's are whatever the file system holds. In every run whose trees,
clocks and stamps stay within what JSON can write, every index reached is read back as it
was; a single file whose name is not UTF-8 is enough for the index to lose it.
-/
namespace TailSync.IndexRestarts

open ByteStrings Entries IndexMap SyncRoot RootEffects Scanning Transfers RemoteApply
open ApplyEffects ApplyRuns ObservedMeta AppliedVersions IndexFiles
open FileTrees (Tree)
open RelativePaths (CleanPath cleanRel_ok validString)
open Runs (Run)

/-- The clock of the system and the times it reports and keeps are in the years of JSON. -/
structure HostInYears (h : Host) : Prop where
  now : inYears h.now = true
  writeTime : inYears h.writeTime = true
  storedTime : ∀ t, inYears t = true → inYears (h.storedTime t) = true
  nodeInfo : ∀ op, inYears (h.nodeInfo op).modTime = true

def FilesInYears (t : Root) : Prop := ∀ q f, t.get q = some (.file f) → inYears f.modTime = true

/-- What a scan finds can be written: the paths of its files are valid UTF-8, their times and
the clock are in the years of JSON, and so is the nanosecond after each stamp of the index. -/
structure ScansInYears (h : Host) (d : Daemon) : Prop where
  now : inYears h.now = true
  files : ∀ p f, Recorded d.root p f → validString p = true ∧ inYears f.modTime = true
  stamps : ∀ e ∈ d.idx.files, inYears (e.updatedAt + 1) = true

section Trees
variable {h : Host} {t : Root} {p : Bytes}

theorem stat_inYears {op : FsOp} {fi : FileInfo} (hh : HostInYears h) (ht : FilesInYears t)
    (hstat : stat h op t p = .ok fi) : inYears fi.modTime = true := by
  unfold stat at hstat
  split at hstat
  · exact absurd hstat (by simp)
  · split at hstat
    · exact absurd hstat (by simp)
    · rename_i hloc
      cases hstat
      obtain ⟨_, _, _, hget⟩ := locate_eq_ok.mp hloc
      exact ht _ _ hget
    · cases hstat
      exact hh.nodeInfo op

theorem diskMeta_inYears {mode : Mode} {mt fallback : Time} (hh : HostInYears h)
    (ht : FilesInYears t) (hmt : inYears mt = true) (hfallback : inYears fallback = true) :
    inYears (diskMeta h t p mode mt fallback).2 = true := by
  unfold diskMeta
  split
  · dsimp only
    split
    · exact hfallback
    · exact hmt
  · rename_i hstat
    dsimp only
    split
    · exact hfallback
    · exact stat_inYears hh ht hstat

theorem FilesInYears.added {t' : Root} {q : List FileName} {f : File} (ht : FilesInYears t)
    (hadded : Tree.FileAdded t t' q f) (hf : inYears f.modTime = true) : FilesInYears t' := by
  intro q' g hg
  by_cases hq : q' = q
  · subst hq
    rw [hadded.file] at hg
    cases hg
    exact hf
  · exact ht q' g (hadded.other q' hq ▸ hg)

theorem tryAttr_inYears {op : FsOp} {change : File → File} (ht : FilesInYears t)
    (hchange : ∀ f, inYears f.modTime = true → inYears (change f).modTime = true) :
    FilesInYears (tryAttr h op change t p).1 := by
  rcases tryAttr_cases h op change t p with ⟨q, f, hloc, _, _, hadded, _⟩ | ⟨hsame, _⟩
  · obtain ⟨_, _, _, hget⟩ := locate_eq_ok.mp hloc
    exact ht.added hadded (hchange f (ht q f hget))
  · rw [hsame]
    exact ht

theorem writeFileRoot_inYears {data : Bytes} {mode : Mode} (hh : HostInYears h)
    (ht : FilesInYears t) (hp : CleanPath p)
    (hok : (writeFileRoot h t p data (fileMode mode)).2 = .ok ()) :
    FilesInYears (writeFileRoot h t p data (fileMode mode)).1 := by
  obtain ⟨_, _, _, t₁, _, hmkdir, hadded⟩ :=
    (writeFileRoot_cases h t p data (fileMode mode)).added hp hok
  refine FilesInYears.added ?_ hadded hh.writeTime
  intro q f hq
  rcases Tree.mkdirAll_grown hmkdir q with heq | ⟨_, hdir, _⟩
  · exact ht q f (heq ▸ hq)
  · rw [hdir] at hq
    exact absurd hq (by simp)

end Trees

section Entries
variable {h : Host} {d d' : Daemon} {re : Entry}

theorem fallbackTime_inYears (hidx : AllStorable d.idx) (hre : Storable re) :
    inYears (fallbackTime d.idx re) = true := by
  unfold fallbackTime
  split
  · split
    · rename_i hlive
      exact (hidx _ (Index.get_mem (liveEntry_eq_some.mp hlive).1)).modTime
    · exact hre.modTime
  · exact hre.modTime

theorem timedRoot_inYears (hh : HostInYears h) (ht : FilesInYears d.root) (hre : Storable re) :
    FilesInYears (timedRoot h d re).1 := by
  unfold timedRoot
  split
  · exact ht
  · exact tryAttr_inYears ht fun _ _ => hh.storedTime _ hre.modTime

theorem committedRoot_inYears {data : Bytes} (hh : HostInYears h) (ht : FilesInYears d.root)
    (hre : Storable re) (hp : CleanPath re.path)
    (hok : (writeFileRoot h d.root re.path data (fileMode re.mode)).2 = .ok ()) :
    FilesInYears (committedRoot h d re data) := by
  have hwritten := writeFileRoot_inYears hh ht hp hok
  unfold committedRoot
  dsimp only
  split
  · exact hwritten
  · exact tryAttr_inYears hwritten fun _ _ => hh.storedTime _ hre.modTime

/-- What an apply stores can be written if the peer's entry, the index and the tree can. -/
theorem applied_storable {cfg : Config} {hs : Hashes} {content : Option (Bytes × Bytes)}
    (happlied : Applied h re content d d') (hver : Verified cfg hs re content)
    (hh : HostInYears h) (ht : FilesInYears d.root) (hidx : AllStorable d.idx)
    (hre : Storable re) (hp : CleanPath re.path) : AllStorable d'.idx := by
  cases happlied with
  | tombstoned _ _ _ idx =>
    rw [idx]
    exact hidx.set hre
  | removed _ _ _ _ _ idx =>
    rw [idx]
    exact hidx.set hre
  | @adopted loc _ live _ _ _ _ _ root idx =>
    have hloc := hidx _ (Index.get_mem (liveEntry_eq_some.mp live).1)
    have htree : FilesInYears d'.root := by
      rw [root]
      exact tryAttr_inYears (timedRoot_inYears hh ht hre) fun _ hf => hf
    rw [idx]
    exact hidx.set ⟨hloc.path, hloc.hash, diskMeta_inYears hh htree hre.modTime hloc.modTime,
      hloc.deletedAt, hre.updatedAt⟩
  | @committed data got bytes _ written root idx =>
    have htree : FilesInYears d'.root := by
      rw [root]
      exact committedRoot_inYears hh ht hre hp written
    have hhash : got = re.hash := (hver data got bytes).2.2.1
    rw [idx]
    refine hidx.set ⟨hre.path, hhash ▸ hre.hash,
      diskMeta_inYears hh htree hre.modTime (fallbackTime_inYears hidx hre), hre.deletedAt, ?_⟩
    simp only [committedEntry]
    split
    · exact hh.now
    · exact hre.updatedAt

theorem ended_storable {cfg : Config} {hs : Hashes} {content : Option (Bytes × Bytes)}
    {r : Except ApplyError Bool} (hended : Ended h re content d d' r)
    (hver : Verified cfg hs re content) (hh : HostInYears h) (ht : FilesInYears d.root)
    (hidx : AllStorable d.idx) (hre : Storable re) (hp : CleanPath re.path) :
    AllStorable d'.idx := by
  rcases hended.kept_or_applied with ⟨_, hkept⟩ | ⟨_, _, happlied, _⟩
  · rw [hkept.idx]
    exact hidx
  · exact applied_storable happlied hver hh ht hidx hre hp

/-- Cleaning the path of a decoded entry leaves one that can be stored. -/
theorem Announced.storable (hre : Announced Storable re) : Storable re := by
  obtain ⟨remote, rel, hremote, hrel, rfl⟩ := hre
  have hclean := (cleanRel_ok hrel).2.2.2
  exact ⟨hclean.1, hremote.hash, hremote.modTime, hremote.deletedAt, hremote.updatedAt⟩

end Entries

theorem stampUpdatedAt_inYears {now modTime prev : Time} (hnow : inYears now = true)
    (hmod : inYears modTime = true) (hprev : inYears (prev + 1) = true) :
    inYears (stampUpdatedAt now modTime prev) = true := by
  have hlater : inYears (if modTime > now then modTime else now) = true := by
    split
    · exact hmod
    · exact hnow
  unfold stampUpdatedAt
  generalize (if modTime > now then modTime else now) = later at hlater ⊢
  dsimp only
  split
  · exact hlater
  · split
    · exact hprev
    · exact hlater

section Scans
variable {cfg : Config} {sha256 : Bytes → Digest 32} {h : Host} {d : Daemon}

theorem prevUpdated_inYears (hscans : ScansInYears h d) (p : Bytes) :
    inYears (prevUpdated d.idx p + 1) = true := by
  unfold prevUpdated
  split
  · rename_i prev hget
    exact hscans.stamps prev (Index.get_mem hget)
  · decide

theorem diskEntry_storable (hscans : ScansInYears h d) (hidx : AllStorable d.idx) {p : Bytes}
    {f : File} (hfile : Recorded d.root p f) :
    Storable (diskEntry sha256 h.now d.idx p f) := by
  obtain ⟨hpath, htime⟩ := hscans.files p f hfile
  refine ⟨hpath, ?_, htime, inYears_zero,
    stampUpdatedAt_inYears hscans.now htime (prevUpdated_inYears hscans p)⟩
  rcases diskHash_cases sha256 d.idx p f with hhash | ⟨prev, hget, _, _, _, hhash⟩
  · simp only [diskEntry, hhash]
    exact validString_contentHash sha256 f.bytes
  · simp only [diskEntry, hhash]
    exact (hidx prev (Index.get_mem hget)).hash

theorem change_storable {res : ScanResult} (hscans : ScansInYears h d) (hidx : AllStorable d.idx)
    (hscan : scan sha256 h.now h d.root d.idx = .ok res) {c : Change} (hc : c ∈ res.changes) :
    Storable c.entry := by
  rcases (mem_changes hscan).mp hc with ⟨p, f, hfile, hchange⟩ | ⟨prev, hprev, htomb⟩
  · have hentry : Storable (diskEntry sha256 h.now d.idx p f) :=
      diskEntry_storable hscans hidx hfile
    rw [(diskChange_spec hchange).1]
    exact ⟨hentry.path, hentry.hash, hentry.modTime, hentry.deletedAt,
      stampUpdatedAt_inYears hscans.now hentry.modTime (prevUpdated_inYears hscans _)⟩
  · have hentry := hidx prev hprev
    rw [(tombChange_spec htomb).2.2.2]
    exact ⟨hentry.path, rfl, hentry.modTime, hscans.now,
      stampUpdatedAt_inYears hscans.now inYears_zero (hscans.stamps prev hprev)⟩

theorem reconcile_storable (hscans : ScansInYears h d) (hidx : AllStorable d.idx) :
    AllStorable (reconcile cfg sha256 h d).1.idx := by
  cases hscan : scan sha256 h.now h d.root d.idx with
  | error e =>
    rw [reconcile_failed hscan]
    exact hidx
  | ok res =>
    refine AllStorable.of_get fun p e hget => ?_
    rcases reconcile_entry hscan hget with hold | ⟨c, hc, _, rfl⟩
    · exact hidx e (Index.get_mem hold)
    · exact change_storable hscans hidx hscan hc

end Scans

section Runs
variable {ι : Type*} [DecidableEq ι] {cfg : Config} {hs : Hashes} {s s' : NodeState ι}
  {a : Action ι}

/-- Entries are called with as they come out of a decoded manifest, and what the applies and
the scans read from the tree and the clock can be written. -/
structure Admitted (s : NodeState ι) (a : Action ι) : Prop where
  decoded : ∀ k remote, a = .call k remote → Storable remote
  applies : ∀ k h, a = .decide k h ∨ a = .commit k h →
    HostInYears h ∧ FilesInYears s.daemon.root
  scans : ∀ h, a = .reconcile h → ScansInYears h s.daemon

structure Restartable (cfg : Config) (hs : Hashes) (s : NodeState ι) : Prop where
  idx : AllStorable s.daemon.idx
  sound : ∀ k, (s.calls k).Sound cfg hs
  serves : ∀ k, (s.calls k).Serves Storable

theorem Restartable.next (hr : Restartable cfg hs s) (hstep : Steps cfg hs Admitted s a s') :
    Restartable cfg hs s' := by
  obtain ⟨hstep, hadmitted⟩ := hstep
  have hstepped := step_stepped hr.sound hstep
  refine ⟨?_, hstepped.sound hr.sound,
    hstepped.serves (A := fun _ => Storable) hadmitted.decoded hr.serves⟩
  cases hstepped with
  | quiet daemon _ =>
    rw [daemon]
    exact hr.idx
  | @ran _ k h _ _ _ acts concerns clean run verified _ _ =>
    obtain ⟨hhost, hfiles⟩ := hadmitted.applies k h acts
    exact ended_storable run.ended verified hhost hfiles hr.idx
      (Announced.storable (concerns.announced (hr.serves k))) clean
  | @reconciled h daemon _ =>
    rw [daemon]
    exact reconcile_storable (hadmitted.scans h rfl) hr.idx
  | edited daemon _ =>
    rw [daemon]
    exact hr.idx

/-- From an empty index, through any admitted steps of applies, scans and edits, every index
that is reached can be saved, and loading the file gives the same entry under every path. -/
theorem index_survives_restart {as : List (Action ι)} {json : IndexJson}
    (hempty : s.daemon.idx = .empty) (hidle : ∀ k, s.calls k = .idle)
    (hrun : Run (Steps cfg hs Admitted) s as s') (hkeeps : json.Keeps (diskFormat s'.daemon.idx)) :
    RoundTrips json s'.daemon.idx := by
  have hstart : Restartable cfg hs s := by
    refine ⟨?_, fun k => ?_, fun k => ?_⟩
    · rw [hempty]
      exact fun e he => absurd he (by simp [Index.empty])
    · rw [hidle k]
      trivial
    · rw [hidle k]
      trivial
  have hend : Restartable cfg hs s' := hrun.invariant (fun _ _ _ hr hstep => hr.next hstep) hstart
  exact (roundTrips_iff hkeeps).mpr hend.idx

end Runs

def codecOf (df : DiskFormat) (text : Bytes) : IndexJson where
  marshalIndent _ := text
  unmarshal data := if data = text ++ [10] then some df else none

theorem codecOf_keeps (df : DiskFormat) (text : Bytes) : (codecOf df text).Keeps df := by
  intro _
  simp [codecOf]

def fileRoot (name : Bytes) : Root :=
  let root : Option Root := do
    let names ← pathNames name
    Tree.empty.put names (.file ⟨ascii "x", 1, 0o644⟩)
  root.getD .empty

def scannedNode (name : Bytes) : NodeState Unit :=
  (exec Config.plain Hashes.plain .fresh [.edit (fileRoot name), .reconcile .plain]).getD .fresh

def scannedJson : Bytes :=
  ascii "\x7b\n  \"version\": 1,\n  \"files\": \x7b\n    \"a\": \x7b\n      \"path\": \"a\",\n" ++
  ascii "      \"size\": 1,\n      \"mod_time\": \"0001-01-01T00:00:00.000000001Z\",\n" ++
  ascii "      \"mode\": 420,\n      \"hash\": \"78000000000000000000000000000000" ++
  ascii "00000000000000000000000000000000\",\n" ++
  ascii "      \"deleted_at\": \"0001-01-01T00:00:00Z\",\n" ++
  ascii "      \"updated_at\": \"0001-01-01T00:00:00.000000001Z\"\n    \x7d\n  \x7d\n\x7d"

theorem fileRoot_scans :
    ScansInYears .plain ⟨.empty, fileRoot (ascii "a"), 0, .empty⟩ := by
  refine ⟨by decide, ?_, by simp [Index.empty]⟩
  intro p f hfile
  have hmem := mem_walk.mpr hfile
  rw [show walk (fileRoot (ascii "a")) = [(ascii "a", ⟨ascii "x", 1, 0o644⟩)] from rfl] at hmem
  simp only [List.mem_singleton, Prod.mk.injEq] at hmem
  obtain ⟨rfl, rfl⟩ := hmem
  decide

theorem index_survives_restart_small :
    (∃ e, (scannedNode (ascii "a")).daemon.idx.get (ascii "a") = some e ∧ e.size = 1) ∧
    RoundTrips (codecOf (diskFormat (scannedNode (ascii "a")).daemon.idx) scannedJson)
      (scannedNode (ascii "a")).daemon.idx := by
  have hrun : Run (Steps Config.plain Hashes.plain Admitted) .fresh
      [.edit (fileRoot (ascii "a")), .reconcile .plain] (scannedNode (ascii "a")) := by
    refine .cons ⟨rfl, nofun, by simp, nofun⟩ (.single ⟨rfl, nofun, by simp, ?_⟩)
    rintro h ⟨⟩
    exact fileRoot_scans
  exact ⟨⟨_, rfl, rfl⟩, index_survives_restart rfl (fun _ => rfl) hrun (codecOf_keeps _ _)⟩

/-- A file whose name is the byte FF is scanned and recorded. Saving works, and what is loaded
has an entry for U+FFFD and none for the file. -/
theorem invalid_name_lost :
    Run (Steps Config.plain Hashes.plain fun _ _ => True) .fresh
      [.edit (fileRoot [0xFF]), .reconcile .plain] (scannedNode [0xFF]) ∧
    (∃ e, (scannedNode [0xFF]).daemon.idx.get [0xFF] = some e ∧ e.size = 1) ∧
    ∀ json : IndexJson, json.Keeps (diskFormat (scannedNode [0xFF]).daemon.idx) →
      ∃ data loaded, save json (scannedNode [0xFF]).daemon.idx = some data ∧
        load json (some data) = some loaded ∧ loaded.files [0xFF] = none ∧
        ∃ e, loaded.files replacement = some e ∧ e.path = replacement := by
  refine ⟨.cons ⟨rfl, trivial⟩ (.single ⟨rfl, trivial⟩), ⟨_, rfl, rfl⟩, ?_⟩
  intro json hkeeps
  have hsave : save json (scannedNode [0xFF]).daemon.idx =
      some (json.marshalIndent (diskFormat (scannedNode [0xFF]).daemon.idx) ++ [10]) := rfl
  have hloaded : (decodeFiles (diskFormat (scannedNode [0xFF]).daemon.idx).files replacement).map
      Entry.path = some replacement := by decide +kernel
  exact ⟨_, _, hsave, load_saved hkeeps hsave, by decide +kernel,
    Option.map_eq_some_iff.mp hloaded⟩

end TailSync.IndexRestarts

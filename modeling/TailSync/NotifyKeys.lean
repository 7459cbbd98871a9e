import TailSync.AppliedVersions
import TailSync.NotifyTracker
import TailSync.ReconciledDisks

/-!
Whether a changed version has a new notify key. The key holds path, hash, deletion
and the stamp in nanoseconds, and so tells a version from the one it replaces unless
both agree in hash and deletion and their stamps have the same 64-bit nanoseconds. A
scan stamps its changes past what they replace. A peer's version, though, may beat
the local one on mode or modification time with an equal stamp, and then it is stored
and reported under the key of the version it replaced.
-/
namespace TailSync.NotifyKeys

open ByteStrings Entries IndexMap SyncRoot Scanning MachineInts Transfers RemoteApply ApplyRuns
open ApplyEffects AppliedVersions NotifyTracker ReconciledDisks
open RelativePaths (cleanRel)

/-- The stamp a section stores: that of the peer's entry, or the local clock when bytes
are committed for an entry without one. -/
def storedStamp (h : Host) (re : Entry) (content : Option (Bytes × Bytes)) : Time :=
  if content.isSome && isZero re.updatedAt then h.now else re.updatedAt

/-- A section that stores the peer's entry under the key of the local one: the two agree
but for metadata, and the nanoseconds of their stamps are equal modulo 2^64. -/
def Repeats (h : Host) (re : Entry) (content : Option (Bytes × Bytes)) (old : Entry) : Prop :=
  old.deleted = re.deleted ∧ old.hash = re.hash ∧
    (2 ^ 64 : ℤ) ∣ storedStamp h re content - old.updatedAt

/-- A scan that finds only the metadata of a live entry's file changed, with the clock or
the file's time a multiple of 2^64 nanoseconds after the entry's stamp. -/
def ScanRepeats (sha256 : Bytes → Digest 32) (now : Time) (t : Root) (idx : Index)
    (old : Entry) : Prop :=
  old.deleted = false ∧ ∃ f, Recorded t old.path f ∧ old.hash = diskHash sha256 idx old.path f ∧
    old.updatedAt < max now f.modTime ∧ (2 ^ 64 : ℤ) ∣ max now f.modTime - old.updatedAt

theorem contentKeyFrom_eq_iff (a b : Entry) :
    contentKeyFrom a = contentKeyFrom b ↔ a.path = b.path ∧ a.hash = b.hash ∧
      a.deleted = b.deleted ∧ unixNano a.updatedAt = unixNano b.updatedAt := by
  simp [contentKeyFrom]

theorem unixNano_eq_iff (a b : Time) : unixNano a = unixNano b ↔ (2 ^ 64 : ℤ) ∣ a - b := by
  unfold unixNano wrap64
  rw [Int.bmod_eq_bmod_iff_bmod_sub_eq_zero, sub_sub_sub_cancel_right]
  exact Int.dvd_iff_bmod_eq_zero.symm

/-- The bumped stamp differs from the old one by a nanosecond, and so in its key. -/
theorem stampUpdatedAt_nano_iff {now : Time} (hnow : 0 < now) (modTime prev : Time) :
    unixNano (stampUpdatedAt now modTime prev) = unixNano prev ↔
      prev < max now modTime ∧ (2 ^ 64 : ℤ) ∣ max now modTime - prev := by
  have hmax : (if modTime > now then modTime else now) = max now modTime := by
    rw [max_comm, max_def]
    split <;> split <;> linarith
  have hpos : 0 < max now modTime := lt_max_of_lt_left hnow
  rw [unixNano_eq_iff]
  unfold stampUpdatedAt
  rw [hmax]
  by_cases hprev : isZero prev = true
  · have hzero : prev = 0 := by simpa [isZero] using hprev
    simp [hzero, isZero, hpos]
  · by_cases hnext : max now modTime < prev + 1
    · have hback : ¬ prev < max now modTime := not_lt.mpr (Int.lt_add_one_iff.mp hnext)
      simp [hprev, hnext, hback]
    · have hlater : prev < max now modTime := by linarith
      simp [hprev, hnext, hlater]

/-- A tracker that has advertised one entry hands out every entry with another key. -/
theorem claim_after_mark {old new : Entry} (hkey : contentKeyFrom new ≠ contentKeyFrom old)
    (stamp now : Time) : ((Tracker.new.mark stamp [old]).claim now [new]).2 = [new] := by
  have hfree : ((Tracker.new.mark stamp [old]).gcLocked now).freeLocked (contentKeyFrom new) now
      = true := by
    simp [Tracker.mark, Tracker.markOne, Tracker.new, Tracker.gcLocked, Tracker.setInflight,
      Tracker.freeLocked, hkey]
  simp [Tracker.claim, Tracker.claimEach, hfree]

section Scan
variable {sha256 : Bytes → Digest 32} {now : Time} {h : Host} {t : Root} {idx : Index}
variable {res : ScanResult}

theorem scan_key_eq_iff (hnow : 0 < now) (hscan : scan sha256 now h t idx = .ok res) {c : Change}
    (hc : c ∈ res.changes) {old : Entry} (hold : idx.get c.entry.path = some old) :
    contentKeyFrom c.entry = contentKeyFrom old ↔ ScanRepeats sha256 now t idx old := by
  have hpath : c.entry.path = old.path := (Index.get_path hold).symm
  rw [contentKeyFrom_eq_iff, ScanRepeats]
  rcases change_cases hscan hc with ⟨f, hf, hchange⟩ | ⟨prev, hprev, hlive, hnone, hentry⟩
  · have hstamp : prevUpdated idx old.path = old.updatedAt := by rw [prevUpdated, ← hpath, hold]
    have hentry := (diskChange_spec hchange).1
    simp only [diskEntry] at hentry
    rw [hpath] at hf hentry
    rw [hstamp] at hentry
    have hnano := stampUpdatedAt_nano_iff hnow f.modTime old.updatedAt
    rw [hentry]
    constructor
    · rintro ⟨_, hhash, hdel, heq⟩
      exact ⟨hdel.symm, f, hf, hhash.symm, hnano.mp heq⟩
    · rintro ⟨hdel, f', hf', hhash, heq⟩
      cases Option.some.inj (hf.1.symm.trans hf'.1)
      exact ⟨rfl, hhash.symm, hdel.symm, hnano.mpr heq⟩
  · -- a tombstone replaces a live entry, and no file is there
    constructor
    · rintro ⟨_, _, hdel, _⟩
      cases Option.some.inj (hold.symm.trans hprev)
      rw [hentry, hlive] at hdel
      exact absurd hdel (by simp)
    · rintro ⟨_, f, hf, _⟩
      rw [hpath] at hnone
      exact absurd hf (hnone f)

end Scan

section Applied
variable {cfg : Config} {hs : Hashes} {h : Host} {re : Entry} {d d' : Daemon}
variable {content : Option (Bytes × Bytes)}

/-- The entry a reported change stores, as far as its key goes. -/
theorem applied_stored (hrun : SectionRun h re d d' (.ok true) content)
    (hver : Verified cfg hs re content) :
    ∃ new, d'.idx.get re.path = some new ∧ new.deleted = re.deleted ∧ new.hash = re.hash ∧
      new.updatedAt = storedStamp h re content := by
  cases hrun with
  | @committed data got run =>
    unfold applyCommit at run
    split_ifs at run with hcancelled
    · cases run
    · have hcommits := commitContent_commits h d re data got
      rw [run] at hcommits
      cases hcommits with
      | committed _ _ _ _ idx _ =>
        exact ⟨_, Index.get_of_set idx (committedEntry_path ..), rfl, (hver data got rfl).2.2.1,
          by simp [storedStamp, committedEntry]⟩
  | decided run =>
    cases (SectionRun.decided run).ended with
    | applied _ applied _ =>
      cases applied with
      | tombstoned _ _ _ idx => exact ⟨re, Index.get_of_set idx rfl, rfl, rfl, rfl⟩
      | removed _ _ _ _ _ idx => exact ⟨re, Index.get_of_set idx rfl, rfl, rfl, rfl⟩
      | @adopted loc alive live hash _ _ _ _ _ idx =>
        obtain ⟨hloc, hlive⟩ := liveEntry_eq_some.mp live
        have hpath : loc.path = re.path := Index.get_path hloc
        exact ⟨_, Index.get_of_set idx hpath, hlive.trans alive.symm, hash, rfl⟩
      | committed bytes => cases bytes

/-- A section that reports a change renews the key unless it repeats it. -/
theorem section_key_eq_iff (hrun : SectionRun h re d d' (.ok true) content)
    (hver : Verified cfg hs re content) {old : Entry} (hold : d.idx.get re.path = some old) :
    ∃ new, d'.idx.get re.path = some new ∧
      (contentKeyFrom new = contentKeyFrom old ↔ Repeats h re content old) := by
  obtain ⟨new, hnew, hdel, hhash, hstamp⟩ := applied_stored hrun hver
  refine ⟨new, hnew, ?_⟩
  have hpath : new.path = old.path := (Index.get_path hnew).trans (Index.get_path hold).symm
  rw [contentKeyFrom_eq_iff, Repeats, unixNano_eq_iff, hdel, hhash, hstamp]
  constructor
  · rintro ⟨_, hh, hd, hn⟩
    exact ⟨hd.symm, hh.symm, hn⟩
  · rintro ⟨hd, hh, hn⟩
    exact ⟨hpath, hh.symm, hd.symm, hn⟩

end Applied

/-- Every change a scan stores and every change applyRemote reports has a key other than
that of the entry it replaced, and so is handed out by a tracker that has advertised
that entry, exactly where hash and deletion differ or the stamps do. -/
theorem notify_key_renewed_iff (cfg : Config) (hs : Hashes) :
    (∀ (now : Time) (h : Host) (t : Root) (idx : Index) (res : ScanResult), 0 < now →
      scan hs.sha256 now h t idx = .ok res →
      ∀ new ∈ (apply idx res.changes).2, ∀ old, idx.get new.path = some old →
        (apply idx res.changes).1.get new.path = some new ∧
        (contentKeyFrom new ≠ contentKeyFrom old ↔ ¬ ScanRepeats hs.sha256 now t idx old)) ∧
    (∀ (h : Host) (re : Entry) (d d' : Daemon) (content : Option (Bytes × Bytes)),
      SectionRun h re d d' (.ok true) content → Verified cfg hs re content →
      ∀ old, d.idx.get re.path = some old → ∃ new, d'.idx.get re.path = some new ∧
        (contentKeyFrom new ≠ contentKeyFrom old ↔ ¬ Repeats h re content old)) ∧
    (∀ (env : ApplyEnv) (d d' : Daemon) (remote : Entry),
      applyRemote cfg hs env d remote = (d', .ok true) →
      ∃ h rel content, cleanRel remote.path = .ok rel ∧
        SectionRun h { remote with path := rel } d d' (.ok true) content ∧
        Verified cfg hs { remote with path := rel } content) ∧
    (∀ old new : Entry, contentKeyFrom new ≠ contentKeyFrom old → ∀ stamp now,
      ((Tracker.new.mark stamp [old]).claim now [new]).2 = [new]) := by
  refine ⟨?_, ?_, ?_, fun old new hkey => claim_after_mark hkey⟩
  · intro now h t idx res hnow hscan new hnew old hold
    obtain ⟨hmem, _, hlist⟩ := get_apply idx (changes_nodup hscan)
      fun c hc e he => change_wins hnow hscan hc he
    rw [hlist] at hnew
    obtain ⟨c, hc, rfl⟩ := List.mem_map.mp hnew
    exact ⟨hmem c hc, not_congr (scan_key_eq_iff hnow hscan hc hold)⟩
  · intro h re d d' content hrun hver old hold
    obtain ⟨new, hnew, hkey⟩ := section_key_eq_iff hrun hver hold
    exact ⟨new, hnew, not_congr hkey⟩
  · intro env d d' remote happly
    rcases applyRemote_section cfg hs env d remote with
      ⟨_, hno⟩ | ⟨h, rel, content, r, _, hrel, _, _, hrun, hver, hr⟩
    · exact absurd (by rw [happly]) (hno true)
    · rw [happly] at hr hrun
      cases r with
      | error e => exact absurd hr (by simp [outcome])
      | ok changed =>
        cases hr
        exact ⟨h, rel, content, hrel, hrun, hver⟩

def privateFile (mode : Mode) (updatedAt : Time) : Entry :=
  ⟨ascii "a", 1, 1, mode, ascii "h", false, 0, updatedAt⟩

def privateNode : Daemon where
  idx := Index.empty.set (privateFile 0o600 9)
  root := (writeFileRoot .plain .empty (ascii "a") (ascii "x") 0o600).1
  appliesSinceSave := 0
  saved := .empty

theorem notify_key_renewed_later_stamp :
    ∃ d' new, SectionRun .plain (privateFile 0o644 10) privateNode d' (.ok true) none ∧
      d'.idx.get (ascii "a") = some new ∧
      contentKeyFrom new ≠ contentKeyFrom (privateFile 0o600 9) := by
  have hrun : SectionRun .plain (privateFile 0o644 10) privateNode
      (applyDecided .plain privateNode (privateFile 0o644 10)).1 (.ok true) none := .decided rfl
  obtain ⟨new, hnew, hkey⟩ := (notify_key_renewed_iff Config.plain Hashes.plain).2.1 .plain
    (privateFile 0o644 10) privateNode _ none hrun (by intro data got hcontent; cases hcontent)
    (privateFile 0o600 9) rfl
  refine ⟨_, new, hrun, hnew, hkey.mpr ?_⟩
  rintro ⟨_, _, hstamp⟩
  exact absurd hstamp (by decide)

/-- A peer whose version has the same stamp and a greater mode is adopted and reported as
a change under the old key, and a tracker that advertised the old version hands out
nothing. -/
theorem equal_stamp_key_kept :
    ∃ d' new, applyRemote Config.plain Hashes.plain (servingEnv []) privateNode
        (privateFile 0o644 9) = (d', .ok true) ∧
      d'.idx.get (ascii "a") = some new ∧ new.mode = 0o644 ∧ new ≠ privateFile 0o600 9 ∧
      contentKeyFrom new = contentKeyFrom (privateFile 0o600 9) ∧
      ((Tracker.new.mark 20 [privateFile 0o600 9]).claim 21 [new]).2 = [] := by
  refine ⟨_, _, rfl, rfl, ?_, ?_, ?_, ?_⟩ <;> decide +kernel

end TailSync.NotifyKeys

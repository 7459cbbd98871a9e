import TailSync.ApplyRuns
import TailSync.ObservedMeta

/-!
The version that a remote apply stores, in any tree. A peer's live version is stored
with its own stamp, hash and time, and with its own mode unless it has none; then it is
stored with the mode 0644, and what is stored beats what the peer has.
-/
namespace TailSync.AppliedVersions

open ByteStrings Entries IndexMap SyncRoot RootEffects Scanning MachineInts Transfers RemoteApply
open ApplyEffects ApplyRuns ObservedMeta
open RelativePaths (CleanPath cleanRel)

/-- An applyRemote that reports a change applied the entry under its cleaned path in one
of its sections; live bytes have the hash that was announced. -/
theorem applyRemote_applied {cfg : Config} {hs : Hashes} {env : ApplyEnv} {d d' : Daemon}
    {remote : Entry} (happly : applyRemote cfg hs env d remote = (d', .ok true)) :
    ∃ h rel content, (h = env.decideHost ∨ h = env.commitHost) ∧
      cleanRel remote.path = .ok rel ∧ CleanPath rel ∧
      ¬ (remote.deleted = false ∧ remote.hash = []) ∧
      Applied h { remote with path := rel } content d d' ∧
      Verified cfg hs { remote with path := rel } content := by
  rcases applyRemote_section cfg hs env d remote with
    ⟨_, hno⟩ | ⟨h, rel, content, r, hhost, hrel, hclean, hhash, hrun, hver, hr⟩
  · exact absurd (by rw [happly]) (hno true)
  · rw [happly] at hr hrun
    rcases hrun.ended.kept_or_applied with ⟨hresult, _⟩ | ⟨_, _, happlied, _⟩
    · cases r with
      | error e => exact absurd hr (by simp [outcome])
      | ok changed =>
        cases hr
        exact absurd rfl hresult
    · exact ⟨h, rel, content, hhost, hrel, hclean, hhash, happlied, hver⟩

/-- The entry agrees with the peer's version on stamp, deletion, contents and time, and has
the mode the daemon gives to files of that version. -/
structure Carries (e remote : Entry) : Prop where
  updatedAt : e.updatedAt = remote.updatedAt
  deleted : e.deleted = remote.deleted
  hash : e.hash = remote.hash
  mode : e.mode = fileMode remote.mode
  modTime : e.modTime = remote.modTime

/-- With a mode of its own neither version beats the other. -/
theorem Carries.not_wins {e remote : Entry} (h : Carries e remote) (hmode : remote.mode ≠ 0) :
    wins remote e = false ∧ wins e remote = false := by
  have hkey : lwwKey e = lwwKey remote := by
    refine (lwwKey_eq_iff e remote).mpr ⟨h.updatedAt, h.deleted, h.hash, ?_, h.modTime⟩
    rw [h.mode, fileMode, if_neg hmode]
  have hnot : ∀ a b, lwwKey a = lwwKey b → wins a b = false := by
    intro a b hab
    rw [Bool.eq_false_iff, Ne, wins_iff, hab]
    exact lt_irrefl _
  exact ⟨hnot _ _ hkey.symm, hnot _ _ hkey⟩

theorem applied_carries {cfg : Config} {hs : Hashes} {h : Host} {re : Entry}
    {content : Option (Bytes × Bytes)} {d d' : Daemon} (happlied : Applied h re content d d')
    (hver : Verified cfg hs re content) (hexact : h.Exact) (hclean : CleanPath re.path)
    (hlive : re.deleted = false) (hstamp : re.updatedAt ≠ 0) (htime : re.modTime ≠ 0)
    (hmode : perm re.mode = re.mode) : ∃ e, d'.idx.get re.path = some e ∧ Carries e re := by
  have htimed : isZero re.modTime = false := by simpa [isZero] using htime
  cases happlied with
  | tombstoned deleted => exact absurd deleted (by simp [hlive])
  | removed deleted => exact absurd deleted (by simp [hlive])
  | @adopted loc _ live hash _ guarded timed moded root idx =>
    obtain ⟨hget, halive⟩ := liveEntry_eq_some.mp live
    have hpath : loc.path = re.path := Index.get_path hget
    rw [root, adopted_observed hexact hmode guarded timed moded] at idx
    refine ⟨_, Index.get_of_set idx hpath, rfl, ?_, hash, rfl, ?_⟩
    · exact halive.trans hlive.symm
    · simp [adoptedEntry, htimed]
  | @committed data got bytes _ written root idx =>
    obtain ⟨mt, hmeta, hmt⟩ := committed_observed hexact hmode hclean written
      (fallbackTime d.idx re)
    rw [root, hmeta] at idx
    refine ⟨_, Index.get_of_set idx rfl, ?_, rfl, (hver data got bytes).2.2.1, rfl, ?_⟩
    · have hset : isZero re.updatedAt = false := by simpa [isZero] using hstamp
      simp [committedEntry, hset]
    · exact hmt.resolve_right (by simp [htimed])

/-- Committing a peer's live version does not fabricate a new one. Whatever the local state,
the entry stored for it has its stamp, its hash and its time, and the mode of a file of that
version: its own, or 0644 where it has none. With a mode of its own, neither of the two beats
the other. -/
theorem applied_version_kept {cfg : Config} {hs : Hashes} {env : ApplyEnv} {d d' : Daemon}
    {remote : Entry} (hdecide : env.decideHost.Exact) (hcommit : env.commitHost.Exact)
    (hlive : remote.deleted = false) (hstamp : remote.updatedAt ≠ 0) (htime : remote.modTime ≠ 0)
    (hmode : perm remote.mode = remote.mode)
    (happly : applyRemote cfg hs env d remote = (d', .ok true)) :
    ∃ rel e, cleanRel remote.path = .ok rel ∧ d'.idx.get rel = some e ∧
      e.updatedAt = remote.updatedAt ∧ e.deleted = remote.deleted ∧ e.hash = remote.hash ∧
      e.modTime = remote.modTime ∧ e.mode = (if remote.mode = 0 then 0o644 else remote.mode) ∧
      (remote.mode ≠ 0 → wins remote e = false ∧ wins e remote = false) := by
  obtain ⟨h, rel, content, hhost, hrel, hclean, _, happlied, hver⟩ := applyRemote_applied happly
  have hexact : h.Exact := by
    rcases hhost with rfl | rfl
    · exact hdecide
    · exact hcommit
  obtain ⟨e, hget, hcarries⟩ := applied_carries happlied hver hexact hclean hlive hstamp htime hmode
  have hcarries' : Carries e remote :=
    ⟨hcarries.updatedAt, hcarries.deleted, hcarries.hash, hcarries.mode, hcarries.modTime⟩
  exact ⟨rel, e, hrel, hget, hcarries.updatedAt, hcarries.deleted, hcarries.hash,
    hcarries.modTime, hcarries.mode, hcarries'.not_wins⟩

def versionOf (mode : Mode) : Entry :=
  ⟨ascii "f", 1, 5, mode, contentHash Hashes.plain.sha256 (ascii "x"), false, 0, 7⟩

def servingEnv (data : Bytes) : ApplyEnv := ⟨.plain, .plain, .plain, .serving data⟩

theorem servingEnv_exact (data : Bytes) :
    (servingEnv data).decideHost.Exact ∧ (servingEnv data).commitHost.Exact :=
  ⟨Host.plain_exact, Host.plain_exact⟩

def applyToFresh (mode : Mode) : Daemon × Outcome ApplyError Bool :=
  applyRemote Config.plain Hashes.plain (servingEnv (ascii "x")) ⟨.empty, .empty, 0, .empty⟩
    (versionOf mode)

theorem applied_version_kept_small :
    ∃ d' rel e, applyToFresh 0o600 = (d', .ok true) ∧
      cleanRel (versionOf 0o600).path = .ok rel ∧ d'.idx.get rel = some e ∧
      e.mode = 0o600 ∧ wins (versionOf 0o600) e = false ∧ wins e (versionOf 0o600) = false := by
  have happly : applyToFresh 0o600 = ((applyToFresh 0o600).1, .ok true) := by rfl
  obtain ⟨rel, e, hrel, hget, _, _, _, _, hmode, hwins⟩ :=
    applied_version_kept (servingEnv_exact _).1 (servingEnv_exact _).2 rfl (by decide) (by decide)
      (by decide) happly
  exact ⟨_, rel, e, happly, hrel, hget, hmode, hwins (by decide)⟩

/-- A file without permission bits is stored with the mode 0644, and the entry stored for it
beats the peer's own. -/
theorem mode_zero_beats_origin :
    ∃ e, (applyToFresh 0).2 = .ok true ∧ (applyToFresh 0).1.idx.get (ascii "f") = some e ∧
      e.mode = 0o644 ∧ wins (versionOf 0) e = true :=
  ⟨_, rfl, rfl, rfl, by decide +kernel⟩

end TailSync.AppliedVersions

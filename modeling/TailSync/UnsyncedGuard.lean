import TailSync.ApplyEffects

/-!
The guard of the apply path against files that no scan has seen. A reconcile
records regular files only, while the guard asks Stat whether anything is at the
path, so a directory, a special file or a link that leads somewhere keeps the
guard raised through every later scan. The tree here is any tree, with links.
-/
namespace TailSync.UnsyncedGuard

open ByteStrings Entries IndexMap SyncRoot RootEffects Scanning Transfers RemoteApply
open ApplyEffects MachineInts
open FileTrees (Tree Node)

def OnlyFileAt (t : Root) (p : Bytes) : Prop :=
  ∀ found, locate t true p = .ok found → ∃ f, fileAt t p = some f

/-- A section of the apply path gives the remote entry up without an error. -/
def Skips (h : Host) (d : Daemon) (re : Entry) : Prop :=
  (∃ data got, (commitContent h d re data got).2 = .ok false) ∨
  (execDeleteLive h d re).2 = .ok false ∨
  ∃ loc, liveEntry d.idx re.path = some loc ∧ (execMetaOnly h d loc re).2 = .ok false

section Sections
variable {h : Host} {d : Daemon} {re : Entry}

theorem commitContent_not_skipped (hwins : outranked (d.idx.get re.path) re = false)
    (hguard : diskUnsynced h d.root re.path (liveEntry d.idx re.path) ≠ .ok true)
    (data got : Bytes) : (commitContent h d re data got).2 ≠ .ok false := by
  have hcommits := commitContent_commits h d re data got
  generalize commitContent h d re data got = x at hcommits ⊢
  cases hcommits with
  | outranked cur why => exact absurd (beats_of_not_outranked hwins _ cur) why
  | refused => simp
  | unsynced why => exact absurd why hguard
  | unwritten => simp
  | committed => simp

theorem execDeleteLive_not_skipped (hwins : outranked (d.idx.get re.path) re = false)
    (hguard : diskUnsynced h d.root re.path (liveEntry d.idx re.path) ≠ .ok true) :
    (execDeleteLive h d re).2 ≠ .ok false := by
  have hdeletes := execDeleteLive_deletes h d re
  generalize execDeleteLive h d re = x at hdeletes ⊢
  cases hdeletes with
  | outranked cur why => exact absurd (beats_of_not_outranked hwins _ cur) why
  | refused => simp
  | unsynced why => exact absurd why hguard
  | failed => simp
  | removed => simp

theorem execMetaOnly_not_skipped {loc : Entry} (hloc : liveEntry d.idx re.path = some loc)
    (hguard : diskUnsynced h d.root re.path (liveEntry d.idx re.path) ≠ .ok true) :
    (execMetaOnly h d loc re).2 ≠ .ok false := by
  rw [hloc] at hguard
  have hadopts := execMetaOnly_adopts h d loc re
  generalize execMetaOnly h d loc re = x at hadopts ⊢
  cases hadopts with
  | refused => simp
  | unsynced why => exact absurd why hguard
  | untimed => simp
  | rolledBack => simp
  | adopted => simp

end Sections

section Reconciled
variable {cfg : Config} {sha256 : Bytes → Digest 32} {h g : Host} {d d' : Daemon} {p : Bytes}

/-- A file that the reconcile recorded does not raise the guard. -/
theorem guard_of_file (hnow : 0 < h.now) {res : ScanResult}
    (hscan : scan sha256 h.now h d.root d.idx = .ok res) (hg : g.fails .statGuard = false)
    (hp : reservedPath p = false) {f : File} (hf : fileAt d.root p = some f) :
    diskUnsynced g d.root p (liveEntry (reconcile cfg sha256 h d).1.idx p) = .ok false := by
  obtain ⟨e, he, hlive, hsize, htime, _⟩ := reconcile_recorded cfg hnow hscan ⟨hf, hp⟩
  unfold diskUnsynced
  rw [stat_file hg hf, liveEntry_eq_some.mpr ⟨he, hlive⟩]
  simp [File.info, hsize, htime]

/-- Anything else that Stat finds raises it. -/
theorem guard_of_other (hnow : 0 < h.now) {res : ScanResult}
    (hscan : scan sha256 h.now h d.root d.idx = .ok res) (hg : g.fails .statGuard = false)
    (hno : ∀ f, fileAt d.root p ≠ some f)
    {found : List FileName × Node FileName File} (hfound : locate d.root true p = .ok found) :
    diskUnsynced g d.root p (liveEntry (reconcile cfg sha256 h d).1.idx p) = .ok true := by
  have hdead : liveEntry (reconcile cfg sha256 h d).1.idx p = none := by
    rw [liveEntry_eq_none]
    intro e he
    by_contra hlive
    obtain ⟨f, hf, _⟩ := reconcile_live hnow hscan he (by simpa using hlive)
    exact hno f hf.1
  have hstat : ∃ i, stat g .statGuard d.root p = .ok i := by
    unfold stat
    rw [hg, if_neg (by simp), hfound]
    obtain ⟨q, x⟩ := found
    cases x with
    | file f => exact ⟨_, rfl⟩
    | dir => exact ⟨_, rfl⟩
    | link target => exact ⟨_, rfl⟩
    | special => exact ⟨_, rfl⟩
  obtain ⟨i, hi⟩ := hstat
  unfold diskUnsynced
  rw [hi, hdead]

/-- After a successful reconcile by a clock past the zero time the guard is lowered, and no
winning entry is skipped, exactly at the paths where Stat finds nothing or a regular file. -/
theorem guard_cleared_iff {r : Bool × List Entry} (hnow : 0 < h.now)
    (hrec : reconcile cfg sha256 h d = (d', .ok r)) (hg : g.fails .statGuard = false)
    (hp : reservedPath p = false) :
    (diskUnsynced g d'.root p (liveEntry d'.idx p) ≠ .ok true ∧
      ∀ re, re.path = p → outranked (d'.idx.get p) re = false → ¬ Skips g d' re) ↔
    OnlyFileAt d.root p := by
  have hd' : d' = (reconcile cfg sha256 h d).1 := by rw [hrec]
  have hroot : d'.root = d.root := by rw [hd', reconcile_root]
  obtain ⟨res, hscan⟩ : ∃ res, scan sha256 h.now h d.root d.idx = .ok res := by
    cases hscan : scan sha256 h.now h d.root d.idx with
    | error e =>
      rw [reconcile_failed hscan] at hrec
      exact absurd hrec (by simp)
    | ok res => exact ⟨res, rfl⟩
  constructor
  · rintro ⟨hguard, _⟩ found hfound
    by_contra hno
    rw [hroot, hd'] at hguard
    exact hguard (guard_of_other hnow hscan hg (not_exists.mp hno) hfound)
  · intro honly
    have hguard : diskUnsynced g d'.root p (liveEntry d'.idx p) ≠ .ok true := by
      rw [hroot, hd']
      by_cases hfile : ∃ f, fileAt d.root p = some f
      · obtain ⟨f, hf⟩ := hfile
        rw [guard_of_file hnow hscan hg hp hf]
        simp
      · -- nothing is there, and the guard lets a missing path pass
        cases hloc : locate d.root true p with
        | ok found => exact absurd (honly found hloc) hfile
        | error e =>
          unfold diskUnsynced stat
          rw [hg, if_neg (by simp), hloc]
          dsimp only
          split
          · simp
          · simp
    refine ⟨hguard, ?_⟩
    rintro re rfl hwins (⟨data, got, hskip⟩ | hskip | ⟨loc, hloc, hskip⟩)
    · exact commitContent_not_skipped hwins hguard data got hskip
    · exact execDeleteLive_not_skipped hwins hguard hskip
    · exact execMetaOnly_not_skipped hloc hguard hskip

end Reconciled

def leftoverDaemon : Daemon :=
  let filed := (writeFileRoot .plain .empty (ascii "a") (ascii "x") 0o644).1
  let filed := (writeFileRoot .plain filed (ascii "d/f") (ascii "y") 0o644).1
  ⟨.empty, (remove .plain filed (ascii "d/f")).1, 0, .empty⟩

theorem guard_cleared_iff_small :
    ∃ d', reconcile Config.plain Hashes.plain.sha256 .plain leftoverDaemon =
        (d', .ok (true, d'.idx.files)) ∧
      (diskUnsynced .plain d'.root (ascii "a") (liveEntry d'.idx (ascii "a")) ≠ .ok true ∧
        ∀ re, re.path = ascii "a" → outranked (d'.idx.get (ascii "a")) re = false →
          ¬ Skips .plain d' re) := by
  have hfile : fileAt leftoverDaemon.root (ascii "a") = some ⟨ascii "x", 1, 0o644⟩ := by
    decide +kernel
  refine ⟨_, rfl, ?_⟩
  exact (guard_cleared_iff (h := .plain) (by decide) rfl rfl (by decide +kernel)).mpr
    fun _ _ => ⟨_, hfile⟩

def replacement : Entry :=
  ⟨ascii "d", 1, 5, 0o644, contentHash Hashes.plain.sha256 (ascii "x"), false, 0, 7⟩

/-- After the reconcile the directory still raises the guard, and the winning entry
is given up. -/
theorem leftover_directory_unsynced :
    reservedPath (ascii "d") = false ∧
    ∃ d', reconcile Config.plain Hashes.plain.sha256 .plain leftoverDaemon =
        (d', .ok (true, d'.idx.files)) ∧
      diskUnsynced .plain d'.root (ascii "d") (liveEntry d'.idx (ascii "d")) = .ok true ∧
      outranked (d'.idx.get (ascii "d")) replacement = false ∧
      applyRemote Config.plain Hashes.plain ⟨.plain, .plain, .plain, .serving (ascii "x")⟩ d'
        replacement = (d', .ok false) :=
  ⟨by decide +kernel, _, rfl, by decide +kernel, by decide +kernel, rfl⟩

end TailSync.UnsyncedGuard

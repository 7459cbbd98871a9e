import TailSync.AppliedVersions

/-!
What an apply that returns an error leaves behind. A failed delete and a failed commit
leave index and files as they were: the temp file is removed, and at most directories
on the way to the path are new. A metadata adopt whose Chmod fails, though, is rolled
back to the values of the index, not to those of the disk, and so it restores the file
only where the two agree.
-/
namespace TailSync.FailedApplies

open ByteStrings Entries IndexMap FileTrees RelativePaths SyncRoot RootEffects Scanning
open Transfers RemoteApply ApplyEffects ObservedMeta AppliedVersions

/-- The index and all files are as before; new directories at most, and without links
in the tree only those on the way to the path. -/
structure Untouched (p : Bytes) (d d' : Daemon) : Prop where
  kept : Kept d d'
  root : Tree.Grown d.root d'.root
  parents : d.root.LinkFree → Tree.GrownBy
    (fun q => ∃ names, pathNames (clean p) = some names ∧ q <+: names.dropLast) d.root d'.root

/-- The file that a metadata adopt reaches has the mode and the modification time that
the rollback would write. -/
def Restorable (h : Host) (d : Daemon) (loc re : Entry) : Prop :=
  ∀ q f, locate d.root true re.path = .ok (q, .file f) → h.fails .statGuard = false →
    (isZero re.modTime = true ∨ h.fails .chtimes = false) →
    h.storedPerm (fileMode loc.mode) = f.perm ∧
      (isZero re.modTime = false →
        h.storedTime (if isZero loc.modTime then re.modTime else loc.modTime) = f.modTime)

theorem Untouched.of_get {p : Bytes} {d d' : Daemon} (hkept : Kept d d')
    (hget : ∀ q, d'.root.get q = d.root.get q) : Untouched p d d' :=
  ⟨hkept, fun q => Or.inl (hget q), fun _ q => Or.inl (hget q)⟩

section Failed
variable {h : Host} {d d' : Daemon} {re : Entry}

theorem execDeleteLive_failed {e : ApplyError} (hrun : execDeleteLive h d re = (d', .error e)) :
    d' = d := by
  have hdeletes := execDeleteLive_deletes h d re
  rw [hrun] at hdeletes
  cases hdeletes with
  | refused => rfl
  | failed => rfl

/-- A failed write leaves what MkdirAll made of the tree, if it came that far. -/
theorem writeFileRoot_failed {t : Root} {p data : Bytes} {mode : Mode} {e : FsError}
    (hclean : h.fails .cleanup = false) (herr : (writeFileRoot h t p data mode).2 = .error e) :
    (writeFileRoot h t p data mode).1 = t ∨
    ∃ names, pathNames (clean p) = some names ∧ ∀ q, (writeFileRoot h t p data mode).1.get q =
      (t.mkdirAll maxSymlinks names.dropLast).1.get q := by
  have hwrite := writeFileRoot_cases h t p data mode
  generalize writeFileRoot h t p data mode = x at herr hwrite
  cases hwrite with
  | refused => exact Or.inl rfl
  | unmade names mkdir => exact Or.inr ⟨_, names, fun q => by rw [List.dropLast_concat, mkdir]⟩
  | entered names mkdir write =>
    refine Or.inr ⟨_, names, ?_⟩
    rw [List.dropLast_concat, mkdir]
    cases write with
    | failed same => exact same
    | littered cleanup _ _ _ =>
      rw [hclean] at cleanup
      exact absurd cleanup (by simp)
    | written _ => exact absurd herr (by simp)

theorem commitContent_failed {data got : Bytes} {e : ApplyError}
    (hclean : h.fails .cleanup = false)
    (hrun : commitContent h d re data got = (d', .error e)) : Untouched re.path d d' := by
  have hsame : Untouched re.path d d := .of_get (Kept.refl d) fun _ => rfl
  have hcommits := commitContent_commits h d re data got
  rw [hrun] at hcommits
  cases hcommits with
  | refused => exact hsame
  | unwritten err =>
    rcases writeFileRoot_failed hclean err with heq | ⟨names, hnames, hget⟩
    · rw [heq]
      exact hsame
    · have hgrown := Tree.mkdirAll_grown (t := d.root) (p := names.dropLast)
        (r := (d.root.mkdirAll maxSymlinks names.dropLast).2) rfl
      refine ⟨⟨rfl, rfl, rfl⟩, ?_, ?_⟩
      · intro q
        rw [hget q]
        exact hgrown q
      · intro ht q
        rw [hget q]
        rcases (Tree.mkdirAll_unlinked maxSymlinks (ht.unlinked names.dropLast)).1 q with
          hq | ⟨hnone, hdir, hq⟩
        · exact Or.inl hq
        · exact Or.inr ⟨hnone, hdir, names, hnames, hq⟩

def rolledBack (h : Host) (loc re : Entry) (f : File) : File where
  bytes := f.bytes
  modTime := if isZero re.modTime then f.modTime
    else h.storedTime (if isZero loc.modTime then re.modTime else loc.modTime)
  perm := h.storedPerm (fileMode loc.mode)

section Meta
variable {loc : Entry}

theorem rollbackMeta_no_file {t : Root}
    (hno : ∀ q f, locate t true re.path ≠ .ok (q, .file f)) : rollbackMeta h t loc re = t := by
  unfold rollbackMeta chtimes chmod
  dsimp only
  split
  · rw [tryAttr_no_file hno, tryAttr_no_file hno]
  · rw [tryAttr_no_file hno]

/-- Setting the time and then rolling back, as far as the file is concerned. -/
theorem rollback_timedRoot (loc : Entry) (htimes : h.fails .rollbackTimes = false)
    (hmode : h.fails .rollbackMode = false) {q : List FileName} {f : File}
    (hloc : locate d.root true re.path = .ok (q, .file f))
    (hop : isZero re.modTime = true ∨ h.fails .chtimes = false) :
    (timedRoot h d re).2 = .ok () ∧
      Tree.FileAdded d.root (rollbackMeta h (timedRoot h d re).1 loc re) q
        (rolledBack h loc re f) := by
  unfold timedRoot rollbackMeta rolledBack chtimes chmod
  cases hzero : isZero re.modTime with
  | true => exact ⟨rfl, (tryAttr_file hmode hloc).2.1⟩
  | false =>
    have hset : h.fails .chtimes = false := hop.resolve_left (by simp [hzero])
    obtain ⟨hok, hadded, hloc1⟩ := tryAttr_file hset hloc
    refine ⟨hok, ?_⟩
    cases hprev : isZero loc.modTime with
    | true => exact hadded.trans (tryAttr_file hmode hloc1).2.1
    | false =>
      obtain ⟨_, hadded2, hloc2⟩ := tryAttr_file htimes hloc1
      exact (hadded.trans hadded2).trans (tryAttr_file hmode hloc2).2.1

/-- A Chtimes that was called and worked was not refused. -/
theorem timedRoot_ok (hok : (timedRoot h d re).2 = .ok ()) :
    isZero re.modTime = true ∨ h.fails .chtimes = false := by
  by_contra hnot
  obtain ⟨hzero, hfails⟩ := not_or.mp hnot
  rw [timedRoot, if_neg hzero, chtimes, tryAttr, if_pos (by simpa using hfails)] at hok
  exact absurd hok (by simp)

/-- The guard passes only if its Stat is not refused. -/
theorem guard_not_refused {live : Option Entry} {b : Bool}
    (hguard : diskUnsynced h d.root re.path live = .ok b) : h.fails .statGuard = false := by
  by_contra hfails
  rw [diskUnsynced, stat, if_pos (by simpa using hfails)] at hguard
  exact absurd hguard (by simp [isNotExist])

/-- The guard fails on a file only if its Stat is refused. -/
theorem guard_refused {q : List FileName} {f : File} {live : Option Entry} {e : FsError}
    (hloc : locate d.root true re.path = .ok (q, .file f))
    (hguard : diskUnsynced h d.root re.path live = .error e) : h.fails .statGuard = true := by
  by_contra hfails
  rw [diskUnsynced, stat_of_locate (by simpa using hfails) hloc] at hguard
  cases live <;> exact absurd hguard (by simp)

/-- A tree in which one file was changed is untouched if the file is the same. -/
theorem untouched_iff_file {p : Bytes} {q : List FileName} {f g : File} (hkept : Kept d d')
    (hget : d.root.get q = some (.file f)) (hadded : Tree.FileAdded d.root d'.root q g) :
    Untouched p d d' ↔ g = f := by
  constructor
  · intro huntouched
    have hsame := huntouched.root.get_of_some hget
    rw [hadded.file] at hsame
    simpa using hsame
  · rintro rfl
    refine .of_get hkept ?_
    intro q'
    by_cases hq : q' = q
    · rw [hq, hadded.file, hget]
    · exact hadded.other q' hq

theorem rolledBack_eq_iff {f : File} :
    rolledBack h loc re f = f ↔ h.storedPerm (fileMode loc.mode) = f.perm ∧
      (isZero re.modTime = false →
        h.storedTime (if isZero loc.modTime then re.modTime else loc.modTime) = f.modTime) := by
  cases f with
  | mk bytes modTime perm =>
    cases hzero : isZero re.modTime with
    | true => simp [rolledBack, hzero]
    | false => simp [rolledBack, hzero, and_comm]

theorem execMetaOnly_failed_iff (htimes : h.fails .rollbackTimes = false)
    (hmode : h.fails .rollbackMode = false) {e : ApplyError}
    (hrun : execMetaOnly h d loc re = (d', .error e)) :
    Untouched re.path d d' ↔ Restorable h d loc re := by
  have hadopts := execMetaOnly_adopts h d loc re
  rw [hrun] at hadopts
  have hsame : Untouched re.path d d := .of_get (Kept.refl d) fun _ => rfl
  by_cases hfile : ∃ q f, locate d.root true re.path = .ok (q, .file f)
  · obtain ⟨q, f, hloc⟩ := hfile
    cases hadopts with
    | refused why =>
      refine iff_of_true hsame ?_
      intro _ _ _ hstat
      rw [guard_refused hloc why] at hstat
      exact absurd hstat (by simp)
    | untimed why =>
      refine iff_of_true hsame ?_
      intro _ _ _ _ hop
      rw [(rollback_timedRoot loc htimes hmode hloc hop).1] at why
      exact absurd why (by simp)
    | rolledBack guarded timed =>
      have hop := timedRoot_ok timed
      have hadded := (rollback_timedRoot loc htimes hmode hloc hop).2
      obtain ⟨_, _, _, hget⟩ := locate_eq_ok.mp hloc
      have hkept : Kept d { d with root := rollbackMeta h (timedRoot h d re).1 loc re } :=
        ⟨rfl, rfl, rfl⟩
      rw [untouched_iff_file hkept hget hadded, rolledBack_eq_iff]
      constructor
      · intro hback q' f' hloc' _ _
        rw [hloc] at hloc'
        cases hloc'
        exact hback
      · intro hrestorable
        exact hrestorable q f hloc (guard_not_refused guarded) hop
  · have hno : ∀ q f, locate d.root true re.path ≠ .ok (q, .file f) :=
      fun q f hloc => hfile ⟨q, f, hloc⟩
    refine iff_of_true ?_ fun q f hloc => absurd hloc (hno q f)
    cases hadopts with
    | refused _ => exact hsame
    | untimed _ => exact hsame
    | rolledBack _ _ =>
      rw [timedRoot_no_file hno, rollbackMeta_no_file hno]
      exact hsame

end Meta

end Failed

/-- With clean-up and rollback working, a failed delete and a failed commit leave
everything as it was, and a failed metadata adopt does so exactly where the index holds
the mode and the time of the file it reached. -/
theorem failed_apply_untouched_iff {h : Host} (hclean : h.fails .cleanup = false)
    (htimes : h.fails .rollbackTimes = false) (hmode : h.fails .rollbackMode = false)
    (d d' : Daemon) (re : Entry) :
    (∀ e, execDeleteLive h d re = (d', .error e) → d' = d) ∧
    (∀ data got e, commitContent h d re data got = (d', .error e) → Untouched re.path d d') ∧
    (∀ loc e, execMetaOnly h d loc re = (d', .error e) →
      (Untouched re.path d d' ↔ Restorable h d loc re)) :=
  ⟨fun _ hrun => execDeleteLive_failed hrun, fun _ _ _ hrun => commitContent_failed hclean hrun,
    fun _ _ hrun => execMetaOnly_failed_iff htimes hmode hrun⟩

def refusing (op : FsOp) : Host := { Host.plain with fails := fun op' => op' == op }

def sharedFile (mode : Mode) (updatedAt : Time) : Entry :=
  ⟨ascii "a", 1, 1, mode, ascii "h", false, 0, updatedAt⟩

def chmoddedNode : Daemon where
  idx := Index.empty.set (sharedFile 0o644 9)
  root := (writeFileRoot .plain .empty (ascii "a") (ascii "x") 0o600).1
  appliesSinceSave := 0
  saved := .empty

theorem failed_rename_untouched :
    (∃ e, (commitContent (refusing .rename) chmoddedNode (sharedFile 0o640 10) (ascii "y")
        (ascii "h")).2 = .error e) ∧
      Untouched (ascii "a") chmoddedNode (commitContent (refusing .rename) chmoddedNode
        (sharedFile 0o640 10) (ascii "y") (ascii "h")).1 := by
  have herr : (commitContent (refusing .rename) chmoddedNode (sharedFile 0o640 10) (ascii "y")
      (ascii "h")).2 = .error (.write .io) := by rfl
  exact ⟨⟨_, herr⟩, (failed_apply_untouched_iff (h := refusing .rename) rfl rfl rfl
    chmoddedNode _ (sharedFile 0o640 10)).2.1 _ _ _ (Prod.ext rfl herr)⟩

/-- A file that was made private and not yet scanned becomes readable to all when the
adoption of a peer's metadata fails in its Chmod. -/
theorem failed_chmod_widens_mode :
    ((refusing .chmod).fails .cleanup = false ∧ (refusing .chmod).fails .rollbackTimes = false ∧
      (refusing .chmod).fails .rollbackMode = false) ∧
    ∃ d' e, execMetaOnly (refusing .chmod) chmoddedNode (sharedFile 0o644 9)
        (sharedFile 0o640 10) = (d', .error e) ∧
      fileAt chmoddedNode.root (ascii "a") = some ⟨ascii "x", 1, 0o600⟩ ∧
      fileAt d'.root (ascii "a") = some ⟨ascii "x", 1, 0o644⟩ := by
  refine ⟨⟨rfl, rfl, rfl⟩, _, _, rfl, ?_, ?_⟩
  · decide +kernel
  · decide +kernel

end TailSync.FailedApplies

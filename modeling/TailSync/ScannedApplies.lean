import TailSync.AppliedVersions

/-!
What a scan makes of a remote apply. The daemon writes through os.Root, which follows
links, and the scan walks the tree, which does not. A version from a peer that was
written to its own path is not taken for a local change: the scan finds the size, the
time and the mode that were stored. A version that was written through a link is out of
sight of the walk, and the scan records its deletion.
-/
namespace TailSync.ScannedApplies

open ByteStrings Entries IndexMap SyncRoot RootEffects Scanning MachineInts Transfers RemoteApply
open ApplyEffects ApplyRuns ObservedMeta AppliedVersions
open FileTrees (Tree Node)
open RelativePaths (CleanPath cleanRel)

/-- The live entries are the files a walk records, with their size, time, mode and hash. -/
structure Agrees (sha256 : Bytes → Digest 32) (t : Root) (idx : Index) : Prop where
  recorded : ∀ p f, Recorded t p f → ∃ e, liveEntry idx p = some e ∧ e.size = f.bytes.length ∧
    e.modTime = f.modTime ∧ e.mode = perm f.perm ∧ e.hash = contentHash sha256 f.bytes
  live : ∀ p e, liveEntry idx p = some e → ∃ f, Recorded t p f

def ThroughLink (t : Root) (p : Bytes) : Prop :=
  ∃ names q target, pathNames p = some names ∧ q <+: names ∧ q ≠ names ∧
    t.get q = some (.link target)

section Scan
variable {sha256 : Bytes → Digest 32} {now : Time} {h : Host} {t : Root} {idx : Index} {p : Bytes}
  {res : ScanResult}

/-- A file that looks as its live entry says is passed over. -/
theorem no_change_of_recorded (hscan : scan sha256 now h t idx = .ok res) {f : File} {e : Entry}
    (hf : Recorded t p f) (he : liveEntry idx p = some e) (hsize : e.size = f.bytes.length)
    (htime : e.modTime = f.modTime) (hmode : e.mode = perm f.perm) (hhash : e.hash ≠ []) :
    ∀ c ∈ res.changes, c.path ≠ p := by
  obtain ⟨hget, hlive⟩ := liveEntry_eq_some.mp he
  rintro c hc rfl
  rcases (mem_changes hscan).mp hc with ⟨q, g, hg, hc⟩ | ⟨prev, hprev, hc⟩
  · obtain ⟨_, hpath⟩ := diskChange_spec hc
    rw [hpath] at hf hget
    have hfg : g = f := Option.some.inj (hg.1.symm.trans hf.1)
    subst hfg
    have hprev : idx.get q = some e := hget
    have hkept : diskHash sha256 idx q g = e.hash := by
      simp only [diskHash, hprev]
      rw [if_pos ⟨hlive, hsize, htime, hhash⟩]
    simp [diskChange, diskEntry, hprev, hlive, hkept, hsize, htime, hmode] at hc
  · obtain ⟨_, hunseen, hpath, _⟩ := tombChange_spec hc
    obtain ⟨_, hdisk, _⟩ := scan_ok hscan
    rw [hpath] at hf
    refine hunseen (diskEntry sha256 now idx prev.path f) ?_ rfl
    rw [hdisk]
    exact List.mem_map.mpr ⟨(prev.path, f), mem_walk.mpr hf, rfl⟩

/-- Where the walk records nothing and nothing is live there is nothing to do. -/
theorem no_change_of_dead (hscan : scan sha256 now h t idx = .ok res)
    (hf : ∀ f, ¬ Recorded t p f) (he : liveEntry idx p = none) : ∀ c ∈ res.changes, c.path ≠ p := by
  rintro c hc rfl
  rcases (mem_changes hscan).mp hc with ⟨q, g, hg, hc⟩ | ⟨prev, hprev, hc⟩
  · rw [(diskChange_spec hc).2] at hf
    exact hf g hg
  · obtain ⟨hlive, _, hpath, _⟩ := tombChange_spec hc
    rw [hpath] at he
    have hdead := liveEntry_eq_none.mp he prev (Index.get_of_mem hprev)
    rw [hlive] at hdead
    exact absurd hdead (by simp)

/-- A live entry whose file the walk does not record is recorded as deleted. -/
theorem change_of_unseen (hscan : scan sha256 now h t idx = .ok res)
    (hf : ∀ f, ¬ Recorded t p f) {e : Entry} (he : liveEntry idx p = some e) :
    ∃ c ∈ res.changes, c.path = p ∧ c.kind = .deleted := by
  obtain ⟨hget, hlive⟩ := liveEntry_eq_some.mp he
  obtain ⟨_, hdisk, _⟩ := scan_ok hscan
  have hpath : e.path = p := Index.get_path hget
  have hunseen : (res.disk.any fun de => de.path == e.path) = false := by
    rw [List.any_eq_false]
    intro de hde heq
    rw [hdisk] at hde
    obtain ⟨⟨q, f⟩, hqf, rfl⟩ := List.mem_map.mp hde
    have hq : q = p := (by simpa [diskEntry] using heq : q = e.path).trans hpath
    exact hf f (hq ▸ mem_walk.mp hqf)
  have hchange : ∃ c, tombChange now res.disk e = some c ∧ c.path = e.path ∧
      c.kind = .deleted := by
    simp [tombChange, hlive, hunseen]
  obtain ⟨c, hc, hcpath, hkind⟩ := hchange
  exact ⟨c, (mem_changes hscan).mpr (Or.inr ⟨e, Index.get_mem hget, hc⟩), hcpath.trans hpath, hkind⟩

end Scan

section Written
variable {h : Host} {d : Daemon} {re : Entry} {data : Bytes}

/-- Above a recorded file there are directories. -/
theorem dir_above_file {t : Root} {p : Bytes} {f : File} (hf : fileAt t p = some f)
    {q rest : List FileName} (hnames : pathNames p = some (q ++ rest)) (hne : q ≠ q ++ rest) :
    t.get q = some .dir := by
  obtain ⟨names, hnames', hget⟩ := Option.bind_eq_some_iff.mp (fileAt_eq_some.mp hf)
  rw [hnames] at hnames'
  cases hnames'
  have hrest : rest ≠ [] := by
    rintro rfl
    exact hne (by simp)
  exact t.get_prefix q rest hrest (by rw [hget]; rfl)

/-- A recorded file lies behind no link. -/
theorem not_throughLink {t : Root} {p : Bytes} {f : File} (hf : fileAt t p = some f) :
    ¬ ThroughLink t p := by
  rintro ⟨names, q, target, hnames, ⟨rest, rfl⟩, hne, hlink⟩
  have hdir := dir_above_file hf hnames hne
  rw [hlink] at hdir
  exact absurd hdir (by simp)

/-- Written to a path that no link is on, the file is there. -/
theorem committed_in_place (hp : CleanPath re.path)
    (hok : (writeFileRoot h d.root re.path data (fileMode re.mode)).2 = .ok ())
    (hno : ¬ ThroughLink d.root re.path) :
    fileAt (committedRoot h d re data) re.path = some (writtenFile h re data) := by
  obtain ⟨parent, base, dir, t₁, f, hnames, hmkdir, hadded, _, hfound⟩ :=
    committedRoot_added hp hok
  have hway : d.root.Unlinked parent := by
    intro q target hq hlink
    refine hno ⟨_, q, target, hnames, hq.trans (List.prefix_append _ _), ?_, hlink⟩
    rintro rfl
    have hlen := hq.length_le
    simp at hlen
  have hdir : dir = parent := ((Tree.mkdirAll_unlinked maxSymlinks hway).2 dir (by rw [hmkdir])).1
  subst hdir
  have hfile : fileAt (committedRoot h d re data) re.path = some f :=
    fileAt_eq_some.mpr (by simp [nodeAt, hnames, hadded.file])
  obtain ⟨q, _, hloc⟩ := locate_file true hfile
  rw [hfile, (hfound _ _ hloc).2.2]

/-- Written through a link, it is not at its own path. -/
theorem committed_elsewhere (hp : CleanPath re.path)
    (hok : (writeFileRoot h d.root re.path data (fileMode re.mode)).2 = .ok ())
    (hlink : ThroughLink d.root re.path) (f : File) :
    fileAt (committedRoot h d re data) re.path ≠ some f := by
  obtain ⟨names, q, target, hnames, ⟨rest, rfl⟩, hne, hq⟩ := hlink
  obtain ⟨parent, base, dir, t₁, g, _, hmkdir, hadded, _, _⟩ := committedRoot_added hp hok
  exact fun hf => hadded.link_not_dir (Tree.mkdirAll_grown hmkdir) hq
    (dir_above_file hf hnames hne)

/-- A recorded file that is removed is gone. -/
theorem removed_gone {t : Root} {p : Bytes} {f : File} (hf : fileAt t p = some f)
    (hgone : ∀ e, (remove h t p).2 = .error e → isNotExist e = true) :
    fileAt (remove h t p).1 p = none := by
  obtain ⟨q, hq, hloc⟩ := locate_file false hf
  obtain ⟨_, _, _, hget⟩ := locate_eq_ok.mp hloc
  obtain ⟨t', herase⟩ := Option.isSome_iff_exists.mp (Tree.erase_file_isSome hget)
  unfold remove at hgone ⊢
  by_cases hop : h.fails .remove = true
  · rw [if_pos hop] at hgone
    exact absurd (hgone .io rfl) (by simp [isNotExist])
  · rw [if_neg hop, hloc]
    simp only [herase]
    rw [fileAt_eq_asFile]
    simp [nodeAt, hq, Tree.get_erase herase, Node.asFile]

end Written

section Rescan
variable {sha256 : Bytes → Digest 32} {now : Time} {h g : Host} {d d' : Daemon} {re : Entry}
  {res : ScanResult}

/-- A stored tombstone where the walk records nothing is left alone. -/
theorem tombstone_not_rescanned (hscan : scan sha256 now g d'.root d'.idx = .ok res)
    (hdel : re.deleted = true) (hidx : d'.idx = d.idx.set re)
    (hfile : ∀ f, ¬ Recorded d'.root re.path f) : ∀ c ∈ res.changes, c.path ≠ re.path := by
  refine no_change_of_dead hscan hfile (liveEntry_eq_none.mpr ?_)
  intro e he
  rw [Index.get_of_set hidx rfl] at he
  cases he
  exact hdel

/-- Adopted metadata are what the scan finds. -/
theorem adopted_not_rescanned (hexact : h.Exact) (hmode : perm re.mode = re.mode)
    (hagrees : Agrees sha256 d.root d.idx) (hhash : re.hash ≠ []) {loc : Entry}
    (hlive : liveEntry d.idx re.path = some loc) (hsame : loc.hash = re.hash)
    (hguard : diskUnsynced h d.root re.path (some loc) = .ok false)
    (htimed : (timedRoot h d re).2 = .ok ())
    (hmoded : (chmod h .chmod (timedRoot h d re).1 re.path (fileMode re.mode)).2 = .ok ())
    (hroot : d'.root = (chmod h .chmod (timedRoot h d re).1 re.path (fileMode re.mode)).1)
    (hidx : d'.idx = d.idx.set (adoptedEntry loc re
      (diskMeta h d'.root re.path (fileMode re.mode) re.modTime loc.modTime)))
    (hscan : scan sha256 now g d'.root d'.idx = .ok res) :
    ∀ c ∈ res.changes, c.path ≠ re.path := by
  obtain ⟨hget, halive⟩ := liveEntry_eq_some.mp hlive
  have hpath : loc.path = re.path := Index.get_path hget
  obtain ⟨f, hf, hplain⟩ := hagrees.live _ _ hlive
  obtain ⟨e, he, hsize, htime, _⟩ := hagrees.recorded _ _ ⟨hf, hplain⟩
  rw [hlive] at he
  cases he
  have hfile := tryAttr_fileAt (timedRoot_fileAt htimed hf) hmoded
  rw [← chmod, ← hroot] at hfile
  rw [hroot, adopted_observed hexact hmode hguard htimed hmoded] at hidx
  refine no_change_of_recorded hscan ⟨hfile, hplain⟩
    (liveEntry_eq_some.mpr ⟨Index.get_of_set hidx hpath, halive⟩) hsize ?_ ?_ ?_
  · simp only [adoptedEntry, htime, hexact.storedTime]
  · simp only [adoptedEntry, hexact.storedPerm, perm_fileMode hmode]
  · simpa only [adoptedEntry, hsame] using hhash

/-- Committed bytes are taken for a deletion exactly when they went through a link. -/
theorem committed_not_rescanned_iff (hexact : h.Exact) (hmode : perm re.mode = re.mode)
    (hstamp : re.modTime = 0 → h.writeTime ≠ 0) (hclean : CleanPath re.path)
    (hlive : re.deleted = false) (hhash : re.hash ≠ []) {data got : Bytes} (hgot : got = re.hash)
    (hwritten : (writeFileRoot h d.root re.path data (fileMode re.mode)).2 = .ok ())
    (hroot : d'.root = committedRoot h d re data)
    (hidx : d'.idx = d.idx.set (committedEntry h re data got
      (diskMeta h d'.root re.path (fileMode re.mode) re.modTime (fallbackTime d.idx re))))
    (hscan : scan sha256 now g d'.root d'.idx = .ok res) :
    (∀ c ∈ res.changes, c.path ≠ re.path) ↔ ¬ ThroughLink d.root re.path := by
  have hstored := liveEntry_eq_some.mpr ⟨Index.get_of_set hidx rfl, hlive⟩
  constructor
  · intro hno hlink
    obtain ⟨c, hc, hpath, _⟩ := change_of_unseen hscan
      (fun f hf => committed_elsewhere hclean hwritten hlink f (hroot ▸ hf.1)) hstored
    exact hno c hc hpath
  · intro hno
    have hf := committed_in_place hclean hwritten hno
    obtain ⟨q, _, hloc⟩ := locate_file true hf
    have hmeta : diskMeta h (committedRoot h d re data) re.path (fileMode re.mode) re.modTime
        (fallbackTime d.idx re) = (fileMode re.mode, (writtenFile h re data).modTime) := by
      rw [diskMeta_of_stat (stat_of_locate (hexact.statAfter _ _) hloc) hmode
        (hexact.storedPerm _)]
      simp only [infoOf, File.info, Prod.mk.injEq, true_and]
      refine if_neg fun hfalls => ?_
      simp only [isZero, Bool.and_eq_true, beq_iff_eq] at hfalls
      refine hstamp hfalls.1.1 ?_
      simpa [writtenFile, isZero, hfalls.1.1] using hfalls.1.2
    rw [← hroot] at hf hmeta
    refine no_change_of_recorded hscan ⟨hf, hclean.not_reserved⟩ hstored ?_ ?_ ?_ ?_
    · simp only [committedEntry, writtenFile]
    · simp only [committedEntry, hmeta]
    · simp only [committedEntry, hmeta, writtenFile, hexact.storedPerm, perm_fileMode hmode]
    · simpa only [committedEntry, hgot] using hhash

end Rescan

/-- After an apply that reported a change, a scan leaves the path alone exactly when the
version was a deletion or no link was on the way to the path. -/
theorem applied_not_rescanned_iff {cfg : Config} {hs : Hashes} {env : ApplyEnv} {d d' : Daemon}
    {remote : Entry} {rel : Bytes} (hdecide : env.decideHost.Exact)
    (hcommit : env.commitHost.Exact) (hmode : perm remote.mode = remote.mode)
    (hstamp : remote.modTime = 0 → env.decideHost.writeTime ≠ 0 ∧ env.commitHost.writeTime ≠ 0)
    (hagrees : Agrees hs.sha256 d.root d.idx) (hrel : cleanRel remote.path = .ok rel)
    (happly : applyRemote cfg hs env d remote = (d', .ok true)) {now : Time} {g : Host}
    {res : ScanResult} (hscan : scan hs.sha256 now g d'.root d'.idx = .ok res) :
    (∀ c ∈ res.changes, c.path ≠ rel) ↔ remote.deleted = true ∨ ¬ ThroughLink d.root rel := by
  obtain ⟨h, rel', content, hhost, hrel', hclean, hhash, happlied, hver⟩ :=
    applyRemote_applied happly
  rw [hrel] at hrel'
  cases hrel'
  obtain ⟨hexact, hstamp⟩ : h.Exact ∧ (remote.modTime = 0 → h.writeTime ≠ 0) := by
    rcases hhost with rfl | rfl
    · exact ⟨hdecide, fun hzero => (hstamp hzero).1⟩
    · exact ⟨hcommit, fun hzero => (hstamp hzero).2⟩
  have hnohash : remote.deleted = false → remote.hash ≠ [] := fun hlive hnil => hhash ⟨hlive, hnil⟩
  cases happlied with
  | tombstoned deleted dead root idx =>
    refine iff_of_true (tombstone_not_rescanned hscan deleted idx ?_) (Or.inl deleted)
    intro f hf
    rw [root] at hf
    obtain ⟨e, he, _⟩ := hagrees.recorded _ _ hf
    rw [dead] at he
    exact absurd he (by simp)
  | removed deleted live _ root gone idx =>
    refine iff_of_true (tombstone_not_rescanned hscan deleted idx ?_) (Or.inl deleted)
    intro f hf
    obtain ⟨g, hg, _⟩ := hagrees.live _ _ live
    have hnone := removed_gone hg gone
    rw [← root, hf.1] at hnone
    exact absurd hnone (by simp)
  | adopted alive live hash _ guarded timed moded root idx =>
    obtain ⟨f, hf, _⟩ := hagrees.live _ _ live
    refine iff_of_true ?_ (Or.inr (not_throughLink hf))
    exact @adopted_not_rescanned _ now h g d d' { remote with path := rel } res hexact hmode hagrees
      (hnohash alive) _ live hash guarded timed moded root idx hscan
  | @committed data got bytes _ written root idx =>
    obtain ⟨hlive, _, hgot, _⟩ := hver data got bytes
    have hiff := @committed_not_rescanned_iff _ now h g d d' { remote with path := rel } res hexact
      hmode hstamp hclean hlive (hnohash hlive) _ _ hgot written root idx hscan
    rw [hiff]
    simp [show remote.deleted = false from hlive]

theorem agrees_empty {sha256 : Bytes → Digest 32} {t : Root} (hwalk : walk t = []) :
    Agrees sha256 t .empty := by
  refine ⟨fun p f hf => ?_, fun p e he => absurd he (by simp [liveEntry])⟩
  have hmem := mem_walk.mpr hf
  rw [hwalk] at hmem
  exact absurd hmem (by simp)

def linkedDaemon : Daemon :=
  let linked := do
    let target ← fileName (ascii "e")
    let names ← pathNames (ascii "d")
    (Tree.empty.mkdirAll maxSymlinks [target]).1.put names (.link (some [.down target]))
  ⟨.empty, linked.getD .empty, 0, .empty⟩

def peerFile (path : Bytes) : Entry :=
  ⟨path, 1, 5, 0o600, contentHash Hashes.plain.sha256 (ascii "x"), false, 0, 7⟩

def applyLinked (path : Bytes) : Daemon × Outcome ApplyError Bool :=
  applyRemote Config.plain Hashes.plain (servingEnv (ascii "x")) linkedDaemon (peerFile path)

theorem linkedDaemon_agrees :
    Agrees Hashes.plain.sha256 linkedDaemon.root linkedDaemon.idx :=
  agrees_empty rfl

theorem applied_not_rescanned_iff_small :
    ∃ d' res, applyLinked (ascii "e/x") = (d', .ok true) ∧
      scan Hashes.plain.sha256 1 .plain d'.root d'.idx = .ok res ∧
      ((∀ c ∈ res.changes, c.path ≠ ascii "e/x") ↔
        (peerFile (ascii "e/x")).deleted = true ∨
          ¬ ThroughLink linkedDaemon.root (ascii "e/x")) := by
  have happly : applyLinked (ascii "e/x") = ((applyLinked (ascii "e/x")).1, .ok true) := rfl
  refine ⟨_, _, happly, rfl, ?_⟩
  exact applied_not_rescanned_iff (g := .plain) (servingEnv_exact _).1 (servingEnv_exact _).2
    (by decide) (by decide) linkedDaemon_agrees (by decide +kernel) happly rfl

/-- Written through the link, the file is taken for deleted, and a tombstone newer than the
peer's version is stamped. -/
theorem linked_file_tombstoned :
    Agrees Hashes.plain.sha256 linkedDaemon.root linkedDaemon.idx ∧
    (applyLinked (ascii "d/x")).2 = .ok true ∧
    ∃ res c, scan Hashes.plain.sha256 1 .plain (applyLinked (ascii "d/x")).1.root
        (applyLinked (ascii "d/x")).1.idx = .ok res ∧
      c ∈ res.changes ∧ c.path = ascii "d/x" ∧ c.entry.deleted = true ∧
      wins (peerFile (ascii "d/x")) c.entry = true := by
  refine ⟨linkedDaemon_agrees, rfl, _, _, rfl, List.mem_cons_of_mem _ List.mem_cons_self, ?_, ?_,
    ?_⟩ <;> decide +kernel

end TailSync.ScannedApplies

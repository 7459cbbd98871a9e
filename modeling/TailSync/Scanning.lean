import TailSync.IndexMap
import TailSync.RootEffects

/-!
The scan of internal/scan/scan.go and the reconcile step of daemon/reconcile.go.
A scan walks the tree, reuses the recorded hash of a file whose size and
modification time match its live entry, and reports additions, modifications
and deletions stamped past everything the index holds. The two maps of the scan
are gone through in whatever order the runtime picks. Applying the changes is a
fold of SetIfWins; because every change beats the entry it replaces and no path
is changed twice, the fold amounts to writing each change under its path.
-/
namespace TailSync.Scanning

open ByteStrings Entries IndexMap FileTrees RelativePaths SyncRoot RootEffects

inductive ChangeKind where
  | added
  | modified
  | deleted
  deriving DecidableEq, Repr

structure Change where
  kind : ChangeKind
  path : Bytes
  entry : Entry
  deriving DecidableEq, Repr

structure ScanResult where
  changes : List Change
  disk : List Entry

inductive ScanError where
  | cancelled
  | walk
  deriving DecidableEq, Repr

def stampUpdatedAt (now modTime prevUpdated : Time) : Time :=
  let t := if modTime > now then modTime else now
  if isZero prevUpdated then t
  else if t < prevUpdated + 1 then prevUpdated + 1 else t

def reservedPath (p : Bytes) : Bool := (elements p).any isReservedComponent

/-- The scan's callback on one node: only regular files are recorded, and none
whose name or one of whose directories is reserved. -/
def walkNode (e : List FileName × Node FileName File) : Option (Bytes × File) :=
  match e.2 with
  | .file f => if reservedPath (pathOf e.1) then none else some (pathOf e.1, f)
  | _ => none

def walk (t : Root) : List (Bytes × File) := t.entries.filterMap walkNode

def walkFails (t : Root) : Bool :=
  t.entries.any fun e =>
    Node.isDir (some e.2) && !reservedPath (pathOf e.1) && !validPath (pathOf e.1)

def prevUpdated (idx : Index) (path : Bytes) : Time :=
  match idx.get path with
  | some prev => prev.updatedAt
  | none => 0

/-- The hash of a file on disk, taken over from the index when size and
modification time match. -/
def diskHash (sha256 : Bytes → Digest 32) (idx : Index) (path : Bytes) (f : File) : Bytes :=
  match idx.get path with
  | some prev =>
      if prev.deleted = false ∧ prev.size = f.bytes.length ∧ prev.modTime = f.modTime ∧
          prev.hash ≠ [] then prev.hash
      else contentHash sha256 f.bytes
  | none => contentHash sha256 f.bytes

def diskEntry (sha256 : Bytes → Digest 32) (now : Time) (idx : Index) (path : Bytes) (f : File) :
    Entry where
  path := path
  size := f.bytes.length
  modTime := f.modTime
  mode := perm f.perm
  hash := diskHash sha256 idx path f
  deleted := false
  deletedAt := 0
  updatedAt := stampUpdatedAt now f.modTime (prevUpdated idx path)

def diskChange (now : Time) (idx : Index) (de : Entry) : Option Change :=
  match idx.get de.path with
  | none =>
      some ⟨.added, de.path, { de with updatedAt := stampUpdatedAt now de.modTime 0 }⟩
  | some prev =>
      let entry := { de with updatedAt := stampUpdatedAt now de.modTime prev.updatedAt }
      if prev.deleted then some ⟨.added, de.path, entry⟩
      else if prev.hash ≠ de.hash ∨ prev.size ≠ de.size ∨ prev.mode ≠ de.mode ∨
          prev.modTime ≠ de.modTime then
        if prev.hash = de.hash ∧ prev.size = de.size then
          some ⟨.modified, de.path, { entry with hash := prev.hash, size := prev.size }⟩
        else some ⟨.modified, de.path, entry⟩
      else none

def tombChange (now : Time) (disk : List Entry) (prev : Entry) : Option Change :=
  if prev.deleted then none
  else if disk.any fun de => de.path == prev.path then none
  else some ⟨.deleted, prev.path,
    { prev with
      deleted := true
      deletedAt := now
      updatedAt := stampUpdatedAt now 0 prev.updatedAt
      size := 0
      hash := [] }⟩

def scanChanges (now : Time) (h : Host) (idx : Index) (disk : List Entry) : List Change :=
  (h.mapOrder disk).filterMap (diskChange now idx) ++
    (h.mapOrder idx.files).filterMap (tombChange now disk)

/-- Scan with the clock of its options, which are otherwise the default ones. -/
def scan (sha256 : Bytes → Digest 32) (now : Time) (h : Host) (t : Root) (idx : Index) :
    Except ScanError ScanResult :=
  if h.cancelled then .error .cancelled
  else if h.fails .scan || walkFails t then .error .walk
  else
    let disk := (walk t).map fun e => diskEntry sha256 now idx e.1 e.2
    .ok ⟨scanChanges now h idx disk, disk⟩

def apply : Index → List Change → Index × List Entry
  | idx, [] => (idx, [])
  | idx, c :: rest =>
      let stored := idx.setIfWins c.entry
      let applied := apply stored.1 rest
      (applied.1, if stored.2 then c.entry :: applied.2 else applied.2)

/-- The state of one node that reconcile and apply share under syncMu. -/
structure Daemon where
  idx : Index
  root : Root
  appliesSinceSave : ℕ
  saved : Index

structure Config where
  dirs : List Bytes
  dirs_element : ∀ e ∈ dirs, IsElement e
  maxFileBytes : ℤ
  blockSize : ℕ
  tombstoneTTL : ℤ

def Config.dir (cfg : Config) : Bytes := absPath cfg.dirs

def Config.plain : Config where
  dirs := [ascii "sync"]
  dirs_element := by decide
  maxFileBytes := 1024
  blockSize := 4
  tombstoneTTL := 0

inductive ReconcileError where
  | scan (e : ScanError)
  | saveIndex
  deriving DecidableEq, Repr

def reconcile (cfg : Config) (sha256 : Bytes → Digest 32) (h : Host) (d : Daemon) :
    Daemon × Except ReconcileError (Bool × List Entry) :=
  match scan sha256 h.now h d.root d.idx with
  | .error e => (d, .error (.scan e))
  | .ok res =>
      let applied := apply d.idx res.changes
      let collected := applied.1.gcTombstones h.gcNow cfg.tombstoneTTL
      let d' := { d with idx := collected.1 }
      if applied.2.length > 0 ∨ collected.2 > 0 ∨ d.appliesSinceSave > 0 then
        if h.fails .save then (d', .error .saveIndex)
        else ({ d' with appliesSinceSave := 0, saved := collected.1 },
          .ok (decide (applied.2.length > 0), applied.2))
      else (d', .ok (decide (applied.2.length > 0), applied.2))

/-- A stamp is not before the clock, and strictly after the stamp it replaces. -/
theorem stampUpdatedAt_bounds {now : Time} (hnow : 0 < now) (modTime prev : Time) :
    now ≤ stampUpdatedAt now modTime prev ∧ prev < stampUpdatedAt now modTime prev := by
  have hlater : now ≤ if modTime > now then modTime else now := by
    split <;> linarith
  unfold stampUpdatedAt isZero
  generalize (if modTime > now then modTime else now) = t at hlater
  by_cases hprev : prev = 0
  · simp only [hprev, beq_self_eq_true, if_true]
    exact ⟨hlater, by linarith⟩
  · simp only [beq_iff_eq, hprev, if_false]
    by_cases hnext : t < prev + 1
    · rw [if_pos hnext]
      constructor <;> linarith
    · rw [if_neg hnext]
      constructor <;> linarith

theorem lt_stampUpdatedAt {now : Time} (hnow : 0 < now) (modTime prev : Time) :
    prev < stampUpdatedAt now modTime prev := (stampUpdatedAt_bounds hnow modTime prev).2

/-- A file the walk records: a regular file under no reserved name. -/
def Recorded (t : Root) (p : Bytes) (f : File) : Prop :=
  fileAt t p = some f ∧ reservedPath p = false

theorem reservedPath_pathOf {p : Bytes} {names : List FileName}
    (hnames : pathNames p = some names) :
    reservedPath p = true ↔ Reserved names := by
  unfold reservedPath Reserved
  rw [← elements_of_pathNames hnames]
  simp

theorem not_reserved_of_path {p : Bytes} (hp : reservedPath p = false) :
    ∀ names, pathNames p = some names → ¬ Reserved names := by
  intro names hnames hres
  rw [(reservedPath_pathOf hnames).mpr hres] at hp
  exact absurd hp (by simp)

theorem reservedPath_of_clean {p : Bytes} (hp : CleanPath p) : reservedPath p = false :=
  hp.not_reserved

theorem walkNode_eq_some {e : List FileName × Node FileName File} {p : Bytes} {f : File} :
    walkNode e = some (p, f) ↔ e.2 = .file f ∧ reservedPath p = false ∧ p = pathOf e.1 := by
  obtain ⟨names, x⟩ := e
  cases x with
  | file g =>
    by_cases hres : reservedPath (pathOf names) = true
    · simp only [walkNode, hres, if_true, Node.file.injEq]
      constructor
      · intro h
        exact absurd h (by simp)
      · rintro ⟨_, hfalse, rfl⟩
        rw [hres] at hfalse
        exact absurd hfalse (by simp)
    · simp only [walkNode, hres, Node.file.injEq]
      constructor
      · intro h
        cases h
        exact ⟨rfl, by simpa using hres, rfl⟩
      · rintro ⟨rfl, _, rfl⟩
        rfl
  | dir => simp [walkNode]
  | link target => simp [walkNode]
  | special => simp [walkNode]

theorem mem_walk {t : Root} {p : Bytes} {f : File} : (p, f) ∈ walk t ↔ Recorded t p f := by
  simp only [walk, List.mem_filterMap, Recorded, walkNode_eq_some]
  constructor
  · rintro ⟨⟨names, x⟩, hmem, rfl, hres, rfl⟩
    obtain ⟨hne, hget⟩ := Tree.mem_entries.mp hmem
    refine ⟨fileAt_eq_some.mpr ?_, hres⟩
    simp [nodeAt, pathNames_pathOf hne, hget]
  · rintro ⟨hfile, hres⟩
    obtain ⟨names, hnames, hget⟩ := Option.bind_eq_some_iff.mp (fileAt_eq_some.mp hfile)
    obtain ⟨hpath, hne⟩ := pathOf_of_pathNames hnames
    exact ⟨(names, .file f), Tree.mem_entries.mpr ⟨hne, hget⟩, rfl, hres, hpath.symm⟩

theorem pathOf_injective {a b : List FileName} (ha : a ≠ []) (hb : b ≠ [])
    (h : pathOf a = pathOf b) : a = b := by
  have hnames := pathNames_pathOf ha
  rw [h, pathNames_pathOf hb] at hnames
  exact (Option.some.inj hnames).symm

/-- The walk records no path twice. -/
theorem walk_nodup (t : Root) : ((walk t).map Prod.fst).Nodup := by
  have hentries := List.pairwise_map.mp t.entries_nodup
  rw [List.Nodup, List.pairwise_map, walk, List.pairwise_filterMap]
  refine hentries.imp_of_mem ?_
  rintro a b ha hb hab ⟨p, f⟩ hp ⟨q, g⟩ hq rfl
  obtain ⟨_, _, hpa⟩ := walkNode_eq_some.mp hp
  obtain ⟨_, _, hpb⟩ := walkNode_eq_some.mp hq
  exact hab (pathOf_injective (Tree.mem_entries.mp ha).1 (Tree.mem_entries.mp hb).1
    (hpa.symm.trans hpb))

/-- The hash is computed, or taken over from a live entry of that size and time. -/
theorem diskHash_cases (sha256 : Bytes → Digest 32) (idx : Index) (p : Bytes) (f : File) :
    diskHash sha256 idx p f = contentHash sha256 f.bytes ∨
    ∃ prev, idx.get p = some prev ∧ prev.deleted = false ∧ prev.size = f.bytes.length ∧
      prev.modTime = f.modTime ∧ diskHash sha256 idx p f = prev.hash := by
  unfold diskHash
  cases hget : idx.get p with
  | none => exact Or.inl rfl
  | some prev =>
    dsimp only
    split_ifs with hsame
    · exact Or.inr ⟨prev, rfl, hsame.1, hsame.2.1, hsame.2.2.1, rfl⟩
    · exact Or.inl rfl

section Changes
variable {sha256 : Bytes → Digest 32} {now : Time} {h : Host} {t : Root} {idx : Index}

theorem diskChange_spec {de : Entry} {c : Change}
    (hc : diskChange now idx de = some c) :
    c.entry = { de with updatedAt := stampUpdatedAt now de.modTime (prevUpdated idx de.path) } ∧
      c.path = de.path := by
  unfold diskChange at hc
  unfold prevUpdated
  cases hget : idx.get de.path with
  | none =>
    simp only [hget, Option.some.injEq] at hc
    subst hc
    exact ⟨rfl, rfl⟩
  | some prev =>
    simp only [hget] at hc
    split_ifs at hc with hdel hdiff hsame
    · cases hc
      exact ⟨rfl, rfl⟩
    · cases hc
      obtain ⟨hhash, hsize⟩ := hsame
      simp [hhash, hsize]
    · cases hc
      exact ⟨rfl, rfl⟩

theorem diskChange_none {de : Entry} (hc : diskChange now idx de = none) :
    ∃ prev, idx.get de.path = some prev ∧ prev.deleted = false ∧ prev.hash = de.hash ∧
      prev.size = de.size ∧ prev.mode = de.mode ∧ prev.modTime = de.modTime := by
  unfold diskChange at hc
  cases hget : idx.get de.path with
  | none => simp [hget] at hc
  | some prev =>
    simp only [hget] at hc
    split_ifs at hc with hdel hdiff
    simp only [not_or, not_not] at hdiff
    exact ⟨prev, rfl, by simpa using hdel, hdiff⟩

theorem tombChange_spec {disk : List Entry} {prev : Entry} {c : Change}
    (hc : tombChange now disk prev = some c) :
    prev.deleted = false ∧ (∀ de ∈ disk, de.path ≠ prev.path) ∧ c.path = prev.path ∧
      c.entry = { prev with
        deleted := true, deletedAt := now, updatedAt := stampUpdatedAt now 0 prev.updatedAt,
        size := 0, hash := [] } := by
  unfold tombChange at hc
  split_ifs at hc with hdel hany
  cases hc
  refine ⟨by simpa using hdel, ?_, rfl, rfl⟩
  intro de hde heq
  exact hany (List.any_eq_true.mpr ⟨de, hde, by simp [heq]⟩)

/-- The successful scan, taken apart. -/
theorem scan_ok {res : ScanResult} (hscan : scan sha256 now h t idx = .ok res) :
    walkFails t = false ∧
      res.disk = (walk t).map (fun e => diskEntry sha256 now idx e.1 e.2) ∧
      res.changes = scanChanges now h idx res.disk := by
  unfold scan at hscan
  split_ifs at hscan with hcancel hfail
  cases hscan
  rw [Bool.or_eq_true, not_or] at hfail
  exact ⟨by simpa using hfail.2, rfl, rfl⟩

/-- Every change is a recorded file with its new stamp, or the tombstone of a
live entry that the walk did not see. -/
theorem mem_changes {res : ScanResult} (hscan : scan sha256 now h t idx = .ok res) {c : Change} :
    c ∈ res.changes ↔
      (∃ p f, Recorded t p f ∧ diskChange now idx (diskEntry sha256 now idx p f) = some c) ∨
      (∃ prev ∈ idx.files, tombChange now res.disk prev = some c) := by
  obtain ⟨_, hdisk, hchanges⟩ := scan_ok hscan
  rw [hchanges, scanChanges, List.mem_append]
  refine or_congr ?_ ?_
  · simp only [List.mem_filterMap, (h.mapOrder_perm _).mem_iff, hdisk, List.mem_map, Prod.exists]
    constructor
    · rintro ⟨de, ⟨p, f, hpf, rfl⟩, hc⟩
      exact ⟨p, f, mem_walk.mp hpf, hc⟩
    · rintro ⟨p, f, hpf, hc⟩
      exact ⟨_, ⟨p, f, mem_walk.mpr hpf, rfl⟩, hc⟩
  · simp only [List.mem_filterMap, (h.mapOrder_perm _).mem_iff]

/-- Every change is stamped strictly after the entry the index holds. -/
theorem change_stamp (hnow : 0 < now) {res : ScanResult}
    (hscan : scan sha256 now h t idx = .ok res) {c : Change} (hc : c ∈ res.changes) {e : Entry} (he : idx.get c.entry.path = some e) :
    e.updatedAt < c.entry.updatedAt := by
  rcases (mem_changes hscan).mp hc with ⟨p, f, _, hc⟩ | ⟨prev, hprev, hc⟩
  · obtain ⟨hentry, _⟩ := diskChange_spec hc
    rw [hentry] at he ⊢
    have hupd : prevUpdated idx p = e.updatedAt := by
      unfold prevUpdated
      rw [show idx.get p = some e from he]
    rw [← hupd]
    exact lt_stampUpdatedAt hnow _ _
  · obtain ⟨_, _, _, hentry⟩ := tombChange_spec hc
    rw [hentry] at he ⊢
    have hsame : e = prev := by
      have hget := Index.get_of_mem hprev
      exact Option.some.inj (he.symm.trans hget)
    rw [hsame]
    exact lt_stampUpdatedAt hnow _ _

/-- Every entry a scan stamps beats the entry the index holds. -/
theorem change_wins (hnow : 0 < now) {res : ScanResult}
    (hscan : scan sha256 now h t idx = .ok res) {c : Change} (hc : c ∈ res.changes) {e : Entry}
    (he : idx.get c.entry.path = some e) : wins e c.entry := by
  have hstamp := change_stamp hnow hscan hc he
  simp [wins, hstamp]

private theorem filterMap_paths_nodup {entries : List Entry}
    (hnd : (entries.map Entry.path).Nodup) {change : Entry → Option Change}
    (hpath : ∀ e c, change e = some c → c.entry.path = e.path) :
    ((entries.filterMap change).map fun c => c.entry.path).Nodup := by
  rw [List.Nodup, List.pairwise_map, List.pairwise_filterMap]
  refine (List.pairwise_map.mp hnd).imp ?_
  intro a b hab c hc d hd
  rw [hpath a c hc, hpath b d hd]
  exact hab

theorem disk_nodup {res : ScanResult} (hscan : scan sha256 now h t idx = .ok res) :
    (res.disk.map Entry.path).Nodup := by
  obtain ⟨_, hdisk, _⟩ := scan_ok hscan
  have hpaths : (Entry.path ∘ fun e : Bytes × File => diskEntry sha256 now idx e.1 e.2) =
      Prod.fst := rfl
  rw [hdisk, List.map_map, hpaths]
  exact walk_nodup t

/-- No path is changed twice. -/
theorem changes_nodup {res : ScanResult} (hscan : scan sha256 now h t idx = .ok res) :
    (res.changes.map fun c => c.entry.path).Nodup := by
  obtain ⟨_, _, hchanges⟩ := scan_ok hscan
  have hdisk : ∀ e c, diskChange now idx e = some c → c.entry.path = e.path := by
    intro e c hc
    rw [(diskChange_spec hc).1]
  have htomb : ∀ e c, tombChange now res.disk e = some c → c.entry.path = e.path := by
    intro e c hc
    rw [(tombChange_spec hc).2.2.2]
  rw [hchanges, scanChanges, List.map_append, List.nodup_append]
  refine ⟨?_, ?_, ?_⟩
  · exact filterMap_paths_nodup
      (((h.mapOrder_perm _).map Entry.path).nodup_iff.mpr (disk_nodup hscan)) hdisk
  · exact filterMap_paths_nodup
      (((h.mapOrder_perm _).map Entry.path).nodup_iff.mpr idx.nodup) htomb
  · -- a tombstone is made only for a path the walk did not record
    intro p hp q hq
    obtain ⟨c, hc, rfl⟩ := List.mem_map.mp hp
    obtain ⟨c', hc', rfl⟩ := List.mem_map.mp hq
    obtain ⟨de, hde, hcde⟩ := List.mem_filterMap.mp hc
    obtain ⟨prev, _, hcprev⟩ := List.mem_filterMap.mp hc'
    rw [hdisk de c hcde, htomb prev c' hcprev]
    exact (tombChange_spec hcprev).2.1 de ((h.mapOrder_perm _).mem_iff.mp hde)

/-- Applying changes that beat what they replace, at distinct paths, writes each
of them under its path. -/
theorem get_apply (idx : Index) {changes : List Change}
    (hnd : (changes.map fun c => c.entry.path).Nodup)
    (hwins : ∀ c ∈ changes, ∀ e, idx.get c.entry.path = some e → wins e c.entry) :
    (∀ c ∈ changes, (apply idx changes).1.get c.entry.path = some c.entry) ∧
    (∀ p, (∀ c ∈ changes, c.entry.path ≠ p) → (apply idx changes).1.get p = idx.get p) ∧
    (apply idx changes).2 = changes.map Change.entry := by
  induction changes generalizing idx with
  | nil => exact ⟨by simp, fun p _ => rfl, rfl⟩
  | cons c rest ih =>
    obtain ⟨hnotin, hnd'⟩ := List.nodup_cons.mp hnd
    have hstored : idx.setIfWins c.entry = (idx.set c.entry, true) := by
      rcases Index.setIfWins_cases idx c.entry with ⟨heq, _⟩ | ⟨_, loc, hloc, hnot⟩
      · exact heq
      · exact absurd (hwins c (by simp) loc hloc) hnot
    have hne : ∀ c' ∈ rest, c'.entry.path ≠ c.entry.path := by
      intro c' hc' heq
      exact hnotin (List.mem_map.mpr ⟨c', hc', heq⟩)
    obtain ⟨ihmem, ihother, ihapplied⟩ := ih (idx.set c.entry) hnd' (by
      intro c' hc' e he
      rw [Index.get_set_of_ne idx c.entry (hne c' hc')] at he
      exact hwins c' (by simp [hc']) e he)
    simp only [apply, hstored, if_true, ihapplied, List.map_cons, and_true]
    refine ⟨?_, ?_⟩
    · intro c' hc'
      rcases List.mem_cons.mp hc' with rfl | hrest
      · rw [ihother _ hne]
        exact Index.get_set_self idx c'.entry
      · exact ihmem c' hrest
    · intro p hp
      rw [ihother p fun c' hc' => hp c' (by simp [hc'])]
      exact Index.get_set_of_ne idx c.entry (hp c (by simp)).symm

/-- Changes none of which is stored leave the index as it is. -/
theorem apply_of_none {idx : Index} {changes : List Change} (hnone : (apply idx changes).2 = []) :
    (apply idx changes).1 = idx := by
  induction changes generalizing idx with
  | nil => rfl
  | cons c rest ih =>
    simp only [apply] at hnone ⊢
    rcases Index.setIfWins_cases idx c.entry with ⟨heq, _⟩ | ⟨heq, _⟩
    · rw [heq] at hnone
      exact absurd hnone (by simp)
    · rw [heq] at hnone ⊢
      exact ih hnone

/-- Whatever the changes are, a path has its old entry or one of them afterwards. -/
theorem get_apply_cases (idx : Index) (changes : List Change) (p : Bytes) :
    (apply idx changes).1.get p = idx.get p ∨
      ∃ c ∈ changes, c.entry.path = p ∧ (apply idx changes).1.get p = some c.entry := by
  induction changes generalizing idx with
  | nil => exact Or.inl rfl
  | cons c rest ih =>
    rcases ih (idx.setIfWins c.entry).1 with hsame | ⟨c', hc', hpath, hget⟩
    · have hhead : (apply idx (c :: rest)).1.get p = (idx.setIfWins c.entry).1.get p := hsame
      rcases Index.setIfWins_cases idx c.entry with ⟨heq, _⟩ | ⟨heq, _⟩
      · by_cases hp : c.entry.path = p
        · subst hp
          refine Or.inr ⟨c, by simp, rfl, ?_⟩
          rw [hhead, heq]
          exact Index.get_set_self idx c.entry
        · rw [hhead, heq]
          exact Or.inl (Index.get_set_of_ne idx c.entry (Ne.symm hp))
      · rw [hhead, heq]
        exact Or.inl rfl
    · exact Or.inr ⟨c', by simp [hc'], hpath, hget⟩

/-- What the index holds for a path after the changes of a scan are applied. -/
theorem get_apply_scan (hnow : 0 < now) {res : ScanResult}
    (hscan : scan sha256 now h t idx = .ok res) (p : Bytes) :
    (∃ c ∈ res.changes, c.entry.path = p ∧ (apply idx res.changes).1.get p = some c.entry) ∨
    ((∀ c ∈ res.changes, c.entry.path ≠ p) ∧
      (apply idx res.changes).1.get p = idx.get p) := by
  obtain ⟨hmem, hother, _⟩ := get_apply idx (changes_nodup hscan)
    (fun c hc e he => change_wins hnow hscan hc he)
  by_cases hp : ∃ c ∈ res.changes, c.entry.path = p
  · obtain ⟨c, hc, rfl⟩ := hp
    exact Or.inl ⟨c, hc, rfl, hmem c hc⟩
  · have hnone : ∀ c ∈ res.changes, c.entry.path ≠ p := by
      intro c hc heq
      exact hp ⟨c, hc, heq⟩
    exact Or.inr ⟨hnone, hother p hnone⟩

/-- After a scan is applied, a recorded file has a live entry with its size,
modification time, permission bits and hash. -/
theorem get_apply_recorded (hnow : 0 < now) {res : ScanResult}
    (hscan : scan sha256 now h t idx = .ok res) {p : Bytes} {f : File} (hf : Recorded t p f) :
    ∃ e, (apply idx res.changes).1.get p = some e ∧ e.deleted = false ∧
      e.size = f.bytes.length ∧ e.modTime = f.modTime ∧ e.mode = perm f.perm ∧
      e.hash = diskHash sha256 idx p f := by
  obtain ⟨_, hdisk, _⟩ := scan_ok hscan
  rcases get_apply_scan hnow hscan p with ⟨c, hc, hpath, hget⟩ | ⟨hnone, hget⟩
  · refine ⟨c.entry, hget, ?_⟩
    rcases (mem_changes hscan).mp hc with ⟨q, g, hg, hcq⟩ | ⟨prev, _, hcprev⟩
    · obtain ⟨hentry, _⟩ := diskChange_spec hcq
      rw [hentry] at hpath ⊢
      have hqp : q = p := hpath
      subst hqp
      have hfg : g = f := Option.some.inj (hg.1.symm.trans hf.1)
      subst hfg
      exact ⟨rfl, rfl, rfl, rfl, rfl⟩
    · obtain ⟨_, hnot, _, hentry⟩ := tombChange_spec hcprev
      rw [hentry] at hpath
      refine absurd hpath.symm (hnot (diskEntry sha256 now idx p f) ?_)
      rw [hdisk]
      exact List.mem_map.mpr ⟨(p, f), mem_walk.mpr hf, rfl⟩
  · -- no change was reported, so the live entry already agrees with the file
    have hquiet : diskChange now idx (diskEntry sha256 now idx p f) = none := by
      cases hc : diskChange now idx (diskEntry sha256 now idx p f) with
      | none => rfl
      | some c =>
        refine absurd ?_ (hnone c ((mem_changes hscan).mpr (Or.inl ⟨p, f, hf, hc⟩)))
        rw [(diskChange_spec hc).1]
        rfl
    obtain ⟨prev, hprev, hlive, hhash, hsize, hmode, htime⟩ := diskChange_none hquiet
    exact ⟨prev, hget.trans hprev, hlive, hsize, htime, hmode, hhash⟩

/-- After a scan is applied, a path without a recorded file has no live entry. -/
theorem get_apply_unrecorded (hnow : 0 < now) {res : ScanResult}
    (hscan : scan sha256 now h t idx = .ok res) {p : Bytes} (hp : ∀ f, ¬ Recorded t p f) {e : Entry}
    (he : (apply idx res.changes).1.get p = some e) : e.deleted = true := by
  obtain ⟨_, hdisk, _⟩ := scan_ok hscan
  rcases get_apply_scan hnow hscan p with ⟨c, hc, hpath, hget⟩ | ⟨hnone, hget⟩
  · have hec : e = c.entry := Option.some.inj (he.symm.trans hget)
    subst hec
    rcases (mem_changes hscan).mp hc with ⟨q, g, hg, hcq⟩ | ⟨prev, _, hcprev⟩
    · rw [(diskChange_spec hcq).1] at hpath
      have hqp : q = p := hpath
      subst hqp
      exact absurd hg (hp g)
    · rw [(tombChange_spec hcprev).2.2.2]
  · rw [hget] at he
    obtain ⟨hmem, rfl⟩ := Index.get_eq_some_iff.mp he
    by_contra hlive
    -- a live entry that the walk did not see would have been reported
    have htomb : ∃ c, tombChange now res.disk e = some c := by
      unfold tombChange
      rw [if_neg hlive, if_neg]
      · exact ⟨_, rfl⟩
      · intro hany
        obtain ⟨de, hde, heq⟩ := List.any_eq_true.mp hany
        rw [hdisk] at hde
        obtain ⟨⟨q, g⟩, hqg, rfl⟩ := List.mem_map.mp hde
        have hqe : q = e.path := by simpa [diskEntry] using heq
        exact hp g (hqe ▸ mem_walk.mp hqg)
    obtain ⟨c, hc⟩ := htomb
    refine hnone c ((mem_changes hscan).mpr (Or.inr ⟨e, hmem, hc⟩)) ?_
    rw [(tombChange_spec hc).2.2.2]

end Changes

/-- Collecting tombstones keeps live entries and adds nothing. -/
theorem gcTombstones_cases (idx : Index) (now : Time) (ttl : ℤ) (p : Bytes) :
    (idx.gcTombstones now ttl).1.get p = idx.get p ∨
      ((idx.gcTombstones now ttl).1.get p = none ∧
        ∃ e, idx.get p = some e ∧ e.deleted = true) := by
  rw [Index.get_gcTombstones]
  cases hget : idx.get p with
  | none => exact Or.inl rfl
  | some e =>
    by_cases hexp : (!(decide (0 < ttl) && Index.expired (now - ttl) e)) = true
    · exact Or.inl (by rw [Option.filter_some, if_pos hexp])
    · refine Or.inr ⟨by rw [Option.filter_some, if_neg hexp], e, rfl, ?_⟩
      simp only [Bool.not_eq_true, Bool.not_eq_false', Bool.and_eq_true, Index.expired] at hexp
      exact hexp.2.1.1

section Reconcile
variable {cfg : Config} {sha256 : Bytes → Digest 32} {h : Host} {d : Daemon} {p : Bytes}

theorem reconcile_root (cfg : Config) (sha256 : Bytes → Digest 32) (h : Host) (d : Daemon) :
    (reconcile cfg sha256 h d).1.root = d.root := by
  unfold reconcile
  cases scan sha256 h.now h d.root d.idx with
  | error e => rfl
  | ok res =>
    dsimp only
    split
    · split
      · rfl
      · rfl
    · rfl

theorem reconcile_failed {e : ScanError} (hscan : scan sha256 h.now h d.root d.idx = .error e) :
    reconcile cfg sha256 h d = (d, .error (.scan e)) := by
  unfold reconcile
  rw [hscan]

/-- The index after a scan that succeeds, whether or not it could be saved. -/
theorem reconcile_idx {res : ScanResult} (hscan : scan sha256 h.now h d.root d.idx = .ok res) :
    (reconcile cfg sha256 h d).1.idx =
      ((apply d.idx res.changes).1.gcTombstones h.gcNow cfg.tombstoneTTL).1 := by
  unfold reconcile
  rw [hscan]
  dsimp only
  split
  · split
    · rfl
    · rfl
  · rfl

/-- After a reconcile, a recorded file has a live entry with its size,
modification time, permission bits and hash. -/
theorem reconcile_recorded (cfg : Config) (hnow : 0 < h.now) {res : ScanResult}
    (hscan : scan sha256 h.now h d.root d.idx = .ok res)
    {f : File} (hf : Recorded d.root p f) :
    ∃ e, (reconcile cfg sha256 h d).1.idx.get p = some e ∧ e.deleted = false ∧
      e.size = f.bytes.length ∧ e.modTime = f.modTime ∧ e.mode = perm f.perm ∧
      e.hash = diskHash sha256 d.idx p f := by
  obtain ⟨e, hget, hlive, hrest⟩ := get_apply_recorded hnow hscan hf
  refine ⟨e, ?_, hlive, hrest⟩
  rw [reconcile_idx hscan]
  rcases gcTombstones_cases (apply d.idx res.changes).1 h.gcNow cfg.tombstoneTTL p with
    hkept | ⟨_, e', hget', hdel⟩
  · rw [hkept, hget]
  · rw [hget] at hget'
    cases hget'
    rw [hlive] at hdel
    exact absurd hdel (by simp)

/-- After a reconcile, a live entry is that of a recorded file. -/
theorem reconcile_live (hnow : 0 < h.now) {res : ScanResult}
    (hscan : scan sha256 h.now h d.root d.idx = .ok res) {e : Entry}
    (he : (reconcile cfg sha256 h d).1.idx.get p = some e) (hlive : e.deleted = false) :
    ∃ f, Recorded d.root p f ∧ e.size = f.bytes.length ∧ e.modTime = f.modTime ∧
      e.mode = perm f.perm ∧ e.hash = diskHash sha256 d.idx p f := by
  by_cases hp : ∃ f, Recorded d.root p f
  · obtain ⟨f, hf⟩ := hp
    obtain ⟨e', he', _, hrest⟩ := reconcile_recorded cfg hnow hscan hf
    rw [he] at he'
    cases he'
    exact ⟨f, hf, hrest⟩
  · rw [reconcile_idx hscan] at he
    rcases gcTombstones_cases (apply d.idx res.changes).1 h.gcNow cfg.tombstoneTTL p with
      hkept | ⟨hgone, _⟩
    · rw [hkept] at he
      have hdel := get_apply_unrecorded hnow hscan (fun f hf => hp ⟨f, hf⟩) he
      rw [hlive] at hdel
      exact absurd hdel (by simp)
    · rw [hgone] at he
      exact absurd he (by simp)

/-- Whatever the clock, an entry after a reconcile was there before, or is one of the
changes of the scan. -/
theorem reconcile_entry {res : ScanResult} (hscan : scan sha256 h.now h d.root d.idx = .ok res)
    {e : Entry} (he : (reconcile cfg sha256 h d).1.idx.get p = some e) :
    d.idx.get p = some e ∨ ∃ c ∈ res.changes, c.entry.path = p ∧ c.entry = e := by
  rw [reconcile_idx hscan] at he
  rcases gcTombstones_cases (apply d.idx res.changes).1 h.gcNow cfg.tombstoneTTL p with
    hkept | ⟨hgone, _⟩
  · rw [hkept] at he
    rcases get_apply_cases d.idx res.changes p with hsame | ⟨c, hc, hpath, hget⟩
    · exact Or.inl (hsame.symm.trans he)
    · exact Or.inr ⟨c, hc, hpath, Option.some.inj (hget.symm.trans he)⟩
  · rw [hgone] at he
    exact absurd he (by simp)

/-- Whatever the clock, a live entry after a reconcile was there before, or is that of a
recorded file. -/
theorem reconcile_live_cases {res : ScanResult}
    (hscan : scan sha256 h.now h d.root d.idx = .ok res) {e : Entry}
    (he : (reconcile cfg sha256 h d).1.idx.get p = some e) (hlive : e.deleted = false) :
    d.idx.get p = some e ∨ ∃ f, Recorded d.root p f ∧ e.size = f.bytes.length ∧
      e.modTime = f.modTime ∧ e.mode = perm f.perm ∧ e.hash = diskHash sha256 d.idx p f := by
  rcases reconcile_entry hscan he with hold | ⟨c, hc, hpath, rfl⟩
  · exact Or.inl hold
  · right
    rcases (mem_changes hscan).mp hc with ⟨q, f, hf, hcq⟩ | ⟨prev, _, hcprev⟩
    · rw [(diskChange_spec hcq).1] at hpath ⊢
      have hqp : q = p := hpath
      subst hqp
      exact ⟨f, hf, rfl, rfl, rfl, rfl⟩
    · rw [(tombChange_spec hcprev).2.2.2] at hlive
      exact absurd hlive (by simp)

end Reconcile

end TailSync.Scanning

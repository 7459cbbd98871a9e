import TailSync.IndexRestarts
import TailSync.LinkWalks
import TailSync.RootEffects
import TailSync.Runs
import TailSync.Scanning

/-!
WriteFileRoot and WriteFile of internal/atomicfile/atomicfile.go, one system call at a time,
and what is on the disk when the process or the machine stops between two of them or in the
middle of one. Directory operations reach the disk in their order. The bytes of a file are
only there for certain once Sync has returned. A stop leaves the tree as it was but for new
directories and the temp file beside the target, or it leaves the finished tree.
-/
namespace TailSync.CrashWrites

open ByteStrings Entries IndexMap FileTrees RelativePaths SyncRoot RootEffects Scanning Runs
open IndexFiles (IndexJson diskFormat save load RoundTrips roundTrips_iff)
open IndexRestarts (codecOf codecOf_keeps scannedJson)

/-- What is to be written: the directory, the name in it, the bytes and the mode. The system
follows so many links on the way to the directory. -/
structure Job where
  links : ℕ
  parent : List FileName
  base : FileName
  data : Bytes
  mode : Mode

def Job.file (h : Host) (job : Job) : File := ⟨job.data, h.writeTime, h.storedPerm job.mode⟩

def writeJob (h : Host) (t : Root) (job : Job) : Root × Except FsError Unit :=
  if h.fails .mkdir then (t, .error .io)
  else match t.mkdirAll job.links job.parent with
    | (t1, .error e) => (t1, .error (.lookup e))
    | (t1, .ok dir) => writeInDir h t1 dir job.base job.data job.mode

def rootJob (name data : Bytes) (mode : Mode) : Option Job :=
  let mode := if mode = 0 then 0o644 else mode
  let cleaned := clean name
  if cleaned = dot ∨ cleaned.head? = some slash ∨ validPath cleaned = false ∨
      isLocal cleaned = false then none
  else match pathNames cleaned with
    | none => none
    | some names => names.getLast?.map fun base => ⟨maxSymlinks, names.dropLast, base, data, mode⟩

theorem writeFileRoot_job {h : Host} {t : Root} {name data : Bytes} {mode : Mode} {job : Job}
    (hjob : rootJob name data mode = some job) :
    writeFileRoot h t name data mode = writeJob h t job := by
  unfold rootJob at hjob
  dsimp only at hjob
  split at hjob
  · exact absurd hjob (by simp)
  · rename_i hvalid
    split at hjob
    · exact absurd hjob (by simp)
    · rename_i names hnames
      obtain ⟨base, hbase, rfl⟩ := Option.map_eq_some_iff.mp hjob
      unfold writeFileRoot
      rw [if_neg hvalid, hnames]
      dsimp only
      rw [hbase]
      rfl

inductive Stage where
  | write | chmod | sync | close | rename
  deriving DecidableEq, Repr

def Stage.op : Stage → FsOp
  | .write => .write
  | .chmod => .chmodTemp
  | .sync => .sync
  | .close => .close
  | .rename => .rename

inductive Phase where
  | mkdir
  | create (dir : List FileName)
  | opened (dir tmp : List FileName) (stage : Stage)
  | cleanup (tmp : List FileName) (e : FsError)
  | done (r : Except FsError Unit)

/-- A tree that a directory operation made, with the place of the new file in it. -/
structure Shot where
  tree : Root
  fresh : Option (List FileName)

/-- A write in progress: the tree that the system shows, whether the new file has been synced,
and the trees that the disk may be at. -/
structure Writing where
  root : Root
  phase : Phase
  synced : Bool
  past : List Shot

def begun (t : Root) : Writing := ⟨t, .mkdir, false, [⟨t, none⟩]⟩

inductive Call where
  | mkdir | create | write | chmod | sync | close | rename | remove
  deriving DecidableEq, Repr

def Partway (t t1 t' : Root) : Prop := ∀ q, t'.get q = t.get q ∨ t'.get q = t1.get q

/-- One system call of a write that began with the tree t, or a part of one that takes time. -/
inductive WriteStep (h : Host) (t : Root) (job : Job) : Writing → Call → Writing → Prop
  | mkdirRefused {s : Writing} (now : s.phase = .mkdir) (fails : h.fails .mkdir = true) :
      WriteStep h t job s .mkdir { s with phase := .done (.error .io) }
  | mkdirSome {s : Writing} {t1 t' : Root} {r : Except Tree.LookupError (List FileName)}
      (now : s.phase = .mkdir) (works : h.fails .mkdir = false)
      (all : t.mkdirAll job.links job.parent = (t1, r)) (part : Partway t t1 t') :
      WriteStep h t job s .mkdir { s with root := t', past := ⟨t', none⟩ :: s.past }
  | mkdirFailed {s : Writing} {t1 : Root} {e : Tree.LookupError}
      (now : s.phase = .mkdir) (works : h.fails .mkdir = false)
      (all : t.mkdirAll job.links job.parent = (t1, .error e)) :
      WriteStep h t job s .mkdir
        { s with root := t1, phase := .done (.error (.lookup e)), past := ⟨t1, none⟩ :: s.past }
  | mkdirDone {s : Writing} {t1 : Root} {dir : List FileName}
      (now : s.phase = .mkdir) (works : h.fails .mkdir = false)
      (all : t.mkdirAll job.links job.parent = (t1, .ok dir)) :
      WriteStep h t job s .mkdir
        { s with root := t1, phase := .create dir, past := ⟨t1, none⟩ :: s.past }
  | createFailed {s : Writing} {dir : List FileName} {e : FsError} (now : s.phase = .create dir)
      (create : createTempRoot h s.root dir = .error e) :
      WriteStep h t job s .create { s with phase := .done (.error e) }
  | created {s : Writing} {dir tmp : List FileName} {t1 : Root} (now : s.phase = .create dir)
      (create : createTempRoot h s.root dir = .ok (t1, tmp)) :
      WriteStep h t job s .create
        { s with root := t1, phase := .opened dir tmp .write, past := ⟨t1, some tmp⟩ :: s.past }
  -- a Write that stops early has written some of the bytes
  | writeSome {s : Writing} {dir tmp : List FileName} {n : ℕ} {t' : Root}
      (now : s.phase = .opened dir tmp .write)
      (put : s.root.put tmp (.file ⟨job.data.take n, h.writeTime, 0o600⟩) = some t') :
      WriteStep h t job s .write { s with root := t' }
  | failed {s : Writing} {dir tmp : List FileName} {stage : Stage} {c : Call}
      (now : s.phase = .opened dir tmp stage) (fails : h.fails stage.op = true) :
      WriteStep h t job s c { s with phase := .cleanup tmp .io }
  | written {s : Writing} {dir tmp : List FileName} {t' : Root}
      (now : s.phase = .opened dir tmp .write) (works : h.fails .write = false)
      (put : s.root.put tmp (.file ⟨job.data, h.writeTime, 0o600⟩) = some t') :
      WriteStep h t job s .write { s with root := t', phase := .opened dir tmp .chmod }
  | chmodded {s : Writing} {dir tmp : List FileName} {t' : Root}
      (now : s.phase = .opened dir tmp .chmod) (works : h.fails .chmodTemp = false)
      (put : s.root.put tmp (.file (job.file h)) = some t') :
      WriteStep h t job s .chmod { s with root := t', phase := .opened dir tmp .sync }
  | synced {s : Writing} {dir tmp : List FileName}
      (now : s.phase = .opened dir tmp .sync) (works : h.fails .sync = false) :
      WriteStep h t job s .sync { s with phase := .opened dir tmp .close, synced := true }
  | closed {s : Writing} {dir tmp : List FileName}
      (now : s.phase = .opened dir tmp .close) (works : h.fails .close = false) :
      WriteStep h t job s .close { s with phase := .opened dir tmp .rename }
  | renameBlocked {s : Writing} {dir tmp : List FileName} {f : File}
      (now : s.phase = .opened dir tmp .rename) (works : h.fails .rename = false)
      (holds : s.root.get tmp = some (.file f))
      (rename : renameTemp s.root tmp (dir ++ [job.base]) f = none) :
      WriteStep h t job s .rename { s with phase := .cleanup tmp .isDir }
  | renamed {s : Writing} {dir tmp : List FileName} {f : File} {t' : Root}
      (now : s.phase = .opened dir tmp .rename) (works : h.fails .rename = false)
      (holds : s.root.get tmp = some (.file f))
      (rename : renameTemp s.root tmp (dir ++ [job.base]) f = some t') :
      WriteStep h t job s .rename
        { s with
          root := t', phase := .done (.ok ()), past := ⟨t', some (dir ++ [job.base])⟩ :: s.past }
  -- the deferred Remove of the temp file
  | tempLeft {s : Writing} {tmp : List FileName} {e : FsError} (now : s.phase = .cleanup tmp e)
      (fails : h.fails .cleanup = true) :
      WriteStep h t job s .remove { s with phase := .done (.error e) }
  | tempRemoved {s : Writing} {tmp : List FileName} {e : FsError} {t' : Root}
      (now : s.phase = .cleanup tmp e) (works : h.fails .cleanup = false)
      (erase : s.root.erase tmp = some t') :
      WriteStep h t job s .remove
        { s with root := t', phase := .done (.error e), past := ⟨t', none⟩ :: s.past }

/-- What can be found after a stop. When the process is killed, the tree that the system
shows; when the power fails, a tree of some time ago, in which the new file has any bytes at
all unless it had been synced. -/
inductive Survives (s : Writing) : Root → Prop
  | killed : Survives s s.root
  | powerFailed {shot : Shot} (past : shot ∈ s.past) : Survives s shot.tree
  | torn {shot : Shot} {q : List FileName} {f : File} {t' : Root} (past : shot ∈ s.past)
      (fresh : shot.fresh = some q) (unsynced : s.synced = false)
      (put : shot.tree.put q (.file f) = some t') : Survives s t'

def Job.made (job : Job) (t : Root) : Root := (t.mkdirAll job.links job.parent).1

def Job.temp (h : Host) (job : Job) (t : Root) : Option (List FileName) :=
  match t.mkdirAll job.links job.parent with
  | (_, .error _) => none
  | (t1, .ok dir) =>
      match createTempRoot h t1 dir with
      | .error _ => none
      | .ok (_, tmp) => some tmp

/-- Nothing of the tree is lost, and what is new is a directory that MkdirAll makes or the
temp file. -/
def Extends (h : Host) (job : Job) (t t' : Root) : Prop :=
  ∀ q, t'.get q = t.get q ∨ t.get q = none ∧
    (t'.get q = some .dir ∧ (job.made t).get q = some .dir ∨
      job.temp h t = some q ∧ ∃ f, t'.get q = some (.file f))

section Growth
variable {h : Host} {job : Job} {t t1 t' : Root} {tmp : List FileName}

theorem temp_eq {t2 : Root} {dir : List FileName}
    (hall : t.mkdirAll job.links job.parent = (t1, .ok dir))
    (hcreate : createTempRoot h t1 dir = .ok (t2, tmp)) : job.temp h t = some tmp := by
  simp [Job.temp, hall, hcreate]

/-- The temp file has a reserved name, and is new. -/
theorem temp_spec (htemp : job.temp h t = some tmp) :
    ∃ t1 dir n, t.mkdirAll job.links job.parent = (t1, .ok dir) ∧ tmp = dir ++ [n] ∧
      isReservedComponent n.bytes = true ∧ t.get tmp = none := by
  unfold Job.temp at htemp
  split at htemp
  · exact absurd htemp (by simp)
  · rename_i t1 dir hall
    split at htemp
    · exact absurd htemp (by simp)
    · rename_i hcreate
      cases htemp
      obtain ⟨hnone, _, ⟨n, hn, hres⟩, _⟩ := createTempRoot_ok hcreate
      refine ⟨t1, dir, n, hall, hn, hres, ?_⟩
      rcases Tree.mkdirAll_grown hall _ with heq | ⟨hold, _⟩
      · rw [← heq, hnone]
      · exact hold

theorem temp_reserved (htemp : job.temp h t = some tmp) : Reserved tmp := by
  obtain ⟨_, _, n, _, rfl, hres, _⟩ := temp_spec htemp
  exact ⟨n, by simp, hres⟩

theorem Extends.refl (h : Host) (job : Job) (t : Root) : Extends h job t t := fun _ => Or.inl rfl

theorem Extends.of_partway {r : Except Tree.LookupError (List FileName)}
    (hall : t.mkdirAll job.links job.parent = (t1, r)) (hpart : Partway t t1 t') :
    Extends h job t t' := by
  have hmade : job.made t = t1 := by rw [Job.made, hall]
  intro q
  rw [hmade]
  rcases hpart q with hq | hq
  · exact Or.inl hq
  · rw [hq]
    rcases Tree.mkdirAll_grown hall q with heq | ⟨hnone, hdir, _⟩
    · exact Or.inl heq
    · exact Or.inr ⟨hnone, Or.inl ⟨hdir, hdir⟩⟩

theorem mkdirAll_extends {r : Except Tree.LookupError (List FileName)}
    (hall : t.mkdirAll job.links job.parent = (t1, r)) : Extends h job t t1 :=
  .of_partway hall fun _ => Or.inr rfl

/-- The temp file may take any contents. -/
theorem Extends.put_temp {f : File} (hext : Extends h job t t1) (htemp : job.temp h t = some tmp)
    (hput : t1.put tmp (.file f) = some t') : Extends h job t t' := by
  obtain ⟨_, _, _, _, _, _, hnone⟩ := temp_spec htemp
  intro q
  rw [Tree.get_put hput]
  by_cases hq : q = tmp
  · subst hq
    exact Or.inr ⟨hnone, Or.inr ⟨htemp, f, by simp⟩⟩
  · rw [if_neg hq]
    exact hext q

theorem Extends.erase_temp (hext : Extends h job t t1) (htemp : job.temp h t = some tmp)
    (herase : t1.erase tmp = some t') : Extends h job t t' := by
  obtain ⟨_, _, _, _, _, _, hnone⟩ := temp_spec htemp
  intro q
  rw [Tree.get_erase herase]
  split
  · rename_i hq
    exact Or.inl (hq ▸ hnone).symm
  · exact hext q

theorem Extends.fileAt (hext : Extends h job t t') {q : List FileName} (hq : ¬ Reserved q) :
    t'.fileAt q = t.fileAt q := by
  unfold Tree.fileAt
  rcases hext q with heq | ⟨hnone, ⟨hdir, _⟩ | ⟨htemp, _⟩⟩
  · rw [heq]
  · rw [hnone, hdir]
    rfl
  · exact absurd (temp_reserved htemp) hq

/-- What Scan records is the same in both trees. -/
theorem Extends.recorded (hext : Extends h job t t') (p : Bytes) (f : File) :
    Recorded t' p f ↔ Recorded t p f := by
  unfold Recorded SyncRoot.fileAt
  refine and_congr_left fun hres => ?_
  cases hnames : pathNames p with
  | none => rfl
  | some names =>
    simp only [Option.bind_some, hext.fileAt (not_reserved_of_path hres names hnames)]

end Growth

structure Temp (h : Host) (t : Root) (job : Job) (dir tmp : List FileName) (t1 t2 root : Root)
    (f : File) : Prop where
  works : h.fails .mkdir = false
  all : t.mkdirAll job.links job.parent = (t1, .ok dir)
  create : createTempRoot h t1 dir = .ok (t2, tmp)
  put : t1.put tmp (.file f) = some root

def Stage.passed : Stage → List FsOp
  | .write => []
  | .chmod => [.write]
  | .sync => [.write, .chmodTemp]
  | .close => [.write, .chmodTemp, .sync]
  | .rename => [.write, .chmodTemp, .sync, .close]

section Temps
variable {h : Host} {t t1 t2 root : Root} {job : Job} {dir tmp : List FileName} {f g : File}

namespace Temp

theorem path (ht : Temp h t job dir tmp t1 t2 root f) : job.temp h t = some tmp :=
  temp_eq ht.all ht.create

theorem extends_root (ht : Temp h t job dir tmp t1 t2 root f) : Extends h job t root :=
  (mkdirAll_extends ht.all).put_temp ht.path ht.put

theorem holds (ht : Temp h t job dir tmp t1 t2 root f) : root.get tmp = some (.file f) := by
  rw [Tree.get_put ht.put, if_pos rfl]

theorem rewrite {root' : Root} (ht : Temp h t job dir tmp t1 t2 root f)
    (hput : root.put tmp (.file g) = some root') : Temp h t job dir tmp t1 t2 root' g :=
  ⟨ht.works, ht.all, ht.create, Tree.put_put ht.put hput⟩

theorem erase_eq (ht : Temp h t job dir tmp t1 t2 root f) : root.erase tmp = t2.erase tmp :=
  Tree.erase_put_eq ht.put (createTempRoot_ok ht.create).2.2.2

/-- The whole write, from the temp file on. -/
theorem writeJob_eq (ht : Temp h t job dir tmp t1 t2 root f) :
    writeJob h t job =
      if h.fails .write || h.fails .chmodTemp || h.fails .sync || h.fails .close ||
          h.fails .rename then
        (if h.fails .cleanup then t2 else (t2.erase tmp).getD t2, .error .io)
      else match renameTemp root tmp (dir ++ [job.base]) (job.file h) with
        | some t' => (t', .ok ())
        | none => (if h.fails .cleanup then t2 else (t2.erase tmp).getD t2, .error .isDir) := by
  unfold writeJob writeInDir
  rw [if_neg (by simp [ht.works]), ht.all]
  dsimp only
  rw [ht.create]
  dsimp only
  unfold renameTemp
  rw [ht.erase_eq]
  rfl

theorem writeJob_failed (ht : Temp h t job dir tmp t1 t2 root f) {stage : Stage}
    (hfails : h.fails stage.op = true) :
    writeJob h t job =
      (if h.fails .cleanup then t2 else (t2.erase tmp).getD t2, .error .io) := by
  rw [ht.writeJob_eq, if_pos]
  cases stage <;> simp only [Stage.op] at hfails <;> simp [hfails]

theorem writeJob_passed (ht : Temp h t job dir tmp t1 t2 root f)
    (hpassed : ∀ op ∈ Stage.rename.passed, h.fails op = false) (hrename : h.fails .rename = false) :
    writeJob h t job =
      match renameTemp root tmp (dir ++ [job.base]) (job.file h) with
      | some t' => (t', .ok ())
      | none => (if h.fails .cleanup then t2 else (t2.erase tmp).getD t2, .error .isDir) := by
  rw [ht.writeJob_eq, if_neg]
  simp only [Stage.passed, List.mem_cons, List.not_mem_nil, or_false, forall_eq_or_imp,
    forall_eq] at hpassed
  simp [hpassed, hrename]

end Temp

end Temps

def At (h : Host) (t : Root) (job : Job) (s : Writing) : Prop :=
  match s.phase with
  | .mkdir => Extends h job t s.root ∧ (h.fails .mkdir = true → s.root = t)
  | .create dir => h.fails .mkdir = false ∧ t.mkdirAll job.links job.parent = (s.root, .ok dir)
  | .opened dir tmp stage => ∃ t1 t2 f, Temp h t job dir tmp t1 t2 s.root f ∧
      (∀ op ∈ stage.passed, h.fails op = false) ∧
      (.chmodTemp ∈ stage.passed → f = job.file h) ∧ (.sync ∈ stage.passed → s.synced = true)
  | .cleanup tmp e => ∃ dir t1 t2 f, Temp h t job dir tmp t1 t2 s.root f ∧
      writeJob h t job = (if h.fails .cleanup then t2 else (t2.erase tmp).getD t2, .error e)
  | .done (.ok ()) => writeJob h t job = (s.root, .ok ()) ∧ s.synced = true
  | .done (.error e) => Extends h job t s.root ∧ (writeJob h t job).2 = .error e ∧
      (h.fails .cleanup = false → s.root = (writeJob h t job).1) ∧
      ∀ q, job.temp h t ≠ some q → s.root.get q = (writeJob h t job).1.get q

/-- The tree extends the old one, with the new file in the place of the temp file, or it is
the finished tree. -/
def Shot.Safe (h : Host) (t : Root) (job : Job) (synced : Bool) (shot : Shot) : Prop :=
  (Extends h job t shot.tree ∧ ∀ q, shot.fresh = some q → job.temp h t = some q) ∨
    writeJob h t job = (shot.tree, .ok ()) ∧ synced = true

structure Inv (h : Host) (t : Root) (job : Job) (s : Writing) : Prop where
  at_ : At h t job s
  past : ∀ shot ∈ s.past, shot.Safe h t job s.synced

section Steps
variable {h : Host} {t : Root} {job : Job} {s s' : Writing} {c : Call}

theorem begun_inv : Inv h t job (begun t) := by
  refine ⟨⟨.refl h job t, fun _ => rfl⟩, ?_⟩
  intro shot hshot
  rw [List.mem_singleton.mp hshot]
  exact Or.inl ⟨.refl h job t, by simp⟩

theorem At.shown (hat : At h t job s) :
    Extends h job t s.root ∨ writeJob h t job = (s.root, .ok ()) := by
  unfold At at hat
  split at hat
  · exact Or.inl hat.1
  · exact Or.inl (mkdirAll_extends hat.2)
  · obtain ⟨_, _, _, htemp, _⟩ := hat
    exact Or.inl htemp.extends_root
  · obtain ⟨_, _, _, _, htemp, _⟩ := hat
    exact Or.inl htemp.extends_root
  · exact Or.inr hat.1
  · exact Or.inl hat.1

theorem At.opened {dir tmp : List FileName} {stage : Stage}
    (hat : At h t job s) (now : s.phase = .opened dir tmp stage) :
    ∃ t1 t2 f, Temp h t job dir tmp t1 t2 s.root f ∧
      (∀ op ∈ stage.passed, h.fails op = false) ∧
      (.chmodTemp ∈ stage.passed → f = job.file h) ∧
      (.sync ∈ stage.passed → s.synced = true) := by
  simpa only [At, now] using hat

/-- Where a step ends with an error and the tree that the write as a whole leaves. -/
theorem at_failed {root : Root} {e : FsError} {synced : Bool} {past : List Shot}
    (hext : Extends h job t root) (hjob : writeJob h t job = (root, .error e)) :
    At h t job ⟨root, .done (.error e), synced, past⟩ :=
  ⟨hext, by rw [hjob], fun _ => by rw [hjob], fun q _ => by rw [hjob]⟩

namespace Inv

/-- A directory operation adds its tree to those that the disk may be at. -/
theorem push (hinv : Inv h t job s) {shot : Shot} (hshot : shot.Safe h t job s.synced) :
    ∀ shot' ∈ shot :: s.past, shot'.Safe h t job s.synced := by
  intro shot' hmem
  rcases List.mem_cons.mp hmem with rfl | hmem
  · exact hshot
  · exact hinv.past shot' hmem

theorem push_extends (hinv : Inv h t job s) {t' : Root} (hext : Extends h job t t') :
    ∀ shot ∈ Shot.mk t' none :: s.past, shot.Safe h t job s.synced :=
  hinv.push (Or.inl ⟨hext, by simp⟩)

theorem mkdirRefused (hinv : Inv h t job s) (now : s.phase = .mkdir)
    (fails : h.fails .mkdir = true) : Inv h t job { s with phase := .done (.error .io) } := by
  have hat := hinv.at_
  simp only [At, now] at hat
  have hjob : writeJob h t job = (s.root, .error .io) := by
    rw [hat.2 fails]
    exact if_pos fails
  exact ⟨at_failed hat.1 hjob, hinv.past⟩

theorem mkdirFailed (hinv : Inv h t job s) {t1 : Root} {e : Tree.LookupError}
    (works : h.fails .mkdir = false)
    (all : t.mkdirAll job.links job.parent = (t1, .error e)) :
    Inv h t job
      { s with root := t1, phase := .done (.error (.lookup e)), past := ⟨t1, none⟩ :: s.past } := by
  have hjob : writeJob h t job = (t1, .error (.lookup e)) := by
    rw [writeJob, if_neg (by simp [works]), all]
  exact ⟨at_failed (mkdirAll_extends all) hjob, hinv.push_extends (mkdirAll_extends all)⟩

theorem createFailed (hinv : Inv h t job s) {dir : List FileName} {e : FsError}
    (now : s.phase = .create dir) (create : createTempRoot h s.root dir = .error e) :
    Inv h t job { s with phase := .done (.error e) } := by
  have hat := hinv.at_
  simp only [At, now] at hat
  obtain ⟨works, all⟩ := hat
  have hjob : writeJob h t job = (s.root, .error e) := by
    rw [writeJob, if_neg (by simp [works]), all]
    simp only [writeInDir, create]
  exact ⟨at_failed (mkdirAll_extends all) hjob, hinv.past⟩

theorem created (hinv : Inv h t job s) {dir tmp : List FileName} {t1 : Root}
    (now : s.phase = .create dir) (create : createTempRoot h s.root dir = .ok (t1, tmp)) :
    Inv h t job
      { s with root := t1, phase := .opened dir tmp .write, past := ⟨t1, some tmp⟩ :: s.past } := by
  have hat := hinv.at_
  simp only [At, now] at hat
  obtain ⟨works, all⟩ := hat
  have htemp : Temp h t job dir tmp s.root t1 t1 ⟨[], h.writeTime, 0o600⟩ :=
    ⟨works, all, create, (createTempRoot_ok create).2.2.2⟩
  refine ⟨⟨_, _, _, htemp, by simp [Stage.passed], by simp [Stage.passed],
    by simp [Stage.passed]⟩, hinv.push (Or.inl ⟨htemp.extends_root, ?_⟩)⟩
  rintro q ⟨⟩
  exact htemp.path

section Opened
variable {dir tmp : List FileName} {t' : Root} {f : File}

theorem writeSome (hinv : Inv h t job s) (now : s.phase = .opened dir tmp .write)
    (put : s.root.put tmp (.file f) = some t') : Inv h t job { s with root := t' } := by
  obtain ⟨t1, t2, g, htemp, _⟩ := hinv.at_.opened now
  refine ⟨?_, hinv.past⟩
  simp only [At, now]
  exact ⟨_, _, _, htemp.rewrite put, by simp [Stage.passed], by simp [Stage.passed],
    by simp [Stage.passed]⟩

theorem failed (hinv : Inv h t job s) {stage : Stage} (now : s.phase = .opened dir tmp stage)
    (fails : h.fails stage.op = true) : Inv h t job { s with phase := .cleanup tmp .io } := by
  obtain ⟨t1, t2, g, htemp, _⟩ := hinv.at_.opened now
  exact ⟨⟨_, _, _, _, htemp, htemp.writeJob_failed fails⟩, hinv.past⟩

theorem written (hinv : Inv h t job s) (now : s.phase = .opened dir tmp .write)
    (works : h.fails .write = false) (put : s.root.put tmp (.file f) = some t') :
    Inv h t job { s with root := t', phase := .opened dir tmp .chmod } := by
  obtain ⟨t1, t2, g, htemp, _⟩ := hinv.at_.opened now
  exact ⟨⟨_, _, _, htemp.rewrite put, by simp [Stage.passed, works], by simp [Stage.passed],
    by simp [Stage.passed]⟩, hinv.past⟩

theorem chmodded (hinv : Inv h t job s) (now : s.phase = .opened dir tmp .chmod)
    (works : h.fails .chmodTemp = false) (put : s.root.put tmp (.file (job.file h)) = some t') :
    Inv h t job { s with root := t', phase := .opened dir tmp .sync } := by
  obtain ⟨t1, t2, g, htemp, hpassed, _⟩ := hinv.at_.opened now
  refine ⟨⟨_, _, _, htemp.rewrite put, ?_, fun _ => rfl, by simp [Stage.passed]⟩, hinv.past⟩
  simpa [Stage.passed, works] using hpassed

theorem synced (hinv : Inv h t job s) (now : s.phase = .opened dir tmp .sync)
    (works : h.fails .sync = false) :
    Inv h t job { s with phase := .opened dir tmp .close, synced := true } := by
  obtain ⟨t1, t2, g, htemp, hpassed, hfile, _⟩ := hinv.at_.opened now
  refine ⟨⟨_, _, _, htemp, ?_, fun _ => hfile (by simp [Stage.passed]), fun _ => rfl⟩, ?_⟩
  · simpa [Stage.passed, works] using hpassed
  · intro shot hshot
    exact (hinv.past shot hshot).imp_right fun ⟨hjob, _⟩ => ⟨hjob, rfl⟩

theorem closed (hinv : Inv h t job s) (now : s.phase = .opened dir tmp .close)
    (works : h.fails .close = false) :
    Inv h t job { s with phase := .opened dir tmp .rename } := by
  obtain ⟨t1, t2, g, htemp, hpassed, hfile, hsynced⟩ := hinv.at_.opened now
  refine ⟨⟨_, _, _, htemp, ?_, fun _ => hfile (by simp [Stage.passed]),
    fun _ => hsynced (by simp [Stage.passed])⟩, hinv.past⟩
  simpa [Stage.passed, works] using hpassed

/-- At the Rename the temp file has all its bytes and its mode, and is synced. -/
theorem complete (hinv : Inv h t job s) (now : s.phase = .opened dir tmp .rename)
    (holds : s.root.get tmp = some (.file f)) :
    f = job.file h ∧ s.synced = true ∧ (∀ op ∈ Stage.rename.passed, h.fails op = false) ∧
      ∃ t1 t2, Temp h t job dir tmp t1 t2 s.root f := by
  obtain ⟨t1, t2, g, htemp, hpassed, hfile, hsynced⟩ := hinv.at_.opened now
  obtain rfl : f = g := by simpa using holds.symm.trans htemp.holds
  exact ⟨hfile (by simp [Stage.passed]), hsynced (by simp [Stage.passed]), hpassed, t1, t2, htemp⟩

theorem renameBlocked (hinv : Inv h t job s) (now : s.phase = .opened dir tmp .rename)
    (works : h.fails .rename = false) (holds : s.root.get tmp = some (.file f))
    (rename : renameTemp s.root tmp (dir ++ [job.base]) f = none) :
    Inv h t job { s with phase := .cleanup tmp .isDir } := by
  obtain ⟨rfl, _, hpassed, t1, t2, htemp⟩ := hinv.complete now holds
  refine ⟨⟨_, _, _, _, htemp, ?_⟩, hinv.past⟩
  rw [htemp.writeJob_passed hpassed works, rename]

theorem renamed (hinv : Inv h t job s) (now : s.phase = .opened dir tmp .rename)
    (works : h.fails .rename = false) (holds : s.root.get tmp = some (.file f))
    (rename : renameTemp s.root tmp (dir ++ [job.base]) f = some t') :
    Inv h t job { s with
      root := t', phase := .done (.ok ()), past := ⟨t', some (dir ++ [job.base])⟩ :: s.past } := by
  obtain ⟨rfl, hsync, hpassed, t1, t2, htemp⟩ := hinv.complete now holds
  have hjob : writeJob h t job = (t', .ok ()) := by
    rw [htemp.writeJob_passed hpassed works, rename]
  exact ⟨⟨hjob, hsync⟩, hinv.push (Or.inr ⟨hjob, hsync⟩)⟩

end Opened

section Cleanup
variable {tmp : List FileName} {e : FsError}

theorem tempLeft (hinv : Inv h t job s) (now : s.phase = .cleanup tmp e)
    (fails : h.fails .cleanup = true) : Inv h t job { s with phase := .done (.error e) } := by
  have hat := hinv.at_
  simp only [At, now] at hat
  obtain ⟨dir, t1, t2, f, htemp, hjob⟩ := hat
  rw [if_pos fails] at hjob
  refine ⟨⟨htemp.extends_root, by rw [hjob], by simp [fails], ?_⟩, hinv.past⟩
  intro q hq
  have hne : q ≠ tmp := fun heq => hq (heq ▸ htemp.path)
  rw [hjob]
  dsimp only
  rw [Tree.get_put htemp.put, Tree.get_put (createTempRoot_ok htemp.create).2.2.2, if_neg hne,
    if_neg hne]

theorem tempRemoved (hinv : Inv h t job s) {t' : Root} (now : s.phase = .cleanup tmp e)
    (works : h.fails .cleanup = false) (erase : s.root.erase tmp = some t') :
    Inv h t job
      { s with root := t', phase := .done (.error e), past := ⟨t', none⟩ :: s.past } := by
  have hat := hinv.at_
  simp only [At, now] at hat
  obtain ⟨dir, t1, t2, f, htemp, hjob⟩ := hat
  rw [if_neg (by simp [works]), ← htemp.erase_eq, erase, Option.getD_some] at hjob
  have hext := htemp.extends_root.erase_temp htemp.path erase
  exact ⟨at_failed hext hjob, hinv.push_extends hext⟩

end Cleanup

theorem next (hinv : Inv h t job s) (hstep : WriteStep h t job s c s') : Inv h t job s' := by
  cases hstep with
  | mkdirRefused now fails => exact hinv.mkdirRefused now fails
  | mkdirSome now works all part =>
    have hext : Extends h job t _ := .of_partway all part
    refine ⟨?_, hinv.push_extends hext⟩
    simp only [At, now]
    exact ⟨hext, by simp [works]⟩
  | mkdirFailed now works all => exact hinv.mkdirFailed works all
  | mkdirDone now works all => exact ⟨⟨works, all⟩, hinv.push_extends (mkdirAll_extends all)⟩
  | createFailed now create => exact hinv.createFailed now create
  | created now create => exact hinv.created now create
  | writeSome now put => exact hinv.writeSome now put
  | failed now fails => exact hinv.failed now fails
  | written now works put => exact hinv.written now works put
  | chmodded now works put => exact hinv.chmodded now works put
  | synced now works => exact hinv.synced now works
  | closed now works => exact hinv.closed now works
  | renameBlocked now works holds rename => exact hinv.renameBlocked now works holds rename
  | renamed now works holds rename => exact hinv.renamed now works holds rename
  | tempLeft now fails => exact hinv.tempLeft now fails
  | tempRemoved now works erase => exact hinv.tempRemoved now works erase

end Inv

def Phase.left : Phase → ℕ
  | .mkdir => 8
  | .create _ => 7
  | .opened _ _ .write => 6
  | .opened _ _ .chmod => 5
  | .opened _ _ .sync => 4
  | .opened _ _ .close => 3
  | .opened _ _ .rename => 2
  | .cleanup _ _ => 1
  | .done _ => 0

/-- Until it is done a write can go on, whatever the system refuses. -/
theorem Inv.progress (hinv : Inv h t job s) :
    (∃ r, s.phase = .done r) ∨
      ∃ c s', WriteStep h t job s c s' ∧ s'.phase.left < s.phase.left := by
  have hat := hinv.at_
  cases hphase : s.phase with
  | done r => exact Or.inl ⟨r, rfl⟩
  | mkdir =>
    right
    cases hfails : h.fails .mkdir with
    | true => exact ⟨_, _, .mkdirRefused hphase hfails, by simp [Phase.left]⟩
    | false =>
      cases hall : t.mkdirAll job.links job.parent with
      | mk t1 r =>
        cases r with
        | error e => exact ⟨_, _, .mkdirFailed hphase hfails hall, by simp [Phase.left]⟩
        | ok dir => exact ⟨_, _, .mkdirDone hphase hfails hall, by simp [Phase.left]⟩
  | create dir =>
    right
    cases hcreate : createTempRoot h s.root dir with
    | error e => exact ⟨_, _, .createFailed hphase hcreate, by simp [Phase.left]⟩
    | ok r => exact ⟨_, _, .created hphase hcreate, by simp [Phase.left]⟩
  | opened dir tmp stage =>
    right
    obtain ⟨t1, t2, f, htemp, _⟩ := hat.opened hphase
    cases hfails : h.fails stage.op with
    | true =>
      exact ⟨.remove, _, .failed hphase hfails, by cases stage <;> simp [Phase.left]⟩
    | false =>
      have hput : ∀ g : File, ∃ t', s.root.put tmp (.file g) = some t' := fun g =>
        Option.isSome_iff_exists.mp (Tree.put_over_file _ htemp.holds)
      cases stage with
      | write =>
        obtain ⟨t', ht'⟩ := hput ⟨job.data, h.writeTime, 0o600⟩
        exact ⟨_, _, .written hphase hfails ht', by simp [Phase.left]⟩
      | chmod =>
        obtain ⟨t', ht'⟩ := hput (job.file h)
        exact ⟨_, _, .chmodded hphase hfails ht', by simp [Phase.left]⟩
      | sync => exact ⟨_, _, .synced hphase hfails, by simp [Phase.left]⟩
      | close => exact ⟨_, _, .closed hphase hfails, by simp [Phase.left]⟩
      | rename =>
        cases hrename : renameTemp s.root tmp (dir ++ [job.base]) f with
        | none =>
          exact ⟨_, _, .renameBlocked hphase hfails htemp.holds hrename, by simp [Phase.left]⟩
        | some t' => exact ⟨_, _, .renamed hphase hfails htemp.holds hrename, by simp [Phase.left]⟩
  | cleanup tmp e =>
    right
    simp only [At, hphase] at hat
    obtain ⟨dir, t1, t2, f, htemp, _⟩ := hat
    cases hfails : h.fails .cleanup with
    | true => exact ⟨_, _, .tempLeft hphase hfails, by simp [Phase.left]⟩
    | false =>
      obtain ⟨t', ht'⟩ := Option.isSome_iff_exists.mp (Tree.erase_file_isSome htemp.holds)
      exact ⟨_, _, .tempRemoved hphase hfails ht', by simp [Phase.left]⟩

theorem Inv.finishes (hinv : Inv h t job s) :
    ∃ calls s' r, Run (WriteStep h t job) s calls s' ∧ s'.phase = .done r := by
  induction hn : s.phase.left using Nat.strong_induction_on generalizing s with
  | _ n ih =>
    rcases hinv.progress with ⟨r, hr⟩ | ⟨c, s', hstep, hless⟩
    · exact ⟨[], s, r, .nil s, hr⟩
    · obtain ⟨calls, s'', r, hrun, hdone⟩ := ih _ (hn ▸ hless) (hinv.next hstep) rfl
      exact ⟨c :: calls, s'', r, .cons hstep hrun, hdone⟩

theorem Inv.survivor {t' : Root} (hinv : Inv h t job s) (hcrash : Survives s t') :
    Extends h job t t' ∨ writeJob h t job = (t', .ok ()) := by
  cases hcrash with
  | killed => exact hinv.at_.shown
  | powerFailed hshot => exact (hinv.past _ hshot).imp And.left And.left
  | torn hshot hfresh hunsynced hput =>
    rcases hinv.past _ hshot with ⟨hext, hplace⟩ | ⟨_, hsynced⟩
    · exact Or.inl (hext.put_temp (hplace _ hfresh) hput)
    · rw [hunsynced] at hsynced
      exact absurd hsynced (by simp)

theorem Inv.result {r : Except FsError Unit} (hinv : Inv h t job s) (hdone : s.phase = .done r) :
    r = (writeJob h t job).2 ∧
      (r = .ok () ∨ h.fails .cleanup = false → s.root = (writeJob h t job).1) ∧
      ∀ q, job.temp h t ≠ some q → s.root.get q = (writeJob h t job).1.get q := by
  have hat := hinv.at_
  simp only [At, hdone] at hat
  cases r with
  | ok u =>
    rw [hat.1]
    exact ⟨rfl, fun _ => rfl, fun _ _ => rfl⟩
  | error e =>
    obtain ⟨_, herr, hsame, hoff⟩ := hat
    exact ⟨herr.symm, fun hr => hsame (hr.resolve_left (by simp)), hoff⟩

theorem run_inv {calls : List Call} (hrun : Run (WriteStep h t job) (begun t) calls s) :
    Inv h t job s :=
  hrun.invariant (fun _ _ _ hinv hstep => hinv.next hstep) begun_inv

end Steps

/-- Wherever a WriteFileRoot is stopped, by a kill or by a power failure, the tree that is
found is the finished one, or it has everything that was there before, and new in it are only
parent directories and the temp file beside the target. The next scan then records what it
would have recorded before the write. -/
theorem stopped_write_atomic (h : Host) (t t' : Root) (name data : Bytes) (mode : Mode)
    (job : Job) (hjob : rootJob name data mode = some job) (calls : List Call) (s : Writing)
    (hrun : Run (WriteStep h t job) (begun t) calls s) (hstop : Survives s t') :
    writeFileRoot h t name data mode = (t', .ok ()) ∨
      Extends h job t t' ∧ ∀ p f, Recorded t' p f ↔ Recorded t p f := by
  rw [writeFileRoot_job hjob]
  rcases (run_inv hrun).survivor hstop with hext | hdone
  · exact Or.inr ⟨hext, hext.recorded⟩
  · exact Or.inl hdone

def rootFileJob : Job :=
  ⟨maxSymlinks, [], ⟨ascii "g", by decide, by decide⟩, ascii "x", 0o644⟩

/-- The power fails when the temp file has been made, and it comes back with other bytes. -/
theorem torn_write_atomic :
    ∃ (calls : List Call) (s : Writing) (t' : Root) (tmp : List FileName),
      Run (WriteStep .plain .empty rootFileJob) (begun .empty) calls s ∧ Survives s t' ∧
      t'.fileAt tmp = some ⟨ascii "y", 0, 0⟩ ∧
      (writeFileRoot .plain .empty (ascii "g") (ascii "x") 0o644 = (t', .ok ()) ∨
        Extends .plain rootFileJob .empty t' ∧ ∀ p f, Recorded t' p f ↔ Recorded .empty p f) := by
  have hcreate : ∃ t1 tmp, createTempRoot .plain .empty [] = .ok (t1, tmp) := ⟨_, _, rfl⟩
  obtain ⟨t1, tmp, hcreate⟩ := hcreate
  have hfile : t1.get tmp = some (.file ⟨[], Host.plain.writeTime, 0o600⟩) := by
    rw [Tree.get_put (createTempRoot_ok hcreate).2.2.2, if_pos rfl]
  obtain ⟨t', hput⟩ := Option.isSome_iff_exists.mp
    (Tree.put_over_file (.file ⟨ascii "y", 0, 0⟩) hfile)
  have hrun : Run (WriteStep .plain .empty rootFileJob) (begun .empty) [.mkdir, .create]
      ⟨t1, .opened [] tmp .write, false, [⟨t1, some tmp⟩, ⟨.empty, none⟩, ⟨.empty, none⟩]⟩ :=
    .cons (.mkdirDone rfl rfl rfl) (.single (.created rfl hcreate))
  have hstop := Survives.torn (s := ⟨t1, .opened [] tmp .write, false,
    [⟨t1, some tmp⟩, ⟨.empty, none⟩, ⟨.empty, none⟩]⟩) (.head _) rfl rfl hput
  refine ⟨_, _, t', tmp, hrun, hstop, ?_, ?_⟩
  · rw [Tree.fileAt, Tree.get_put hput, if_pos rfl]
    rfl
  · exact stopped_write_atomic .plain .empty t' (ascii "g") (ascii "x") 0o644 rootFileJob
      (by rfl) _ _ hrun hstop

/-- A write that is not stopped ends, with the result and the tree that WriteFileRoot as a
whole has for it. Where it fails and its temp file cannot be removed, that file may have other
contents; nothing else differs. -/
theorem write_calls_refine (h : Host) (t : Root) (name data : Bytes) (mode : Mode) (job : Job)
    (hjob : rootJob name data mode = some job) :
    (∃ calls s, Run (WriteStep h t job) (begun t) calls s ∧
      s.phase = .done (writeFileRoot h t name data mode).2) ∧
    ∀ calls s r, Run (WriteStep h t job) (begun t) calls s → s.phase = .done r →
      r = (writeFileRoot h t name data mode).2 ∧
        (r = .ok () ∨ h.fails .cleanup = false → s.root = (writeFileRoot h t name data mode).1) ∧
        ∀ q, job.temp h t ≠ some q →
          s.root.get q = (writeFileRoot h t name data mode).1.get q := by
  rw [writeFileRoot_job hjob]
  constructor
  · obtain ⟨calls, s, r, hrun, hdone⟩ := (@begun_inv h t job).finishes
    obtain ⟨rfl, _⟩ := (run_inv hrun).result hdone
    exact ⟨calls, s, hrun, hdone⟩
  · intro calls s r hrun hdone
    exact (run_inv hrun).result hdone

theorem write_calls_refine_small :
    ∃ calls s, Run (WriteStep .plain .empty rootFileJob) (begun .empty) calls s ∧
      s.phase = .done (.ok ()) :=
  (write_calls_refine .plain .empty (ascii "g") (ascii "x") 0o644 rootFileJob (by rfl)).1

def loadFile (json : IndexJson) (t : Root) (names : List FileName) : Option IndexFiles.Loaded :=
  match t.get names with
  | none => load json none
  | some (.file f) => load json (some f.bytes)
  | some _ => none

def indexJob (links : ℕ) (parent : List FileName) (base : FileName) (data : Bytes) : Job :=
  ⟨links, parent, base, data, 0o644⟩

section Saves
variable {h : Host} {t t' : Root} {job : Job}

theorem Extends.target (hext : Extends h job t t') (ht : t.Unlinked job.parent)
    (hbase : isReservedComponent job.base.bytes = false) :
    t'.get (job.parent ++ [job.base]) = t.get (job.parent ++ [job.base]) := by
  rcases hext (job.parent ++ [job.base]) with heq | ⟨hnone, ⟨_, hmade⟩ | ⟨htemp, _⟩⟩
  · exact heq
  · -- MkdirAll makes only what leads to the parent
    rcases (Tree.mkdirAll_unlinked job.links ht).1 (job.parent ++ [job.base]) with
      hsame | ⟨_, _, hbelow⟩
    · rw [Job.made, hsame, hnone] at hmade
      exact absurd hmade (by simp)
    · exact absurd hbelow.length_le (by simp)
  · obtain ⟨_, dir, n, _, hpath, hn, _⟩ := temp_spec htemp
    have hlast : job.base = n := by simpa using congrArg List.getLast? hpath
    rw [hlast, hn] at hbase
    exact absurd hbase (by simp)

theorem writeJob_target (ht : t.Unlinked job.parent) (hjob : writeJob h t job = (t', .ok ())) :
    t'.get (job.parent ++ [job.base]) = some (.file (job.file h)) := by
  obtain ⟨_, hdir⟩ := Tree.mkdirAll_unlinked job.links ht
  unfold writeJob at hjob
  split at hjob
  · exact absurd (Prod.mk.inj hjob).2 (by simp)
  · cases hall : t.mkdirAll job.links job.parent with
    | mk t1 r =>
      rw [hall] at hjob hdir
      cases r with
      | error e => exact absurd (Prod.mk.inj hjob).2 (by simp)
      | ok dir =>
        obtain ⟨rfl, _⟩ := hdir dir rfl
        have hwrite := writeInDir_cases h t1 job.parent job.base job.data job.mode
        dsimp only at hjob
        rw [hjob] at hwrite
        cases hwrite with
        | written added => exact added.file

end Saves

/-- Wherever a Save of an index that JSON keeps is stopped, and no link leads to the file, the
next start loads the index that it would have loaded before, or the one that was being
saved. -/
theorem stopped_save_loads (h : Host) (t t' : Root) (json : IndexJson) (idx : Index)
    (links : ℕ) (parent : List FileName) (base : FileName) (data : Bytes)
    (ht : t.Unlinked (parent ++ [base]))
    (hbase : isReservedComponent base.bytes = false) (htrips : RoundTrips json idx)
    (hsave : save json idx = some data) (calls : List Call) (s : Writing)
    (hrun : Run (WriteStep h t (indexJob links parent base data)) (begun t) calls s)
    (hstop : Survives s t') :
    loadFile json t' (parent ++ [base]) = loadFile json t (parent ++ [base]) ∨
      ∃ loaded, loadFile json t' (parent ++ [base]) = some loaded ∧
        ∀ p, loaded.files p = idx.get p := by
  have hparent : t.Unlinked parent := fun q target hq =>
    ht q target (hq.trans (List.prefix_append _ _))
  rcases (run_inv hrun).survivor hstop with hext | hdone
  · left
    have htarget : t'.get (parent ++ [base]) = t.get (parent ++ [base]) :=
      hext.target hparent hbase
    unfold loadFile
    rw [htarget]
  · right
    obtain ⟨data', loaded, hsave', hload, hsame⟩ := htrips
    obtain rfl : data = data' := Option.some.inj (hsave.symm.trans hsave')
    have htarget : t'.get (parent ++ [base]) =
        some (.file ((indexJob links parent base data).file h)) := writeJob_target hparent hdone
    refine ⟨loaded, ?_, fun p => (hsame p).1⟩
    unfold loadFile
    rw [htarget]
    exact hload

def smallIndex : Index :=
  .set .empty ⟨ascii "a", 1, 1, 0o644, contentHash (paddedDigest 32) (ascii "x"), false, 0, 1⟩

theorem stopped_save_loads_small :
    ∃ (calls : List Call) (s : Writing) (json : IndexJson) (base : FileName) (data : Bytes),
      save json smallIndex = some data ∧
      Run (WriteStep .plain .empty (indexJob 40 [] base data)) (begun .empty) calls s ∧
      s.phase ≠ .mkdir ∧
      (loadFile json s.root [base] = loadFile json .empty [base] ∨
        ∃ loaded, loadFile json s.root [base] = some loaded ∧
          ∀ p, loaded.files p = smallIndex.get p) := by
  have hstorable : IndexFiles.AllStorable smallIndex := by
    refine .set (fun e he => absurd he (by simp [Index.empty])) ?_
    constructor <;> decide +kernel
  have htrips : RoundTrips (codecOf (diskFormat smallIndex) scannedJson) smallIndex :=
    (roundTrips_iff (codecOf_keeps _ _)).mpr hstorable
  obtain ⟨data, loaded, hsave, _⟩ := id htrips
  have hrun : Run (WriteStep .plain .empty
      (indexJob 40 [] ⟨ascii "index.json", by decide, by decide⟩ data)) (begun .empty) [.mkdir]
      ⟨.empty, .create [], false, [⟨.empty, none⟩, ⟨.empty, none⟩]⟩ :=
    .single (.mkdirDone rfl rfl rfl)
  exact ⟨_, _, _, _, data, hsave, hrun, by simp,
    stopped_save_loads .plain .empty _ _ smallIndex 40 [] _ data (Tree.empty_linkFree.unlinked _)
      (by decide) htrips hsave _ _ hrun .killed⟩

end TailSync.CrashWrites

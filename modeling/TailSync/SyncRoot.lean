import TailSync.Entries
import TailSync.FileTrees
import TailSync.RelativePaths

/-!
The sync directory as the daemon sees it through os.Root, and the temp-file
write of internal/atomicfile/atomicfile.go. A root is a directory tree of files
with their bytes, modification time and permission bits. Whatever the operating
system decides on its own is collected in a Host: clocks, how modification
times and modes are stored, the random temp name, and which operations fail.
Links inside the tree are followed as os.Root follows them.
-/
namespace TailSync.SyncRoot

open ByteStrings Entries FileTrees RelativePaths

structure FileName where
  bytes : Bytes
  element : IsElement bytes
  no_nul : (0 : UInt8) ∉ bytes
  deriving DecidableEq

structure File where
  bytes : Bytes
  modTime : Time
  perm : Mode
  deriving DecidableEq, Repr

abbrev Root := Tree FileName File

structure FileInfo where
  size : ℤ
  modTime : Time
  perm : Mode
  deriving DecidableEq, Repr

def File.info (f : File) : FileInfo := ⟨f.bytes.length, f.modTime, f.perm⟩

def fileName (e : Bytes) : Option FileName :=
  if h : IsElement e ∧ (0 : UInt8) ∉ e then some ⟨e, h.1, h.2⟩ else none

/-- The names along a slash-separated path, none if one of them is not admitted. -/
def pathNames (p : Bytes) : Option (List FileName) := (elements p).mapM fileName

def pathOf (names : List FileName) : Bytes := joinPath (names.map FileName.bytes)

theorem fileName_bytes (n : FileName) : fileName n.bytes = some n := by
  simp [fileName, n.element, n.no_nul]

theorem fileName_eq_some {e : Bytes} {n : FileName} (h : fileName e = some n) : n.bytes = e := by
  unfold fileName at h
  split at h
  · cases h
    rfl
  · exact absurd h (by simp)

private theorem mapM_fileName_map (names : List FileName) :
    (names.map FileName.bytes).mapM fileName = some names := by
  induction names with
  | nil => rfl
  | cons n rest ih => simp [List.mapM_cons, fileName_bytes, ih]

private theorem map_of_mapM_fileName {es : List Bytes} {names : List FileName}
    (h : es.mapM fileName = some names) : names.map FileName.bytes = es := by
  induction es generalizing names with
  | nil =>
    simp only [List.mapM_nil, pure, Option.some.injEq] at h
    subst h
    rfl
  | cons e rest ih =>
    simp only [List.mapM_cons, bind, Option.bind_eq_some_iff, pure, Option.some.injEq] at h
    obtain ⟨n, hn, names', hrest, rfl⟩ := h
    simp [fileName_eq_some hn, ih hrest]

theorem elements_pathOf {names : List FileName} (hne : names ≠ []) :
    elements (pathOf names) = names.map FileName.bytes := by
  apply elements_joinPath
  · intro e he
    obtain ⟨n, _, rfl⟩ := List.mem_map.mp he
    exact n.element.2.1
  · simpa using hne

theorem pathNames_pathOf {names : List FileName} (hne : names ≠ []) :
    pathNames (pathOf names) = some names := by
  rw [pathNames, elements_pathOf hne]
  exact mapM_fileName_map names

theorem elements_of_pathNames {p : Bytes} {names : List FileName}
    (h : pathNames p = some names) : names.map FileName.bytes = elements p :=
  map_of_mapM_fileName h

theorem pathOf_of_pathNames {p : Bytes} {names : List FileName} (h : pathNames p = some names) :
    pathOf names = p ∧ names ≠ [] := by
  have hmap := map_of_mapM_fileName h
  constructor
  · rw [pathOf, hmap, joinPath_elements]
  · rintro rfl
    exact elements_ne_nil p hmap.symm

theorem pathNames_inj {p q : Bytes} {names : List FileName} (hp : pathNames p = some names)
    (hq : pathNames q = some names) : p = q :=
  (pathOf_of_pathNames hp).1.symm.trans (pathOf_of_pathNames hq).1

def fileAt (t : Root) (p : Bytes) : Option File := (pathNames p).bind t.fileAt

/-- The calls the operating system can refuse. The Stat after an apply is
labelled with the mode and the modification time that were asked for. -/
inductive FsOp where
  | scan
  | statDecide
  | statGuard
  | statAfter (mode : Mode) (mt : Time)
  | statBasis
  | readBasis
  | mkdir
  | createTemp
  | write
  | chmodTemp
  | sync
  | close
  | rename
  | cleanup
  | chtimes
  | chmod
  | rollbackTimes
  | rollbackMode
  | remove
  | save
  deriving DecidableEq, Repr

/-- What the operating system and the Go runtime do during one critical
section. -/
structure Host where
  cancelled : Bool
  now : Time
  gcNow : Time
  writeTime : Time
  storedTime : Time → Time
  storedPerm : Mode → Mode
  nodeInfo : FsOp → FileInfo
  tmpName : ℕ → FileName
  tmp_reserved : ∀ i, isReservedComponent (tmpName i).bytes = true
  mapOrder : List Entry → List Entry
  mapOrder_perm : ∀ l, (mapOrder l).Perm l
  fails : FsOp → Bool

/-- Chmod, Chtimes and Stat succeed and keep every value exactly. -/
structure Host.Exact (h : Host) : Prop where
  storedTime : ∀ t, h.storedTime t = t
  storedPerm : ∀ m, h.storedPerm m = perm m
  chtimes : h.fails .chtimes = false
  chmod : h.fails .chmod = false
  statDecide : h.fails .statDecide = false
  statGuard : h.fails .statGuard = false
  statAfter : ∀ mode mt, h.fails (.statAfter mode mt) = false
  nodePerm : ∀ mode mt, (h.nodeInfo (.statAfter mode mt)).perm = perm mode
  nodeTime : ∀ mode mt, (h.nodeInfo (.statAfter mode mt)).modTime =
    if isZero mt then (h.nodeInfo .statGuard).modTime else mt

def Host.plain : Host where
  cancelled := false
  now := 1
  gcNow := 1
  writeTime := 1
  storedTime := id
  storedPerm := perm
  nodeInfo
    | .statAfter mode mt => ⟨0, if isZero mt then 1 else mt, perm mode⟩
    | _ => ⟨0, 1, 0o755⟩
  tmpName := fun _ => ⟨ascii ".tailsync-tmp", by decide, by decide⟩
  tmp_reserved := fun _ => by decide
  mapOrder := id
  mapOrder_perm := fun _ => List.Perm.refl _
  fails := fun _ => false

theorem Host.plain_exact : Host.plain.Exact :=
  ⟨fun _ => rfl, fun _ => rfl, rfl, rfl, rfl, rfl, fun _ _ => rfl, fun _ _ => rfl, fun _ _ => rfl⟩

inductive FsError where
  | lookup (e : Tree.LookupError)
  | invalid
  | isDir
  | notEmpty
  | exist
  | io
  deriving DecidableEq, Repr

def isNotExist (e : FsError) : Bool := e == .lookup .notExist

/-- The number of links os.Root follows before it gives up. -/
def maxSymlinks : ℕ := 8

/-- The node an os.Root operation reaches; last says whether a link at the end
of the path is followed. -/
def locate (t : Root) (last : Bool) (p : Bytes) :
    Except FsError (List FileName × Node FileName File) :=
  match pathNames p with
  | none => .error .invalid
  | some names =>
      match t.resolve maxSymlinks last names with
      | .error e => .error (.lookup e)
      | .ok q =>
          match t.get q with
          | some x => .ok (q, x)
          | none => .error (.lookup .notExist)

/-- What Stat finds at a path, the last link followed. -/
def found (t : Root) (p : Bytes) : Option (Node FileName File) :=
  match locate t true p with
  | .ok (_, x) => some x
  | .error _ => none

theorem found_eq_some {t : Root} {p : Bytes} {x : Node FileName File} :
    found t p = some x ↔ ∃ q, locate t true p = .ok (q, x) := by
  unfold found
  cases locate t true p with
  | error e => simp
  | ok r => simp [Prod.ext_iff]

/-- Root.Stat. Sizes and times of nodes other than files are the system's. -/
def stat (h : Host) (op : FsOp) (t : Root) (p : Bytes) : Except FsError FileInfo :=
  if h.fails op then .error .io
  else match locate t true p with
    | .error e => .error e
    | .ok (_, .file f) => .ok f.info
    | .ok _ => .ok (h.nodeInfo op)

def readFile (h : Host) (t : Root) (p : Bytes) : Except FsError Bytes :=
  if h.fails .readBasis then .error .io
  else match locate t true p with
    | .error e => .error e
    | .ok (_, .file f) => .ok f.bytes
    | .ok _ => .error .isDir

/-- The size Stat reports of a path that can be read is that of the bytes read. -/
theorem stat_size_of_readFile {h : Host} {op : FsOp} {t : Root} {p data : Bytes} {fi : FileInfo}
    (hstat : stat h op t p = .ok fi) (hread : readFile h t p = .ok data) :
    fi.size = data.length := by
  unfold readFile at hread
  unfold stat at hstat
  split at hread
  · exact absurd hread (by simp)
  · split at hread
    · exact absurd hread (by simp)
    · rename_i hloc
      rw [hloc] at hstat
      split at hstat
      · exact absurd hstat (by simp)
      · cases hstat
        cases hread
        rfl
    · exact absurd hread (by simp)

def setAttr (change : File → File) (t : Root) (p : Bytes) : Root × Except FsError Unit :=
  match locate t true p with
  | .error e => (t, .error e)
  | .ok (q, .file f) =>
      match t.put q (.file (change f)) with
      | some t' => (t', .ok ())
      | none => (t, .error .io)
  | .ok _ => (t, .ok ())

def tryAttr (h : Host) (op : FsOp) (change : File → File) (t : Root) (p : Bytes) :
    Root × Except FsError Unit :=
  if h.fails op then (t, .error .io) else setAttr change t p

def chtimes (h : Host) (op : FsOp) (t : Root) (p : Bytes) (mt : Time) :
    Root × Except FsError Unit :=
  tryAttr h op (fun f => { f with modTime := h.storedTime mt }) t p

def chmod (h : Host) (op : FsOp) (t : Root) (p : Bytes) (mode : Mode) :
    Root × Except FsError Unit :=
  tryAttr h op (fun f => { f with perm := h.storedPerm mode }) t p

def remove (h : Host) (t : Root) (p : Bytes) : Root × Except FsError Unit :=
  if h.fails .remove then (t, .error .io)
  else match locate t false p with
    | .error e => (t, .error e)
    | .ok (q, _) =>
        match t.erase q with
        | some t' => (t', .ok ())
        | none => (t, .error .notEmpty)

def renameTemp (t : Root) (tmp target : List FileName) (f : File) : Option Root :=
  (t.erase tmp).bind fun t' => t'.put target (.file f)

/-- The random names createTempRoot goes through, until one is free. -/
def freeTempName (h : Host) (t : Root) (dir : List FileName) : ℕ → Option FileName
  | 0 => none
  | n + 1 =>
      if (t.get (dir ++ [h.tmpName n])).isNone then some (h.tmpName n)
      else freeTempName h t dir n

def createTempRoot (h : Host) (t : Root) (dir : List FileName) :
    Except FsError (Root × List FileName) :=
  if h.fails .createTemp then .error .io
  else match freeTempName h t dir 10000 with
    | none => .error .exist
    | some tmp =>
        match t.put (dir ++ [tmp]) (.file ⟨[], h.writeTime, 0o600⟩) with
        | some t' => .ok (t', dir ++ [tmp])
        | none => .error (.lookup .notDir)

def writeInDir (h : Host) (t : Root) (dir : List FileName) (base : FileName) (data : Bytes)
    (mode : Mode) : Root × Except FsError Unit :=
  match createTempRoot h t dir with
  | .error e => (t, .error e)
  | .ok (t1, tmp) =>
      -- the deferred Remove of the temp file
      let cleaned := if h.fails .cleanup then t1 else (t1.erase tmp).getD t1
      if h.fails .write || h.fails .chmodTemp || h.fails .sync || h.fails .close ||
          h.fails .rename then (cleaned, .error .io)
      else match renameTemp t1 tmp (dir ++ [base]) ⟨data, h.writeTime, h.storedPerm mode⟩ with
        | some t2 => (t2, .ok ())
        | none => (cleaned, .error .isDir)

def writeFileRoot (h : Host) (t : Root) (name data : Bytes) (mode : Mode) :
    Root × Except FsError Unit :=
  let mode := if mode = 0 then 0o644 else mode
  let cleaned := clean name
  if cleaned = dot ∨ cleaned.head? = some slash ∨ validPath cleaned = false ∨
      isLocal cleaned = false then (t, .error .invalid)
  else match pathNames cleaned with
    | none => (t, .error .invalid)
    | some names =>
        match names.getLast? with
        | none => (t, .error .invalid)
        | some base =>
            if h.fails .mkdir then (t, .error .io)
            else match t.mkdirAll maxSymlinks names.dropLast with
              | (t1, .error e) => (t1, .error (.lookup e))
              | (t1, .ok dir) => writeInDir h t1 dir base data mode

end TailSync.SyncRoot

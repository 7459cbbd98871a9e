import TailSync.Transfers

/-!
The apply path of daemon/apply.go. A remote entry is decided on under the lock;
if it needs bytes they are fetched without the lock and committed under it again
after a second look at the index and the disk. Each critical section is a
function from the daemon's state to the new state and its result, so failing
halfway leaves exactly the effects that had happened.
-/
namespace TailSync.RemoteApply

open ByteStrings Entries IndexMap SyncRoot Scanning MachineInts Transfers
open RelativePaths (relPath)

inductive ApplyKind where
  | noop
  | tombstone
  | deleteLive
  | metaOnly
  | content
  deriving DecidableEq, Repr

structure ApplyDecision where
  kind : ApplyKind
  useDelta : Bool
  deriving DecidableEq, Repr

/-- Equal times and times within one Unix second do not count as different. -/
def mtimesDiffer (a b : Time) : Bool :=
  if a = b then false
  else if !isZero a && !isZero b && unix a == unix b then false
  else true

def metaDiffers (loc remote : Entry) : Bool :=
  remote.mode != loc.mode ||
    (!isZero remote.modTime && mtimesDiffer remote.modTime loc.modTime) ||
    decide (remote.updatedAt > loc.updatedAt)

def decideApply (loc : Option Entry) (remote : Entry) (diskPresent : Bool) : ApplyDecision :=
  match loc with
  | none => if remote.deleted then ⟨.tombstone, false⟩ else ⟨.content, false⟩
  | some l =>
      if remote.deleted then
        if l.deleted then ⟨.tombstone, false⟩
        else if wins l remote then ⟨.deleteLive, false⟩ else ⟨.noop, false⟩
      else if l.deleted = false ∧ l.hash = remote.hash then
        if metaDiffers l remote && wins l remote then
          if diskPresent then ⟨.metaOnly, false⟩ else ⟨.content, false⟩
        else ⟨.noop, false⟩
      else if wins l remote then ⟨.content, !l.deleted⟩ else ⟨.noop, false⟩

def fileMode (mode : Mode) : Mode := if mode = 0 then 0o644 else mode

def liveEntry (idx : Index) (p : Bytes) : Option Entry :=
  (idx.get p).filter fun e => !e.deleted

/-- diskUnsynced; no live entry stands for hasLive being false. -/
def diskUnsynced (h : Host) (root : Root) (rel : Bytes) (live : Option Entry) :
    Except FsError Bool :=
  match stat h .statGuard root rel with
  | .error e => if isNotExist e then .ok false else .error e
  | .ok fi =>
      match live with
      | none => .ok true
      | some cur => .ok (decide (fi.size ≠ cur.size ∨ fi.modTime ≠ cur.modTime))

def diskMeta (h : Host) (root : Root) (rel : Bytes) (modeWant : Mode)
    (remoteMT fallbackMT : Time) : Mode × Time :=
  match stat h (.statAfter modeWant remoteMT) root rel with
  | .error _ => (modeWant, if isZero remoteMT then fallbackMT else remoteMT)
  | .ok fi =>
      (if perm fi.perm = 0 then modeWant else perm fi.perm,
        if isZero remoteMT && isZero fi.modTime && !isZero fallbackMT then fallbackMT
        else fi.modTime)

def maybeSaveLocked (h : Host) (d : Daemon) : Daemon :=
  if d.appliesSinceSave ≥ 8 then
    if h.fails .save then d else { d with appliesSinceSave := 0, saved := d.idx }
  else d

def outranked (cur : Option Entry) (re : Entry) : Bool :=
  match cur with
  | some c => !wins c re
  | none => false

def execDeleteLive (h : Host) (d : Daemon) (re : Entry) : Daemon × Except ApplyError Bool :=
  if outranked (d.idx.get re.path) re then (d, .ok false)
  else match diskUnsynced h d.root re.path (liveEntry d.idx re.path) with
    | .error e => (d, .error (.stat re.path e))
    | .ok true => (d, .ok false)
    | .ok false =>
        let removed := remove h d.root re.path
        match removed.2 with
        | .error e =>
            if isNotExist e then storeTombstone h { d with root := removed.1 } re
            else ({ d with root := removed.1 }, .error (.delete re.path e))
        | .ok () => storeTombstone h { d with root := removed.1 } re
where
  storeTombstone (h : Host) (d : Daemon) (re : Entry) : Daemon × Except ApplyError Bool :=
    let stored := d.idx.setIfWins re
    if stored.2 then
      (maybeSaveLocked h
        { d with idx := stored.1, appliesSinceSave := d.appliesSinceSave + 1 }, .ok true)
    else (d, .ok false)

/-- The rollback of execMetaOnly after a failed Chmod. -/
def rollbackMeta (h : Host) (root : Root) (loc re : Entry) : Root :=
  let root1 :=
    if !isZero re.modTime && !isZero loc.modTime then
      (chtimes h .rollbackTimes root re.path loc.modTime).1
    else root
  (chmod h .rollbackMode root1 re.path (fileMode loc.mode)).1

def adoptedEntry (loc re : Entry) (actual : Mode × Time) : Entry :=
  { loc with updatedAt := re.updatedAt, modTime := actual.2, mode := actual.1 }

def execMetaOnly (h : Host) (d : Daemon) (loc re : Entry) : Daemon × Except ApplyError Bool :=
  match diskUnsynced h d.root re.path (some loc) with
  | .error e => (d, .error (.stat re.path e))
  | .ok true => (d, .ok false)
  | .ok false =>
      let mode := fileMode re.mode
      let timed :=
        if isZero re.modTime then (d.root, .ok ()) else chtimes h .chtimes d.root re.path re.modTime
      match timed.2 with
      | .error e => ({ d with root := timed.1 }, .error (.chtimes re.path e))
      | .ok () =>
          let moded := chmod h .chmod timed.1 re.path mode
          match moded.2 with
          | .error e =>
              ({ d with root := rollbackMeta h moded.1 loc re }, .error (.chmod re.path e))
          | .ok () =>
              let actual := diskMeta h moded.1 re.path mode re.modTime loc.modTime
              ({ d with
                  root := moded.1
                  idx := d.idx.set (adoptedEntry loc re actual)
                  appliesSinceSave := d.appliesSinceSave + 1 }, .ok true)

def committedEntry (h : Host) (re : Entry) (data got : Bytes) (actual : Mode × Time) : Entry :=
  { re with
    hash := got
    size := data.length
    mode := actual.1
    modTime := actual.2
    updatedAt := if isZero re.updatedAt then h.now else re.updatedAt }

theorem committedEntry_path (h : Host) (re : Entry) (data got : Bytes) (actual : Mode × Time) :
    (committedEntry h re data got actual).path = re.path := rfl

def commitContent (h : Host) (d : Daemon) (re : Entry) (data got : Bytes) :
    Daemon × Except ApplyError Bool :=
  if outranked (d.idx.get re.path) re then (d, .ok false)
  else match diskUnsynced h d.root re.path (liveEntry d.idx re.path) with
    | .error e => (d, .error (.stat re.path e))
    | .ok true => (d, .ok false)
    | .ok false =>
        let mode := fileMode re.mode
        let written := writeFileRoot h d.root re.path data mode
        match written.2 with
        | .error e => ({ d with root := written.1 }, .error (.write e))
        | .ok () =>
            -- a failing Chtimes is only logged
            let root :=
              if isZero re.modTime then written.1
              else (chtimes h .chtimes written.1 re.path re.modTime).1
            let fallbackMT :=
              if isZero re.modTime then
                match liveEntry d.idx re.path with
                | some cur => cur.modTime
                | none => re.modTime
              else re.modTime
            let actual := diskMeta h root re.path mode re.modTime fallbackMT
            (maybeSaveLocked h
              { d with
                root := root
                idx := d.idx.set (committedEntry h re data got actual)
                appliesSinceSave := d.appliesSinceSave + 1 }, .ok true)

/-- What the first critical section of applyRemote ends with: a result, or the
entry under its cleaned path whose bytes are to be fetched. -/
inductive Started where
  | finished (result : Except ApplyError Bool)
  | transfer (re : Entry) (useDelta : Bool)

/-- Whether the live file is on disk, asked only when the contents agree. -/
def diskPresent (h : Host) (d : Daemon) (re : Entry) : Except FsError Bool :=
  match liveEntry d.idx re.path with
  | some loc =>
      if re.deleted = false ∧ loc.hash = re.hash then
        match stat h .statDecide d.root re.path with
        | .ok _ => .ok true
        | .error e => if isNotExist e then .ok false else .error e
      else .ok false
  | none => .ok false

/-- The critical section that decides, for an entry under its cleaned path. -/
def applyDecided (h : Host) (d : Daemon) (re : Entry) : Daemon × Started :=
  if h.cancelled then (d, .finished (.error .cancelled))
  else match diskPresent h d re with
    | .error e => (d, .finished (.error (.stat re.path e)))
    | .ok present =>
        let dec := decideApply (d.idx.get re.path) re present
        match dec.kind with
        | .noop => (d, .finished (.ok false))
        | .tombstone =>
            let stored := d.idx.setIfWins re
            if stored.2 then
              ({ d with idx := stored.1, appliesSinceSave := d.appliesSinceSave + 1 },
                .finished (.ok true))
            else (d, .finished (.ok false))
        | .deleteLive =>
            let result := execDeleteLive h d re
            (result.1, .finished result.2)
        | .metaOnly =>
            match d.idx.get re.path with
            | some loc =>
                let result := execMetaOnly h d loc re
                (result.1, .finished result.2)
            | none => (d, .finished (.ok false))
        | .content => (d, .transfer re dec.useDelta)

def applyDecide (cfg : Config) (h : Host) (d : Daemon) (remote : Entry) : Daemon × Started :=
  match relPath cfg.dir remote.path with
  | .error e => (d, .finished (.error (.rejectPath e)))
  | .ok rel =>
      let re := { remote with path := rel }
      if remote.deleted = false ∧ remote.hash = [] then
        (d, .finished (.error (.peerLogical (.missingHash rel))))
      else applyDecided h d re

def applyCommit (h : Host) (d : Daemon) (re : Entry) (data got : Bytes) :
    Daemon × Except ApplyError Bool :=
  if h.cancelled then (d, .error .cancelled) else commitContent h d re data got

/-- The outside of one applyRemote call: the system during its two critical
sections and the transfer, and what the network delivers. -/
structure ApplyEnv where
  decideHost : Host
  transferHost : Host
  commitHost : Host
  replies : Replies

/-- applyRemote with nothing else running meanwhile. -/
def applyRemote (cfg : Config) (hs : Hashes) (env : ApplyEnv) (d : Daemon) (remote : Entry) :
    Daemon × Outcome ApplyError Bool :=
  match applyDecide cfg env.decideHost d remote with
  | (d1, .finished (.ok changed)) => (d1, .ok changed)
  | (d1, .finished (.error e)) => (d1, .err e)
  | (d1, .transfer re useDelta) =>
      match transfer cfg hs env.transferHost d1.root re useDelta env.replies with
      | .panic => (d1, .panic)
      | .err e => (d1, .err e)
      | .ok (data, got) =>
          match applyCommit env.commitHost d1 re data got with
          | (d2, .ok changed) => (d2, .ok changed)
          | (d2, .error e) => (d2, .err e)

end TailSync.RemoteApply

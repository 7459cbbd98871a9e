import TailSync.RemoteApply

/-!
Everything a critical section of the apply path can do. An apply that reports no change
has lost against the recorded entry or met a file that has drifted from it. An apply that
fails leaves the index alone. An apply that reports a change has stored exactly one entry:
a tombstone where nothing was live, a tombstone for a removed file, adopted metadata, or
committed bytes. This holds in any tree. With no link at the path or on the way to it, the
list also says what has become of the file there, and the results about whole runs in
trees without links are read off that.
-/
namespace TailSync.ApplyEffects

open ByteStrings Entries IndexMap SyncRoot RootEffects Scanning Transfers RemoteApply
open FileTrees (Tree)
open RelativePaths (CleanPath)

def Settled (c re : Entry) : Prop :=
  c.deleted = false ∧ re.deleted = false ∧ c.hash = re.hash ∧ metaDiffers c re = false

/-- The guard has been passed: what Stat finds at the path is what the live
entry records. -/
def Guarded (h : Host) (d : Daemon) (p : Bytes) : Prop :=
  diskUnsynced h d.root p (liveEntry d.idx p) = .ok false

def retimed (h : Host) (re : Entry) (f : File) : File :=
  { f with
    modTime := if isZero re.modTime then f.modTime else h.storedTime re.modTime
    perm := h.storedPerm (fileMode re.mode) }

def writtenFile (h : Host) (re : Entry) (data : Bytes) : File where
  bytes := data
  modTime :=
    if isZero re.modTime || h.fails .chtimes then h.writeTime else h.storedTime re.modTime
  perm := h.storedPerm (fileMode re.mode)

/-- The mtime diskMeta falls back to in a content commit. -/
def fallbackTime (idx : Index) (re : Entry) : Time :=
  if isZero re.modTime then
    match liveEntry idx re.path with
    | some cur => cur.modTime
    | none => re.modTime
  else re.modTime

def timedRoot (h : Host) (d : Daemon) (re : Entry) : SyncRoot.Root × Except FsError Unit :=
  if isZero re.modTime then (d.root, .ok ()) else chtimes h .chtimes d.root re.path re.modTime

def committedRoot (h : Host) (d : Daemon) (re : Entry) (data : Bytes) : SyncRoot.Root :=
  let written := writeFileRoot h d.root re.path data (fileMode re.mode)
  if isZero re.modTime then written.1 else (chtimes h .chtimes written.1 re.path re.modTime).1

/-- The index, what has been saved of it and the count of unsaved applies are as before. -/
structure Kept (d d' : Daemon) : Prop where
  idx : d'.idx = d.idx
  saved : d'.saved = d.saved
  count : d'.appliesSinceSave = d.appliesSinceSave

theorem Kept.refl (d : Daemon) : Kept d d := ⟨rfl, rfl, rfl⟩

def Counted (d d' : Daemon) : Prop :=
  (d'.saved = d.saved ∧ d'.appliesSinceSave = d.appliesSinceSave + 1) ∨
    (d'.saved = d'.idx ∧ d'.appliesSinceSave = 0)

/-- The ways a critical section reports a change; content holds the bytes and their
hash when the section commits them. -/
inductive Applied (h : Host) (re : Entry) (content : Option (Bytes × Bytes)) (d d' : Daemon) :
    Prop
  | tombstoned (deleted : re.deleted = true) (dead : liveEntry d.idx re.path = none)
      (root : d'.root = d.root) (idx : d'.idx = d.idx.set re)
  | removed {loc : Entry} (deleted : re.deleted = true)
      (live : liveEntry d.idx re.path = some loc) (guarded : Guarded h d re.path)
      (root : d'.root = (remove h d.root re.path).1)
      (gone : ∀ e, (remove h d.root re.path).2 = .error e → isNotExist e = true)
      (idx : d'.idx = d.idx.set re)
  | adopted {loc : Entry} (alive : re.deleted = false)
      (live : liveEntry d.idx re.path = some loc) (hash : loc.hash = re.hash)
      (differs : metaDiffers loc re = true)
      (guarded : diskUnsynced h d.root re.path (some loc) = .ok false)
      (timed : (timedRoot h d re).2 = .ok ())
      (moded : (chmod h .chmod (timedRoot h d re).1 re.path (fileMode re.mode)).2 = .ok ())
      (root : d'.root = (chmod h .chmod (timedRoot h d re).1 re.path (fileMode re.mode)).1)
      (idx : d'.idx = d.idx.set (adoptedEntry loc re
        (diskMeta h d'.root re.path (fileMode re.mode) re.modTime loc.modTime)))
  | committed {data got : Bytes} (bytes : content = some (data, got))
      (guarded : Guarded h d re.path)
      (written : (writeFileRoot h d.root re.path data (fileMode re.mode)).2 = .ok ())
      (root : d'.root = committedRoot h d re data)
      (idx : d'.idx = d.idx.set (committedEntry h re data got
        (diskMeta h d'.root re.path (fileMode re.mode) re.modTime (fallbackTime d.idx re))))

/-- Every reported change stores one entry, under the path of the announced one. -/
theorem Applied.set {h : Host} {re : Entry} {content : Option (Bytes × Bytes)} {d d' : Daemon}
    (happlied : Applied h re content d d') : ∃ e, e.path = re.path ∧ d'.idx = d.idx.set e := by
  cases happlied with
  | tombstoned _ _ _ idx => exact ⟨re, rfl, idx⟩
  | removed _ _ _ _ _ idx => exact ⟨re, rfl, idx⟩
  | adopted _ live _ _ _ _ _ _ idx =>
    have hpath := Index.get_path (Option.filter_eq_some_iff.mp live).1
    refine ⟨_, ?_, idx⟩
    exact hpath
  | committed _ _ _ _ idx =>
    refine ⟨_, ?_, idx⟩
    rfl

inductive Ended (h : Host) (re : Entry) (content : Option (Bytes × Bytes)) (d d' : Daemon) :
    Except ApplyError Bool → Prop
  | lost {c : Entry} (same : d' = d) (cur : d.idx.get re.path = some c)
      (why : ¬ wins c re ∨ Settled c re) : Ended h re content d d' (.ok false)
  | skipped (same : d' = d)
      (why : diskUnsynced h d.root re.path (liveEntry d.idx re.path) = .ok true) :
      Ended h re content d d' (.ok false)
  | failed {e : ApplyError} (same : d' = d) : Ended h re content d d' (.error e)
  | rolledBack {e : ApplyError} {loc : Entry} (kept : Kept d d')
      (guarded : Guarded h d re.path) (beats : ∀ c, d.idx.get re.path = some c → wins c re)
      (root : d'.root = rollbackMeta h (timedRoot h d re).1 loc re) :
      Ended h re content d d' (.error e)
  | unwritten {e : ApplyError} {data : Bytes} (kept : Kept d d')
      (err : (writeFileRoot h d.root re.path data (fileMode re.mode)).2 ≠ .ok ())
      (root : d'.root = (writeFileRoot h d.root re.path data (fileMode re.mode)).1) :
      Ended h re content d d' (.error e)
  | applied (beats : ∀ c, d.idx.get re.path = some c → wins c re)
      (applied : Applied h re content d d') (counted : Counted d d') :
      Ended h re content d d' (.ok true)

/-- A section kept the index, or applied its entry, which then beats the one recorded. -/
theorem Ended.kept_or_applied {h : Host} {re : Entry} {content : Option (Bytes × Bytes)}
    {d d' : Daemon} {r : Except ApplyError Bool} (hended : Ended h re content d d' r) :
    (r ≠ .ok true ∧ Kept d d') ∨
      (r = .ok true ∧ (∀ c, d.idx.get re.path = some c → wins c re) ∧
        Applied h re content d d' ∧ Counted d d') := by
  cases hended with
  | lost same _ _ => exact Or.inl ⟨by simp, same ▸ Kept.refl d⟩
  | skipped same _ => exact Or.inl ⟨by simp, same ▸ Kept.refl d⟩
  | failed same => exact Or.inl ⟨by simp, same ▸ Kept.refl d⟩
  | rolledBack kept _ _ _ => exact Or.inl ⟨by simp, kept⟩
  | unwritten kept _ _ => exact Or.inl ⟨by simp, kept⟩
  | applied beats applied counted => exact Or.inr ⟨rfl, beats, applied, counted⟩

section Guard
variable {h : Host} {d : Daemon} {p : Bytes}

theorem liveEntry_eq_some {idx : Index} {e : Entry} :
    liveEntry idx p = some e ↔ idx.get p = some e ∧ e.deleted = false := by
  unfold liveEntry
  rw [Option.filter_eq_some_iff]
  simp

theorem liveEntry_eq_none {idx : Index} :
    liveEntry idx p = none ↔ ∀ e, idx.get p = some e → e.deleted = true := by
  unfold liveEntry
  rw [Option.filter_eq_none_iff]
  simp

theorem beats_of_not_outranked {cur : Option Entry} {re : Entry}
    (hnot : outranked cur re = false) : ∀ c, cur = some c → wins c re := by
  rintro c rfl
  simpa [outranked] using hnot

theorem outranked_some {cur : Option Entry} {re : Entry} (hout : outranked cur re = true) :
    ∃ c, cur = some c ∧ ¬ wins c re := by
  cases cur with
  | none => exact absurd hout (by simp [outranked])
  | some c => exact ⟨c, rfl, by simpa [outranked] using hout⟩

/-- A file behind the guard is the one the live entry describes. -/
theorem guarded_file (hg : Guarded h d p) {f : File}
    (hf : fileAt d.root p = some f) :
    ∃ cur, d.idx.get p = some cur ∧ cur.deleted = false ∧ cur.size = f.bytes.length ∧
      cur.modTime = f.modTime := by
  unfold Guarded diskUnsynced at hg
  have hop : h.fails .statGuard = false := by
    by_contra hfails
    rw [Bool.not_eq_false] at hfails
    simp [stat, hfails, isNotExist] at hg
  rw [stat_file hop hf] at hg
  dsimp only at hg
  split at hg
  · exact absurd hg (by simp)
  · rename_i cur hlive
    have hsame := of_decide_eq_false (Except.ok.inj hg)
    rw [not_or, not_not, not_not] at hsame
    obtain ⟨hget, halive⟩ := liveEntry_eq_some.mp hlive
    exact ⟨cur, hget, halive, hsame.1.symm, hsame.2.symm⟩

end Guard

section Sections
variable {h : Host} {d : Daemon} {re : Entry}

@[simp] theorem maybeSaveLocked_idx (h : Host) (d : Daemon) :
    (maybeSaveLocked h d).idx = d.idx := by
  unfold maybeSaveLocked
  split
  · split <;> rfl
  · rfl

@[simp] theorem maybeSaveLocked_root (h : Host) (d : Daemon) :
    (maybeSaveLocked h d).root = d.root := by
  unfold maybeSaveLocked
  split
  · split <;> rfl
  · rfl

theorem maybeSaveLocked_counted {d d₁ : Daemon} (hsaved : d₁.saved = d.saved)
    (hcount : d₁.appliesSinceSave = d.appliesSinceSave + 1) :
    Counted d (maybeSaveLocked h d₁) := by
  unfold maybeSaveLocked
  split
  · split
    · exact Or.inl ⟨hsaved, hcount⟩
    · exact Or.inr ⟨rfl, rfl⟩
  · exact Or.inl ⟨hsaved, hcount⟩

theorem fileMode_ne_zero (mode : Mode) : fileMode mode ≠ 0 := by
  unfold fileMode
  split
  · decide
  · assumption

theorem timedRoot_failed {e : FsError} (herr : (timedRoot h d re).2 = .error e) :
    (timedRoot h d re).1 = d.root := by
  unfold timedRoot at herr ⊢
  split
  · rfl
  · rename_i hzero
    rw [if_neg hzero] at herr
    exact tryAttr_failed herr

theorem timedRoot_no_file (hno : ∀ q f, locate d.root true re.path ≠ .ok (q, .file f)) :
    (timedRoot h d re).1 = d.root := by
  unfold timedRoot
  split
  · rfl
  · exact tryAttr_no_file hno

theorem timedRoot_file (hok : (timedRoot h d re).2 = .ok ()) {q : List FileName} {f : File}
    (hloc : locate d.root true re.path = .ok (q, .file f)) :
    Tree.FileAdded d.root (timedRoot h d re).1 q { f with
      modTime := if isZero re.modTime then f.modTime else h.storedTime re.modTime } ∧
    locate (timedRoot h d re).1 true re.path = .ok (q, .file { f with
      modTime := if isZero re.modTime then f.modTime else h.storedTime re.modTime }) := by
  unfold timedRoot at hok ⊢
  by_cases hzero : isZero re.modTime = true
  · obtain ⟨_, _, _, hget⟩ := locate_eq_ok.mp hloc
    simp only [if_pos hzero]
    exact ⟨⟨hget, fun _ _ => rfl⟩, hloc⟩
  · rw [if_neg hzero] at hok
    simp only [if_neg hzero]
    rcases tryAttr_cases h .chtimes (fun f => { f with modTime := h.storedTime re.modTime })
      d.root re.path with ⟨q', g, hloc', _, _, hadded, hfound⟩ | ⟨_, hno⟩
    · rw [hloc] at hloc'
      cases hloc'
      exact ⟨hadded, hfound⟩
    · exact absurd hloc (hno hok q f)

inductive Deletes (h : Host) (d : Daemon) (re : Entry) : Daemon × Except ApplyError Bool → Prop
  | outranked {c : Entry} (cur : d.idx.get re.path = some c) (why : ¬ wins c re) :
      Deletes h d re (d, .ok false)
  | refused {e : FsError} : Deletes h d re (d, .error (.stat re.path e))
  | unsynced (why : diskUnsynced h d.root re.path (liveEntry d.idx re.path) = .ok true) :
      Deletes h d re (d, .ok false)
  | failed {e : FsError} : Deletes h d re (d, .error (.delete re.path e))
  | removed {d' : Daemon} (guarded : Guarded h d re.path)
      (beats : ∀ c, d.idx.get re.path = some c → wins c re)
      (root : d'.root = (remove h d.root re.path).1)
      (gone : ∀ e, (remove h d.root re.path).2 = .error e → isNotExist e = true)
      (idx : d'.idx = d.idx.set re) (counted : Counted d d') : Deletes h d re (d', .ok true)

theorem storeTombstone_deletes (hguard : Guarded h d re.path)
    (hbeats : ∀ c, d.idx.get re.path = some c → wins c re)
    (hgone : ∀ e, (remove h d.root re.path).2 = .error e → isNotExist e = true) :
    Deletes h d re (execDeleteLive.storeTombstone h
      { d with root := (remove h d.root re.path).1 } re) := by
  have hstored : d.idx.setIfWins re = (d.idx.set re, true) := by
    rcases Index.setIfWins_cases d.idx re with ⟨heq, _⟩ | ⟨_, loc, hloc, hnot⟩
    · exact heq
    · exact absurd (hbeats loc hloc) hnot
  unfold execDeleteLive.storeTombstone
  dsimp only
  rw [hstored, if_pos rfl]
  exact .removed hguard hbeats (by simp) hgone (by simp) (maybeSaveLocked_counted rfl rfl)

theorem execDeleteLive_deletes (h : Host) (d : Daemon) (re : Entry) :
    Deletes h d re (execDeleteLive h d re) := by
  unfold execDeleteLive
  by_cases hout : outranked (d.idx.get re.path) re = true
  · obtain ⟨c, hc, hnot⟩ := outranked_some hout
    rw [if_pos hout]
    exact .outranked hc hnot
  · rw [if_neg hout]
    have hbeats := beats_of_not_outranked (by simpa using hout)
    cases hguard : diskUnsynced h d.root re.path (liveEntry d.idx re.path) with
    | error e => exact .refused
    | ok unsynced =>
      cases unsynced with
      | true => exact .unsynced hguard
      | false =>
        dsimp only
        cases hrem : (remove h d.root re.path).2 with
        | error e =>
          dsimp only
          by_cases hne : isNotExist e = true
          · rw [if_pos hne]
            refine storeTombstone_deletes hguard hbeats ?_
            intro e' he'
            rw [hrem] at he'
            cases he'
            exact hne
          · rw [if_neg hne, remove_failed hrem]
            exact .failed
        | ok u =>
          refine storeTombstone_deletes hguard hbeats ?_
          intro e he
          rw [hrem] at he
          exact absurd he (by simp)

inductive Adopts (h : Host) (d : Daemon) (loc re : Entry) :
    Daemon × Except ApplyError Bool → Prop
  | refused {e : FsError} (why : diskUnsynced h d.root re.path (some loc) = .error e) :
      Adopts h d loc re (d, .error (.stat re.path e))
  | unsynced (why : diskUnsynced h d.root re.path (some loc) = .ok true) :
      Adopts h d loc re (d, .ok false)
  | untimed {e : FsError} (why : (timedRoot h d re).2 = .error e) :
      Adopts h d loc re (d, .error (.chtimes re.path e))
  | rolledBack {e : FsError} (guarded : diskUnsynced h d.root re.path (some loc) = .ok false)
      (timed : (timedRoot h d re).2 = .ok ()) :
      Adopts h d loc re
        ({ d with root := rollbackMeta h (timedRoot h d re).1 loc re }, .error (.chmod re.path e))
  | adopted {d' : Daemon} (guarded : diskUnsynced h d.root re.path (some loc) = .ok false)
      (timed : (timedRoot h d re).2 = .ok ())
      (moded : (chmod h .chmod (timedRoot h d re).1 re.path (fileMode re.mode)).2 = .ok ())
      (root : d'.root = (chmod h .chmod (timedRoot h d re).1 re.path (fileMode re.mode)).1)
      (idx : d'.idx = d.idx.set (adoptedEntry loc re
        (diskMeta h d'.root re.path (fileMode re.mode) re.modTime loc.modTime)))
      (counted : Counted d d') : Adopts h d loc re (d', .ok true)

theorem execMetaOnly_adopts (h : Host) (d : Daemon) (loc re : Entry) :
    Adopts h d loc re (execMetaOnly h d loc re) := by
  unfold execMetaOnly
  cases hguard : diskUnsynced h d.root re.path (some loc) with
  | error e => exact .refused hguard
  | ok unsynced =>
    cases unsynced with
    | true => exact .unsynced hguard
    | false =>
      dsimp only
      rw [← timedRoot]
      cases htimed : (timedRoot h d re).2 with
      | error e =>
        dsimp only
        rw [timedRoot_failed htimed]
        exact .untimed htimed
      | ok u =>
        dsimp only
        cases hmoded : (chmod h .chmod (timedRoot h d re).1 re.path (fileMode re.mode)).2 with
        | error e =>
          dsimp only
          rw [chmod, tryAttr_failed hmoded]
          exact .rolledBack hguard htimed
        | ok u' => exact .adopted hguard htimed hmoded rfl rfl (Or.inl ⟨rfl, rfl⟩)

inductive Commits (h : Host) (d : Daemon) (re : Entry) (data got : Bytes) :
    Daemon × Except ApplyError Bool → Prop
  | outranked {c : Entry} (cur : d.idx.get re.path = some c) (why : ¬ wins c re) :
      Commits h d re data got (d, .ok false)
  | refused {e : FsError} : Commits h d re data got (d, .error (.stat re.path e))
  | unsynced (why : diskUnsynced h d.root re.path (liveEntry d.idx re.path) = .ok true) :
      Commits h d re data got (d, .ok false)
  | unwritten {e : FsError}
      (err : (writeFileRoot h d.root re.path data (fileMode re.mode)).2 = .error e) :
      Commits h d re data got
        ({ d with root := (writeFileRoot h d.root re.path data (fileMode re.mode)).1 },
          .error (.write e))
  | committed {d' : Daemon} (guarded : Guarded h d re.path)
      (beats : ∀ c, d.idx.get re.path = some c → wins c re)
      (written : (writeFileRoot h d.root re.path data (fileMode re.mode)).2 = .ok ())
      (root : d'.root = committedRoot h d re data)
      (idx : d'.idx = d.idx.set (committedEntry h re data got
        (diskMeta h d'.root re.path (fileMode re.mode) re.modTime (fallbackTime d.idx re))))
      (counted : Counted d d') : Commits h d re data got (d', .ok true)

theorem commitContent_commits (h : Host) (d : Daemon) (re : Entry) (data got : Bytes) :
    Commits h d re data got (commitContent h d re data got) := by
  unfold commitContent
  by_cases hout : outranked (d.idx.get re.path) re = true
  · obtain ⟨c, hc, hnot⟩ := outranked_some hout
    rw [if_pos hout]
    exact .outranked hc hnot
  · rw [if_neg hout]
    have hbeats := beats_of_not_outranked (by simpa using hout)
    cases hguard : diskUnsynced h d.root re.path (liveEntry d.idx re.path) with
    | error e => exact .refused
    | ok unsynced =>
      cases unsynced with
      | true => exact .unsynced hguard
      | false =>
        dsimp only
        cases hwritten : (writeFileRoot h d.root re.path data (fileMode re.mode)).2 with
        | error e => exact .unwritten hwritten
        | ok u =>
          refine .committed hguard hbeats hwritten ?_ ?_ (maybeSaveLocked_counted rfl rfl)
          · rw [maybeSaveLocked_root]
            rfl
          · rw [maybeSaveLocked_idx, maybeSaveLocked_root]
            rfl

def DecidedBy (loc : Option Entry) (re : Entry) : ApplyKind → Prop
  | .noop => ∃ c, loc = some c ∧ (¬ wins c re ∨ Settled c re)
  | .tombstone => re.deleted = true ∧ ∀ c, loc = some c → c.deleted = true
  | .deleteLive => re.deleted = true
  | .metaOnly => ∃ c, loc = some c ∧ c.deleted = false ∧ re.deleted = false ∧
      c.hash = re.hash ∧ metaDiffers c re = true ∧ wins c re
  | .content => re.deleted = false

theorem decideApply_decidedBy (loc : Option Entry) (re : Entry) (present : Bool) :
    DecidedBy loc re (decideApply loc re present).kind := by
  unfold decideApply
  cases loc with
  | none =>
    by_cases hdel : re.deleted = true
    · simp [hdel, DecidedBy]
    · simp [hdel, DecidedBy]
  | some c =>
    dsimp only
    split_ifs with hdel hcdel hwins hsame hneed hpresent hwins'
    · exact ⟨hdel, by rintro c' hc'; cases hc'; exact hcdel⟩
    · exact hdel
    · exact ⟨c, rfl, Or.inl hwins⟩
    · rw [Bool.and_eq_true] at hneed
      exact ⟨c, rfl, hsame.1, by simpa using hdel, hsame.2, hneed⟩
    · simpa [DecidedBy] using hdel
    · rw [Bool.and_eq_true, not_and_or] at hneed
      refine ⟨c, rfl, hneed.symm.imp_right fun hmeta => ?_⟩
      exact ⟨hsame.1, by simpa using hdel, hsame.2, by simpa using hmeta⟩
    · simpa [DecidedBy] using hdel
    · exact ⟨c, rfl, Or.inl hwins'⟩

/-- A live file is deleted only where an entry is live. -/
theorem decideApply_deleteLive {loc : Option Entry} {present : Bool}
    (hkind : (decideApply loc re present).kind = .deleteLive) :
    ∃ l, loc = some l ∧ l.deleted = false := by
  unfold decideApply at hkind
  split at hkind
  · split at hkind <;> exact absurd hkind (by simp)
  · rename_i l
    refine ⟨l, rfl, ?_⟩
    split_ifs at hkind with hdel hldel
    simpa using hldel

theorem Deletes.ended {x : Daemon × Except ApplyError Bool} (hdeletes : Deletes h d re x)
    (content : Option (Bytes × Bytes)) {loc : Entry} (hdel : re.deleted = true)
    (hlive : liveEntry d.idx re.path = some loc) : Ended h re content d x.1 x.2 := by
  cases hdeletes with
  | outranked cur why => exact .lost rfl cur (Or.inl why)
  | refused => exact .failed rfl
  | unsynced why => exact .skipped rfl why
  | failed => exact .failed rfl
  | removed guarded beats root gone idx counted =>
    exact .applied beats (.removed hdel hlive guarded root gone idx) counted

theorem Adopts.ended {x : Daemon × Except ApplyError Bool} {loc : Entry}
    (hadopts : Adopts h d loc re x) (content : Option (Bytes × Bytes))
    (halive : re.deleted = false) (hlive : liveEntry d.idx re.path = some loc)
    (hhash : loc.hash = re.hash) (hdiffers : metaDiffers loc re = true) (hwins : wins loc re) :
    Ended h re content d x.1 x.2 := by
  have hbeats : ∀ c, d.idx.get re.path = some c → wins c re := by
    intro c hc
    rw [(liveEntry_eq_some.mp hlive).1] at hc
    cases hc
    exact hwins
  cases hadopts with
  | refused _ => exact .failed rfl
  | unsynced why => exact .skipped rfl (hlive ▸ why)
  | untimed _ => exact .failed rfl
  | rolledBack guarded _ =>
    rw [← hlive] at guarded
    exact .rolledBack ⟨rfl, rfl, rfl⟩ guarded hbeats rfl
  | adopted guarded timed moded root idx counted =>
    exact .applied hbeats (.adopted halive hlive hhash hdiffers guarded timed moded root idx)
      counted

theorem Commits.ended {x : Daemon × Except ApplyError Bool} {data got : Bytes}
    (hcommits : Commits h d re data got x) : Ended h re (some (data, got)) d x.1 x.2 := by
  cases hcommits with
  | outranked cur why => exact .lost rfl cur (Or.inl why)
  | refused => exact .failed rfl
  | unsynced why => exact .skipped rfl why
  | unwritten err => exact .unwritten ⟨rfl, rfl, rfl⟩ (by simp [err]) rfl
  | committed guarded beats written root idx counted =>
    exact .applied beats (.committed rfl guarded written root idx) counted

/-- The deciding section ends, or hands the entry on with the state unchanged. -/
theorem applyDecided_ended (h : Host) (d : Daemon) (re : Entry) :
    (∃ r, (applyDecided h d re).2 = .finished r ∧ Ended h re none d (applyDecided h d re).1 r) ∨
    (∃ useDelta, applyDecided h d re = (d, .transfer re useDelta) ∧ re.deleted = false) := by
  unfold applyDecided
  split
  · exact Or.inl ⟨_, rfl, .failed rfl⟩
  · cases hpresent : diskPresent h d re with
    | error e => exact Or.inl ⟨_, rfl, .failed rfl⟩
    | ok present =>
      have hdec := decideApply_decidedBy (d.idx.get re.path) re present
      dsimp only
      cases hkind : (decideApply (d.idx.get re.path) re present).kind with
      | noop =>
        rw [hkind] at hdec
        obtain ⟨c, hc, hwhy⟩ := hdec
        exact Or.inl ⟨_, rfl, .lost rfl hc hwhy⟩
      | tombstone =>
        rw [hkind] at hdec
        dsimp only
        rcases Index.setIfWins_cases d.idx re with ⟨heq, hbeats⟩ | ⟨heq, loc, hloc, hnot⟩
        · rw [heq]
          exact Or.inl ⟨_, rfl, .applied hbeats
            (.tombstoned hdec.1 (liveEntry_eq_none.mpr hdec.2) rfl rfl) (Or.inl ⟨rfl, rfl⟩)⟩
        · rw [heq]
          exact Or.inl ⟨_, rfl, .lost rfl hloc (Or.inl hnot)⟩
      | deleteLive =>
        obtain ⟨l, hl, hlive⟩ := decideApply_deleteLive hkind
        rw [hkind] at hdec
        exact Or.inl ⟨_, rfl, (execDeleteLive_deletes h d re).ended none hdec
          (liveEntry_eq_some.mpr ⟨hl, hlive⟩)⟩
      | metaOnly =>
        rw [hkind] at hdec
        obtain ⟨c, hc, hlive, halive, hhash, hdiffers, hwins⟩ := hdec
        dsimp only
        rw [hc]
        exact Or.inl ⟨_, rfl, (execMetaOnly_adopts h d c re).ended none halive
          (liveEntry_eq_some.mpr ⟨hc, hlive⟩) hhash hdiffers hwins⟩
      | content =>
        rw [hkind] at hdec
        exact Or.inr ⟨_, rfl, hdec⟩

theorem applyCommit_ended (h : Host) (d : Daemon) (re : Entry) (data got : Bytes) :
    Ended h re (some (data, got)) d (applyCommit h d re data got).1
      (applyCommit h d re data got).2 := by
  unfold applyCommit
  split
  · exact .failed rfl
  · exact (commitContent_commits h d re data got).ended

end Sections

/-- The ways a critical section ends at a path with no link at it or on the way to it. -/
inductive Effect (h : Host) (re : Entry) (content : Option (Bytes × Bytes)) (d d' : Daemon) :
    Except ApplyError Bool → Prop
  | lost {c : Entry} (same : d' = d) (cur : d.idx.get re.path = some c)
      (why : ¬ wins c re ∨ Settled c re) : Effect h re content d d' (.ok false)
  | skipped (same : d' = d)
      (why : diskUnsynced h d.root re.path (liveEntry d.idx re.path) = .ok true) :
      Effect h re content d d' (.ok false)
  | failed {e : ApplyError} (idx : d'.idx = d.idx)
      (node : nodeAt d'.root re.path = nodeAt d.root re.path) :
      Effect h re content d d' (.error e)
  | retouched {e : ApplyError} (guarded : Guarded h d re.path)
      (beats : ∀ c, d.idx.get re.path = some c → wins c re) (idx : d'.idx = d.idx)
      (file : ∀ f, fileAt d.root re.path = some f →
        ∃ f', fileAt d'.root re.path = some f' ∧ f'.bytes = f.bytes)
      (noFile : fileAt d.root re.path = none →
        nodeAt d'.root re.path = nodeAt d.root re.path) : Effect h re content d d' (.error e)
  | tombstoned (deleted : re.deleted = true) (root : d'.root = d.root)
      (dead : liveEntry d.idx re.path = none)
      (beats : ∀ c, d.idx.get re.path = some c → wins c re)
      (idx : d'.idx = d.idx.set re) : Effect h re content d d' (.ok true)
  | removed (deleted : re.deleted = true) (guarded : Guarded h d re.path)
      (beats : ∀ c, d.idx.get re.path = some c → wins c re)
      (gone : nodeAt d'.root re.path = none)
      (idx : d'.idx = d.idx.set re) : Effect h re content d d' (.ok true)
  | adopted {loc : Entry} (cur : d.idx.get re.path = some loc) (live : loc.deleted = false)
      (alive : re.deleted = false) (hash : loc.hash = re.hash)
      (differs : metaDiffers loc re = true) (beats : wins loc re)
      (guarded : Guarded h d re.path)
      (file : ∀ f, fileAt d.root re.path = some f →
        fileAt d'.root re.path = some (retimed h re f))
      (noFile : fileAt d.root re.path = none →
        nodeAt d'.root re.path = nodeAt d.root re.path)
      (idx : d'.idx = d.idx.set (adoptedEntry loc re
        (diskMeta h d'.root re.path (fileMode re.mode) re.modTime loc.modTime))) :
      Effect h re content d d' (.ok true)
  | written {data got : Bytes} (bytes : content = some (data, got))
      (guarded : Guarded h d re.path)
      (beats : ∀ c, d.idx.get re.path = some c → wins c re)
      (file : fileAt d'.root re.path = some (writtenFile h re data))
      (idx : d'.idx = d.idx.set (committedEntry h re data got
        (diskMeta h d'.root re.path (fileMode re.mode) re.modTime (fallbackTime d.idx re)))) :
      Effect h re content d d' (.ok true)

section Direct
variable {h : Host} {d d' : Daemon} {re : Entry} {content : Option (Bytes × Bytes)}

theorem timedRoot_spec (ht : Direct d.root re.path) (junk : Bool) :
    Touches junk re.path d.root (timedRoot h d re).1 ∧
      KeepsBytes re.path d.root (timedRoot h d re).1 := by
  unfold timedRoot
  split
  · exact ⟨Touches.refl junk _ _, KeepsBytes.refl _ _⟩
  · exact ⟨tryAttr_touches junk ht _ _, tryAttr_keeps ht _ fun _ => rfl⟩

theorem timedRoot_fileAt (hok : (timedRoot h d re).2 = .ok ()) {f : File}
    (hf : fileAt d.root re.path = some f) :
    fileAt (timedRoot h d re).1 re.path = some { f with
      modTime := if isZero re.modTime then f.modTime else h.storedTime re.modTime } := by
  obtain ⟨q, hnames, hloc⟩ := locate_file true hf
  exact fileAt_eq_some.mpr (by simp [nodeAt, hnames, (timedRoot_file hok hloc).1.file])

theorem rollbackMeta_keeps {t : SyncRoot.Root} (ht : Direct t re.path) (loc : Entry)
    (junk : Bool) :
    Touches junk re.path t (rollbackMeta h t loc re) ∧
      KeepsBytes re.path t (rollbackMeta h t loc re) := by
  unfold rollbackMeta
  dsimp only
  split
  · have htimes : Touches junk re.path t (chtimes h .rollbackTimes t re.path loc.modTime).1 :=
      tryAttr_touches junk ht _ _
    have hkeeps : KeepsBytes re.path t (chtimes h .rollbackTimes t re.path loc.modTime).1 :=
      tryAttr_keeps ht _ fun _ => rfl
    exact ⟨htimes.trans (tryAttr_touches junk (htimes.direct ht) _ _),
      hkeeps.trans (tryAttr_keeps (htimes.direct ht) _ fun _ => rfl)⟩
  · exact ⟨tryAttr_touches junk ht _ _, tryAttr_keeps ht _ fun _ => rfl⟩

/-- After a successful write the modification time is set, or the failure to set
it is ignored. -/
theorem committedRoot_fileAt {data : Bytes}
    (hf : fileAt (writeFileRoot h d.root re.path data (fileMode re.mode)).1 re.path =
      some ⟨data, h.writeTime, h.storedPerm (fileMode re.mode)⟩) :
    fileAt (committedRoot h d re data) re.path = some (writtenFile h re data) := by
  unfold committedRoot
  dsimp only
  by_cases hzero : isZero re.modTime = true
  · rw [if_pos hzero, hf]
    simp [writtenFile, hzero]
  · rw [if_neg hzero]
    obtain ⟨q, _, hloc⟩ := locate_file true hf
    cases hop : h.fails .chtimes with
    | true =>
      simp only [chtimes, tryAttr, hop, if_true, hf]
      simp [writtenFile, hzero, hop]
    | false =>
      rw [chtimes, tryAttr_fileAt hf (tryAttr_file hop hloc).1]
      simp [writtenFile, hzero, hop]

theorem committedRoot_touches {data : Bytes} (ht : Direct d.root re.path)
    (hp : CleanPath re.path) :
    Touches (h.fails .cleanup) re.path d.root (committedRoot h d re data) := by
  have hwrite := writeFileRoot_touches (h := h) ht hp data (fileMode re.mode)
  unfold committedRoot
  dsimp only
  split
  · exact hwrite
  · exact hwrite.trans (tryAttr_touches _ (hwrite.direct ht) _ _)

theorem removed_nodeAt (ht : Direct d.root re.path)
    (hgone : ∀ e, (remove h d.root re.path).2 = .error e → isNotExist e = true) :
    nodeAt (remove h d.root re.path).1 re.path = none := by
  cases hrem : (remove h d.root re.path).2 with
  | ok u => exact remove_ok ht hrem
  | error e =>
    rw [remove_failed hrem]
    obtain ⟨e', hloc⟩ := remove_notExist hrem (hgone e hrem)
    by_contra hsome
    obtain ⟨x, hx⟩ := Option.ne_none_iff_exists'.mp hsome
    obtain ⟨q, _, _, hok⟩ := locate_of_nodeAt false ht hx
    rw [hloc] at hok
    exact absurd hok (by simp)

theorem Applied.effect (happlied : Applied h re content d d')
    (hbeats : ∀ c, d.idx.get re.path = some c → wins c re) (ht : Direct d.root re.path)
    (hp : CleanPath re.path) :
    Effect h re content d d' (.ok true) ∧
      Touches (h.fails .cleanup) re.path d.root d'.root := by
  cases happlied with
  | tombstoned deleted dead root idx =>
    exact ⟨.tombstoned deleted root dead hbeats idx, root ▸ Touches.refl _ _ _⟩
  | removed deleted live guarded root gone idx =>
    refine ⟨.removed deleted guarded hbeats ?_ idx, root ▸ remove_touches _ ht⟩
    rw [root]
    exact removed_nodeAt ht gone
  | @adopted loc alive live hash differs guarded timed moded root idx =>
    obtain ⟨hcur, hlive⟩ := liveEntry_eq_some.mp live
    obtain ⟨htouch, hkeeps⟩ := timedRoot_spec (h := h) ht (h.fails .cleanup)
    have hmode : KeepsBytes re.path (timedRoot h d re).1 d'.root := by
      rw [root]
      exact tryAttr_keeps (htouch.direct ht) _ fun _ => rfl
    rw [← live] at guarded
    refine ⟨.adopted hcur hlive alive hash differs (hbeats loc hcur) guarded ?_ ?_ idx, ?_⟩
    · intro f hf
      rw [root]
      exact tryAttr_fileAt (timedRoot_fileAt timed hf) moded
    · intro hnone
      rw [(hkeeps.trans hmode).noFile hnone]
    · rw [root]
      exact htouch.trans (tryAttr_touches _ (htouch.direct ht) _ _)
  | @committed data got bytes guarded written root idx =>
    have hfile := writeFileRoot_ok ht hp written
    rw [if_neg (fileMode_ne_zero re.mode)] at hfile
    refine ⟨.written bytes guarded hbeats ?_ idx, root ▸ committedRoot_touches ht hp⟩
    rw [root]
    exact committedRoot_fileAt hfile

theorem Ended.effect {r : Except ApplyError Bool} (hended : Ended h re content d d' r)
    (ht : Direct d.root re.path) (hp : CleanPath re.path) :
    Effect h re content d d' r ∧ Touches (h.fails .cleanup) re.path d.root d'.root := by
  cases hended with
  | lost same cur why => exact ⟨.lost same cur why, same ▸ Touches.refl _ _ _⟩
  | skipped same why => exact ⟨.skipped same why, same ▸ Touches.refl _ _ _⟩
  | failed same =>
    subst same
    exact ⟨.failed rfl rfl, Touches.refl _ _ _⟩
  | @rolledBack _ loc kept guarded beats root =>
    obtain ⟨htouch, hkeeps⟩ := timedRoot_spec (h := h) ht (h.fails .cleanup)
    obtain ⟨hback, hbackKeeps⟩ :=
      rollbackMeta_keeps (h := h) (htouch.direct ht) loc (h.fails .cleanup)
    have hall := hkeeps.trans hbackKeeps
    rw [← root] at hall hback
    refine ⟨.retouched guarded beats kept.idx hall.file ?_, htouch.trans hback⟩
    intro hnone
    rw [hall.noFile hnone]
  | @unwritten _ data kept err root =>
    refine ⟨.failed kept.idx ?_, root ▸ writeFileRoot_touches ht hp data _⟩
    rw [root]
    exact writeFileRoot_error ht hp err
  | applied beats applied _ => exact applied.effect beats ht hp

end Direct

/-- The index changes at the entry's own path only. -/
theorem Effect.get_ne {h : Host} {re : Entry} {content : Option (Bytes × Bytes)} {d d' : Daemon}
    {r : Except ApplyError Bool} (heff : Effect h re content d d' r) {q : Bytes}
    (hq : q ≠ re.path) : d'.idx.get q = d.idx.get q := by
  cases heff with
  | lost same _ _ => rw [same]
  | skipped same _ => rw [same]
  | failed idx _ => rw [idx]
  | retouched _ _ idx _ _ => rw [idx]
  | tombstoned _ _ _ _ idx => rw [idx, Index.get_set_of_ne _ _ hq]
  | removed _ _ _ _ idx => rw [idx, Index.get_set_of_ne _ _ hq]
  | adopted cur _ _ _ _ _ _ _ _ idx =>
    rw [idx, Index.get_set_of_ne]
    rw [← Index.get_path cur] at hq
    exact hq
  | written _ _ _ _ idx =>
    rw [idx]
    exact Index.get_set_of_ne _ _ hq

/-- Whatever changes a file passed the guard, and its entry beats the recorded one. -/
theorem Effect.changed {h : Host} {re : Entry} {content : Option (Bytes × Bytes)}
    {d d' : Daemon} {r : Except ApplyError Bool} (heff : Effect h re content d d' r) {f : File}
    (hf : fileAt d.root re.path = some f) (hne : fileAt d'.root re.path ≠ some f) :
    Guarded h d re.path ∧ ∀ c, d.idx.get re.path = some c → wins c re := by
  cases heff with
  | lost same _ _ => exact absurd (by rw [same, hf]) hne
  | skipped same _ => exact absurd (by rw [same, hf]) hne
  | failed _ node =>
    rw [fileAt_eq_asFile, node, ← fileAt_eq_asFile] at hne
    exact absurd hf hne
  | retouched guarded beats _ _ _ => exact ⟨guarded, beats⟩
  | tombstoned _ root _ _ _ => exact absurd (by rw [root, hf]) hne
  | removed _ guarded beats _ _ => exact ⟨guarded, beats⟩
  | adopted cur _ _ _ _ beats guarded _ _ _ =>
    refine ⟨guarded, ?_⟩
    intro c hc
    rw [cur] at hc
    cases hc
    exact beats
  | written _ guarded beats _ _ => exact ⟨guarded, beats⟩

end TailSync.ApplyEffects

import TailSync.ApplyRuns
import TailSync.ObservedMeta
import Mathlib.Data.Int.ConditionallyCompleteOrder
import Mathlib.Data.Set.Finite.Lemmas
import Mathlib.Order.WithBot

/-!
A successful apply is a join. The version of a path is the coarse last-writer-wins
key of its entry, or bottom when it has none. On a system that keeps modes and
times exactly, while disk and index agree on a path and no link on the way to it
dangles, applying an entry to it takes the version to its supremum with the key of
the entry and keeps the agreement, whichever of the five decisions is taken.
-/
namespace TailSync.LwwJoins

open ByteStrings Entries IndexMap SyncRoot RootEffects Scanning Transfers RemoteApply
open ApplyEffects ApplyRuns ObservedMeta
open RelativePaths (CleanPath)

/-- The entries convergence is about: stamped, with a time, and with nothing but
permission bits in the mode. -/
structure Proper (e : Entry) : Prop where
  updatedAt : e.updatedAt ≠ 0
  modTime : e.modTime ≠ 0
  mode : e.mode ≠ 0
  permOnly : perm e.mode = e.mode

def version (idx : Index) (p : Bytes) : WithBot CoarseKey :=
  match idx.get p with
  | some e => coarseKey e
  | none => ⊥

/-- Disk and index agree on a path: for a live entry Stat finds a file with its size,
time and hash, and where no entry is live it finds nothing. -/
structure Agrees (hs : Hashes) (d : Daemon) (p : Bytes) : Prop where
  live : ∀ e, d.idx.get p = some e → e.deleted = false →
    ∃ f, found d.root p = some (.file f) ∧ e.size = f.bytes.length ∧ e.modTime = f.modTime ∧
      e.hash = contentHash hs.sha256 f.bytes
  free : liveEntry d.idx p = none → found d.root p = none

/-- Disk and index agree as far as files are concerned: where no entry is live there is
no file, but there may be a directory. -/
structure FilesAgree (hs : Hashes) (d : Daemon) (p : Bytes) : Prop where
  live : ∀ e, d.idx.get p = some e → e.deleted = false →
    ∃ f, found d.root p = some (.file f) ∧ e.size = f.bytes.length ∧ e.modTime = f.modTime ∧
      e.hash = contentHash hs.sha256 f.bytes
  free : liveEntry d.idx p = none → ∀ f, found d.root p ≠ some (.file f)

theorem version_of_get {idx : Index} {p : Bytes} {e : Entry} (h : idx.get p = some e) :
    version idx p = coarseKey e := by
  simp [version, h]

theorem version_le_of_beats {idx : Index} {p : Bytes} {re : Entry}
    (hbeats : ∀ c, idx.get p = some c → wins c re) : version idx p ≤ coarseKey re := by
  unfold version
  cases hget : idx.get p with
  | none => exact bot_le
  | some c => exact WithBot.coe_le_coe.mpr (wins_coarse (hbeats c hget))

/-- Entries that need no update are no older in the coarse order. -/
theorem settled_le {c re : Entry} (hre : Proper re) (hsettled : Settled c re) :
    coarseKey re ≤ coarseKey c := by
  obtain ⟨hlive, halive, hhash, hmeta⟩ := hsettled
  simp only [metaDiffers, Bool.or_eq_false_iff, bne_eq_false_iff_eq, Bool.and_eq_false_iff,
    decide_eq_false_iff_not, gt_iff_lt, not_lt] at hmeta
  obtain ⟨⟨hmode, htime⟩, hstamp⟩ := hmeta
  have hunix : unix re.modTime = unix c.modTime := by
    rcases htime with hzero | hsame
    · exact absurd (by simpa [isZero] using hzero) hre.modTime
    · unfold mtimesDiffer at hsame
      split_ifs at hsame with heq hsecond
      · rw [heq]
      · simp only [Bool.and_eq_true, beq_iff_eq] at hsecond
        exact hsecond.2
  simp only [coarseKey, Prod.Lex.toLex_le_toLex, hlive, halive, hhash, hmode, hunix]
  rcases hstamp.lt_or_eq with hlt | heq
  · exact Or.inl hlt
  · exact Or.inr ⟨heq, by simp⟩

def IsWinner (C : Entry → Prop) (w : Entry) : Prop := C w ∧ ∀ o, C o → ¬ wins w o

theorem exists_winner {C : Entry → Prop} (hfinite : {e | C e}.Finite) {o : Entry} (ho : C o) :
    ∃ w, IsWinner C w := by
  obtain ⟨w, hw, hmax⟩ := Set.exists_max_image {e | C e} lwwKey hfinite ⟨o, ho⟩
  refine ⟨w, hw, ?_⟩
  intro o ho
  rw [wins_iff, not_lt]
  exact hmax o ho

theorem IsWinner.coarse_le {C : Entry → Prop} {w : Entry} (hw : IsWinner C w) {o : Entry}
    (ho : C o) : coarseKey o ≤ coarseKey w := not_wins_coarse (hw.2 o ho)

/-- What a node shows at a path on which an entry has won: its five fields, up to
the second of the time, and its bytes, or nothing if it is a tombstone. -/
structure Shows (hs : Hashes) (d : Daemon) (p : Bytes) (w : Entry) : Prop where
  entry : ∃ e, d.idx.get p = some e ∧ e.updatedAt = w.updatedAt ∧ e.deleted = w.deleted ∧
    e.hash = w.hash ∧ e.mode = w.mode ∧ unix e.modTime = unix w.modTime
  gone : w.deleted = true → found d.root p = none
  bytes : w.deleted = false →
    ∃ f, found d.root p = some (.file f) ∧ contentHash hs.sha256 f.bytes = w.hash

/-- On a path where disk and index agree, the version tells what the node shows. -/
theorem Agrees.shows {hs : Hashes} {d : Daemon} {p : Bytes} (hagrees : Agrees hs d p) {w : Entry}
    (hversion : version d.idx p = coarseKey w) : Shows hs d p w := by
  unfold version at hversion
  cases hget : d.idx.get p with
  | none =>
    rw [hget] at hversion
    exact absurd hversion WithBot.bot_ne_coe
  | some e =>
    rw [hget] at hversion
    have hkey := (coarseKey_eq_iff e w).mp (WithBot.coe_injective hversion)
    refine ⟨⟨e, hget, hkey⟩, ?_, ?_⟩
    · intro hdeleted
      refine hagrees.free (liveEntry_eq_none.mpr ?_)
      intro e' he'
      rw [hget] at he'
      cases he'
      rw [hkey.2.1, hdeleted]
    · intro hlive
      obtain ⟨f, hf, _, _, hhash⟩ := hagrees.live e hget (by rw [hkey.2.1, hlive])
      exact ⟨f, hf, by rw [← hhash, hkey.2.2.1]⟩

section Exact
variable {hs : Hashes} {h : Host} {d d' : Daemon} {re : Entry} {p : Bytes}

/-- While disk and index agree on a path the guard is lowered there. -/
theorem Agrees.not_unsynced (hagrees : Agrees hs d p) :
    diskUnsynced h d.root p (liveEntry d.idx p) ≠ .ok true := by
  unfold diskUnsynced
  cases hlive : liveEntry d.idx p with
  | none =>
    obtain ⟨e, he⟩ := stat_missing h .statGuard (hagrees.free hlive)
    rw [he]
    dsimp only
    split
    · simp
    · simp
  | some cur =>
    obtain ⟨hget, halive⟩ := liveEntry_eq_some.mp hlive
    obtain ⟨f, hf, hsize, htime, _⟩ := hagrees.live cur hget halive
    obtain ⟨q, hloc⟩ := found_eq_some.mp hf
    by_cases hop : h.fails .statGuard = true
    · simp [stat, hop, isNotExist]
    · rw [stat_of_locate (by simpa using hop) hloc]
      simp [infoOf, File.info, hsize, htime]

/-- There is no directory where disk and index agree. -/
theorem Agrees.no_dir (hagrees : Agrees hs d p) : found d.root p ≠ some .dir := by
  cases hlive : liveEntry d.idx p with
  | none => simp [hagrees.free hlive]
  | some cur =>
    obtain ⟨hget, halive⟩ := liveEntry_eq_some.mp hlive
    obtain ⟨f, hf, _⟩ := hagrees.live cur hget halive
    simp [hf]

theorem fileMode_proper (hre : Proper re) : fileMode re.mode = re.mode := by
  simp [fileMode, hre.mode]

end Exact

section Joins
variable {cfg : Config} {hs : Hashes} {h : Host} {d d' : Daemon} {re : Entry}
variable {content : Option (Bytes × Bytes)} {changed : Bool}

/-- What a successful section leaves at its path: the state as it was, already at
least as new as the entry, or an entry with the key of the announced one. -/
inductive Settles (hs : Hashes) (re : Entry) (d d' : Daemon) : Prop
  | kept (same : d' = d) (newer : (coarseKey re : WithBot CoarseKey) ≤ version d.idx re.path)
  | stored {e : Entry} (get : d'.idx.get re.path = some e) (key : lwwKey e = lwwKey re)
      (proper : Proper e) (older : version d.idx re.path ≤ coarseKey re)
      (agrees : Agrees hs d' re.path)

/-- A stored tombstone over a free path. -/
theorem settles_tombstone (hre : Proper re) (hdeleted : re.deleted = true)
    (hbeats : ∀ c, d.idx.get re.path = some c → wins c re) (hidx : d'.idx = d.idx.set re)
    (hfree : found d'.root re.path = none) : Settles hs re d d' := by
  have hget : d'.idx.get re.path = some re := Index.get_of_set hidx rfl
  refine .stored hget rfl hre (version_le_of_beats hbeats) ⟨?_, fun _ => hfree⟩
  intro e he hlive
  rw [hget] at he
  cases he
  rw [hdeleted] at hlive
  exact absurd hlive (by simp)

/-- A stored live entry whose file carries its fields. -/
theorem settles_live {e : Entry} {f : File} (hget : d'.idx.get re.path = some e)
    (hkey : lwwKey e = lwwKey re) (hre : Proper re)
    (hbeats : ∀ c, d.idx.get re.path = some c → wins c re) (hlive : e.deleted = false)
    (hf : found d'.root re.path = some (.file f)) (hsize : e.size = f.bytes.length)
    (htime : e.modTime = f.modTime) (hhash : e.hash = contentHash hs.sha256 f.bytes) :
    Settles hs re d d' := by
  obtain ⟨hupdated, _, _, hmode, hmod⟩ := (lwwKey_eq_iff e re).mp hkey
  refine .stored hget hkey ⟨?_, ?_, ?_, ?_⟩ (version_le_of_beats hbeats) ⟨?_, ?_⟩
  · rw [hupdated]
    exact hre.updatedAt
  · rw [hmod]
    exact hre.modTime
  · rw [hmode]
    exact hre.mode
  · rw [hmode]
    exact hre.permOnly
  · intro e' he' _
    rw [hget] at he'
    cases he'
    exact ⟨f, hf, hsize, htime, hhash⟩
  · intro hnone
    rw [liveEntry_eq_some.mpr ⟨hget, hlive⟩] at hnone
    exact absurd hnone (by simp)

/-- The adopted entry is found with the metadata of the announced one. -/
theorem settles_adopted {loc : Entry} (hexact : h.Exact) (hre : Proper re)
    (hagrees : Agrees hs d re.path) (halive : re.deleted = false)
    (hlive : liveEntry d.idx re.path = some loc) (hhash : loc.hash = re.hash)
    (hguard : diskUnsynced h d.root re.path (some loc) = .ok false)
    (htimed : (timedRoot h d re).2 = .ok ())
    (hmoded : (chmod h .chmod (timedRoot h d re).1 re.path (fileMode re.mode)).2 = .ok ())
    (hroot : d'.root = (chmod h .chmod (timedRoot h d re).1 re.path (fileMode re.mode)).1)
    (hidx : d'.idx = d.idx.set (adoptedEntry loc re
      (diskMeta h d'.root re.path (fileMode re.mode) re.modTime loc.modTime)))
    (hbeats : ∀ c, d.idx.get re.path = some c → wins c re) :
    Settles hs re d d' ∧ WayLeads d'.root re.path := by
  obtain ⟨hcur, hcurLive⟩ := liveEntry_eq_some.mp hlive
  obtain ⟨f, hf, hsize, _, hfhash⟩ := hagrees.live loc hcur hcurLive
  obtain ⟨q, hloc⟩ := found_eq_some.mp hf
  have hloc' := adopted_located htimed hmoded hloc
  have hmeta := adopted_observed hexact hre.permOnly hguard htimed hmoded
  have hzero : isZero re.modTime = false := by simp [isZero, hre.modTime]
  rw [hroot, hmeta, hzero, fileMode_proper hre] at hidx
  rw [← hroot] at hloc'
  have hpath : loc.path = re.path := Index.get_path hcur
  refine ⟨settles_live (Index.get_of_set hidx hpath) ?_ hre hbeats hcurLive
    (found_eq_some.mpr ⟨q, hloc'⟩) hsize ?_ hfhash, .of_locate hloc'⟩
  · rw [lwwKey_eq_iff]
    exact ⟨rfl, hcurLive.trans halive.symm, hhash, rfl, rfl⟩
  · simp [adoptedEntry, retimed, hzero, hexact.storedTime]

/-- The committed bytes are found under the committed entry. -/
theorem settles_committed {data got : Bytes} (hexact : h.Exact) (hre : Proper re)
    (hp : CleanPath re.path) (hway : WayLeads d.root re.path) (hagrees : Agrees hs d re.path)
    (hlive : re.deleted = false) (hgot : got = contentHash hs.sha256 data) (hhash : got = re.hash)
    (hguard : Guarded h d re.path)
    (hwritten : (writeFileRoot h d.root re.path data (fileMode re.mode)).2 = .ok ())
    (hroot : d'.root = committedRoot h d re data)
    (hidx : d'.idx = d.idx.set (committedEntry h re data got
      (diskMeta h d'.root re.path (fileMode re.mode) re.modTime (fallbackTime d.idx re))))
    (hbeats : ∀ c, d.idx.get re.path = some c → wins c re) :
    Settles hs re d d' ∧ WayLeads d'.root re.path := by
  obtain ⟨q, hloc⟩ := committed_located hp hwritten hguard hway hagrees.no_dir
  obtain ⟨mt, hmeta, hmt⟩ :=
    committed_observed hexact hre.permOnly hp hwritten (fallbackTime d.idx re)
  have hzero : isZero re.modTime = false := by simp [isZero, hre.modTime]
  obtain rfl : mt = re.modTime := hmt.resolve_right (by simp [hzero])
  rw [hroot, hmeta, fileMode_proper hre] at hidx
  rw [← hroot] at hloc
  refine ⟨settles_live (Index.get_of_set hidx (committedEntry_path ..)) ?_ hre hbeats hlive
    (found_eq_some.mpr ⟨q, hloc⟩) rfl ?_ hgot, .of_locate hloc⟩
  · rw [lwwKey_eq_iff]
    exact ⟨by simp [committedEntry, isZero, hre.updatedAt], rfl, hhash, rfl, rfl⟩
  · simp [committedEntry, writtenFile, hzero, hexact.chtimes, hexact.storedTime]

theorem ended_settles (hended : Ended h re content d d' (.ok changed)) (hexact : h.Exact)
    (hp : CleanPath re.path) (hway : WayLeads d.root re.path) (hver : Verified cfg hs re content)
    (hre : Proper re) (hagrees : Agrees hs d re.path) :
    Settles hs re d d' ∧ WayLeads d'.root re.path := by
  cases hended with
  | lost same cur why =>
    refine ⟨.kept same ?_, same ▸ hway⟩
    rw [version_of_get cur, WithBot.coe_le_coe]
    rcases why with hnot | hsettled
    · exact not_wins_coarse hnot
    · exact settled_le hre hsettled
  | skipped _ why => exact absurd why hagrees.not_unsynced
  | applied beats applied _ =>
    cases applied with
    | tombstoned deleted dead root idx =>
      rw [root]
      exact ⟨settles_tombstone hre deleted beats idx (by rw [root]; exact hagrees.free dead), hway⟩
    | removed deleted live _ root gone idx =>
      obtain ⟨hcur, hlive⟩ := liveEntry_eq_some.mp live
      obtain ⟨f, hf, _⟩ := hagrees.live _ hcur hlive
      obtain ⟨q, hloc⟩ := found_eq_some.mp hf
      obtain ⟨hfree, hway'⟩ := removed_found hloc gone
      rw [← root] at hfree hway'
      exact ⟨settles_tombstone hre deleted beats idx hfree, hway'⟩
    | adopted alive live hash _ guarded timed moded root idx =>
      exact settles_adopted hexact hre hagrees alive live hash guarded timed moded root idx beats
    | committed bytes guarded written root idx =>
      obtain ⟨hlive, hgot, hhash, _⟩ := hver _ _ bytes
      exact settles_committed hexact hre hp hway hagrees hlive hgot hhash guarded written root idx
        beats

/-- The version after a successful section is the supremum. -/
theorem Settles.version (hsettles : Settles hs re d d') :
    version d'.idx re.path = version d.idx re.path ⊔ coarseKey re := by
  cases hsettles with
  | kept same newer => rw [same, sup_eq_left.mpr newer]
  | stored get key _ older _ =>
    rw [version_of_get get, sup_eq_right.mpr older]
    have heq := (lwwKey_eq_iff _ _).mp key
    rw [(coarseKey_eq_iff _ re).mpr ⟨heq.1, heq.2.1, heq.2.2.1, heq.2.2.2.1, by rw [heq.2.2.2.2]⟩]

theorem Settles.agrees (hsettles : Settles hs re d d') (hagrees : Agrees hs d re.path) :
    Agrees hs d' re.path := by
  cases hsettles with
  | kept same _ =>
    rw [same]
    exact hagrees
  | stored _ _ _ _ agrees => exact agrees

end Joins

end TailSync.LwwJoins

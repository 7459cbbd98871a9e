import TailSync.ApplyRuns
import TailSync.AppliedVersions

/-!
Last-writer-wins and causality. Whatever the clocks say, as long as it is later than
the zero time, and however user edits, scans and applies interleave at any number of
nodes, the entry of a path is only ever replaced by one that beats it or has the same
key. The apply path stores
entries unconditionally, with the mode and the time it finds on disk; on a system
that keeps these exactly this never lowers a key. A scan stamps what it found so
that it beats the entry the node held, so a version made in knowledge of another
beats it. The trees are arbitrary, links included.
-/
namespace TailSync.Causality

open ByteStrings Entries IndexMap SyncRoot RootEffects Scanning Transfers RemoteApply
open ApplyEffects ApplyRuns ObservedMeta AppliedVersions Runs
open RelativePaths (CleanPath cleanRel)

def AtLeast (v e : Entry) : Prop := lwwKey e = lwwKey v ∨ wins v e

theorem atLeast_iff {v e : Entry} : AtLeast v e ↔ lwwKey v ≤ lwwKey e := by
  rw [AtLeast, wins_iff, le_iff_eq_or_lt, eq_comm]

def Raises (idx idx' : Index) : Prop :=
  ∀ p e, idx.get p = some e → ∃ e', idx'.get p = some e' ∧ AtLeast e e'

namespace Raises
variable {idx idx' idx'' : Index}

theorem refl (idx : Index) : Raises idx idx := fun _ e he => ⟨e, he, Or.inl rfl⟩

theorem trans (h : Raises idx idx') (h' : Raises idx' idx'') : Raises idx idx'' := by
  intro p e he
  obtain ⟨e', he', hle⟩ := h p e he
  obtain ⟨e'', he'', hle'⟩ := h' p e' he'
  rw [atLeast_iff] at hle hle'
  exact ⟨e'', he'', atLeast_iff.mpr (hle.trans hle')⟩

theorem of_set {e : Entry} (hidx : idx' = idx.set e)
    (he : ∀ c, idx.get e.path = some c → AtLeast c e) : Raises idx idx' := by
  intro p c hc
  by_cases hp : p = e.path
  · subst hp
    exact ⟨e, by rw [hidx, Index.get_set_self], he c hc⟩
  · exact ⟨c, by rw [hidx, Index.get_set_of_ne idx e hp, hc], Or.inl rfl⟩

end Raises

section Keys
variable {c re e : Entry}

/-- An entry stored for a remote one beats what the remote one beats: its stamp and
mode may be larger, and its time may be that of the entry it replaces. -/
theorem atLeast_of_stored (hwins : wins c re) (hstamp : re.updatedAt ≤ e.updatedAt)
    (hdeleted : e.deleted = re.deleted) (hhash : e.hash = re.hash)
    (hmode : re.mode.toNat ≤ e.mode.toNat)
    (htime : re.modTime ≤ e.modTime ∨ c.modTime ≤ e.modTime) : AtLeast c e := by
  rw [wins_iff] at hwins
  rw [atLeast_iff]
  simp only [lwwKey, Prod.Lex.toLex_lt_toLex, Prod.Lex.toLex_le_toLex] at hwins ⊢
  rw [hdeleted, hhash]
  rcases hwins with hlt | ⟨hupd, hrest⟩
  · exact Or.inl (hlt.trans_le hstamp)
  · rcases (hupd.le.trans hstamp).lt_or_eq with hlt | heq
    · exact Or.inl hlt
    · refine Or.inr ⟨heq, ?_⟩
      rcases hrest with hlt | ⟨hdel, hlt | ⟨hsame, hlt | ⟨hsameMode, hlt⟩⟩⟩
      · exact Or.inl hlt
      · exact Or.inr ⟨hdel, Or.inl hlt⟩
      · exact Or.inr ⟨hdel, Or.inr ⟨hsame, Or.inl (hlt.trans_le hmode)⟩⟩
      · refine Or.inr ⟨hdel, Or.inr ⟨hsame, ?_⟩⟩
        rcases (hsameMode.le.trans hmode).lt_or_eq with hlt' | heq'
        · exact Or.inl hlt'
        · exact Or.inr ⟨heq', htime.elim hlt.le.trans id⟩

theorem le_fileMode (mode : Mode) : mode.toNat ≤ (fileMode mode).toNat := by
  unfold fileMode
  split
  · rename_i hzero
    simp [hzero]
  · exact le_refl _

theorem updatedAt_le {v : Entry} (h : AtLeast v e) : v.updatedAt ≤ e.updatedAt := by
  rw [atLeast_iff] at h
  simp only [lwwKey, Prod.Lex.toLex_le_toLex] at h
  rcases h with hlt | ⟨heq, _⟩
  · exact hlt.le
  · exact heq.le

end Keys

section Sections
variable {h : Host} {d : Daemon} {re : Entry}

/-- A missing stamp is replaced by the clock. -/
theorem le_committed_stamp (hnow : 0 < h.now) (re : Entry) (data got : Bytes)
    (actual : Mode × Time) : re.updatedAt ≤ (committedEntry h re data got actual).updatedAt := by
  simp only [committedEntry]
  split
  · rename_i hzero
    rw [show re.updatedAt = 0 by simpa [isZero] using hzero]
    exact hnow.le
  · exact le_refl _

/-- A missing time is replaced by the time of the write, or by the recorded one. -/
theorem committed_time_le (hwrite : 0 < h.writeTime) {c : Entry}
    (hc : d.idx.get re.path = some c) {mt : Time}
    (hmt : mt = re.modTime ∨
      isZero re.modTime = true ∧ (mt = h.writeTime ∨ mt = fallbackTime d.idx re)) :
    re.modTime ≤ mt ∨ c.modTime ≤ mt := by
  rcases hmt with rfl | ⟨hzero, rfl | rfl⟩
  · exact Or.inl (le_refl _)
  · refine Or.inl ?_
    rw [show re.modTime = 0 by simpa [isZero] using hzero]
    exact hwrite.le
  · unfold fallbackTime
    rw [if_pos hzero]
    split
    · rename_i cur hcur
      obtain ⟨hget, _⟩ := liveEntry_eq_some.mp hcur
      rw [hc] at hget
      cases hget
      exact Or.inr (le_refl _)
    · exact Or.inl (le_refl _)

/-- Whatever a section stores has at least the key of what it replaces. -/
theorem applied_raises {cfg : Config} {hs : Hashes} {content : Option (Bytes × Bytes)}
    {d' : Daemon} (happlied : Applied h re content d d')
    (hbeats : ∀ c, d.idx.get re.path = some c → wins c re) (hver : Verified cfg hs re content)
    (hexact : h.Exact) (hnow : 0 < h.now) (hwrite : 0 < h.writeTime)
    (hmode : perm re.mode = re.mode) (hp : CleanPath re.path) : Raises d.idx d'.idx := by
  cases happlied with
  | tombstoned _ _ _ idx => exact Raises.of_set idx fun c hc => Or.inr (hbeats c hc)
  | removed _ _ _ _ _ idx => exact Raises.of_set idx fun c hc => Or.inr (hbeats c hc)
  | @adopted loc alive live hash _ guarded timed moded root idx =>
    obtain ⟨hget, hlive⟩ := liveEntry_eq_some.mp live
    have hpath : loc.path = re.path := Index.get_path hget
    rw [root, adopted_observed hexact hmode guarded timed moded] at idx
    refine Raises.of_set idx ?_
    intro c hc
    rw [show (adoptedEntry loc re _).path = loc.path from rfl, hpath, hget] at hc
    cases hc
    refine atLeast_of_stored (hbeats _ hget) (le_refl _) (hlive.trans alive.symm) hash
      (le_fileMode re.mode) ?_
    by_cases hzero : isZero re.modTime = true
    · exact Or.inr (by simp [adoptedEntry, hzero])
    · exact Or.inl (by simp [adoptedEntry, hzero])
  | @committed data got bytes _ written root idx =>
    obtain ⟨mt, hmeta, hmt⟩ := committed_observed hexact hmode hp written (fallbackTime d.idx re)
    rw [root, hmeta] at idx
    refine Raises.of_set idx ?_
    intro c hc
    have hcur : d.idx.get re.path = some c := hc
    exact atLeast_of_stored (hbeats c hcur) (le_committed_stamp hnow re data got _) rfl
      (hver data got bytes).2.2.1 (le_fileMode re.mode) (committed_time_le hwrite hcur hmt)

theorem ended_raises {cfg : Config} {hs : Hashes} {content : Option (Bytes × Bytes)}
    {d' : Daemon} {r : Except ApplyError Bool} (hended : Ended h re content d d' r)
    (hver : Verified cfg hs re content) (hexact : h.Exact) (hnow : 0 < h.now)
    (hwrite : 0 < h.writeTime) (hmode : perm re.mode = re.mode) (hp : CleanPath re.path) :
    Raises d.idx d'.idx := by
  rcases hended.kept_or_applied with ⟨_, hkept⟩ | ⟨_, hbeats, happlied, _⟩
  · rw [hkept.idx]
    exact Raises.refl d.idx
  · exact applied_raises happlied hbeats hver hexact hnow hwrite hmode hp

end Sections

section Scans
variable {cfg : Config} {sha256 : Bytes → Digest 32} {h : Host} {d : Daemon}

def CollectsNothing (cfg : Config) (sha256 : Bytes → Digest 32) (h : Host) (d : Daemon) : Prop :=
  ∀ res, scan sha256 h.now h d.root d.idx = .ok res →
    ((apply d.idx res.changes).1.gcTombstones h.gcNow cfg.tombstoneTTL).2 = 0

/-- A reconcile that collects nothing stores every change of its scan. -/
theorem reconcile_stores (hgc : CollectsNothing cfg sha256 h d) {res : ScanResult}
    (hscan : scan sha256 h.now h d.root d.idx = .ok res) (p : Bytes) :
    (reconcile cfg sha256 h d).1.idx.get p = (apply d.idx res.changes).1.get p := by
  rw [reconcile_idx hscan, Index.gcTombstones_of_zero (hgc res hscan)]

theorem reconcile_raises (hnow : 0 < h.now) (hgc : CollectsNothing cfg sha256 h d) :
    Raises d.idx (reconcile cfg sha256 h d).1.idx := by
  cases hscan : scan sha256 h.now h d.root d.idx with
  | error e =>
    rw [reconcile_failed hscan]
    exact Raises.refl d.idx
  | ok res =>
    intro p e he
    rw [reconcile_stores hgc hscan]
    rcases get_apply_scan hnow hscan p with ⟨c, hc, rfl, hget⟩ | ⟨_, hget⟩
    · exact ⟨c.entry, hget, Or.inr (change_wins hnow hscan hc he)⟩
    · exact ⟨e, hget.trans he, Or.inl rfl⟩

end Scans

variable {κ ι : Type*} [DecidableEq κ] [DecidableEq ι]

def PermOnly (e : Entry) : Prop := perm e.mode = e.mode

/-- Systems keep modes and times exactly, modes are permissions, and no tombstone is
collected. Clocks show admitted times. Edits, and what else the systems do, are free. -/
structure Admitted (clock : Time → Prop) (cfg : Config) (hs : Hashes) (s : NodeState ι)
    (a : Action ι) : Prop where
  exact : ∀ k h, a = .decide k h ∨ a = .commit k h → h.Exact
  permOnly : ∀ k remote, a = .call k remote → PermOnly remote
  noGC : ∀ h, a = .reconcile h → CollectsNothing cfg hs.sha256 h s.daemon
  applies : ∀ k h, a = .decide k h ∨ a = .commit k h → clock h.now ∧ clock h.writeTime
  scans : ∀ h, a = .reconcile h → clock h.now

structure MeshStep (clock : Time → Prop) (cfg : κ → Config) (hs : Hashes) (s : κ → NodeState ι)
    (a : κ × Action ι) (s' : κ → NodeState ι) : Prop where
  step : step (cfg a.1) hs (s a.1) a.2 = some (s' a.1)
  others : ∀ i, i ≠ a.1 → s' i = s i
  admitted : Admitted clock (cfg a.1) hs (s a.1) a.2

structure Ready (cfg : Config) (hs : Hashes) (s : NodeState ι) : Prop where
  sound : ∀ k, (s.calls k).Sound cfg hs
  serves : ∀ k, (s.calls k).Serves PermOnly

section Steps
variable {cfg : Config} {hs : Hashes} {s s' : NodeState ι} {a : Action ι}

theorem Announced.permOnly {re : Entry} (h : Announced PermOnly re) : PermOnly re := by
  obtain ⟨remote, rel, hperm, _, rfl⟩ := h
  exact hperm

/-- Every step raises the keys of the node, and keeps its calls in order. -/
theorem Ready.next (hr : Ready cfg hs s) (hstep : step cfg hs s a = some s')
    (ha : Admitted (0 < ·) cfg hs s a) :
    Raises s.daemon.idx s'.daemon.idx ∧ Ready cfg hs s' := by
  have hstepped := step_stepped hr.sound hstep
  refine ⟨?_, hstepped.sound hr.sound, hstepped.serves ha.permOnly hr.serves⟩
  cases hstepped with
  | quiet daemon _ =>
    rw [daemon]
    exact Raises.refl _
  | ran acts concerns clean run verified _ _ =>
    obtain ⟨hnow, hwrite⟩ := ha.applies _ _ acts
    exact ended_raises run.ended verified (ha.exact _ _ acts) hnow hwrite
      (Announced.permOnly (concerns.announced (hr.serves _))) clean
  | reconciled daemon _ =>
    rw [daemon]
    exact reconcile_raises (ha.scans _ rfl) (ha.noGC _ rfl)
  | edited daemon _ =>
    rw [daemon]
    exact Raises.refl _

end Steps

section Mesh
variable {cfg : κ → Config} {hs : Hashes} {s s' t u : κ → NodeState ι}

theorem meshStep_ready {a : κ × Action ι} (hr : ∀ i, Ready (cfg i) hs (s i))
    (hstep : MeshStep (0 < ·) cfg hs s a s') (i : κ) : Ready (cfg i) hs (s' i) := by
  by_cases hi : i = a.1
  · subst hi
    exact ((hr _).next hstep.step hstep.admitted).2
  · rw [hstep.others i hi]
    exact hr i

theorem meshStep_raises {a : κ × Action ι} (hr : ∀ i, Ready (cfg i) hs (s i))
    (hstep : MeshStep (0 < ·) cfg hs s a s') (i : κ) :
    Raises (s i).daemon.idx (s' i).daemon.idx := by
  by_cases hi : i = a.1
  · subst hi
    exact ((hr _).next hstep.step hstep.admitted).1
  · rw [hstep.others i hi]
    exact Raises.refl _

theorem run_raises {as : List (κ × Action ι)} (hr : ∀ i, Ready (cfg i) hs (s i))
    (hrun : Run (MeshStep (0 < ·) cfg hs) s as t) (i : κ) :
    Raises (s i).daemon.idx (t i).daemon.idx :=
  hrun.related (I := fun s : κ → NodeState ι => ∀ i, Ready (cfg i) hs (s i))
    (R := fun s t : κ → NodeState ι => ∀ i, Raises (s i).daemon.idx (t i).daemon.idx)
    (fun _ _ _ => meshStep_ready) (fun _ _ => Raises.refl _)
    (fun _ _ _ h h' i => (h i).trans (h' i)) (fun _ _ _ => meshStep_raises) hr i

/-- A version of p that node i makes in state t, when its scan there finds a change. -/
def Stamps (clock : Time → Prop) (hs : Hashes) (t : κ → NodeState ι) (i : κ) (h : Host)
    (v : Entry) : Prop :=
  clock h.now ∧ ∃ res, scan hs.sha256 h.now h (t i).daemon.root (t i).daemon.idx = .ok res ∧
    ∃ c ∈ res.changes, c.entry = v

omit [DecidableEq κ] [DecidableEq ι] in
theorem stamps_wins {i : κ} {h : Host} {v e : Entry} (hv : Stamps (0 < ·) hs t i h v)
    (he : (t i).daemon.idx.get v.path = some e) : wins e v ∧ e.updatedAt < v.updatedAt := by
  obtain ⟨hnow, res, hscan, c, hc, rfl⟩ := hv
  exact ⟨change_wins hnow hscan hc he, change_stamp hnow hscan hc he⟩

omit [DecidableEq κ] [DecidableEq ι] in
/-- What a scan stamps is what the reconcile stores. -/
theorem stamps_stored {i : κ} {h : Host} {v : Entry} (hv : Stamps (0 < ·) hs t i h v)
    (hgc : CollectsNothing (cfg i) hs.sha256 h (t i).daemon) :
    (reconcile (cfg i) hs.sha256 h (t i).daemon).1.idx.get v.path = some v := by
  obtain ⟨hnow, res, hscan, c, hc, rfl⟩ := hv
  rw [reconcile_stores hgc hscan]
  exact (get_apply _ (changes_nodup hscan) fun c hc e he => change_wins hnow hscan hc he).1 c hc

end Mesh

/-- A node on its own is a mesh of one. -/
theorem meshRun_of_exec {clock : Time → Prop} {cfg : Config} {hs : Hashes} {s s' : NodeState ι}
    {as : List (Action ι)} (hexec : exec cfg hs s as = some s')
    (ha : ∀ a ∈ as, ∀ s, Admitted clock cfg hs s a) :
    Run (MeshStep clock (fun _ : Unit => cfg) hs) (fun _ => s) (as.map (Prod.mk ()))
      (fun _ => s') := by
  refine (run_of_exec hexec ha).map (fun s _ => s) (Prod.mk ()) ?_
  rintro s a t ⟨hstep, hadmitted⟩
  exact ⟨hstep, fun i hi => absurd rfl hi, hadmitted⟩

omit [DecidableEq ι] in
/-- What a plain system does is admitted, reconciles apart. -/
theorem admitted_of_plain {clock : Time → Prop} (hone : clock 1) {cfg : Config} {hs : Hashes}
    {a : Action ι} (hplain : ∀ k h, a = .decide k h ∨ a = .commit k h → h = .plain)
    (hperm : ∀ k remote, a = .call k remote → PermOnly remote) (hscan : ∀ h, a ≠ .reconcile h)
    (s : NodeState ι) : Admitted clock cfg hs s a where
  exact k h hact := hplain k h hact ▸ Host.plain_exact
  permOnly := hperm
  noGC h hact := absurd hact (hscan h)
  applies k h hact := by
    rw [hplain k h hact]
    exact ⟨hone, hone⟩
  scans h hact := absurd hact (hscan h)

def aheadEntry : Entry :=
  ⟨ascii "a", 1, 5, 0o600, contentHash Hashes.plain.sha256 (ascii "x"), false, 0, 50⟩

def adoptingRun : List (Action Unit) :=
  [.call () aheadEntry, .decide () .plain, .transfer () .plain (.serving (ascii "x")),
    .commit () .plain]

def rewriting : Action Unit :=
  .edit (writeFileRoot .plain .empty (ascii "a") (ascii "yy") 0o644).1

def adoptedNode : NodeState Unit :=
  (exec Config.plain Hashes.plain .fresh adoptingRun).getD .fresh

def rewrittenNode : NodeState Unit :=
  (exec Config.plain Hashes.plain adoptedNode [rewriting]).getD .fresh

def earlyHost (now : Time) : Host := { Host.plain with now := now }

def writing (data : Bytes) (mt : Time) : Action Unit :=
  .edit (writeFileRoot { Host.plain with writeTime := mt } .empty (ascii "a") data 0o644).1

def earlyRun : List (Action Unit) :=
  [writing (ascii "x") 0, .reconcile (earlyHost (-5)), writing (ascii "y") (-3)]

def earlyNode : NodeState Unit := (exec Config.plain Hashes.plain .fresh earlyRun).getD .fresh

theorem early_run :
    Run (MeshStep (· ≠ 0) (fun _ : Unit => Config.plain) Hashes.plain) (fun _ => .fresh)
      (earlyRun.map (Prod.mk ())) (fun _ => earlyNode) := by
  have hexec : exec Config.plain Hashes.plain .fresh earlyRun = some earlyNode := rfl
  refine meshRun_of_exec hexec ?_
  intro a ha s
  simp only [earlyRun, writing, List.mem_cons, List.not_mem_nil, or_false] at ha
  rcases ha with rfl | rfl | rfl
  · exact ⟨nofun, nofun, nofun, nofun, nofun⟩
  · refine ⟨nofun, nofun, fun h _ _ _ => rfl, nofun, ?_⟩
    rintro h ⟨⟩
    decide
  · exact ⟨nofun, nofun, nofun, nofun, nofun⟩

/-- A version of the file a of which only the time is left open. -/
def timedVersion (mt : Time) : Entry :=
  ⟨ascii "a", 1, mt, 0o600, contentHash Hashes.plain.sha256 (ascii "x"), false, 0, 5⟩

/-- The version without a time is fetched, and before it is committed the other one is. -/
def overtakingRun : List (Action Bool) :=
  [.call true (timedVersion 0), .decide true .plain,
    .transfer true .plain (.serving (ascii "x")), .call false (timedVersion (-3)),
    .decide false .plain, .transfer false .plain (.serving (ascii "x")), .commit false .plain]

def overtakenNode : NodeState Bool :=
  (exec Config.plain Hashes.plain .fresh overtakingRun).getD .fresh

/-- The system gives a file that it writes a time before the zero time. -/
def earlyWriter : Host := { Host.plain with writeTime := -9 }

theorem overtaking_run :
    Run (MeshStep (· ≠ 0) (fun _ : Unit => Config.plain) Hashes.plain) (fun _ => .fresh)
      (overtakingRun.map (Prod.mk ())) (fun _ => overtakenNode) := by
  have hexec : exec Config.plain Hashes.plain .fresh overtakingRun = some overtakenNode := rfl
  refine meshRun_of_exec hexec ?_
  intro a ha
  refine admitted_of_plain (by decide) ?_ ?_ ?_
  · rintro k h (rfl | rfl)
    · simp only [overtakingRun, List.mem_cons, Action.decide.injEq, reduceCtorEq, false_or,
        List.not_mem_nil, or_false] at ha
      exact ha.elim And.right And.right
    · simp only [overtakingRun, List.mem_cons, Action.commit.injEq, reduceCtorEq, false_or,
        List.not_mem_nil, or_false] at ha
      exact ha.2
  · rintro k remote rfl
    simp only [overtakingRun, List.mem_cons, Action.call.injEq, reduceCtorEq, false_or,
      List.not_mem_nil, or_false] at ha
    rcases ha with ⟨_, rfl⟩ | ⟨_, rfl⟩
    · rfl
    · rfl
  · rintro h rfl
    simp [overtakingRun] at ha

end TailSync.Causality

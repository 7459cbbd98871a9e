import TailSync.ApplyRuns

/-!
When the index is written to disk. Remote applies are counted and the count is the
only trace they leave until a save; a reconcile saves when its own scan or collection
changed something or when the count is not zero. The count says whether the file on
disk is behind, in every run in which no reconcile changes the index and then fails to
save it: such a reconcile leaves no trace, and the next one neither saves nor reports.
-/
namespace TailSync.SavedIndexes

open ByteStrings Entries IndexMap SyncRoot Scanning Transfers RemoteApply ApplyEffects ApplyRuns
open Runs (Run)

/-- The Save at the end of a pullFromSession that changed something. -/
def savePull (h : Host) (d : Daemon) : Daemon :=
  if h.fails .save then d else { d with appliesSinceSave := 0, saved := d.idx }

/-- A step of the node: one of the actions of the applies and the main loop, or the end of
the pull that makes the calls of an index. -/
inductive SyncAction (ι : Type*) where
  | node (a : Action ι)
  | endPull (k : ι) (h : Host)

/-- No apply of the call's pull is under way. -/
def Phase.Between : Phase → Prop
  | .idle => True
  | .finished _ => True
  | _ => False

/-- A reconcile that a failing Save would make the node forget has nothing to lose: its scan
finds no change, and it collects no tombstone unless applies are waiting to be saved. -/
def NothingToLose (cfg : Config) (sha256 : Bytes → Digest 32) (h : Host) (d : Daemon) : Prop :=
  ∀ res, scan sha256 h.now h d.root d.idx = .ok res → res.changes = [] ∧
    ((d.idx.gcTombstones h.gcNow cfg.tombstoneTTL).2 = 0 ∨ 0 < d.appliesSinceSave)

variable {ι : Type*} [DecidableEq ι]

inductive SyncStep (cfg : Config) (hs : Hashes) (Ok : NodeState ι → SyncAction ι → Prop)
    (s : NodeState ι) : SyncAction ι → NodeState ι → Prop
  | node {a : Action ι} {s' : NodeState ι} (step : step cfg hs s a = some s')
      (ok : Ok s (.node a)) : SyncStep cfg hs Ok s (.node a) s'
  | endPull {k : ι} {h : Host} (between : Phase.Between (s.calls k)) (ok : Ok s (.endPull k h)) :
      SyncStep cfg hs Ok s (.endPull k h) { s with daemon := savePull h s.daemon }

def SavesChanges (cfg : Config) (hs : Hashes) (s : NodeState ι) (a : SyncAction ι) : Prop :=
  ∀ h, a = .node (.reconcile h) → h.fails .save = true → NothingToLose cfg hs.sha256 h s.daemon

/-- While the count is zero the index on disk is the one in memory. -/
def Tracked (d : Daemon) : Prop := d.appliesSinceSave = 0 → d.saved = d.idx

section Sections
variable {d d' : Daemon}

theorem kept_tracked (hkept : Kept d d') (ht : Tracked d) : Tracked d' := by
  intro hcount
  rw [hkept.saved, hkept.idx]
  exact ht (hkept.count.symm.trans hcount)

theorem counted_tracked (hcounted : Counted d d') : Tracked d' := by
  intro hcount
  rcases hcounted with ⟨_, hnext⟩ | ⟨hsaved, _⟩
  · omega
  · exact hsaved

theorem ended_tracked {h : Host} {re : Entry} {content : Option (Bytes × Bytes)}
    {r : Except ApplyError Bool} (hended : Ended h re content d d' r) (ht : Tracked d) :
    Tracked d' := by
  rcases hended.kept_or_applied with ⟨_, hkept⟩ | ⟨_, _, _, hcounted⟩
  · exact kept_tracked hkept ht
  · exact counted_tracked hcounted

theorem savePull_tracked (h : Host) (ht : Tracked d) : Tracked (savePull h d) := by
  unfold savePull
  split
  · exact ht
  · exact fun _ => rfl

end Sections

section Reconcile
variable {cfg : Config} {sha256 : Bytes → Digest 32} {h : Host} {d : Daemon}

/-- The ways a reconcile ends: the scan failed, the Save failed, the index was saved, or there
was nothing to save. -/
inductive Reconciled (cfg : Config) (sha256 : Bytes → Digest 32) (h : Host) (d d' : Daemon) :
    Except ReconcileError (Bool × List Entry) → Prop
  | unscanned {e : ScanError} (scan : scan sha256 h.now h d.root d.idx = .error e) (same : d' = d) :
      Reconciled cfg sha256 h d d' (.error (.scan e))
  | unsaved (fails : h.fails .save = true) (saved : d'.saved = d.saved)
      (count : d'.appliesSinceSave = d.appliesSinceSave) :
      Reconciled cfg sha256 h d d' (.error .saveIndex)
  | saved {res : ScanResult} (scan : scan sha256 h.now h d.root d.idx = .ok res)
      (works : h.fails .save = false) (saved : d'.saved = d'.idx) :
      Reconciled cfg sha256 h d d' (.ok (decide (0 < (apply d.idx res.changes).2.length),
        (apply d.idx res.changes).2))
  | clean {res : ScanResult} (scan : scan sha256 h.now h d.root d.idx = .ok res)
      (none : (apply d.idx res.changes).2 = []) (idx : d'.idx = d.idx) (saved : d'.saved = d.saved)
      (count : d.appliesSinceSave = 0) : Reconciled cfg sha256 h d d' (.ok (false, []))

theorem reconcile_reconciled (cfg : Config) (sha256 : Bytes → Digest 32) (h : Host) (d : Daemon) :
    Reconciled cfg sha256 h d (reconcile cfg sha256 h d).1 (reconcile cfg sha256 h d).2 := by
  cases hscan : scan sha256 h.now h d.root d.idx with
  | error e =>
    rw [reconcile_failed hscan]
    exact .unscanned hscan rfl
  | ok res =>
    unfold reconcile
    rw [hscan]
    dsimp only
    split
    · by_cases hfail : h.fails .save = true
      · rw [if_pos hfail]
        exact .unsaved hfail rfl rfl
      · rw [if_neg hfail]
        exact .saved hscan (by simpa using hfail) rfl
    · rename_i hclean
      have hnone : (apply d.idx res.changes).2 = [] := List.eq_nil_of_length_eq_zero (by omega)
      have hgc : ((apply d.idx res.changes).1.gcTombstones h.gcNow cfg.tombstoneTTL).2 = 0 := by
        omega
      have hidx := Index.gcTombstones_of_zero hgc
      rw [apply_of_none hnone] at hidx ⊢
      rw [hnone]
      exact .clean hscan hnone hidx rfl (by omega)

/-- A reconcile that saves or has nothing to lose keeps the count in step with the index. -/
theorem reconcile_tracked (ht : Tracked d)
    (hlose : h.fails .save = true → NothingToLose cfg sha256 h d) :
    Tracked (reconcile cfg sha256 h d).1 := by
  intro hzero
  cases hscan : scan sha256 h.now h d.root d.idx with
  | error e =>
    rw [reconcile_failed hscan] at hzero ⊢
    exact ht hzero
  | ok res =>
    have hended := reconcile_reconciled cfg sha256 h d
    generalize (reconcile cfg sha256 h d).2 = r at hended
    cases hended with
    | unscanned _ same =>
      rw [same] at hzero ⊢
      exact ht hzero
    | unsaved fails saved count =>
      obtain ⟨hnone, hgc⟩ := hlose fails res hscan
      rw [count] at hzero
      have hidx := @reconcile_idx cfg _ _ _ _ hscan
      rw [hnone] at hidx
      rw [saved, hidx, ht hzero]
      exact (Index.gcTombstones_of_zero (hgc.resolve_right (by omega))).symm
    | saved _ _ saved => exact saved
    | clean _ _ idx saved count => rw [saved, idx, ht count]

/-- With a working Save a reconcile leaves the index on disk as it is in memory, unless its
scan fails. -/
theorem reconcile_saves (ht : Tracked d) (hworks : h.fails .save = false) :
    (∃ e, (reconcile cfg sha256 h d).2 = .error (.scan e)) ∨
      (reconcile cfg sha256 h d).1.saved = (reconcile cfg sha256 h d).1.idx := by
  have hended := reconcile_reconciled cfg sha256 h d
  generalize (reconcile cfg sha256 h d).2 = r at hended ⊢
  cases hended with
  | @unscanned e _ _ => exact Or.inl ⟨e, rfl⟩
  | unsaved fails _ _ => exact absurd fails (by simp [hworks])
  | saved _ _ saved => exact Or.inr saved
  | clean _ _ idx saved count => exact Or.inr (by rw [saved, idx, ht count])

/-- With a working Save a saved index stays saved. -/
theorem reconcile_saved (hsaved : d.saved = d.idx) (hworks : h.fails .save = false) :
    (reconcile cfg sha256 h d).1.saved = (reconcile cfg sha256 h d).1.idx := by
  have hended := reconcile_reconciled cfg sha256 h d
  generalize (reconcile cfg sha256 h d).2 = r at hended
  cases hended with
  | unscanned _ same => rw [same, hsaved]
  | unsaved fails _ _ => exact absurd fails (by simp [hworks])
  | saved _ _ saved => exact saved
  | clean _ _ idx saved _ => rw [saved, idx, hsaved]

/-- By a clock after the zero time every change that a scan finds is applied. -/
theorem changes_applied {res : ScanResult} (hnow : 0 < h.now)
    (hscan : scan sha256 h.now h d.root d.idx = .ok res) :
    (apply d.idx res.changes).2 = res.changes.map Change.entry :=
  (get_apply d.idx (changes_nodup hscan) fun _ hc _ he => change_wins hnow hscan hc he).2.2

/-- What is applied is reported, unless the Save fails. -/
theorem reconcile_reports {res : ScanResult} (hscan : scan sha256 h.now h d.root d.idx = .ok res)
    {e : Entry} (he : e ∈ (apply d.idx res.changes).2)
    (hlose : h.fails .save = true → NothingToLose cfg sha256 h d) :
    ∃ hints, (reconcile cfg sha256 h d).2 = .ok (true, hints) ∧ e ∈ hints := by
  have hended := reconcile_reconciled cfg sha256 h d
  generalize (reconcile cfg sha256 h d).2 = r at hended ⊢
  cases hended with
  | unscanned failed _ => exact absurd (hscan.symm.trans failed) (by simp)
  | unsaved fails _ _ =>
    rw [(hlose fails res hscan).1] at he
    exact absurd he (by simp [apply])
  | saved scanned _ _ =>
    rw [hscan] at scanned
    cases scanned
    exact ⟨_, by rw [decide_eq_true (List.length_pos_of_mem he)], he⟩
  | clean scanned none _ _ _ =>
    rw [hscan] at scanned
    cases scanned
    rw [none] at he
    exact absurd he (by simp)

end Reconcile

structure InStep (cfg : Config) (hs : Hashes) (s : NodeState ι) : Prop where
  sound : ∀ k, (s.calls k).Sound cfg hs
  tracked : Tracked s.daemon

section Steps
variable {cfg : Config} {hs : Hashes} {s s' : NodeState ι}

/-- An action of the applies or the main loop. -/
theorem InStep.node {a : Action ι} (hin : InStep cfg hs s) (hstep : step cfg hs s a = some s')
    (hsaves : SavesChanges cfg hs s (.node a)) : InStep cfg hs s' := by
  have hstepped := step_stepped hin.sound hstep
  refine ⟨hstepped.sound hin.sound, ?_⟩
  cases hstepped with
  | quiet daemon _ =>
    rw [daemon]
    exact hin.tracked
  | ran _ _ _ run _ _ _ => exact ended_tracked run.ended hin.tracked
  | reconciled daemon _ =>
    rw [daemon]
    exact reconcile_tracked hin.tracked (hsaves _ rfl)
  | edited daemon _ =>
    rw [daemon]
    exact hin.tracked

theorem InStep.next {a : SyncAction ι} (hin : InStep cfg hs s)
    (hstep : SyncStep cfg hs (SavesChanges cfg hs) s a s') : InStep cfg hs s' := by
  cases hstep with
  | node step ok => exact hin.node step ok
  | @endPull k h between ok => exact ⟨hin.sound, savePull_tracked h hin.tracked⟩

end Steps

/-- Dirty tracking is sound while no reconcile changes the index and then fails to save it.
From any start with the index saved, and with any other Saves failing: whenever the index in
memory is not the one on disk, the next reconcile with a working Save writes it, unless its
scan fails; and a local change is not applied without being reported by the same reconcile,
so that none is left for a later one. By a clock after the zero time every change is applied. -/
theorem dirty_tracking_sound {cfg : Config} {hs : Hashes} {s₀ s : NodeState ι}
    {as : List (SyncAction ι)} (hidle : ∀ k, s₀.calls k = .idle)
    (hsaved : s₀.daemon.saved = s₀.daemon.idx)
    (hrun : Run (SyncStep cfg hs (SavesChanges cfg hs)) s₀ as s) :
    (s.daemon.idx ≠ s.daemon.saved → ∀ h : Host, h.fails .save = false →
      (∃ e, (reconcile cfg hs.sha256 h s.daemon).2 = .error (.scan e)) ∨
        (reconcile cfg hs.sha256 h s.daemon).1.saved =
          (reconcile cfg hs.sha256 h s.daemon).1.idx) ∧
    (∀ h res c, SavesChanges cfg hs s (.node (.reconcile h)) →
      scan hs.sha256 h.now h s.daemon.root s.daemon.idx = .ok res → c ∈ res.changes →
      0 < h.now ∨ c.entry ∈ (apply s.daemon.idx res.changes).2 →
      ∃ hints, (reconcile cfg hs.sha256 h s.daemon).2 = .ok (true, hints) ∧ c.entry ∈ hints) := by
  have hstart : InStep cfg hs s₀ := by
    refine ⟨fun k => ?_, fun _ => hsaved⟩
    rw [hidle k]
    trivial
  have hin : InStep cfg hs s := hrun.invariant (fun _ _ _ hc hst => hc.next hst) hstart
  refine ⟨?_, ?_⟩
  · intro _ h hworks
    exact reconcile_saves hin.tracked hworks
  · intro h res c hok hscan hc hstored
    have happlied : c.entry ∈ (apply s.daemon.idx res.changes).2 := by
      rcases hstored with hnow | happlied
      · rw [changes_applied hnow hscan]
        exact List.mem_map_of_mem hc
      · exact happlied
    exact reconcile_reports hscan happlied (hok h rfl)

def unsavingHost : Host := { Host.plain with fails := fun op => decide (op = .save) }

def absentRemoval : Entry := ⟨ascii "a", 0, 0, 0o644, [], true, 7, 7⟩

def unsavedRun : List (Action Unit) :=
  [.call () absentRemoval, .decide () .plain, .reconcile unsavingHost]

def unsavedNode : NodeState Unit :=
  (exec Config.plain Hashes.plain .fresh unsavedRun).getD .fresh

/-- The runs of the applies and the main loop alone. -/
theorem syncRun_of_steps {cfg : Config} {hs : Hashes} {Ok : NodeState ι → SyncAction ι → Prop}
    {s s' : NodeState ι} {as : List (Action ι)}
    (hrun : Run (Steps cfg hs fun s a => Ok s (.node a)) s as s') :
    Run (SyncStep cfg hs Ok) s (as.map .node) s' := by
  induction hrun with
  | nil s => exact .nil s
  | cons hstep _ ih => exact .cons (.node hstep.1 hstep.2) ih

theorem dirty_tracking_sound_small :
    unsavedNode.daemon.saved.get (ascii "a") = none ∧
    unsavedNode.daemon.idx.get (ascii "a") = some absentRemoval ∧
    (reconcile Config.plain Hashes.plain.sha256 .plain unsavedNode.daemon).1.saved =
      (reconcile Config.plain Hashes.plain.sha256 .plain unsavedNode.daemon).1.idx := by
  have hlose : NothingToLose Config.plain Hashes.plain.sha256 unsavingHost
      unsavedNode.daemon := by
    intro res hscan
    cases hscan
    exact ⟨rfl, Or.inl rfl⟩
  have hrun : Run (Steps Config.plain Hashes.plain fun s a =>
      SavesChanges Config.plain Hashes.plain s (.node a)) .fresh unsavedRun unsavedNode := by
    refine .cons ⟨rfl, nofun⟩ (.cons ⟨rfl, nofun⟩ (.single ⟨rfl, ?_⟩))
    rintro h ⟨⟩ _
    exact hlose
  have hdirty : unsavedNode.daemon.idx ≠ unsavedNode.daemon.saved := by
    intro heq
    have hget : unsavedNode.daemon.saved.get (ascii "a") = some absentRemoval := heq ▸ rfl
    exact absurd hget (by decide +kernel)
  refine ⟨rfl, rfl, ?_⟩
  rcases (dirty_tracking_sound (fun _ => rfl) rfl (syncRun_of_steps hrun)).1 hdirty .plain rfl with
    ⟨e, hfailed⟩ | hsaved
  · exact absurd hfailed (by simp [show (reconcile Config.plain Hashes.plain.sha256 .plain
      unsavedNode.daemon).2 = .ok (false, []) from rfl])
  · exact hsaved

def oneFileRoot : Root := (writeFileRoot .plain .empty (ascii "a") (ascii "x") 0o644).1

def forgetfulNode : NodeState Unit :=
  (exec Config.plain Hashes.plain .fresh [.edit oneFileRoot, .reconcile unsavingHost]).getD .fresh

/-- The new file is in the index in memory and not on disk, and the next reconcile, which
could save, neither reports nor saves it. -/
theorem failed_save_forgotten :
    Run (SyncStep Config.plain Hashes.plain fun _ _ => True) .fresh
      [.node (.edit oneFileRoot), .node (.reconcile unsavingHost)] forgetfulNode ∧
    (∃ e, forgetfulNode.daemon.idx.get (ascii "a") = some e ∧ e.size = 1) ∧
    (reconcile Config.plain Hashes.plain.sha256 .plain forgetfulNode.daemon).2 =
      .ok (false, []) ∧
    (reconcile Config.plain Hashes.plain.sha256 .plain forgetfulNode.daemon).1.saved.get
      (ascii "a") = none :=
  ⟨.cons (.node rfl trivial) (.single (.node rfl trivial)), ⟨_, rfl, rfl⟩, rfl, rfl⟩

end TailSync.SavedIndexes

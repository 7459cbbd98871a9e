import TailSync.Shutdown

/-!
How much a crash can lose. Every apply that changes the index is counted, and from
eight on the index is saved; but the call that saves is made by two of the four
branches only. A tombstone where nothing is live and adopted metadata are counted
without it, so a run of those grows the count without bound. In runs in which
neither is decided while seven applies are unsaved, fewer than eight ever are: the
entries stored since the last Save are logged beside the run, and the count is the
length of that log.
-/
namespace TailSync.CrashWindow

open ByteStrings Entries IndexMap SyncRoot Scanning Transfers RemoteApply ApplyEffects ApplyRuns
open SavedIndexes Shutdown
open Runs (Run)

/-- The section decides for a branch that counts without the call that saves, and its entry
beats the recorded one. -/
def UnsavedKind (h : Host) (d : Daemon) (re : Entry) : Prop :=
  ∃ present, diskPresent h d re = .ok present ∧
    ((decideApply (d.idx.get re.path) re present).kind = .tombstone ∨
      (decideApply (d.idx.get re.path) re present).kind = .metaOnly) ∧
    ∀ c, d.idx.get re.path = some c → wins c re

variable {ι : Type*} [DecidableEq ι]

/-- Saves work, and with seven applies unsaved no section decides for a branch that
does not save. -/
def Paced (s : NodeState ι) (a : SyncAction ι) : Prop :=
  (RunAction.sync a).SavesWork ∧
    ∀ k h re, a = .node (.decide k h) → (s.calls k).Concerns re →
      s.daemon.appliesSinceSave = 7 → ¬ UnsavedKind h s.daemon re

def Phase.changed : Phase → Bool
  | .finished (.ok true) => true
  | _ => false

def reports (s' : NodeState ι) : SyncAction ι → Bool
  | .node (.decide k _) => Phase.changed (s'.calls k)
  | .node (.commit k _) => Phase.changed (s'.calls k)
  | _ => false

/-- The log of the entries stored since the last Save: a reported change stores one more, a
Save ends the log, and nothing else touches the index. -/
inductive Logs (d d' : Daemon) (log : List Entry) : Bool → List Entry → Prop
  | stored {e : Entry} (idx : d'.idx = d.idx.set e) (saved : d'.saved = d.saved) :
      Logs d d' log true (log ++ [e])
  | saved {changed : Bool} (saved : d'.saved = d'.idx) : Logs d d' log changed []
  | silent (idx : d'.idx = d.idx) (saved : d'.saved = d.saved) : Logs d d' log false log

def LogStep (cfg : Config) (hs : Hashes) (Ok : NodeState ι → SyncAction ι → Prop)
    (x : NodeState ι × List Entry) (a : SyncAction ι) (y : NodeState ι × List Entry) : Prop :=
  SyncStep cfg hs Ok x.1 a y.1 ∧ Logs x.1.daemon y.1.daemon x.2 (reports y.1 a) y.2

structure Logged (d : Daemon) (log : List Entry) : Prop where
  idx : d.idx = log.foldl Index.set d.saved
  count : d.appliesSinceSave = log.length
  lt : d.appliesSinceSave < 8

section Sections
variable {h : Host} {d d' : Daemon} {re : Entry} {log : List Entry}

theorem logged_of_saved (hsaved : d.saved = d.idx) (hcount : d.appliesSinceSave = 0) :
    Logged d [] :=
  ⟨hsaved.symm, hcount, by rw [hcount]; exact Nat.succ_pos 7⟩

theorem Logged.kept (hlog : Logged d log) (hkept : Kept d d') : Logged d' log := by
  refine ⟨?_, hkept.count.trans hlog.count, hkept.count ▸ hlog.lt⟩
  rw [hkept.idx, hkept.saved]
  exact hlog.idx

/-- A section that leaves the count below eight takes the log along. -/
theorem Logged.ended (hlog : Logged d log) {content : Option (Bytes × Bytes)}
    {r : Except ApplyError Bool} (hended : Ended h re content d d' r)
    (hlt : d'.appliesSinceSave < 8) :
    ∃ log', Logs d d' log (Phase.changed (.finished r)) log' ∧ Logged d' log' := by
  rcases hended.kept_or_applied with ⟨hresult, hkept⟩ | ⟨rfl, _, happlied, hcounted⟩
  · have hsilent : Phase.changed (.finished r) = false := by
      unfold Phase.changed
      split
      · rename_i heq
        cases heq
        exact absurd rfl hresult
      · rfl
    rw [hsilent]
    exact ⟨log, .silent hkept.idx hkept.saved, hlog.kept hkept⟩
  · obtain ⟨e, _, hidx⟩ := happlied.set
    rcases hcounted with ⟨hsaved, hcount⟩ | ⟨hsaved, hcount⟩
    · refine ⟨log ++ [e], .stored hidx hsaved, ?_, ?_, hlt⟩
      · rw [hidx, hlog.idx, hsaved, List.foldl_append]
        rfl
      · rw [hcount, hlog.count, List.length_append]
        rfl
    · exact ⟨[], .saved hsaved, logged_of_saved hsaved hcount⟩

/-- The call that saves keeps the count below eight. -/
theorem maybeSaveLocked_lt (hworks : h.fails .save = false) (d : Daemon) :
    (maybeSaveLocked h d).appliesSinceSave < 8 := by
  unfold maybeSaveLocked
  split
  · rw [if_neg (by simp [hworks])]
    exact Nat.succ_pos 7
  · omega

theorem execDeleteLive_lt (hworks : h.fails .save = false) (hlt : d.appliesSinceSave < 8)
    (re : Entry) : (execDeleteLive h d re).1.appliesSinceSave < 8 := by
  have hstore : ∀ d₁ : Daemon, d₁.appliesSinceSave < 8 →
      (execDeleteLive.storeTombstone h d₁ re).1.appliesSinceSave < 8 := by
    intro d₁ h₁
    unfold execDeleteLive.storeTombstone
    dsimp only
    split
    · exact maybeSaveLocked_lt hworks _
    · exact h₁
  unfold execDeleteLive
  split
  · exact hlt
  · split
    · exact hlt
    · exact hlt
    · dsimp only
      split
      · split
        · exact hstore _ hlt
        · exact hlt
      · exact hstore _ hlt

theorem commitContent_lt (hworks : h.fails .save = false) (hlt : d.appliesSinceSave < 8)
    (re : Entry) (data got : Bytes) : (commitContent h d re data got).1.appliesSinceSave < 8 := by
  unfold commitContent
  split
  · exact hlt
  · split
    · exact hlt
    · exact hlt
    · dsimp only
      split
      · exact hlt
      · exact maybeSaveLocked_lt hworks _

theorem applyCommit_lt (hworks : h.fails .save = false) (hlt : d.appliesSinceSave < 8)
    (re : Entry) (data got : Bytes) : (applyCommit h d re data got).1.appliesSinceSave < 8 := by
  unfold applyCommit
  split
  · exact hlt
  · exact commitContent_lt hworks hlt re data got

/-- The branches without the call count one more at most. -/
theorem execMetaOnly_le (h : Host) (d : Daemon) (loc re : Entry) :
    (execMetaOnly h d loc re).1.appliesSinceSave ≤ d.appliesSinceSave + 1 := by
  unfold execMetaOnly
  split
  · exact Nat.le_succ _
  · exact Nat.le_succ _
  · dsimp only
    split
    · exact Nat.le_succ _
    · split
      · exact Nat.le_succ _
      · exact le_refl _

theorem applyDecided_lt (hworks : h.fails .save = false) (hlt : d.appliesSinceSave < 8)
    (hpaced : d.appliesSinceSave = 7 → ¬ UnsavedKind h d re) :
    (applyDecided h d re).1.appliesSinceSave < 8 := by
  unfold applyDecided
  split
  · exact hlt
  · split
    · exact hlt
    · rename_i present hpresent
      have hroom : (decideApply (d.idx.get re.path) re present).kind = .tombstone ∨
          (decideApply (d.idx.get re.path) re present).kind = .metaOnly →
          (∀ c, d.idx.get re.path = some c → wins c re) → d.appliesSinceSave + 1 < 8 := by
        intro hkind hbeats
        have hne : d.appliesSinceSave ≠ 7 :=
          fun heq => hpaced heq ⟨present, hpresent, hkind, hbeats⟩
        omega
      have hdec := decideApply_decidedBy (d.idx.get re.path) re present
      dsimp only
      split
      · exact hlt
      · rename_i hkind
        rcases Index.setIfWins_cases d.idx re with ⟨heq, hbeats⟩ | ⟨heq, _⟩
        · rw [heq]
          exact hroom (Or.inl hkind) hbeats
        · rw [heq]
          exact hlt
      · exact execDeleteLive_lt hworks hlt re
      · rename_i hkind
        rw [hkind] at hdec
        obtain ⟨c, hc, _, _, _, _, hwins⟩ := hdec
        rw [hc]
        refine (execMetaOnly_le h d c re).trans_lt (hroom (Or.inr hkind) ?_)
        intro c' hc'
        rw [hc] at hc'
        cases hc'
        exact hwins
      · exact hlt

end Sections

section Steps
variable {cfg : Config} {hs : Hashes} {h : Host} {d : Daemon} {s s' : NodeState ι}
  {log : List Entry}

theorem reconcile_count {sha256 : Bytes → Digest 32} {res : ScanResult}
    (hscan : scan sha256 h.now h d.root d.idx = .ok res) (hworks : h.fails .save = false) :
    (reconcile cfg sha256 h d).1.appliesSinceSave = 0 := by
  unfold reconcile
  rw [hscan]
  dsimp only
  split
  · rw [if_neg (by simp [hworks])]
  · rename_i hclean
    dsimp only
    omega

/-- With a working Save a reconcile leaves nothing unsaved, or its scan fails and
nothing happens. -/
theorem Logged.reconcile (hlog : Logged d log) (cfg : Config) (sha256 : Bytes → Digest 32)
    (hworks : h.fails .save = false) :
    ∃ log', Logs d (reconcile cfg sha256 h d).1 log false log' ∧
      Logged (reconcile cfg sha256 h d).1 log' := by
  cases hscan : scan sha256 h.now h d.root d.idx with
  | error e =>
    rw [reconcile_failed hscan]
    exact ⟨log, .silent rfl rfl, hlog⟩
  | ok res =>
    have hcount := @reconcile_count cfg h d sha256 res hscan hworks
    have htracked : Tracked d := by
      intro hzero
      have hnil : log = [] := List.eq_nil_of_length_eq_zero (hlog.count.symm.trans hzero)
      rw [hlog.idx, hnil]
      rfl
    have hsaved : (Scanning.reconcile cfg sha256 h d).1.saved =
        (Scanning.reconcile cfg sha256 h d).1.idx := by
      rcases @reconcile_saves cfg sha256 h d htracked hworks with ⟨e, hfailed⟩ | hsaved
      · have hended := reconcile_reconciled cfg sha256 h d
        rw [hfailed] at hended
        cases hended with
        | unscanned failed _ => exact absurd (hscan.symm.trans failed) (by simp)
      · exact hsaved
    exact ⟨[], .saved hsaved, logged_of_saved hsaved hcount⟩

/-- An action of the applies or the main loop. -/
theorem Logged.node {a : Action ι} (hlog : Logged s.daemon log)
    (hstep : step cfg hs s a = some s') (hpaced : Paced s (.node a)) :
    ∃ log', Logs s.daemon s'.daemon log (reports s' (.node a)) log' ∧ Logged s'.daemon log' := by
  obtain ⟨hworks, hpaced⟩ := hpaced
  cases a with
  | call k remote =>
    simp only [step] at hstep
    split at hstep
    · cases hstep
      exact ⟨log, .silent rfl rfl, hlog⟩
    · cases hstep
      exact ⟨log, .silent rfl rfl, hlog⟩
    · cases hstep
  | decide k h =>
    simp only [step] at hstep
    split at hstep
    · rename_i remote hphase
      cases hstep
      rw [reports, setPhase_calls_self]
      rcases applyDecide_cases cfg h s.daemon remote with ⟨e, heq⟩ | ⟨rel, hrel, _, _, heq⟩
      · rw [heq]
        exact ⟨log, .silent rfl rfl, hlog⟩
      · rw [heq]
        have hlt := applyDecided_lt hworks hlog.lt (hpaced k h { remote with path := rel } rfl
          (by rw [hphase]; exact ⟨rel, hrel, rfl⟩))
        rcases applyDecided_ended h s.daemon { remote with path := rel } with
          ⟨r, hfinished, hended⟩ | ⟨useDelta, hrun, _⟩
        · rw [hfinished]
          exact hlog.ended hended hlt
        · rw [hrun]
          exact ⟨log, .silent rfl rfl, hlog⟩
    · cases hstep
  | transfer k h replies =>
    simp only [step] at hstep
    split at hstep
    · split at hstep
      · cases hstep
        exact ⟨log, .silent rfl rfl, hlog⟩
      · cases hstep
        exact ⟨log, .silent rfl rfl, hlog⟩
      · cases hstep
    · cases hstep
  | commit k h =>
    simp only [step] at hstep
    split at hstep
    · rename_i re data got _
      cases hstep
      rw [reports, setPhase_calls_self]
      exact hlog.ended (applyCommit_ended h s.daemon re data got)
        (applyCommit_lt hworks hlog.lt re data got)
    · cases hstep
  | reconcile h =>
    cases hstep
    exact hlog.reconcile cfg hs.sha256 hworks
  | edit root =>
    cases hstep
    exact ⟨log, .silent rfl rfl, hlog.idx, hlog.count, hlog.lt⟩

theorem Logged.next {a : SyncAction ι} (hlog : Logged s.daemon log)
    (hstep : SyncStep cfg hs Paced s a s') :
    ∃ log', Logs s.daemon s'.daemon log (reports s' a) log' ∧ Logged s'.daemon log' := by
  cases hstep with
  | node step ok => exact hlog.node step ok
  | @endPull k h _ ok =>
    have hsaved : savePull h s.daemon =
        { s.daemon with appliesSinceSave := 0, saved := s.daemon.idx } :=
      if_neg (by simp [show h.fails .save = false from ok.1])
    rw [hsaved]
    exact ⟨[], .saved rfl, logged_of_saved rfl rfl⟩

end Steps

/-- In every run from a saved index in which all Saves work, and in which no section stores
a tombstone over nothing live or adopts metadata while seven applies are unsaved: the index
is the saved one with the entries stored in it that applies have reported since the last
Save, the count is their number, and they are fewer than eight. -/
theorem crash_window_bounded {cfg : Config} {hs : Hashes} {s₀ s : NodeState ι}
    {as : List (SyncAction ι)} (hsaved : s₀.daemon.saved = s₀.daemon.idx)
    (hcount : s₀.daemon.appliesSinceSave = 0) (hrun : Run (SyncStep cfg hs Paced) s₀ as s) :
    ∃ log, Run (LogStep cfg hs Paced) (s₀, []) as (s, log) ∧
      s.daemon.idx = log.foldl Index.set s.daemon.saved ∧
      s.daemon.appliesSinceSave = log.length ∧ s.daemon.appliesSinceSave < 8 := by
  have hfollow : ∀ (s : NodeState ι) (a : SyncAction ι) (t : NodeState ι)
      (x : NodeState ι × List Entry), x.1 = s ∧ Logged s.daemon x.2 → SyncStep cfg hs Paced s a t →
      ∃ y, LogStep cfg hs Paced x a y ∧ y.1 = t ∧ Logged t.daemon y.2 := by
    rintro s a t ⟨_, log⟩ ⟨rfl, hlog⟩ hstep
    obtain ⟨log', hlogs, hlog'⟩ := hlog.next hstep
    exact ⟨(t, log'), ⟨hstep, hlogs⟩, rfl, hlog'⟩
  obtain ⟨⟨t, log⟩, hlogged, rfl, hend⟩ := hrun.followed hfollow
    (x := (s₀, [])) ⟨rfl, logged_of_saved hsaved hcount⟩
  exact ⟨log, hlogged, hend.idx, hend.count, hend.lt⟩

def eightRemovals : List (Action Unit) :=
  (List.range 8).flatMap fun i =>
    [.call () ⟨[UInt8.ofNat (97 + i)], 0, 0, 0o644, [], true, 7, 7⟩, .decide () .plain]

def removedNode : NodeState Unit :=
  (exec Config.plain Hashes.plain .fresh eightRemovals).getD .fresh

/-- Eight tombstones are applied, every Save would work, and none is made. -/
theorem tombstones_unsaved :
    Run (SyncStep Config.plain Hashes.plain fun _ a => (RunAction.sync a).SavesWork) .fresh
      (eightRemovals.map .node) removedNode ∧
    removedNode.daemon.appliesSinceSave = 8 ∧ removedNode.daemon.saved.files = [] ∧
    removedNode.daemon.idx.files.length = 8 := by
  refine ⟨?_, by decide +kernel, by decide +kernel, by decide +kernel⟩
  refine syncRun_of_steps (run_of_exec_isSome (by decide +kernel) ?_)
  intro a ha _
  simp only [eightRemovals, List.mem_flatMap, List.mem_cons, List.not_mem_nil, or_false] at ha
  obtain ⟨i, _, rfl | rfl⟩ := ha
  · trivial
  · rfl

/-- One of the tombstones is applied, and one store is unsaved. -/
theorem crash_window_bounded_small :
    ∃ (s : NodeState Unit) (log : List Entry),
      Run (LogStep Config.plain Hashes.plain Paced) (.fresh, [])
        [.node (.call () absentRemoval), .node (.decide () .plain)] (s, log) ∧
      s.daemon.appliesSinceSave = 1 ∧ log.length = 1 := by
  have hrun : ∃ s : NodeState Unit,
      Run (SyncStep Config.plain Hashes.plain Paced) .fresh
        [.node (.call () absentRemoval), .node (.decide () .plain)] s ∧
      s.daemon.appliesSinceSave = 1 := by
    refine ⟨_, .cons (.node rfl ⟨trivial, nofun⟩) (.single (.node rfl ⟨rfl, ?_⟩)), rfl⟩
    intro k h re _ _ hcount
    exact absurd hcount (by decide)
  obtain ⟨s, hrun, hcount⟩ := hrun
  obtain ⟨log, hlogged, _, hlength, _⟩ := crash_window_bounded rfl rfl hrun
  exact ⟨s, log, hlogged, hcount, by rw [← hlength, hcount]⟩

end TailSync.CrashWindow

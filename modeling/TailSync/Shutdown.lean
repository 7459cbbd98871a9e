import TailSync.SavedIndexes

/-!
The main loop of Run. It reconciles once, then loops until the context is cancelled,
saves the index and returns, while the pulls it has started share its context and end
on their own. Every critical section of an apply looks at the context under the lock
that orders the saves, so after the shutdown Save nothing but the user changes the
index or the tree.
-/
namespace TailSync.Shutdown

open ByteStrings Entries IndexMap SyncRoot Scanning Transfers RemoteApply ApplyEffects ApplyRuns
open SavedIndexes
open Runs (Run)

/-- Where Run stands: before the initial reconcile, in the loop, or past it. -/
inductive MainPhase where
  | starting
  | looping
  | returned
  deriving DecidableEq, Repr

structure RunState (ι : Type*) where
  node : NodeState ι
  main : MainPhase
  cancelled : Bool

/-- The Save at the end of the loop; it leaves the count alone. -/
def shutdownSave (h : Host) (d : Daemon) : Daemon :=
  if h.fails .save then d else { d with saved := d.idx }

def bootPhase (r : Except ReconcileError (Bool × List Entry)) (listens : Bool) : MainPhase :=
  match r with
  | .ok _ => if listens then .looping else .returned
  | .error _ => .returned

inductive RunAction (ι : Type*) where
  | boot (h : Host) (listens : Bool)
  | sync (a : SyncAction ι)
  | cancel
  | shutdown (h : Host)

def RunAction.SavesWork {ι : Type*} : RunAction ι → Prop
  | .boot h _ => h.fails .save = false
  | .sync (.node (.decide _ h)) => h.fails .save = false
  | .sync (.node (.commit _ h)) => h.fails .save = false
  | .sync (.node (.reconcile h)) => h.fails .save = false
  | .sync (.endPull _ h) => h.fails .save = false
  | .sync _ => True
  | .cancel => True
  | .shutdown h => h.fails .save = false

variable {ι : Type*} [DecidableEq ι]

/-- When an action can happen. Reconciles are made by the loop only. Pulls are started by the
loop, and those it has started go on after it; the sections of their applies see that the
context has been cancelled. -/
def Permitted (s : RunState ι) : SyncAction ι → Prop
  | .node (.call _ _) => s.main = .looping ∨ (s.main = .returned ∧ s.cancelled = true)
  | .node (.decide _ h) => s.cancelled = true → h.cancelled = true
  | .node (.commit _ h) => s.cancelled = true → h.cancelled = true
  | .node (.reconcile _) => s.main = .looping
  | _ => True

inductive RunStep (cfg : Config) (hs : Hashes) (s : RunState ι) :
    RunAction ι → RunState ι → Prop
  | boot {h : Host} {listens : Bool} (starting : s.main = .starting) :
      RunStep cfg hs s (.boot h listens)
        { s with
          node := { s.node with daemon := (reconcile cfg hs.sha256 h s.node.daemon).1 }
          main := bootPhase (reconcile cfg hs.sha256 h s.node.daemon).2 listens }
  | sync {a : SyncAction ι} {node' : NodeState ι}
      (step : SyncStep cfg hs (fun _ => Permitted s) s.node a node') :
      RunStep cfg hs s (.sync a) { s with node := node' }
  | cancel : RunStep cfg hs s .cancel { s with cancelled := true }
  | shutdown {h : Host} (looping : s.main = .looping) (done : s.cancelled = true) :
      RunStep cfg hs s (.shutdown h)
        { s with
          node := { s.node with daemon := shutdownSave h s.node.daemon }
          main := .returned }

def SavingStep (cfg : Config) (hs : Hashes) (s : RunState ι) (a : RunAction ι)
    (s' : RunState ι) : Prop :=
  RunStep cfg hs s a s' ∧ a.SavesWork

/-- A section that sees a cancelled context does nothing. -/
theorem SectionRun.cancelled {h : Host} {re : Entry} {d d' : Daemon} {r : Except ApplyError Bool}
    {content : Option (Bytes × Bytes)} (hrun : SectionRun h re d d' r content)
    (hcancelled : h.cancelled = true) : d' = d := by
  cases hrun with
  | decided run =>
    rw [applyDecided, if_pos hcancelled] at run
    exact (Prod.mk.inj run).1.symm
  | committed run =>
    rw [applyCommit, if_pos hcancelled] at run
    exact (Prod.mk.inj run).1.symm

structure Settled (cfg : Config) (hs : Hashes) (s : RunState ι) : Prop where
  sound : ∀ k, (s.node.calls k).Sound cfg hs
  saved : s.main ≠ .looping → s.node.daemon.saved = s.node.daemon.idx
  between : s.main ≠ .looping →
    (s.main = .returned ∧ s.cancelled = true) ∨ ∀ k, Phase.Between (s.node.calls k)

section Steps
variable {cfg : Config} {hs : Hashes} {s s' : RunState ι}

omit [DecidableEq ι] in
/-- A call that is not under way stays so unless it is made. -/
theorem Advances.between {a : Action ι} {j : ι} {phase phase' : Phase}
    (hadv : Advances cfg hs a j phase phase') (hcall : ∀ remote, a ≠ .call j remote)
    (hbetween : Phase.Between phase) : Phase.Between phase' := by
  cases hadv with
  | stays => exact hbetween
  | called acts => exact absurd acts (hcall _)
  | handedOn concerns _ _ =>
    cases phase with
    | idle => exact concerns.elim
    | finished r => exact concerns.elim
    | waiting _ => exact hbetween.elim
    | transferring _ _ => exact hbetween.elim
    | arrived _ _ _ => exact hbetween.elim
  | delivered _ => exact hbetween.elim
  | gaveUp _ => trivial

omit [DecidableEq ι] in
theorem Concerns.not_between {phase : Phase} {re : Entry} (hconcerns : phase.Concerns re) :
    ¬ Phase.Between phase := by
  intro hbetween
  cases phase with
  | idle => exact hconcerns
  | finished r => exact hconcerns
  | waiting _ => exact hbetween
  | transferring _ _ => exact hbetween
  | arrived _ _ _ => exact hbetween

/-- Outside the loop no critical section changes the daemon. -/
theorem Settled.daemon_kept {a : Action ι} {node' : NodeState ι} (hset : Settled cfg hs s)
    (hmain : s.main ≠ .looping) (hstep : step cfg hs s.node a = some node')
    (hperm : Permitted s (.node a)) :
    node'.daemon = { s.node.daemon with root := node'.daemon.root } ∧
      ((∀ root, a ≠ .edit root) → node'.daemon = s.node.daemon) := by
  cases step_stepped hset.sound hstep with
  | quiet daemon _ =>
    rw [daemon]
    exact ⟨rfl, fun _ => rfl⟩
  | @ran _ k h _ _ _ acts concerns _ run _ _ _ =>
    have hcancelled : s.cancelled = true := by
      rcases hset.between hmain with ⟨_, hcancelled⟩ | hbetween
      · exact hcancelled
      · exact absurd (hbetween k) (Concerns.not_between concerns)
    have hhost : h.cancelled = true := by
      rcases acts with rfl | rfl
      · exact hperm hcancelled
      · exact hperm hcancelled
    rw [SectionRun.cancelled run hhost]
    exact ⟨rfl, fun _ => rfl⟩
  | reconciled _ _ => exact absurd hperm hmain
  | @edited root daemon _ =>
    rw [daemon]
    exact ⟨rfl, fun hedit => absurd rfl (hedit root)⟩

/-- Calls stay between applies outside the loop, unless the context is cancelled. -/
theorem Settled.between_kept {a : Action ι} {node' : NodeState ι} (hset : Settled cfg hs s)
    (hmain : s.main ≠ .looping) (hstep : step cfg hs s.node a = some node')
    (hperm : Permitted s (.node a)) :
    (s.main = .returned ∧ s.cancelled = true) ∨ ∀ k, Phase.Between (node'.calls k) := by
  rcases hset.between hmain with hleft | hbetween
  · exact Or.inl hleft
  · by_cases hcall : ∃ k remote, a = .call k remote
    · obtain ⟨k, remote, rfl⟩ := hcall
      exact Or.inl (hperm.resolve_left hmain)
    · refine Or.inr ((step_stepped hset.sound hstep).calls
        (P := fun _ phase => Phase.Between phase) ?_ (fun _ _ => trivial) hbetween)
      intro j phase phase' hadv
      exact Advances.between hadv fun remote hacts => hcall ⟨j, remote, hacts⟩

theorem Settled.next {a : RunAction ι} (hset : Settled cfg hs s)
    (hstep : SavingStep cfg hs s a s') : Settled cfg hs s' := by
  obtain ⟨hstep, hworks⟩ := hstep
  cases hstep with
  | @boot h listens starting =>
    have hmain : s.main ≠ .looping := by simp [starting]
    have hidle := (hset.between hmain).resolve_left (by simp [starting])
    refine ⟨hset.sound, fun _ => ?_, fun _ => Or.inr hidle⟩
    exact reconcile_saved (hset.saved hmain) hworks
  | @sync a node' step =>
    cases step with
    | node step ok =>
      refine ⟨(step_stepped hset.sound step).sound hset.sound, ?_, ?_⟩
      · intro hmain
        rw [(hset.daemon_kept hmain step ok).1]
        exact hset.saved hmain
      · intro hmain
        exact hset.between_kept hmain step ok
    | @endPull _ h _ _ =>
      refine ⟨hset.sound, fun _ => ?_, hset.between⟩
      have hsave : h.fails .save = false := hworks
      simp [savePull, hsave]
  | cancel =>
    refine ⟨hset.sound, hset.saved, fun hmain => ?_⟩
    exact (hset.between hmain).imp_left fun hleft => ⟨hleft.1, rfl⟩
  | @shutdown h looping done =>
    refine ⟨hset.sound, fun _ => ?_, fun _ => Or.inl ⟨rfl, done⟩⟩
    have hsave : h.fails .save = false := hworks
    simp [shutdownSave, hsave]

/-- After Run has returned a step leaves the index alone, and only the user changes the tree. -/
theorem Settled.returned_kept {a : RunAction ι} (hset : Settled cfg hs s)
    (hreturned : s.main = .returned) (hstep : SavingStep cfg hs s a s') :
    s'.main = .returned ∧ s'.node.daemon.idx = s.node.daemon.idx ∧
      ((∀ root, a ≠ .sync (.node (.edit root))) →
        s'.node.daemon.root = s.node.daemon.root) := by
  have hmain : s.main ≠ .looping := by simp [hreturned]
  obtain ⟨hstep, hworks⟩ := hstep
  cases hstep with
  | boot starting => exact absurd (hreturned.symm.trans starting) (by simp)
  | sync step =>
    cases step with
    | node step ok =>
      obtain ⟨hroot, hkept⟩ := hset.daemon_kept hmain step ok
      refine ⟨hreturned, by rw [hroot], fun hedit => ?_⟩
      rw [hkept fun root hacts => hedit root (by rw [hacts])]
    | @endPull _ h _ _ =>
      have hsave : h.fails .save = false := hworks
      refine ⟨hreturned, ?_, fun _ => ?_⟩ <;> simp [savePull, hsave]
  | cancel => exact ⟨hreturned, rfl, fun _ => rfl⟩
  | shutdown looping _ => exact absurd looping hmain

end Steps

/-- A clean shutdown loses no update of the index. However the cancellation, the loop, the
sections of any number of applies and the Saves of their pulls interleave, if all Saves succeed
then the index on disk is the one in memory from the moment Run has left its loop, and no later
step changes the index, nor the tree unless it is the user's. -/
theorem clean_shutdown {cfg : Config} {hs : Hashes} {s₀ s : RunState ι} {as : List (RunAction ι)}
    (hidle : ∀ k, s₀.node.calls k = .idle)
    (hsaved : s₀.node.daemon.saved = s₀.node.daemon.idx)
    (hrun : Run (SavingStep cfg hs) s₀ as s) (hreturned : s.main = .returned) :
    s.node.daemon.saved = s.node.daemon.idx ∧
      ∀ a s', SavingStep cfg hs s a s' →
        s'.node.daemon.saved = s'.node.daemon.idx ∧ s'.node.daemon.idx = s.node.daemon.idx ∧
        ((∀ root, a ≠ .sync (.node (.edit root))) →
          s'.node.daemon.root = s.node.daemon.root) := by
  have hstart : Settled cfg hs s₀ := by
    refine ⟨fun k => ?_, fun _ => hsaved, fun _ => Or.inr fun k => ?_⟩
    · rw [hidle k]
      trivial
    · rw [hidle k]
      trivial
  have hset : Settled cfg hs s := hrun.invariant (fun _ _ _ hc hst => hc.next hst) hstart
  refine ⟨hset.saved (by simp [hreturned]), ?_⟩
  intro a s' hstep
  obtain ⟨hreturned', hidx, hroot⟩ := hset.returned_kept hreturned hstep
  exact ⟨(hset.next hstep).saved (by simp [hreturned']), hidx, hroot⟩

def cancelledPull : List (RunAction Unit) :=
  [.boot .plain true, .sync (.node (.call () absentRemoval)), .sync (.node (.decide () .plain)),
    .cancel, .shutdown .plain]

theorem clean_shutdown_small :
    ∃ s, Run (SavingStep Config.plain Hashes.plain) ⟨.fresh, .starting, false⟩ cancelledPull s ∧
      s.main = .returned ∧ s.node.daemon.saved.get (ascii "a") = some absentRemoval := by
  have hexists : ∃ s, Run (SavingStep Config.plain Hashes.plain) ⟨.fresh, .starting, false⟩
      cancelledPull s ∧ s.main = .returned ∧
      s.node.daemon.idx.get (ascii "a") = some absentRemoval := by
    exact ⟨_, .cons ⟨.boot rfl, rfl⟩ (.cons ⟨.sync (.node rfl (Or.inl rfl)), trivial⟩
      (.cons ⟨.sync (.node rfl nofun), rfl⟩
        (.cons ⟨.cancel, trivial⟩ (.single ⟨.shutdown rfl rfl, rfl⟩)))), rfl, rfl⟩
  obtain ⟨s, hrun, hreturned, hget⟩ := hexists
  refine ⟨s, hrun, hreturned, ?_⟩
  rw [(clean_shutdown (fun _ => rfl) rfl hrun hreturned).1, hget]

end TailSync.Shutdown

import TailSync.Runs
import Mathlib.Data.List.Basic

/-!
The pull scheduling of daemon/run.go and daemon/daemon.go. Requests leave a token in
a one-slot channel; the main loop takes it, or a tick, and asks pullFlight whether to
start a worker; the worker runs batches until no request has come in meanwhile. Each
lock acquisition and channel operation is a step of its own, so a request can fall
between any two of them. At most one worker exists, and a request that no batch has
followed is on record in some stage of the hand-over.
-/
namespace TailSync.PullFlights

open Runs (Run)

structure PullFlight where
  running : Bool
  pending : Bool
  deriving DecidableEq, Repr

def PullFlight.tryStart (f : PullFlight) : PullFlight × Bool :=
  if f.running then ({ f with pending := true }, false) else ({ f with running := true }, true)

def PullFlight.finish (f : PullFlight) : PullFlight × Bool :=
  if f.pending then ({ f with pending := false }, true) else ({ f with running := false }, false)

/-- The main loop between its operations: in its select, in schedulePull before
tryStart, or in schedulePull with a worker to start. -/
inductive MainStage where
  | receiving
  | scheduling
  | starting
  deriving DecidableEq, Repr

/-- A worker: told to run a batch, in pullPeers, or past it and before finish. -/
inductive WorkerStage where
  | due
  | pulling
  | pulled
  deriving DecidableEq, Repr

structure PullState where
  needPull : Bool
  main : MainStage
  flight : PullFlight
  workers : List WorkerStage
  deriving DecidableEq, Repr

def PullState.initial : PullState := ⟨false, .scheduling, ⟨false, false⟩, []⟩

inductive PullAction where
  | request
  | tick
  | receive
  | tryStart
  | spawn
  | startBatch (worker : ℕ)
  | endBatch (worker : ℕ)
  | finish (worker : ℕ)
  deriving DecidableEq, Repr

inductive PullStep (s : PullState) : PullAction → PullState → Prop
  -- The send does not block: with the slot taken it is dropped, and the slot stays taken.
  | request : PullStep s .request { s with needPull := true }
  | tick (main : s.main = .receiving) : PullStep s .tick { s with main := .scheduling }
  | receive (main : s.main = .receiving) (token : s.needPull = true) :
      PullStep s .receive { s with needPull := false, main := .scheduling }
  | tryStart (main : s.main = .scheduling) :
      PullStep s .tryStart
        { s with
          flight := s.flight.tryStart.1
          main := if s.flight.tryStart.2 then .starting else .receiving }
  | spawn (main : s.main = .starting) :
      PullStep s .spawn { s with main := .receiving, workers := .due :: s.workers }
  | startBatch {i : ℕ} (due : s.workers[i]? = some .due) :
      PullStep s (.startBatch i) { s with workers := s.workers.set i .pulling }
  | endBatch {i : ℕ} (pulling : s.workers[i]? = some .pulling) :
      PullStep s (.endBatch i) { s with workers := s.workers.set i .pulled }
  | finish {i : ℕ} (pulled : s.workers[i]? = some .pulled) :
      PullStep s (.finish i)
        { s with
          flight := s.flight.finish.1
          workers := if s.flight.finish.2 then s.workers.set i .due else s.workers.eraseIdx i }

def workerCount (s : PullState) : ℕ :=
  s.workers.length + if s.main = .starting then 1 else 0

def Flagged (s : PullState) : Prop := workerCount s = if s.flight.running then 1 else 0

/-- A request is on record: as a token, in schedulePull, as a worker told to run a
batch, or as the flag that keeps the present worker from stopping. -/
def Outstanding (s : PullState) : Prop :=
  s.needPull = true ∨ s.main = .scheduling ∨ s.main = .starting ∨ .due ∈ s.workers ∨
    (s.flight.pending = true ∧ ∃ w ∈ s.workers, w = .pulling ∨ w = .pulled)

def Asks (a : PullAction) : Prop := a = .request ∨ a = .tick

variable {s t : PullState} {a : PullAction}

theorem Flagged.count_le (h : Flagged s) : workerCount s ≤ 1 := by
  unfold Flagged at h
  split at h <;> omega

theorem Flagged.step (h : Flagged s) (hstep : PullStep s a t) : Flagged t := by
  unfold Flagged workerCount at h ⊢
  cases hstep with
  | request => exact h
  | tick main => simpa [main] using h
  | receive main _ => simpa [main] using h
  | tryStart main =>
    cases hrunning : s.flight.running
    · simpa [PullFlight.tryStart, main, hrunning] using h
    · simpa [PullFlight.tryStart, main, hrunning] using h
  | spawn main => simpa [main] using h
  | startBatch due => simpa using h
  | endBatch pulling => simpa using h
  | finish pulled =>
    have hlt := (List.getElem?_eq_some_iff.mp pulled).1
    cases hpending : s.flight.pending
    · simp only [PullFlight.finish, hpending, Bool.false_eq_true, if_false,
        List.length_eraseIdx_of_lt hlt]
      split at h <;> split at h <;> simp_all
    · simpa [PullFlight.finish, hpending] using h

/-- Where one worker exists, a stage that some worker is in is that worker's. -/
theorem Flagged.mem_worker (h : Flagged s) {i : ℕ} {w w' : WorkerStage}
    (hi : s.workers[i]? = some w) (hw' : w' ∈ s.workers) : w' = w := by
  obtain ⟨j, hj, rfl⟩ := List.mem_iff_getElem.mp hw'
  obtain ⟨hlt, rfl⟩ := List.getElem?_eq_some_iff.mp hi
  have hle := h.count_le
  unfold workerCount at hle
  congr 1
  omega

/-- Only the start of a batch settles a request. -/
theorem Outstanding.step (h : Outstanding s) (hflag : Flagged s) (hstep : PullStep s a t)
    (hstart : ∀ i, a ≠ .startBatch i) : Outstanding t := by
  cases hstep with
  | request => exact Or.inl rfl
  | tick main => exact Or.inr (Or.inl rfl)
  | receive main token => exact Or.inr (Or.inl rfl)
  | tryStart main =>
    cases hrunning : s.flight.running
    · exact Or.inr (Or.inr (Or.inl (by simp [PullFlight.tryStart, hrunning])))
    · -- The call returns without a worker, but the flag it sets is seen by the one there is.
      have hne : s.workers ≠ [] := by
        rintro hnil
        simp [Flagged, workerCount, hnil, main, hrunning] at hflag
      obtain ⟨w, hw⟩ := List.exists_mem_of_ne_nil s.workers hne
      have hpending : s.flight.tryStart.1.pending = true := by
        simp [PullFlight.tryStart, hrunning]
      refine Or.inr (Or.inr (Or.inr ?_))
      cases w with
      | due => exact Or.inl hw
      | pulling => exact Or.inr ⟨hpending, _, hw, Or.inl rfl⟩
      | pulled => exact Or.inr ⟨hpending, _, hw, Or.inr rfl⟩
  | spawn main => exact Or.inr (Or.inr (Or.inr (Or.inl (by simp))))
  | startBatch due => exact absurd rfl (hstart _)
  | endBatch pulling =>
    have hlt := (List.getElem?_eq_some_iff.mp pulling).1
    rcases h with htoken | hsched | hstarting | hdue | ⟨hpending, -⟩
    · exact Or.inl htoken
    · exact Or.inr (Or.inl hsched)
    · exact Or.inr (Or.inr (Or.inl hstarting))
    · exact absurd (hflag.mem_worker pulling hdue) (by simp)
    · exact Or.inr (Or.inr (Or.inr (Or.inr
        ⟨hpending, .pulled, List.mem_set hlt .pulled, Or.inr rfl⟩)))
  | finish pulled =>
    have hlt := (List.getElem?_eq_some_iff.mp pulled).1
    rcases h with htoken | hsched | hstarting | hdue | ⟨hpending, -⟩
    · exact Or.inl htoken
    · exact Or.inr (Or.inl hsched)
    · exact Or.inr (Or.inr (Or.inl hstarting))
    · exact absurd (hflag.mem_worker pulled hdue) (by simp)
    · refine Or.inr (Or.inr (Or.inr (Or.inl ?_)))
      simp only [PullFlight.finish, hpending, if_true]
      exact List.mem_set hlt .due

theorem Asks.outstanding (hasks : Asks a) (hstep : PullStep s a t) : Outstanding t := by
  rcases hasks with rfl | rfl
  · cases hstep
    exact Or.inl rfl
  · cases hstep
    exact Or.inr (Or.inl rfl)

theorem Flagged.run {as : List PullAction} (hrun : Run PullStep s as t) (h : Flagged s) :
    Flagged t :=
  hrun.invariant (fun _ _ _ h hstep => h.step hstep) h

/-- A request stays on record along a run without the start of a batch. -/
theorem Outstanding.run {as : List PullAction} (hrun : Run PullStep s as t) (hflag : Flagged s)
    (h : Outstanding s) (hstart : ∀ i, .startBatch i ∉ as) : Outstanding t := by
  induction hrun with
  | nil s => exact h
  | @cons s u t a as hstep _ ih =>
    simp only [List.mem_cons, not_or] at hstart
    have hfirst : ∀ i, a ≠ .startBatch i := fun i hi => (hstart i).1 hi.symm
    exact ih (hflag.step hstep) (h.step hflag hstep hfirst) fun i => (hstart i).2

theorem flagged_initial : Flagged .initial := rfl

/-- Pulls are single-flight and no request is lost: in every state reached there is at
most one worker, one that is being started included, and after a request or a tick the
request is on record until a batch has begun. -/
theorem pull_requests_kept {as : List PullAction} {s : PullState}
    (hrun : Run PullStep .initial as s) :
    workerCount s ≤ 1 ∧
      ∀ a s' bs t, Asks a → PullStep s a s' → Run PullStep s' bs t →
        (∀ i, .startBatch i ∉ bs) → Outstanding t := by
  have hflag := flagged_initial.run hrun
  refine ⟨hflag.count_le, ?_⟩
  intro a s' bs t hasks hstep hafter
  exact (hasks.outstanding hstep).run hafter (hflag.step hstep)

/-- A request during a batch, taken up by the main loop before the batch has ended:
the flag is set, and the worker that ends the batch has not called finish yet. -/
theorem pull_request_during_batch :
    Run PullStep .initial [.tryStart, .spawn, .startBatch 0]
        ⟨false, .receiving, ⟨true, false⟩, [.pulling]⟩ ∧
      Outstanding ⟨false, .receiving, ⟨true, true⟩, [.pulled]⟩ := by
  have hbatch : Run PullStep .initial [.tryStart, .spawn, .startBatch 0]
      ⟨false, .receiving, ⟨true, false⟩, [.pulling]⟩ :=
    .cons (.tryStart rfl) (.cons (.spawn rfl) (.cons (.startBatch rfl) (.nil _)))
  have hafter : Run PullStep ⟨true, .receiving, ⟨true, false⟩, [.pulling]⟩
      [.receive, .tryStart, .endBatch 0] ⟨false, .receiving, ⟨true, true⟩, [.pulled]⟩ :=
    .cons (.receive rfl rfl) (.cons (.tryStart rfl) (.cons (.endBatch rfl) (.nil _)))
  exact ⟨hbatch, (pull_requests_kept hbatch).2 .request _ _ _ (Or.inl rfl) .request hafter
    (by simp)⟩

end TailSync.PullFlights

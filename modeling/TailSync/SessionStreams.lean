import TailSync.Runs
import Mathlib.Data.Finset.Card
import Mathlib.Logic.Function.Basic

/-!
The streams of one session and its Close, as session.go interleaves them. The accept loop
registers a handler under the session's mutex unless closed is set; Close sets closed under
the same mutex, waits for the registered handlers, and only then calls the callback, all
inside a sync.Once whose other callers wait for the first one. Any number of goroutines
call Close, and handlers end in any order.
-/
namespace TailSync.SessionStreams

open Runs (Run)

variable {ι : Type*}

/-- Where closeOnce stands: not called, entered by a goroutine that has not taken the mutex
yet, waiting for streamWG with the callback it has taken, calling back, about to return, or
over. -/
inductive Closing (ι : Type*) where
  | fresh
  | entered (owner : ι)
  | draining (owner : ι) (callback : Bool)
  | calling (owner : ι)
  | leaving (owner : ι)
  | done
  deriving DecidableEq, Repr

inductive Call where
  | outside
  | inside
  | returned
  deriving DecidableEq, Repr

structure Session (ι : Type*) where
  closed : Bool
  onClose : Bool
  streamWG : ℕ
  handlers : Finset ι
  closing : Closing ι
  calls : ι → Call
  callbacks : ℕ

def newSession : Session ι := ⟨false, true, 0, ∅, .fresh, fun _ => .outside, 0⟩

inductive SessionAction (ι : Type*) where
  | spawn (i : ι)
  | drop
  | finish (i : ι)
  | clearOnClose
  | call (i : ι)
  | enter (i : ι)
  | shut (i : ι)
  | drained (i : ι)
  | callBack (i : ι)
  | leave (i : ι)
  | pass (i : ι)
  deriving DecidableEq, Repr

def SessionAction.ofClose : SessionAction ι → Bool
  | .enter _ => true
  | .shut _ => true
  | .drained _ => true
  | .callBack _ => true
  | .leave _ => true
  | .pass _ => true
  | _ => false

variable [DecidableEq ι]

/-- spawnStreamHandler and the end of a handler, setOnClose(nil), and Close cut at its mutex,
its Wait and its callback. -/
inductive SessionStep (s : Session ι) : SessionAction ι → Session ι → Prop
  | spawn {i : ι} (open_ : s.closed = false) (fresh : i ∉ s.handlers) :
      SessionStep s (.spawn i)
        { s with streamWG := s.streamWG + 1, handlers := insert i s.handlers }
  | drop (shut : s.closed = true) : SessionStep s .drop s
  | finish {i : ι} (running : i ∈ s.handlers) :
      SessionStep s (.finish i)
        { s with streamWG := s.streamWG - 1, handlers := s.handlers.erase i }
  | clearOnClose : SessionStep s .clearOnClose { s with onClose := false }
  | call {i : ι} (free : s.calls i ≠ .inside) :
      SessionStep s (.call i) { s with calls := Function.update s.calls i .inside }
  | enter {i : ι} (called : s.calls i = .inside) (first : s.closing = .fresh) :
      SessionStep s (.enter i) { s with closing := .entered i }
  | shut {i : ι} (owner : s.closing = .entered i) :
      SessionStep s (.shut i)
        { s with closed := true, onClose := false, closing := .draining i s.onClose }
  | drained {i : ι} {callback : Bool} (owner : s.closing = .draining i callback)
      (zero : s.streamWG = 0) :
      SessionStep s (.drained i)
        { s with closing := if callback then .calling i else .leaving i }
  | callBack {i : ι} (owner : s.closing = .calling i) :
      SessionStep s (.callBack i)
        { s with closing := .leaving i, callbacks := s.callbacks + 1 }
  | leave {i : ι} (owner : s.closing = .leaving i) :
      SessionStep s (.leave i)
        { s with closing := .done, calls := Function.update s.calls i .returned }
  | pass {i : ι} (called : s.calls i = .inside) (finished : s.closing = .done) :
      SessionStep s (.pass i) { s with calls := Function.update s.calls i .returned }

def Closing.Shut : Closing ι → Prop
  | .fresh => False
  | .entered _ => False
  | _ => True

def Closing.Drained : Closing ι → Prop
  | .calling _ => True
  | .leaving _ => True
  | .done => True
  | _ => False

def Closing.owner? : Closing ι → Option ι
  | .fresh => none
  | .entered i => some i
  | .draining i _ => some i
  | .calling i => some i
  | .leaving i => some i
  | .done => none

def Closing.pending : Closing ι → ℕ
  | .fresh => 1
  | .entered _ => 1
  | .draining _ callback => callback.toNat
  | .calling _ => 1
  | .leaving _ => 0
  | .done => 0

structure Counted (s : Session ι) : Prop where
  counted : s.streamWG = s.handlers.card
  shut : s.closed = true ↔ s.closing.Shut
  drained : s.closing.Drained → s.handlers = ∅
  once : s.callbacks + s.closing.pending ≤ 1
  returned : ∀ i, s.calls i = .returned → s.closing = .done
  owner : ∀ i, s.closing.owner? = some i → s.calls i = .inside

omit [DecidableEq ι] in
theorem counted_newSession : Counted (newSession : Session ι) where
  counted := rfl
  shut := by simp [newSession, Closing.Shut]
  drained h := h.elim
  once := le_rfl
  returned i h := absurd h (by simp [newSession])
  owner i h := absurd h (by simp [newSession, Closing.owner?])

section Steps
variable {s s' : Session ι}

/-- A handler is registered only while Close has not taken the mutex, so its Wait has not
begun. -/
theorem Counted.spawn (h : Counted s) {i : ι} (hopen : s.closed = false)
    (hfresh : i ∉ s.handlers) :
    Counted { s with streamWG := s.streamWG + 1, handlers := insert i s.handlers } where
  counted := by simp [hfresh, h.counted]
  shut := h.shut
  drained hdrained := by
    have hshut : s.closing.Shut := by
      cases hc : s.closing <;> simp_all [Closing.Drained, Closing.Shut]
    exact absurd (h.shut.mpr hshut) (by simp [hopen])
  once := h.once
  returned := h.returned
  owner := h.owner

theorem Counted.finish (h : Counted s) {i : ι} (hrunning : i ∈ s.handlers) :
    Counted { s with streamWG := s.streamWG - 1, handlers := s.handlers.erase i } where
  counted := by simp [Finset.card_erase_of_mem hrunning, h.counted]
  shut := h.shut
  drained hdrained := by
    rw [h.drained hdrained] at hrunning
    exact absurd hrunning (by simp)
  once := h.once
  returned := h.returned
  owner := h.owner

/-- A goroutine other than the one inside the Once goes in or out. -/
theorem Counted.setCall (h : Counted s) {i : ι} {call : Call}
    (hinside : call ≠ .inside → s.closing = .done)
    (hreturned : call = .returned → s.closing = .done) :
    Counted { s with calls := Function.update s.calls i call } where
  counted := h.counted
  shut := h.shut
  drained := h.drained
  once := h.once
  returned j hj := by
    by_cases hji : j = i
    · subst hji
      exact hreturned (by simpa using hj)
    · exact h.returned j (by simpa [Function.update_of_ne hji] using hj)
  owner j hj := by
    by_cases hji : j = i
    · subst hji
      by_cases hcall : call = .inside
      · simp [hcall]
      · rw [hinside hcall] at hj
        exact absurd hj (by simp [Closing.owner?])
    · simpa [Function.update_of_ne hji] using h.owner j hj

omit [DecidableEq ι] in
theorem Counted.none_returned (h : Counted s) (hclosing : s.closing ≠ .done) (i : ι) :
    s.calls i ≠ .returned :=
  fun hi => hclosing (h.returned i hi)

theorem Counted.step (h : Counted s) {a : SessionAction ι} (hstep : SessionStep s a s') :
    Counted s' := by
  cases hstep with
  | spawn open_ fresh => exact h.spawn open_ fresh
  | drop _ => exact h
  | finish running => exact h.finish running
  | clearOnClose => exact ⟨h.counted, h.shut, h.drained, h.once, h.returned, h.owner⟩
  | call free => exact h.setCall (by simp) (by simp)
  | @enter i called first =>
    have hnone := h.none_returned (by simp [first])
    refine ⟨h.counted, ?_, False.elim, ?_, fun j hj => absurd hj (hnone j), ?_⟩
    · rw [h.shut, first]
      simp [Closing.Shut]
    · simpa [first, Closing.pending] using h.once
    · intro j hj
      simp only [Closing.owner?, Option.some.injEq] at hj
      rwa [← hj]
  | @shut i owner =>
    have hnone := h.none_returned (by simp [owner])
    refine ⟨h.counted, by simp [Closing.Shut], False.elim, ?_,
      fun j hj => absurd hj (hnone j), fun j hj => h.owner j (by rw [owner]; exact hj)⟩
    have honce := h.once
    rw [owner] at honce
    simp only [Closing.pending] at honce ⊢
    cases s.onClose <;> simp <;> omega
  | @drained i callback owner zero =>
    have hnone := h.none_returned (by simp [owner])
    have hempty : s.handlers = ∅ := by
      rw [← Finset.card_eq_zero, ← h.counted]
      exact zero
    have hclosed : s.closed = true := h.shut.mpr (by simp [owner, Closing.Shut])
    have honce := h.once
    rw [owner] at honce
    refine ⟨h.counted, ?_, fun _ => hempty, ?_, fun j hj => absurd hj (hnone j),
      fun j hj => h.owner j ?_⟩
    · cases callback <;> simp [hclosed, Closing.Shut]
    · cases callback <;> simpa [Closing.pending] using honce
    · rw [owner]
      cases callback <;> exact hj
  | @callBack i owner =>
    have hnone := h.none_returned (by simp [owner])
    have honce := h.once
    rw [owner] at honce
    refine ⟨h.counted, ?_, fun _ => h.drained (by simp [owner, Closing.Drained]), honce,
      fun j hj => absurd hj (hnone j), fun j hj => h.owner j (by rw [owner]; exact hj)⟩
    simp [h.shut.mpr (by simp [owner, Closing.Shut]), Closing.Shut]
  | @leave i owner =>
    have hleft : Counted { s with closing := .done } := by
      have honce := h.once
      rw [owner] at honce
      refine ⟨h.counted, ?_, fun _ => h.drained (by simp [owner, Closing.Drained]), honce,
        fun _ _ => rfl, fun j hj => absurd hj (by simp [Closing.owner?])⟩
      simp [h.shut.mpr (by simp [owner, Closing.Shut]), Closing.Shut]
    exact hleft.setCall (fun _ => rfl) fun _ => rfl
  | pass _ finished => exact h.setCall (fun _ => finished) fun _ => finished

/-- Close moves on unless it has to wait for a handler. -/
theorem Counted.progress (h : Counted s) {i : ι} (hinside : s.calls i = .inside)
    (hidle : s.handlers = ∅) : ∃ a s', a.ofClose = true ∧ SessionStep s a s' := by
  cases hclosing : s.closing with
  | fresh => exact ⟨.enter i, _, rfl, .enter hinside hclosing⟩
  | entered owner => exact ⟨.shut owner, _, rfl, .shut hclosing⟩
  | draining owner callback =>
    have hzero : s.streamWG = 0 := by rw [h.counted, hidle, Finset.card_empty]
    exact ⟨.drained owner, _, rfl, .drained hclosing hzero⟩
  | calling owner => exact ⟨.callBack owner, _, rfl, .callBack hclosing⟩
  | leaving owner => exact ⟨.leave owner, _, rfl, .leave hclosing⟩
  | done => exact ⟨.pass i, _, rfl, .pass hinside hclosing⟩

/-- The callback is there until Close takes it, and then it is called. -/
def CalledBack (s : Session ι) : Prop :=
  (¬ s.closing.Shut → s.onClose = true) ∧ s.callbacks + s.closing.pending = 1

theorem CalledBack.step {a : SessionAction ι} (h : CalledBack s) (hstep : SessionStep s a s')
    (hkept : a ≠ .clearOnClose) : CalledBack s' := by
  obtain ⟨hset, hcalls⟩ := h
  cases hstep with
  | clearOnClose => exact absurd rfl hkept
  | enter _ first =>
    rw [first] at hset hcalls
    exact ⟨hset, hcalls⟩
  | shut owner =>
    rw [owner] at hset hcalls
    refine ⟨fun hnot => absurd trivial hnot, ?_⟩
    rw [hset (by simp [Closing.Shut])]
    exact hcalls
  | @drained i callback owner _ =>
    rw [owner] at hcalls
    cases callback with
    | true => exact ⟨fun hnot => absurd trivial hnot, hcalls⟩
    | false => exact ⟨fun hnot => absurd trivial hnot, hcalls⟩
  | callBack owner =>
    rw [owner] at hcalls
    exact ⟨fun hnot => absurd trivial hnot, hcalls⟩
  | leave owner =>
    rw [owner] at hcalls
    exact ⟨fun hnot => absurd trivial hnot, hcalls⟩
  | spawn _ _ => exact ⟨hset, hcalls⟩
  | drop _ => exact ⟨hset, hcalls⟩
  | finish _ => exact ⟨hset, hcalls⟩
  | call _ => exact ⟨hset, hcalls⟩
  | pass _ _ => exact ⟨hset, hcalls⟩

theorem run_calledBack {as : List (SessionAction ι)} (hrun : Run SessionStep s as s')
    (hkept : .clearOnClose ∉ as) (h : CalledBack s) : CalledBack s' := by
  induction hrun with
  | nil _ => exact h
  | cons hstep _ ih =>
    rw [List.mem_cons, not_or] at hkept
    exact ih hkept.2 (h.step hstep (Ne.symm hkept.1))

end Steps

/-- Close and the stream handlers of a session, in every interleaving. streamWG counts the
handlers that run; none is registered once Close has taken the mutex, so nothing is added to
streamWG while Wait waits for it. When a Close has returned, in the goroutine that did the
work or in one that only waited for it, the session is closed, no handler runs and the
callback is over. The callback is called at most once, without a handler running, and
exactly once if it was not taken away. And Close is never stuck: unless a handler still runs,
it can go on. -/
theorem close_waits_for_handlers {s : Session ι} {as : List (SessionAction ι)}
    (hrun : Run SessionStep newSession as s) :
    s.streamWG = s.handlers.card ∧
    (∀ i s', SessionStep s (.spawn i) s' → ¬ s.closing.Shut) ∧
    (∀ i, s.calls i = .returned → s.closed = true ∧ s.handlers = ∅ ∧ s.closing = .done) ∧
    s.callbacks ≤ 1 ∧
    (∀ i, s.closing = .calling i → s.handlers = ∅) ∧
    (.clearOnClose ∉ as → s.closing = .done → s.callbacks = 1) ∧
    ((∃ i, s.calls i = .inside) → s.handlers = ∅ →
      ∃ a s', a.ofClose = true ∧ SessionStep s a s') := by
  have h : Counted s := hrun.invariant (fun _ _ _ hs hstep => hs.step hstep) counted_newSession
  refine ⟨h.counted, ?_, ?_, by have := h.once; omega, ?_, ?_, ?_⟩
  · intro i s' hstep hshut
    cases hstep with
    | spawn open_ _ => exact absurd (h.shut.mpr hshut) (by simp [open_])
  · intro i hi
    have hdone := h.returned i hi
    exact ⟨h.shut.mpr (by simp [hdone, Closing.Shut]),
      h.drained (by simp [hdone, Closing.Drained]), hdone⟩
  · intro i hi
    exact h.drained (by simp [hi, Closing.Drained])
  · intro hkept hdone
    have hcalled : CalledBack (newSession : Session ι) := ⟨fun _ => rfl, rfl⟩
    have hcalls := (run_calledBack hrun hkept hcalled).2
    simpa [hdone, Closing.pending] using hcalls
  · rintro ⟨i, hi⟩ hidle
    exact h.progress hi hidle

def closingTurns : List (SessionAction ℕ) :=
  [.spawn 7, .call 0, .enter 0, .shut 0, .call 1, .drop, .finish 7, .drained 0, .callBack 0,
    .leave 0, .pass 1]

theorem close_waits_for_one_handler :
    ∃ s, Run SessionStep newSession closingTurns s ∧ s.handlers = ∅ ∧ s.callbacks = 1 := by
  have hexists : ∃ s, Run SessionStep newSession closingTurns s ∧ s.calls 1 = .returned :=
    ⟨_, .cons (.spawn rfl (by simp [newSession])) (.cons (.call (by simp [newSession]))
      (.cons (.enter rfl rfl) (.cons (.shut rfl) (.cons (.call (by simp [newSession]))
      (.cons (.drop rfl) (.cons (.finish (by simp)) (.cons (.drained rfl rfl)
      (.cons (.callBack rfl) (.cons (.leave rfl) (.single (.pass rfl rfl))))))))))), rfl⟩
  obtain ⟨s, hrun, hreturned⟩ := hexists
  obtain ⟨_, _, hreturns, _, _, hcalls, _⟩ := close_waits_for_handlers hrun
  obtain ⟨_, hidle, hdone⟩ := hreturns 1 hreturned
  exact ⟨s, hrun, hidle, hcalls (by simp [closingTurns]) hdone⟩

end TailSync.SessionStreams

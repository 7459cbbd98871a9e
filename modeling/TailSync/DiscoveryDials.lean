import TailSync.ByteStrings
import TailSync.Runs
import Mathlib.Data.Finset.Insert
import Mathlib.Data.List.Nodup

/-!
The dial loop of internal/peer/discovery.go. A pass goes over the candidates, claims the
addresses that are neither connected nor in flight nor backed off, and dials each in a
goroutine of its own under a semaphore; the pass ends when all of them have ended. Failures
are also reported from outside, when a session drops, and backoffs cleared when one is
installed. Times are nanoseconds since Go's zero time.
-/
namespace TailSync.DiscoveryDials

open ByteStrings
open Runs (Run)

def second : ℕ := 10 ^ 9

def discoveryBackoffBase : ℕ := 2 * second
def discoveryBackoffMax : ℕ := 300 * second
def discoveryBackoffParkAfter : ℕ := 5

/-- The loop of discoveryBackoffDuration: double at most k times while below the maximum. -/
def doubled : ℕ → ℕ → ℕ
  | 0, d => d
  | k + 1, d => if d < discoveryBackoffMax then doubled k (d * 2) else d

def discoveryBackoffDuration (streak : ℕ) : ℕ :=
  let n := min (max streak 1) discoveryBackoffParkAfter
  min (doubled (n - 1) discoveryBackoffBase) discoveryBackoffMax

structure Candidate where
  addr : Bytes
  nodeID : Bytes
  deriving DecidableEq, Repr

structure AddrBackoff where
  until_ : ℕ
  streak : ℕ
  deriving DecidableEq, Repr

structure Book where
  backoff : Bytes → Option AddrBackoff
  inflight : Finset Bytes

def inBackoff (now : ℕ) (b : Book) (addr : Bytes) : Bool :=
  match b.backoff addr with
  | none => false
  | some ab => decide (ab.until_ ≠ 0 ∧ now < ab.until_)

def tryBeginDial (now : ℕ) (b : Book) (addr : Bytes) : Book × Bool :=
  if addr ∈ b.inflight then (b, false)
  else if inBackoff now b addr then (b, false)
  else ({ b with inflight := insert addr b.inflight }, true)

def endDial (b : Book) (addr : Bytes) : Book := { b with inflight := b.inflight.erase addr }

def softFail (now : ℕ) (b : Book) (addr : Bytes) : Book :=
  let streak := ((b.backoff addr).map AddrBackoff.streak).getD 0 + 1
  { b with
    backoff := Function.update b.backoff addr
      (some ⟨now + discoveryBackoffDuration streak, streak⟩) }

def clearBackoff (b : Book) (addr : Bytes) : Book :=
  { b with backoff := Function.update b.backoff addr none }

/-- Where a dial goroutine stands: waiting for the semaphore, in dialPeer, past it with its
result not yet accounted for, or about to run endDial. -/
inductive DialPhase where
  | waiting
  | dialing
  | dialed (ok : Bool)
  | ending
  deriving DecidableEq, Repr

/-- Where Run stands: in its select, in a pass with candidates left and the roster's snapshot,
or returned. -/
inductive Loop where
  | idle
  | passing (rest : List Candidate) (addrs ids : List Bytes)
  | stopped
  deriving DecidableEq, Repr

def Loop.inPass : Loop → Bool
  | .passing _ _ _ => true
  | _ => false

structure Discovery where
  now : ℕ
  book : Book
  sem : ℕ
  kick : Bool
  ticking : Bool
  pending : Bool
  loop : Loop
  dials : List (Bytes × DialPhase)
  cancelled : Bool

def newDiscovery : Discovery := ⟨1, ⟨fun _ => none, ∅⟩, 0, false, false, false, .idle, [], false⟩

def skipped (addrs ids : List Bytes) (c : Candidate) : Bool :=
  c.addr.isEmpty || addrs.contains c.addr || (!c.nodeID.isEmpty && ids.contains c.nodeID)

def consider (s : Discovery) (c : Candidate) (rest : List Candidate) (addrs ids : List Bytes) :
    Discovery :=
  if skipped addrs ids c then { s with loop := .passing rest addrs ids }
  else
    let (book, claimed) := tryBeginDial s.now s.book c.addr
    { s with
      book := book
      loop := .passing rest addrs ids
      dials := if claimed then s.dials ++ [(c.addr, .waiting)] else s.dials }

inductive DiscoveryAction where
  | elapse (n : ℕ)
  | kick
  | cancel
  | softFailAddr (addr : Bytes)
  | clearBackoff (addr : Bytes)
  | tick (kicked : Bool)
  | consider
  | endTick
  | stop
  | acquire (addr : Bytes)
  | abandon (addr : Bytes)
  | release (addr : Bytes) (ok : Bool)
  | account (addr : Bytes) (ok : Bool)
  | endDial (addr : Bytes)
  deriving DecidableEq, Repr

def DiscoveryAction.fails (addr : Bytes) : DiscoveryAction → Bool
  | .softFailAddr a => decide (a = addr)
  | .account a ok => decide (a = addr ∧ ok = false)
  | _ => false

def DiscoveryAction.clears (addr : Bytes) : DiscoveryAction → Bool
  | .clearBackoff a => decide (a = addr)
  | .account a ok => decide (a = addr ∧ ok = true)
  | _ => false

inductive DiscoveryStep (concurrency : ℕ) (s : Discovery) : DiscoveryAction → Discovery → Prop
  | elapse {n : ℕ} : DiscoveryStep concurrency s (.elapse n) { s with now := s.now + n }
  | kick : DiscoveryStep concurrency s .kick { s with kick := true }
  | cancel : DiscoveryStep concurrency s .cancel { s with cancelled := true }
  | softFailAddr {addr : Bytes} (named : addr ≠ []) :
      DiscoveryStep concurrency s (.softFailAddr addr)
        { s with book := softFail s.now s.book addr }
  | clearBackoff {addr : Bytes} :
      DiscoveryStep concurrency s (.clearBackoff addr)
        { s with book := DiscoveryDials.clearBackoff s.book addr }
  | tick {kicked : Bool} {cands : List Candidate} {addrs ids : List Bytes}
      (idle : s.loop = .idle) (running : s.cancelled = false)
      (token : kicked = true → s.kick = true) :
      DiscoveryStep concurrency s (.tick kicked)
        (if s.ticking then { s with kick := s.kick && !kicked, pending := true }
        else
          { s with
            kick := s.kick && !kicked
            ticking := true
            loop := .passing cands addrs ids })
  -- select may prefer the ticker or the Kick to a cancelled context; tick then returns
  | tickCancelled {kicked : Bool} (idle : s.loop = .idle) (done : s.cancelled = true)
      (token : kicked = true → s.kick = true) :
      DiscoveryStep concurrency s (.tick kicked) { s with kick := s.kick && !kicked }
  | consider {c : Candidate} {rest : List Candidate} {addrs ids : List Bytes}
      (next : s.loop = .passing (c :: rest) addrs ids) :
      DiscoveryStep concurrency s .consider (DiscoveryDials.consider s c rest addrs ids)
  | endTick {addrs ids : List Bytes} (finished : s.loop = .passing [] addrs ids)
      (waited : s.dials = []) :
      DiscoveryStep concurrency s .endTick
        { s with loop := .idle, ticking := false, pending := false, kick := s.kick || s.pending }
  | stop (idle : s.loop = .idle) (done : s.cancelled = true) :
      DiscoveryStep concurrency s .stop { s with loop := .stopped }
  | acquire {addr : Bytes} {pre post : List (Bytes × DialPhase)}
      (at_ : s.dials = pre ++ (addr, .waiting) :: post) (room : s.sem < concurrency) :
      DiscoveryStep concurrency s (.acquire addr)
        { s with sem := s.sem + 1, dials := pre ++ (addr, .dialing) :: post }
  | abandon {addr : Bytes} {pre post : List (Bytes × DialPhase)}
      (at_ : s.dials = pre ++ (addr, .waiting) :: post) (done : s.cancelled = true) :
      DiscoveryStep concurrency s (.abandon addr)
        { s with dials := pre ++ (addr, .ending) :: post }
  | release {addr : Bytes} {ok : Bool} {pre post : List (Bytes × DialPhase)}
      (at_ : s.dials = pre ++ (addr, .dialing) :: post) :
      DiscoveryStep concurrency s (.release addr ok)
        { s with sem := s.sem - 1, dials := pre ++ (addr, .dialed ok) :: post }
  | account {addr : Bytes} {ok : Bool} {pre post : List (Bytes × DialPhase)}
      (at_ : s.dials = pre ++ (addr, .dialed ok) :: post) :
      DiscoveryStep concurrency s (.account addr ok)
        { s with
          book := if ok then DiscoveryDials.clearBackoff s.book addr
            else softFail s.now s.book addr
          dials := pre ++ (addr, .ending) :: post }
  | endDial {addr : Bytes} {pre post : List (Bytes × DialPhase)}
      (at_ : s.dials = pre ++ (addr, .ending) :: post) :
      DiscoveryStep concurrency s (.endDial addr)
        { s with book := DiscoveryDials.endDial s.book addr, dials := pre ++ post }

/-- Below the cap the loop doubles every time. -/
theorem doubled_eq {k d : ℕ} (hcap : d * 2 ^ k < 2 * discoveryBackoffMax) :
    doubled k d = d * 2 ^ k := by
  induction k generalizing d with
  | zero => simp [doubled]
  | succ k ih =>
    have hpow : d * 2 ^ (k + 1) = d * 2 * 2 ^ k := by rw [pow_succ, mul_comm (2 ^ k) 2, ← mul_assoc]
    have hpos : 1 ≤ 2 ^ k := Nat.one_le_two_pow
    have hless : d < discoveryBackoffMax := by
      by_contra hge
      have hmul : d * 2 * 1 ≤ d * 2 * 2 ^ k := Nat.mul_le_mul_left _ hpos
      omega
    rw [doubled, if_pos hless, ih (by omega), hpow]

/-- The backoff doubles from two seconds with each failure up to the fifth, which is below the
maximum, and stays there. -/
theorem discoveryBackoffDuration_eq (streak : ℕ) :
    discoveryBackoffDuration streak = 2 * second * 2 ^ (min (max streak 1) 5 - 1) := by
  have hpow : 2 ^ (min (max streak 1) 5 - 1) ≤ 2 ^ 4 := Nat.pow_le_pow_right (by omega) (by omega)
  have hmul := Nat.mul_le_mul_left (2 * second) hpow
  have hsixteen : 2 * second * 2 ^ 4 = 32 * second := by unfold second; omega
  have hpos : 0 < second := by decide
  unfold discoveryBackoffDuration
  simp only [discoveryBackoffParkAfter, discoveryBackoffBase]
  rw [doubled_eq (by unfold discoveryBackoffMax; omega), min_eq_left]
  unfold discoveryBackoffMax
  omega

theorem discoveryBackoffDuration_le (streak : ℕ) :
    discoveryBackoffDuration streak ≤ 32 * second := by
  have hpow : 2 ^ (min (max streak 1) 5 - 1) ≤ 2 ^ 4 := Nat.pow_le_pow_right (by omega) (by omega)
  calc discoveryBackoffDuration streak
      = 2 * second * 2 ^ (min (max streak 1) 5 - 1) := discoveryBackoffDuration_eq streak
    _ ≤ 2 * second * 2 ^ 4 := Nat.mul_le_mul_left _ hpow
    _ = 32 * second := by unfold second; omega

theorem discoveryBackoffDuration_ge (streak : ℕ) :
    2 * second ≤ discoveryBackoffDuration streak := by
  rw [discoveryBackoffDuration_eq]
  exact Nat.le_mul_of_pos_right _ (Nat.two_pow_pos _)

section Book
variable {now : ℕ} {b : Book} {addr a : Bytes}

/-- tryBeginDial claims the address, or changes nothing. -/
theorem tryBeginDial_cases (now : ℕ) (b : Book) (addr : Bytes) :
    (addr ∉ b.inflight ∧ inBackoff now b addr = false ∧
      tryBeginDial now b addr = ({ b with inflight := insert addr b.inflight }, true)) ∨
    tryBeginDial now b addr = (b, false) ∧
      (addr ∈ b.inflight ∨ inBackoff now b addr = true) := by
  unfold tryBeginDial
  split
  · exact Or.inr ⟨rfl, Or.inl ‹_›⟩
  · rename_i hfree
    split
    · exact Or.inr ⟨rfl, Or.inr ‹_›⟩
    · rename_i hready
      exact Or.inl ⟨hfree, by simpa using hready, rfl⟩

theorem softFail_self (now : ℕ) (b : Book) (addr : Bytes) :
    ∃ streak, (softFail now b addr).backoff addr =
      some ⟨now + discoveryBackoffDuration streak, streak⟩ :=
  ⟨_, by simp only [softFail, Function.update_self]; rfl⟩

theorem softFail_of_ne (now : ℕ) (b : Book) (hne : a ≠ addr) :
    (softFail now b addr).backoff a = b.backoff a := by
  simp [softFail, Function.update_of_ne hne]

theorem clearBackoff_self (b : Book) (addr : Bytes) :
    (clearBackoff b addr).backoff addr = none := by
  simp [clearBackoff]

theorem clearBackoff_of_ne (b : Book) (hne : a ≠ addr) :
    (clearBackoff b addr).backoff a = b.backoff a := by
  simp [clearBackoff, Function.update_of_ne hne]

def Bounded (now : ℕ) (b : Book) : Prop :=
  ∀ a ab, b.backoff a = some ab → ab.until_ ≤ now + 32 * second

theorem Bounded.softFail (h : Bounded now b) (addr : Bytes) :
    Bounded now (softFail now b addr) := by
  intro a ab hab
  by_cases ha : a = addr
  · subst ha
    obtain ⟨streak, hfailed⟩ := softFail_self now b a
    rw [hfailed] at hab
    cases hab
    exact Nat.add_le_add_left (discoveryBackoffDuration_le streak) now
  · rw [softFail_of_ne now b ha] at hab
    exact h a ab hab

theorem Bounded.clearBackoff (h : Bounded now b) (addr : Bytes) :
    Bounded now (clearBackoff b addr) := by
  intro a ab hab
  by_cases ha : a = addr
  · subst ha
    rw [clearBackoff_self] at hab
    exact absurd hab (by simp)
  · rw [clearBackoff_of_ne b ha] at hab
    exact h a ab hab

end Book

def DialPhase.holds : DialPhase → Bool
  | .dialing => true
  | _ => false

def dialing (dials : List (Bytes × DialPhase)) : ℕ := dials.countP fun d => d.2.holds

theorem dialing_middle (pre post : List (Bytes × DialPhase)) (addr : Bytes) (phase : DialPhase) :
    dialing (pre ++ (addr, phase) :: post) = dialing (pre ++ post) + phase.holds.toNat := by
  simp only [dialing, List.countP_append, List.countP_cons]
  cases phase.holds <;> grind

structure Tidy (concurrency : ℕ) (s : Discovery) : Prop where
  distinct : (s.dials.map Prod.fst).Nodup
  claimed : ∀ a, a ∈ s.book.inflight ↔ a ∈ s.dials.map Prod.fst
  held : s.sem = dialing s.dials
  limited : s.sem ≤ concurrency
  idle : s.loop.inPass = false → s.dials = []
  ticking : s.ticking = s.loop.inPass
  pending : s.pending = false
  bounded : Bounded s.now s.book

theorem tidy_newDiscovery (concurrency : ℕ) : Tidy concurrency newDiscovery where
  distinct := List.nodup_nil
  claimed a := by simp [newDiscovery]
  held := rfl
  limited := Nat.zero_le _
  idle _ := rfl
  ticking := rfl
  pending := rfl
  bounded a ab hab := absurd hab (by simp [newDiscovery])

section Steps
variable {concurrency : ℕ} {s s' : Discovery} {pre post : List (Bytes × DialPhase)} {addr : Bytes}

/-- A goroutine moves on and the semaphore with it. -/
theorem Tidy.move (h : Tidy concurrency s) {old new : DialPhase} {sem : ℕ}
    (hat : s.dials = pre ++ (addr, old) :: post)
    (hsem : sem + old.holds.toNat = s.sem + new.holds.toNat) (hlimit : sem ≤ concurrency)
    {book : Book} (hinflight : book.inflight = s.book.inflight)
    (hbounded : Bounded s.now book) :
    Tidy concurrency { s with
      book := book, sem := sem, dials := pre ++ (addr, new) :: post } where
  distinct := by simpa [hat] using h.distinct
  claimed a := by
    rw [hinflight, h.claimed a, hat]
    simp
  held := by
    have hheld := h.held
    rw [hat] at hheld
    rw [dialing_middle] at hheld ⊢
    change sem = _
    omega
  limited := hlimit
  idle hidle := by
    have hnone := h.idle hidle
    rw [hat] at hnone
    exact absurd hnone (by simp)
  ticking := h.ticking
  pending := h.pending
  bounded := hbounded

/-- A goroutine ends and gives its address back. -/
theorem Tidy.endDial (h : Tidy concurrency s) (hat : s.dials = pre ++ (addr, .ending) :: post) :
    Tidy concurrency { s with
      book := DiscoveryDials.endDial s.book addr, dials := pre ++ post } where
  distinct := by
    have hdistinct := h.distinct
    rw [hat, List.map_append, List.map_cons] at hdistinct
    rw [List.map_append]
    exact (List.nodup_middle.mp hdistinct).of_cons
  claimed a := by
    have hdistinct := h.distinct
    have hclaimed := h.claimed a
    rw [hat, List.map_append, List.map_cons] at hdistinct hclaimed
    have hfresh : addr ∉ pre.map Prod.fst ++ post.map Prod.fst :=
      (List.nodup_cons.mp (List.nodup_middle.mp hdistinct)).1
    simp only [DiscoveryDials.endDial, Finset.mem_erase, List.map_append]
    rw [hclaimed]
    simp only [List.mem_append, List.mem_cons] at hfresh ⊢
    constructor
    · rintro ⟨hne, hpre | heq | hpost⟩
      · exact Or.inl hpre
      · exact absurd heq hne
      · exact Or.inr hpost
    · intro hmem
      refine ⟨?_, ?_⟩
      · rintro rfl
        exact hfresh hmem
      · rcases hmem with hpre | hpost
        · exact Or.inl hpre
        · exact Or.inr (Or.inr hpost)
  held := by
    have hheld := h.held
    rw [hat, dialing_middle] at hheld
    exact hheld
  limited := h.limited
  idle hidle := by
    have hnone := h.idle hidle
    rw [hat] at hnone
    exact absurd hnone (by simp)
  ticking := h.ticking
  pending := h.pending
  bounded := h.bounded

/-- A candidate is skipped, or claimed and given a goroutine. -/
theorem Tidy.consider (h : Tidy concurrency s) {c : Candidate} {rest : List Candidate}
    {addrs ids : List Bytes} (hnext : s.loop = .passing (c :: rest) addrs ids) :
    Tidy concurrency (consider s c rest addrs ids) := by
  have hticking : s.ticking = true := by rw [h.ticking, hnext]; rfl
  have hskip : Tidy concurrency { s with loop := .passing rest addrs ids } :=
    ⟨h.distinct, h.claimed, h.held, h.limited, fun hidle => absurd hidle (by simp [Loop.inPass]),
      hticking, h.pending, h.bounded⟩
  unfold DiscoveryDials.consider
  split
  · exact hskip
  · rcases tryBeginDial_cases s.now s.book c.addr with ⟨hfree, _, hbegin⟩ | ⟨hbegin, _⟩
    · rw [hbegin]
      have hfresh : c.addr ∉ s.dials.map Prod.fst := fun hmem => hfree ((h.claimed _).mpr hmem)
      refine ⟨?_, ?_, ?_, h.limited, fun hidle => absurd hidle (by simp [Loop.inPass]), hticking,
        h.pending, h.bounded⟩
      · simp only [if_true, List.map_append, List.map_cons, List.map_nil]
        exact h.distinct.append (List.nodup_singleton _)
          (List.disjoint_singleton.mpr hfresh)
      · intro a
        simp [h.claimed a, or_comm]
      · have hheld := dialing_middle s.dials [] c.addr .waiting
        rw [List.append_nil] at hheld
        simpa [hheld, DialPhase.holds] using h.held
    · rw [hbegin]
      exact hskip

theorem Tidy.step (h : Tidy concurrency s) {a : DiscoveryAction}
    (hstep : DiscoveryStep concurrency s a s') : Tidy concurrency s' := by
  cases hstep with
  | @elapse n =>
    refine ⟨h.distinct, h.claimed, h.held, h.limited, h.idle, h.ticking, h.pending, ?_⟩
    intro a ab hab
    have hle := h.bounded a ab hab
    dsimp only
    omega
  | kick => exact ⟨h.distinct, h.claimed, h.held, h.limited, h.idle, h.ticking, h.pending,
      h.bounded⟩
  | cancel => exact ⟨h.distinct, h.claimed, h.held, h.limited, h.idle, h.ticking, h.pending,
      h.bounded⟩
  | softFailAddr named =>
    exact ⟨h.distinct, h.claimed, h.held, h.limited, h.idle, h.ticking, h.pending,
      h.bounded.softFail _⟩
  | clearBackoff =>
    exact ⟨h.distinct, h.claimed, h.held, h.limited, h.idle, h.ticking, h.pending,
      h.bounded.clearBackoff _⟩
  | tick idle running token =>
    have hticking : s.ticking = false := by rw [h.ticking, idle]; rfl
    rw [hticking]
    exact ⟨h.distinct, h.claimed, h.held, h.limited,
      fun hidle => absurd hidle (by simp [Loop.inPass]),
      rfl, h.pending, h.bounded⟩
  | tickCancelled idle done token =>
    exact ⟨h.distinct, h.claimed, h.held, h.limited, h.idle, h.ticking, h.pending, h.bounded⟩
  | consider next => exact h.consider next
  | endTick finished waited =>
    exact ⟨h.distinct, h.claimed, h.held, h.limited, fun _ => waited, rfl, rfl, h.bounded⟩
  | stop idle done =>
    have hnone : s.dials = [] := h.idle (by rw [idle]; rfl)
    have hticking : s.ticking = false := by rw [h.ticking, idle]; rfl
    exact ⟨h.distinct, h.claimed, h.held, h.limited, fun _ => hnone, hticking, h.pending,
      h.bounded⟩
  | acquire at_ room => exact h.move at_ (by simp [DialPhase.holds]) room rfl h.bounded
  | abandon at_ done => exact h.move at_ (by simp [DialPhase.holds]) h.limited rfl h.bounded
  | release at_ =>
    have hheld := h.held
    rw [at_, dialing_middle] at hheld
    refine h.move at_ ?_ ((Nat.sub_le _ _).trans h.limited) rfl h.bounded
    simp only [DialPhase.holds, Bool.toNat_true, Bool.toNat_false] at hheld ⊢
    omega
  | @account addr ok pre post at_ =>
    refine h.move at_ (by simp [DialPhase.holds]) h.limited ?_ ?_
    · cases ok <;> rfl
    · cases ok with
      | true => exact h.bounded.clearBackoff _
      | false => exact h.bounded.softFail _
  | endDial at_ => exact h.endDial at_

end Steps

/-- An address comes into flight only in a pass that has it as a candidate, does not find it
or its node ID in the roster's snapshot, and finds it neither in flight nor backed off. -/
theorem step_claims {concurrency : ℕ} {s s' : Discovery} {a : DiscoveryAction}
    (hstep : DiscoveryStep concurrency s a s') {addr : Bytes} (hnew : addr ∈ s'.book.inflight)
    (hold : addr ∉ s.book.inflight) :
    ∃ c rest addrs ids, s.loop = .passing (c :: rest) addrs ids ∧ c.addr = addr ∧
      skipped addrs ids c = false ∧ inBackoff s.now s.book addr = false := by
  cases hstep with
  | @consider c rest addrs ids next =>
    unfold DiscoveryDials.consider at hnew
    split at hnew
    · exact absurd hnew hold
    · rename_i hskip
      rcases tryBeginDial_cases s.now s.book c.addr with ⟨_, hready, hbegin⟩ | ⟨hbegin, _⟩
      · rw [hbegin] at hnew
        have haddr : addr = c.addr := by
          rcases Finset.mem_insert.mp hnew with heq | hmem
          · exact heq
          · exact absurd hmem hold
        subst haddr
        exact ⟨c, rest, addrs, ids, next, rfl, by simpa using hskip, hready⟩
      · rw [hbegin] at hnew
        exact absurd hnew hold
  | tick _ _ _ =>
    split at hnew <;> exact absurd hnew hold
  | tickCancelled _ _ _ => exact absurd hnew hold
  | @account _ ok _ _ _ => cases ok <;> exact absurd hnew hold
  | endDial _ => exact absurd (Finset.mem_of_mem_erase hnew) hold
  | elapse => exact absurd hnew hold
  | kick => exact absurd hnew hold
  | cancel => exact absurd hnew hold
  | softFailAddr _ => exact absurd hnew hold
  | clearBackoff => exact absurd hnew hold
  | endTick _ _ => exact absurd hnew hold
  | stop _ _ => exact absurd hnew hold
  | acquire _ _ => exact absurd hnew hold
  | abandon _ _ => exact absurd hnew hold
  | release _ => exact absurd hnew hold

/-- A Kick is kept until a pass takes it or the context is cancelled. -/
theorem step_kick {concurrency : ℕ} {s s' : Discovery} {a : DiscoveryAction}
    (h : Tidy concurrency s) (hstep : DiscoveryStep concurrency s a s') (hkick : s.kick = true) :
    s'.kick = true ∨ (a = .tick true ∧ (s'.loop.inPass = true ∨ s.cancelled = true)) := by
  cases hstep with
  | @tick kicked _ _ _ idle _ _ =>
    have hticking : s.ticking = false := by rw [h.ticking, idle]; rfl
    rw [hticking]
    cases kicked with
    | true => exact Or.inr ⟨rfl, Or.inl rfl⟩
    | false => exact Or.inl (by simp [hkick])
  | @tickCancelled kicked _ done _ =>
    cases kicked with
    | true => exact Or.inr ⟨rfl, Or.inr done⟩
    | false => exact Or.inl (by simp [hkick])
  | consider _ =>
    refine Or.inl ?_
    unfold DiscoveryDials.consider
    split <;> exact hkick
  | endTick _ _ => exact Or.inl (by simp [hkick])
  | kick => exact Or.inl rfl
  | _ => exact Or.inl hkick

theorem step_now {concurrency : ℕ} {s s' : Discovery} {a : DiscoveryAction}
    (hstep : DiscoveryStep concurrency s a s') : s.now ≤ s'.now := by
  cases hstep with
  | elapse => exact Nat.le_add_right _ _
  | tick _ _ _ => split <;> exact le_rfl
  | consider _ =>
    unfold DiscoveryDials.consider
    split <;> exact le_rfl
  | _ => exact le_rfl

/-- What a step does to the backoff of one address. -/
theorem step_backoff {concurrency : ℕ} {s s' : Discovery} {a : DiscoveryAction}
    (hstep : DiscoveryStep concurrency s a s') (addr : Bytes) :
    (a.fails addr = false ∧ s'.book.backoff addr = s.book.backoff addr) ∨
    (a.fails addr = false ∧ a.clears addr = true ∧ s'.book.backoff addr = none) ∨
    (a.fails addr = true ∧ ∃ streak, s'.book.backoff addr =
      some ⟨s.now + discoveryBackoffDuration streak, streak⟩) := by
  cases hstep with
  | @softFailAddr b _ =>
    by_cases hb : addr = b
    · subst hb
      exact Or.inr (Or.inr ⟨by simp [DiscoveryAction.fails], softFail_self _ _ _⟩)
    · exact Or.inl ⟨by simp [DiscoveryAction.fails, Ne.symm hb], softFail_of_ne _ _ hb⟩
  | @clearBackoff b =>
    by_cases hb : addr = b
    · subst hb
      exact Or.inr (Or.inl ⟨rfl, by simp [DiscoveryAction.clears], clearBackoff_self _ _⟩)
    · exact Or.inl ⟨rfl, clearBackoff_of_ne _ hb⟩
  | @account b ok _ _ _ =>
    by_cases hb : addr = b
    · subst hb
      cases ok with
      | true =>
        exact Or.inr (Or.inl ⟨by simp [DiscoveryAction.fails], by simp [DiscoveryAction.clears],
          clearBackoff_self _ _⟩)
      | false => exact Or.inr (Or.inr ⟨by simp [DiscoveryAction.fails], softFail_self _ _ _⟩)
    · have hfails : (DiscoveryAction.account b ok).fails addr = false := by
        simp [DiscoveryAction.fails, Ne.symm hb]
      cases ok with
      | true => exact Or.inl ⟨hfails, clearBackoff_of_ne _ hb⟩
      | false => exact Or.inl ⟨hfails, softFail_of_ne _ _ hb⟩
  | tick _ _ _ => exact Or.inl ⟨rfl, by split <;> rfl⟩
  | @consider c _ _ _ _ =>
    refine Or.inl ⟨rfl, ?_⟩
    unfold DiscoveryDials.consider
    split
    · rfl
    · rcases tryBeginDial_cases s.now s.book c.addr with ⟨_, _, hbegin⟩ | ⟨hbegin, _⟩ <;>
        rw [hbegin]
  | _ => exact Or.inl ⟨rfl, rfl⟩

section Runs
variable {concurrency : ℕ} {s : Discovery} {as : List DiscoveryAction}

theorem run_tidy (hrun : Run (DiscoveryStep concurrency) newDiscovery as s) : Tidy concurrency s :=
  hrun.invariant (fun _ _ _ h hstep => h.step hstep) (tidy_newDiscovery concurrency)

/-- The dial loop in every interleaving. No address is dialed twice at a time, and inflight
holds exactly the addresses that have a goroutine; at most concurrency of them are in dialPeer;
between passes nothing is in flight. An address is claimed only in a pass whose checks it
passed and while it was not backed off. No Kick is lost before the context is cancelled: it
stays until it starts a pass, and the pending flag is never needed. -/
theorem discovery_dials_sound (hrun : Run (DiscoveryStep concurrency) newDiscovery as s) :
    ((s.dials.map Prod.fst).Nodup ∧ ∀ a, a ∈ s.book.inflight ↔ a ∈ s.dials.map Prod.fst) ∧
    dialing s.dials ≤ concurrency ∧
    (s.loop.inPass = false → s.book.inflight = ∅) ∧
    (∀ a s', DiscoveryStep concurrency s a s' → ∀ addr, addr ∈ s'.book.inflight →
      addr ∉ s.book.inflight → ∃ c rest addrs ids, s.loop = .passing (c :: rest) addrs ids ∧
        c.addr = addr ∧ skipped addrs ids c = false ∧ inBackoff s.now s.book addr = false) ∧
    s.pending = false ∧
    ∀ a s', DiscoveryStep concurrency s a s' → s.kick = true →
      s'.kick = true ∨ (a = .tick true ∧ (s'.loop.inPass = true ∨ s.cancelled = true)) := by
  have h := run_tidy hrun
  refine ⟨⟨h.distinct, h.claimed⟩, h.held ▸ h.limited, ?_, ?_, h.pending, ?_⟩
  · intro hidle
    have hnone := h.idle hidle
    refine Finset.eq_empty_of_forall_notMem fun a ha => ?_
    rw [h.claimed a, hnone] at ha
    exact absurd ha (by simp)
  · intro a s' hstep addr hnew hold
    exact step_claims hstep hnew hold
  · intro a s' hstep hkick
    exact step_kick h hstep hkick

/-- Without a failure a backoff that ends by some time keeps ending by it. -/
theorem run_unfailed {t : Discovery} {addr : Bytes} {deadline : ℕ}
    (hrun : Run (DiscoveryStep concurrency) s as t) (hquiet : ∀ a ∈ as, a.fails addr = false)
    (h : ∀ ab, s.book.backoff addr = some ab → ab.until_ ≤ deadline) :
    ∀ ab, t.book.backoff addr = some ab → ab.until_ ≤ deadline := by
  induction hrun with
  | nil _ => exact h
  | cons hstep _ ih =>
    refine ih (fun a ha => hquiet a (List.mem_cons_of_mem _ ha)) ?_
    have hfirst := hquiet _ List.mem_cons_self
    rcases step_backoff hstep addr with ⟨_, hsame⟩ | ⟨_, _, hnone⟩ | ⟨hfails, _⟩
    · rwa [hsame]
    · simp [hnone]
    · exact absurd hfails (by simp [hfirst])

/-- Without a success a backoff that lasts until some time keeps lasting. -/
theorem run_uncleared {t : Discovery} {addr : Bytes} {deadline : ℕ}
    (hrun : Run (DiscoveryStep concurrency) s as t) (hkept : ∀ a ∈ as, a.clears addr = false)
    (hnow : deadline ≤ s.now + 2 * second)
    (h : ∃ ab, s.book.backoff addr = some ab ∧ deadline ≤ ab.until_) :
    ∃ ab, t.book.backoff addr = some ab ∧ deadline ≤ ab.until_ := by
  induction hrun with
  | nil _ => exact h
  | @cons s _ _ _ _ hstep _ ih =>
    have hfirst := hkept _ List.mem_cons_self
    have hlater := step_now hstep
    refine ih (fun a ha => hkept a (List.mem_cons_of_mem _ ha)) (by omega) ?_
    rcases step_backoff hstep addr with ⟨_, hsame⟩ | ⟨_, hclears, _⟩ | ⟨_, streak, hfailed⟩
    · rwa [hsame]
    · exact absurd hclears (by simp [hfirst])
    · have hge := discoveryBackoffDuration_ge streak
      exact ⟨_, hfailed, by dsimp only; omega⟩

/-- An address is backed off, never banned. For two seconds after a failure that nothing
clears it is backed off and not claimed; and 32 seconds after its last failure, however often
it has failed, it is no longer backed off, and any pass that gets to it with its checks passed
has it in flight. -/
theorem discovery_never_bans {t : Discovery} {bs : List DiscoveryAction} (addr : Bytes)
    (hrun : Run (DiscoveryStep concurrency) newDiscovery as s)
    (hrun' : Run (DiscoveryStep concurrency) s bs t) :
    (∀ a rest, bs = a :: rest → a.fails addr = true → (∀ b ∈ rest, b.clears addr = false) →
      t.now < s.now + 2 * second →
      inBackoff t.now t.book addr = true ∧
        ∀ b t', DiscoveryStep concurrency t b t' → addr ∈ t'.book.inflight →
          addr ∈ t.book.inflight) ∧
    ((∀ b ∈ bs, b.fails addr = false) → s.now + 32 * second ≤ t.now →
      inBackoff t.now t.book addr = false ∧
        ∀ c rest addrs ids, t.loop = .passing (c :: rest) addrs ids → c.addr = addr →
          skipped addrs ids c = false →
            addr ∈ (consider t c rest addrs ids).book.inflight) := by
  refine ⟨?_, ?_⟩
  · rintro a rest rfl hfails hkept hsoon
    have hbacked : inBackoff t.now t.book addr = true := by
      cases hrun' with
      | @cons _ s₁ _ _ _ hstep hrest =>
        have hfirst : ∃ ab, s₁.book.backoff addr = some ab ∧ s.now + 2 * second ≤ ab.until_ := by
          rcases step_backoff hstep addr with ⟨hnot, _⟩ | ⟨hnot, _⟩ | ⟨_, streak, hfailed⟩
          · exact absurd hfails (by simp [hnot])
          · exact absurd hfails (by simp [hnot])
          · exact ⟨_, hfailed, Nat.add_le_add_left (discoveryBackoffDuration_ge streak) _⟩
        obtain ⟨ab, hab, hlate⟩ := run_uncleared hrest hkept
          (Nat.add_le_add_right (step_now hstep) _) hfirst
        simp only [inBackoff, hab]
        exact decide_eq_true ⟨by omega, by omega⟩
    refine ⟨hbacked, ?_⟩
    intro b t' hstep hmem
    by_contra hnot
    obtain ⟨_, _, _, _, _, _, _, hready⟩ := step_claims hstep hmem hnot
    exact absurd hbacked (by simp [hready])
  · intro hquiet hlater
    have hready : inBackoff t.now t.book addr = false := by
      have hdeadline := run_unfailed hrun' hquiet fun ab hab => (run_tidy hrun).bounded addr ab hab
      unfold inBackoff
      split
      · rfl
      · rename_i ab hab
        have hle := hdeadline ab hab
        exact decide_eq_false (by omega)
    refine ⟨hready, ?_⟩
    rintro c rest addrs ids _ rfl hskip
    unfold consider
    rw [hskip]
    rcases tryBeginDial_cases t.now t.book c.addr with ⟨_, _, hbegin⟩ | ⟨hbegin, hwhy⟩
    · simp [hbegin]
    · rcases hwhy with hflight | hbacked
      · simpa [hbegin] using hflight
      · exact absurd hbacked (by simp [hready])

end Runs

def soleCandidate : Candidate := ⟨ascii "b:7", ascii "b"⟩

def dialActions : List DiscoveryAction := [.tick false, .consider, .acquire (ascii "b:7")]

def dialState : Discovery :=
  { newDiscovery with
    book := ⟨fun _ => none, {ascii "b:7"}⟩
    sem := 1
    ticking := true
    loop := .passing [] [] []
    dials := [(ascii "b:7", .dialing)] }

theorem dialState_reached : Run (DiscoveryStep 1) newDiscovery dialActions dialState :=
  .cons (@DiscoveryStep.tick _ _ _ [soleCandidate] [] [] rfl rfl (by simp))
    (.cons (.consider rfl) (.single (@DiscoveryStep.acquire _ _ _ [] [] rfl (by decide))))

theorem discovery_dials_one :
    Run (DiscoveryStep 1) newDiscovery dialActions dialState ∧ dialing dialState.dials ≤ 1 ∧
      (dialState.dials.map Prod.fst).Nodup := by
  obtain ⟨⟨hdistinct, _⟩, hlimit, _⟩ := discovery_dials_sound dialState_reached
  exact ⟨dialState_reached, hlimit, hdistinct⟩

def failureActions (n : ℕ) : List DiscoveryAction :=
  [.account (ascii "b:7") false, .elapse n]

def failedState : Discovery :=
  { dialState with sem := 0, dials := [(ascii "b:7", .dialed false)] }

theorem failedState_reached :
    Run (DiscoveryStep 1) newDiscovery (dialActions ++ [.release (ascii "b:7") false])
      failedState :=
  dialState_reached.append (.single (@DiscoveryStep.release _ _ _ _ [] [] rfl))

theorem discovery_backs_off_once :
    ∃ t u, Run (DiscoveryStep 1) failedState (failureActions second) t ∧
      inBackoff t.now t.book (ascii "b:7") = true ∧
      Run (DiscoveryStep 1) t [.elapse (32 * second)] u ∧
      inBackoff u.now u.book (ascii "b:7") = false := by
  have hexists : ∃ t u, Run (DiscoveryStep 1) failedState (failureActions second) t ∧
      Run (DiscoveryStep 1) t [.elapse (32 * second)] u ∧
      t.now < failedState.now + 2 * second ∧ t.now + 32 * second ≤ u.now :=
    ⟨_, _, .cons (@DiscoveryStep.account _ _ _ _ [] [] rfl) (.single .elapse), .single .elapse,
      by decide, le_rfl⟩
  obtain ⟨t, u, hfail, hwait, hsoon, hlater⟩ := hexists
  have hbacked := (discovery_never_bans (ascii "b:7") failedState_reached hfail).1 _ _ rfl
    (by decide) (by simp [DiscoveryAction.clears]) hsoon
  have hready := (discovery_never_bans (ascii "b:7") (failedState_reached.append hfail)
    hwait).2 (by simp [DiscoveryAction.fails]) hlater
  exact ⟨t, u, hfail, hbacked.1, hwait, hready.1⟩

end TailSync.DiscoveryDials

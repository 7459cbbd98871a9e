import TailSync.Entries
import TailSync.MachineInts

/-!
The notify tracker of daemon/notify.go: which versions have been advertised lately,
and which are in the hands of a fan-out. The two Go maps are functions from content
keys; every method runs under the tracker's lock and reads the clock there. What a
method does is said key by key.
-/
namespace TailSync.NotifyTracker

open ByteStrings Entries MachineInts

/-- contentKey: a version of a path as far as notifies tell versions apart. -/
structure ContentKey where
  path : Bytes
  hash : Bytes
  deleted : Bool
  updatedAt : ℤ
  deriving DecidableEq, Repr

/-- time.Time.UnixNano: nanoseconds since 1970 as a 64-bit integer, which wraps. -/
def unixNano (t : Time) : ℤ := wrap64 (t - 62135596800 * 1000000000)

def contentKeyFrom (e : Entry) : ContentKey := ⟨e.path, e.hash, e.deleted, unixNano e.updatedAt⟩

def keysOf (hints : List Entry) : List ContentKey := hints.map contentKeyFrom

structure Tracker where
  seen : ContentKey → Option Time
  inflight : ContentKey → Bool

def Tracker.new : Tracker := ⟨fun _ => none, fun _ => false⟩

def notifySeenTTL : ℤ := 10 * 60 * 1000000000

namespace Tracker

def gcLocked (t : Tracker) (now : Time) : Tracker :=
  { t with seen := fun k => (t.seen k).filter fun stamp => !decide (now - stamp > notifySeenTTL) }

def freeLocked (t : Tracker) (k : ContentKey) (now : Time) : Bool :=
  if (t.seen k).any fun stamp => decide (now - stamp ≤ notifySeenTTL) then false
  else !t.inflight k

def setInflight (t : Tracker) (k : ContentKey) (flag : Bool) : Tracker :=
  { t with inflight := Function.update t.inflight k flag }

def claimEach (now : Time) : Tracker → List Entry → Tracker × List Entry
  | t, [] => (t, [])
  | t, h :: rest =>
      if t.freeLocked (contentKeyFrom h) now then
        let r := claimEach now (t.setInflight (contentKeyFrom h) true) rest
        (r.1, h :: r.2)
      else claimEach now t rest

def claim (t : Tracker) (now : Time) (hints : List Entry) : Tracker × List Entry :=
  claimEach now (t.gcLocked now) hints

def markOne (now : Time) (t : Tracker) (h : Entry) : Tracker :=
  { (t.setInflight (contentKeyFrom h) false) with
    seen := Function.update t.seen (contentKeyFrom h) (some now) }

def mark (t : Tracker) (now : Time) (hints : List Entry) : Tracker :=
  if hints.isEmpty then t else hints.foldl (markOne now) (t.gcLocked now)

def release (t : Tracker) (hints : List Entry) : Tracker :=
  hints.foldl (fun t h => t.setInflight (contentKeyFrom h) false) t

end Tracker

open Tracker

variable {t : Tracker} {now : Time} {k : ContentKey} {hints : List Entry}

theorem mem_keysOf_cons {h : Entry} :
    k ∈ keysOf (h :: hints) ↔ k = contentKeyFrom h ∨ k ∈ keysOf hints := by
  simp [keysOf]

theorem release_seen (t : Tracker) (hints : List Entry) : (t.release hints).seen = t.seen := by
  unfold release
  induction hints generalizing t with
  | nil => rfl
  | cons h rest ih => rw [List.foldl_cons, ih, setInflight]

theorem release_inflight (t : Tracker) (hints : List Entry) (k : ContentKey) :
    (t.release hints).inflight k = true ↔ t.inflight k = true ∧ k ∉ keysOf hints := by
  unfold release
  induction hints generalizing t with
  | nil => simp [keysOf]
  | cons h rest ih =>
    rw [List.foldl_cons, ih, mem_keysOf_cons, setInflight]
    by_cases hk : k = contentKeyFrom h
    · simp [hk]
    · simp [hk]

private theorem markEach_spec (t : Tracker) (now : Time) (hints : List Entry) (k : ContentKey) :
    (hints.foldl (markOne now) t).seen k = (if k ∈ keysOf hints then some now else t.seen k) ∧
      ((hints.foldl (markOne now) t).inflight k = true ↔
        t.inflight k = true ∧ k ∉ keysOf hints) := by
  induction hints generalizing t with
  | nil => simp [keysOf]
  | cons h rest ih =>
    obtain ⟨hseen, hflight⟩ := ih (markOne now t h)
    rw [List.foldl_cons, hseen, hflight]
    by_cases hk : k = contentKeyFrom h
    · simp [keysOf, markOne, setInflight, hk]
    · simp [keysOf, markOne, setInflight, hk]

/-- Marked keys are seen now. -/
theorem mark_seen_of_mem (hk : k ∈ keysOf hints) : (t.mark now hints).seen k = some now := by
  have hne : hints.isEmpty = false := by
    cases hints with
    | nil => simp [keysOf] at hk
    | cons h rest => rfl
  rw [mark, hne, if_neg (by simp), (markEach_spec _ now hints k).1, if_pos hk]

/-- Marking takes keys out of flight. -/
theorem mark_inflight (t : Tracker) (now : Time) (hints : List Entry) (k : ContentKey) :
    (t.mark now hints).inflight k = true ↔ t.inflight k = true ∧ k ∉ keysOf hints := by
  unfold mark
  cases hints with
  | nil => simp [keysOf]
  | cons h rest => exact (markEach_spec (t.gcLocked now) now (h :: rest) k).2

theorem gcLocked_seen_recent {stamp : Time} (hseen : t.seen k = some stamp)
    (hrecent : now - stamp ≤ notifySeenTTL) : (t.gcLocked now).seen k = some stamp := by
  simp [gcLocked, hseen, hrecent, Option.filter_some]

/-- A recent stamp stays or is renewed. -/
theorem mark_seen_recent {stamp : Time} (hseen : t.seen k = some stamp)
    (hrecent : now - stamp ≤ notifySeenTTL) (hints : List Entry) :
    (t.mark now hints).seen k = some stamp ∨ (t.mark now hints).seen k = some now := by
  by_cases hk : k ∈ keysOf hints
  · exact Or.inr (mark_seen_of_mem hk)
  · left
    unfold mark
    cases hints with
    | nil => exact hseen
    | cons h rest =>
      have hspec := (markEach_spec (t.gcLocked now) now (h :: rest) k).1
      rw [if_neg hk, gcLocked_seen_recent hseen hrecent] at hspec
      exact hspec

theorem freeLocked_iff :
    t.freeLocked k now = true ↔
      (∀ stamp, t.seen k = some stamp → notifySeenTTL < now - stamp) ∧ t.inflight k = false := by
  unfold freeLocked
  cases hseen : t.seen k with
  | none => simp
  | some stamp =>
    by_cases hrecent : now - stamp ≤ notifySeenTTL
    · simp only [Option.any_some, hrecent, decide_true, if_true, Bool.false_eq_true,
        Option.some.injEq, forall_eq', not_lt.mpr hrecent, false_and]
    · simp only [Option.any_some, hrecent, decide_false, Bool.false_eq_true, if_false,
        Bool.not_eq_true', Option.some.injEq, forall_eq', not_le.mp hrecent, true_and]

/-- A key out of flight is seen or free. -/
theorem seen_or_free (hout : t.inflight k = false) (now : Time) :
    (∃ stamp, t.seen k = some stamp) ∨ t.freeLocked k now = true := by
  cases hseen : t.seen k with
  | some stamp => exact Or.inl ⟨stamp, rfl⟩
  | none => exact Or.inr (freeLocked_iff.mpr ⟨by simp [hseen], hout⟩)

private theorem claimEach_seen (t : Tracker) (hints : List Entry) :
    (claimEach now t hints).1.seen = t.seen := by
  induction hints generalizing t with
  | nil => rfl
  | cons h rest ih =>
    unfold claimEach
    split
    · exact ih _
    · exact ih t

private theorem claimEach_inflight (t : Tracker) (hints : List Entry) (k : ContentKey) :
    (claimEach now t hints).1.inflight k = true ↔
      t.inflight k = true ∨ k ∈ keysOf (claimEach now t hints).2 := by
  induction hints generalizing t with
  | nil => simp [claimEach, keysOf]
  | cons h rest ih =>
    unfold claimEach
    split
    · dsimp only
      rw [ih, mem_keysOf_cons, setInflight]
      by_cases hk : k = contentKeyFrom h
      · simp [hk]
      · simp [hk]
    · exact ih t

/-- Every key the loop returns was free when it was started. -/
private theorem claimEach_free (t : Tracker) (hints : List Entry)
    (hk : k ∈ keysOf (claimEach now t hints).2) : t.freeLocked k now = true := by
  induction hints generalizing t with
  | nil => simp [claimEach, keysOf] at hk
  | cons h rest ih =>
    unfold claimEach at hk
    split at hk
    · rename_i hfree
      rcases mem_keysOf_cons.mp hk with rfl | hk
      · exact hfree
      · have hrest := freeLocked_iff.mp (ih _ hk)
        have hne : k ≠ contentKeyFrom h := by
          rintro rfl
          simp [setInflight] at hrest
        exact freeLocked_iff.mpr ⟨hrest.1, by simpa [setInflight, hne] using hrest.2⟩
    · exact ih t hk

private theorem claimEach_nodup (t : Tracker) (hints : List Entry) :
    (keysOf (claimEach now t hints).2).Nodup := by
  induction hints generalizing t with
  | nil => simp [claimEach, keysOf]
  | cons h rest ih =>
    unfold claimEach
    split
    · refine List.nodup_cons.mpr ⟨?_, ih _⟩
      intro hmem
      have hfree := freeLocked_iff.mp (claimEach_free _ rest hmem)
      simp [setInflight] at hfree
    · exact ih t

theorem claim_inflight (t : Tracker) (now : Time) (hints : List Entry) (k : ContentKey) :
    (t.claim now hints).1.inflight k = true ↔
      t.inflight k = true ∨ k ∈ keysOf (t.claim now hints).2 :=
  claimEach_inflight (t.gcLocked now) hints k

theorem claim_seen_recent {stamp : Time} (hseen : t.seen k = some stamp)
    (hrecent : now - stamp ≤ notifySeenTTL) : (t.claim now hints).1.seen k = some stamp := by
  rw [claim, claimEach_seen, gcLocked_seen_recent hseen hrecent]

/-- No key is claimed twice in one call. -/
theorem claim_nodup (t : Tracker) (now : Time) (hints : List Entry) :
    (keysOf (t.claim now hints).2).Nodup := claimEach_nodup _ hints

/-- A claimed key was neither seen lately nor in flight. -/
theorem claim_free (hk : k ∈ keysOf (t.claim now hints).2) :
    (∀ stamp, t.seen k = some stamp → notifySeenTTL < now - stamp) ∧ t.inflight k = false := by
  obtain ⟨hold, hflight⟩ := freeLocked_iff.mp (claimEach_free _ hints hk)
  refine ⟨?_, hflight⟩
  intro stamp hseen
  by_contra hrecent
  exact hrecent (hold stamp (gcLocked_seen_recent hseen (not_lt.mp hrecent)))

end TailSync.NotifyTracker

import TailSync.ByteStrings
import Mathlib.Data.Prod.Lex
import Mathlib.Tactic.Linarith
import Mathlib.Tactic.SplitIfs

/-!
Index entries and the last-writer-wins comparison of internal/index/index.go.
A time.Time is its instant, counted in nanoseconds from the zero value, so
IsZero is equality with zero and the order of instants is that of integers;
the monotonic reading that time.Now carries inside a process is not part of an
instant. Wins is translated branch by branch. Its meaning is the strict order
of a lexicographic key, and a second key keeps of the modification time only
its Unix second, the precision at which the apply path compares mtimes.
-/
namespace TailSync.Entries

open ByteStrings

/-- Nanoseconds since the zero time.Time, 1 January of year 1. -/
abbrev Time := ℤ

def isZero (t : Time) : Bool := t == 0

/-- time.Time.Unix: seconds since 1970, rounded towards the past. -/
def unix (t : Time) : ℤ := t / 1000000000 - 62135596800

abbrev Mode := UInt32

/-- os.FileMode.Perm: the nine permission bits. -/
def perm (m : Mode) : Mode := m &&& 0o777

structure Entry where
  path : Bytes
  size : ℤ
  modTime : Time
  mode : Mode
  hash : Bytes
  deleted : Bool
  deletedAt : Time
  updatedAt : Time
  deriving DecidableEq, Repr

/-- cmp.Compare on an ordered type without NaN. -/
def cmpCompare {α : Type*} [LinearOrder α] (a b : α) : ℤ :=
  if a < b then -1 else if b < a then 1 else 0

def compareEntries (a b : Entry) : ℤ :=
  if a.deleted != b.deleted then
    if a.deleted then 1 else -1
  else if cmpCompare a.hash b.hash ≠ 0 then cmpCompare a.hash b.hash
  else if cmpCompare a.mode.toNat b.mode.toNat ≠ 0 then cmpCompare a.mode.toNat b.mode.toNat
  else if a.modTime > b.modTime then 1
  else if b.modTime > a.modTime then -1
  else 0

def wins (loc remote : Entry) : Bool :=
  if remote.updatedAt > loc.updatedAt then true
  else if loc.updatedAt > remote.updatedAt then false
  else if loc.deleted = remote.deleted ∧ loc.hash = remote.hash ∧
      loc.mode = remote.mode ∧ loc.modTime = remote.modTime then false
  else compareEntries remote loc > 0

/-- The five fields that take part in last-writer-wins, most significant first. -/
abbrev LwwKey := Time ×ₗ Bool ×ₗ Bytes ×ₗ ℕ ×ₗ Time

def lwwKey (e : Entry) : LwwKey :=
  toLex (e.updatedAt, toLex (e.deleted, toLex (e.hash, toLex (e.mode.toNat, e.modTime))))

abbrev CoarseKey := Time ×ₗ Bool ×ₗ Bytes ×ₗ ℕ ×ₗ ℤ

def coarseKey (e : Entry) : CoarseKey :=
  toLex (e.updatedAt, toLex (e.deleted, toLex (e.hash, toLex (e.mode.toNat, unix e.modTime))))

section Compare
variable {α : Type*} [LinearOrder α] (a b : α)

theorem cmpCompare_eq_zero : cmpCompare a b = 0 ↔ a = b := by
  unfold cmpCompare
  rcases lt_trichotomy a b with h | h | h
  · simp [h, h.ne]
  · simp [h]
  · simp [h, h.not_gt, h.ne']

theorem cmpCompare_pos : 0 < cmpCompare a b ↔ b < a := by
  unfold cmpCompare
  rcases lt_trichotomy a b with h | h | h
  · simp [h, h.not_gt]
  · simp [h]
  · simp [h, h.not_gt]

end Compare

theorem mode_eq_iff (m n : Mode) : m = n ↔ m.toNat = n.toNat := UInt32.toNat_inj.symm

/-- compareEntries is positive exactly when the first tie key is larger. -/
theorem compareEntries_pos (a b : Entry) :
    0 < compareEntries a b ↔
      toLex (b.deleted, toLex (b.hash, toLex (b.mode.toNat, b.modTime))) <
        toLex (a.deleted, toLex (a.hash, toLex (a.mode.toNat, a.modTime))) := by
  simp only [Prod.Lex.toLex_lt_toLex]
  unfold compareEntries
  by_cases hd : a.deleted = b.deleted
  · by_cases hh : a.hash = b.hash
    · by_cases hm : a.mode.toNat = b.mode.toNat
      · rcases lt_trichotomy a.modTime b.modTime with ht | ht | ht
        · simp [hd, hh, hm, ht, ht.not_gt, cmpCompare]
        · simp [hd, hh, hm, ht, cmpCompare]
        · simp [hd, hh, hm, ht, cmpCompare]
      · have hm0 : cmpCompare a.mode.toNat b.mode.toNat ≠ 0 := by
          simpa only [ne_eq, cmpCompare_eq_zero] using hm
        have hh0 := (cmpCompare_eq_zero b.hash b.hash).mpr rfl
        have hpos := cmpCompare_pos a.mode.toNat b.mode.toNat
        have hm' : b.mode.toNat ≠ a.mode.toNat := Ne.symm hm
        simp [hd, hh0, hm0, hpos, hh, hm']
    · have hh0 : cmpCompare a.hash b.hash ≠ 0 := by
        simpa only [ne_eq, cmpCompare_eq_zero] using hh
      have hpos := cmpCompare_pos a.hash b.hash
      have hh' : b.hash ≠ a.hash := Ne.symm hh
      simp [hd, hh0, hpos, hh']
  · cases ha : a.deleted <;> cases hb : b.deleted <;> simp_all

/-- Wins is the strict order of the five-field key. -/
theorem wins_iff (loc remote : Entry) : wins loc remote ↔ lwwKey loc < lwwKey remote := by
  have hpos := compareEntries_pos remote loc
  simp only [lwwKey, Prod.Lex.toLex_lt_toLex (x := (loc.updatedAt, _))]
  unfold wins
  rcases lt_trichotomy loc.updatedAt remote.updatedAt with ht | ht | ht
  · simp [ht]
  · by_cases hsame : loc.deleted = remote.deleted ∧ loc.hash = remote.hash ∧
      loc.mode = remote.mode ∧ loc.modTime = remote.modTime
    · obtain ⟨hd, hh, hm, hmt⟩ := hsame
      simp [ht, hd, hh, hm, hmt]
    · simp only [ht, gt_iff_lt, lt_self_iff_false, if_false, if_neg hsame, decide_eq_true_eq,
        hpos, false_or, true_and]
  · simp [ht, ht.not_gt, ht.ne']

/-- Two entries neither of which beats the other agree in all five fields. -/
theorem lwwKey_eq_iff (a b : Entry) :
    lwwKey a = lwwKey b ↔ a.updatedAt = b.updatedAt ∧ a.deleted = b.deleted ∧
      a.hash = b.hash ∧ a.mode = b.mode ∧ a.modTime = b.modTime := by
  simp only [lwwKey, toLex_inj, Prod.mk.injEq, mode_eq_iff]

theorem coarseKey_eq_iff (a b : Entry) :
    coarseKey a = coarseKey b ↔ a.updatedAt = b.updatedAt ∧ a.deleted = b.deleted ∧
      a.hash = b.hash ∧ a.mode = b.mode ∧ unix a.modTime = unix b.modTime := by
  simp only [coarseKey, toLex_inj, Prod.mk.injEq, mode_eq_iff]

theorem unix_mono {s t : Time} (h : s ≤ t) : unix s ≤ unix t := by
  have hdiv := Int.ediv_le_ediv (show (0 : ℤ) < 1000000000 by norm_num) h
  unfold unix
  omega

/-- Cutting the modification time to seconds keeps the order. -/
theorem coarseKey_mono {a b : Entry} (h : lwwKey a ≤ lwwKey b) :
    coarseKey a ≤ coarseKey b := by
  simp only [lwwKey, coarseKey, Prod.Lex.toLex_le_toLex] at h ⊢
  rcases h with h | ⟨h1, h | ⟨h2, h | ⟨h3, h | ⟨h4, h⟩⟩⟩⟩
  · exact Or.inl h
  · exact Or.inr ⟨h1, Or.inl h⟩
  · exact Or.inr ⟨h1, Or.inr ⟨h2, Or.inl h⟩⟩
  · exact Or.inr ⟨h1, Or.inr ⟨h2, Or.inr ⟨h3, Or.inl h⟩⟩⟩
  · exact Or.inr ⟨h1, Or.inr ⟨h2, Or.inr ⟨h3, Or.inr ⟨h4, unix_mono h⟩⟩⟩⟩

theorem wins_coarse {loc remote : Entry} (h : wins loc remote) :
    coarseKey loc ≤ coarseKey remote := coarseKey_mono ((wins_iff loc remote).mp h).le

theorem not_wins_coarse {loc remote : Entry} (h : ¬ wins loc remote) :
    coarseKey remote ≤ coarseKey loc := by
  rw [wins_iff, not_lt] at h
  exact coarseKey_mono h

end TailSync.Entries

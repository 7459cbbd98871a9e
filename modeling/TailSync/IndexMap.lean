import TailSync.Entries

/-!
The in-memory index of internal/index/index.go: a map from relative path to
entry. The map is a list of entries with pairwise distinct paths, so an entry
stored under another path than its own cannot be built. Iteration order of the
Go map is not fixed; callers quantify over permutations where it matters.
-/
namespace TailSync.IndexMap

open ByteStrings Entries

structure Index where
  files : List Entry
  nodup : (files.map Entry.path).Nodup

namespace Index

def empty : Index := ⟨[], List.nodup_nil⟩

def get (idx : Index) (path : Bytes) : Option Entry :=
  idx.files.find? fun e => e.path == path

theorem filter_path_nodup {files : List Entry} (h : (files.map Entry.path).Nodup)
    (keep : Entry → Bool) : ((files.filter keep).map Entry.path).Nodup :=
  h.sublist (List.Sublist.map _ List.filter_sublist)

def set (idx : Index) (e : Entry) : Index where
  files := e :: idx.files.filter fun x => x.path != e.path
  nodup := by
    simp only [List.map_cons, List.nodup_cons, List.mem_map, List.mem_filter, not_exists]
    refine ⟨?_, filter_path_nodup idx.nodup _⟩
    rintro x ⟨⟨_, hx⟩, heq⟩
    simp [heq] at hx

/-- SetIfWins: store remote only if the path is unknown or remote beats the
current entry; the flag says whether the index was updated. -/
def setIfWins (idx : Index) (remote : Entry) : Index × Bool :=
  match get idx remote.path with
  | some loc => if wins loc remote then (set idx remote, true) else (idx, false)
  | none => (set idx remote, true)

def tombstoneAge (e : Entry) : Time := if isZero e.deletedAt then e.updatedAt else e.deletedAt

def expired (cutoff : Time) (e : Entry) : Bool :=
  e.deleted && !isZero (tombstoneAge e) && tombstoneAge e < cutoff

def gcTombstones (idx : Index) (now : Time) (ttl : ℤ) : Index × ℕ :=
  if ttl ≤ 0 then (idx, 0)
  else
    (⟨idx.files.filter fun e => !expired (now - ttl) e, filter_path_nodup idx.nodup _⟩,
      idx.files.countP (expired (now - ttl)))

def IsManifest (idx : Index) (entries : List Entry) : Prop := entries.Perm idx.files

theorem get_path {idx : Index} {p : Bytes} {e : Entry} (h : get idx p = some e) : e.path = p := by
  simpa using List.find?_some h

theorem get_mem {idx : Index} {p : Bytes} {e : Entry} (h : get idx p = some e) :
    e ∈ idx.files := List.mem_of_find?_eq_some h

private theorem find_path_of_mem {files : List Entry} (hnd : (files.map Entry.path).Nodup)
    {e : Entry} (he : e ∈ files) : files.find? (fun x => x.path == e.path) = some e := by
  induction files with
  | nil => simp at he
  | cons x rest ih =>
    simp only [List.map_cons, List.nodup_cons, List.mem_map, not_exists, not_and] at hnd
    rcases List.mem_cons.mp he with rfl | hrest
    · simp
    · have hne : x.path ≠ e.path := fun h => hnd.1 e hrest h.symm
      simpa [hne] using ih hnd.2 hrest

/-- Every stored entry is found under its own path. -/
theorem get_of_mem {idx : Index} {e : Entry} (he : e ∈ idx.files) : get idx e.path = some e :=
  find_path_of_mem idx.nodup he

theorem get_eq_some_iff {idx : Index} {p : Bytes} {e : Entry} :
    get idx p = some e ↔ e ∈ idx.files ∧ e.path = p := by
  constructor
  · intro h
    exact ⟨get_mem h, get_path h⟩
  · rintro ⟨he, rfl⟩
    exact get_of_mem he

@[simp] theorem get_empty (p : Bytes) : get empty p = none := rfl

@[simp] theorem get_set_self (idx : Index) (e : Entry) : get (set idx e) e.path = some e := by
  simp [get, set]

theorem get_of_set {idx idx' : Index} {e : Entry} {p : Bytes} (hidx : idx' = set idx e)
    (hp : e.path = p) : get idx' p = some e := by
  rw [hidx, ← hp, get_set_self]

theorem get_set_of_ne (idx : Index) (e : Entry) {p : Bytes} (h : p ≠ e.path) :
    get (set idx e) p = get idx p := by
  have hp : (e.path == p) = false := by simpa using Ne.symm h
  simp only [get, set, List.find?_cons, hp, List.find?_filter]
  congr 1
  funext x
  by_cases hx : x.path = p
  · simp [hx, h]
  · simp [hx]

/-- The two outcomes of SetIfWins: stored, with the old entry beaten if there
was one, or left alone because the stored entry is not beaten. -/
theorem setIfWins_cases (idx : Index) (remote : Entry) :
    (setIfWins idx remote = (set idx remote, true) ∧
      ∀ loc, get idx remote.path = some loc → wins loc remote) ∨
    (setIfWins idx remote = (idx, false) ∧
      ∃ loc, get idx remote.path = some loc ∧ ¬ wins loc remote) := by
  unfold setIfWins
  cases hget : get idx remote.path with
  | none => simp
  | some loc =>
    by_cases hw : wins loc remote
    · simp [hw]
    · simp [hw]

private theorem find_path_filter (files : List Entry) (hnd : (files.map Entry.path).Nodup)
    (keep : Entry → Bool) (p : Bytes) :
    (files.filter keep).find? (fun e => e.path == p) =
      (files.find? fun e => e.path == p).filter keep := by
  induction files with
  | nil => rfl
  | cons x rest ih =>
    simp only [List.map_cons, List.nodup_cons, List.mem_map, not_exists, not_and] at hnd
    by_cases hx : x.path = p
    · by_cases hk : keep x
      · simp [hx, hk, Option.filter_some]
      · have hnone : rest.find? (fun e => e.path == p) = none := by
          rw [List.find?_eq_none]
          intro y hy
          simpa [← hx] using hnd.1 y hy
        simp [hx, hk, ih hnd.2, hnone, Option.filter_some]
    · by_cases hk : keep x
      · simp [hx, hk, ih hnd.2]
      · simp [hx, hk, ih hnd.2]

/-- Garbage collection forgets expired tombstones and nothing else. -/
theorem get_gcTombstones (idx : Index) (now : Time) (ttl : ℤ) (p : Bytes) :
    get (gcTombstones idx now ttl).1 p =
      (get idx p).filter fun e => !(decide (0 < ttl) && expired (now - ttl) e) := by
  unfold gcTombstones
  by_cases httl : ttl ≤ 0
  · have hpos : ¬ 0 < ttl := by omega
    rw [if_pos httl]
    cases hget : get idx p <;> simp [hpos, Option.filter_some]
  · have hpos : 0 < ttl := by omega
    rw [if_neg httl]
    simp only [get, hpos, decide_true, Bool.true_and]
    exact find_path_filter idx.files idx.nodup _ p

/-- Where nothing is collected the index stays as it is. -/
theorem gcTombstones_of_zero {idx : Index} {now : Time} {ttl : ℤ}
    (hzero : (gcTombstones idx now ttl).2 = 0) : (gcTombstones idx now ttl).1 = idx := by
  unfold gcTombstones at hzero ⊢
  split at hzero
  · rename_i httl
    rw [if_pos httl]
  · rename_i httl
    have hkept : (idx.files.filter fun e => !expired (now - ttl) e) = idx.files := by
      rw [List.filter_eq_self]
      intro e he
      simpa using List.countP_eq_zero.mp hzero e he
    simp only [if_neg httl, hkept]

end Index

end TailSync.IndexMap

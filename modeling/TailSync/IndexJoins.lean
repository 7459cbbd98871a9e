import TailSync.IndexMap
import TailSync.MaxFolds

/-!
The index merge is a join. Wins is the strict part of a total preorder whose ties
are the entries that agree in the five compared fields. Read at one path, merging a
list of entries keeps the largest of the entry that was there and of the listed
entries of the path, so neither the order of the list nor repetitions show in the
five fields of the result.
-/
namespace TailSync.IndexJoins

open ByteStrings Entries IndexMap MaxFolds

def SameVersion (a b : Entry) : Prop :=
  a.updatedAt = b.updatedAt ∧ a.deleted = b.deleted ∧ a.hash = b.hash ∧ a.mode = b.mode ∧
    a.modTime = b.modTime

def Incomparable (a b : Entry) : Prop := ¬ wins a b ∧ ¬ wins b a

def mergeAll (idx : Index) (entries : List Entry) : Index :=
  entries.foldl (fun idx e => (idx.setIfWins e).1) idx

def Offered (idx : Index) (entries : List Entry) (p : Bytes) (e : Entry) : Prop :=
  idx.get p = some e ∨ e ∈ entries ∧ e.path = p

theorem sameVersion_iff (a b : Entry) : SameVersion a b ↔ lwwKey a = lwwKey b :=
  (lwwKey_eq_iff a b).symm

theorem incomparable_iff (a b : Entry) : Incomparable a b ↔ SameVersion a b := by
  rw [sameVersion_iff, Incomparable, wins_iff, wins_iff, not_lt, not_lt]
  constructor
  · rintro ⟨hba, hab⟩
    exact le_antisymm hab hba
  · intro heq
    exact ⟨heq.ge, heq.le⟩

/-- Read at one path, SetIfWins keeps the better of the stored entry and the new one. -/
theorem get_setIfWins (idx : Index) (e : Entry) (p : Bytes) :
    (idx.setIfWins e).1.get p =
      if e.path = p then better lwwKey (idx.get p) e else idx.get p := by
  by_cases hp : e.path = p
  · subst hp
    rw [if_pos rfl]
    rcases idx.setIfWins_cases e with ⟨hset, hbeats⟩ | ⟨hkept, loc, hloc, hnot⟩
    · rw [hset]
      cases hget : idx.get e.path with
      | none => simp [better]
      | some loc => simp [better, (wins_iff loc e).mp (hbeats loc hget)]
    · rw [hkept]
      rw [wins_iff] at hnot
      simp [hloc, better, hnot]
  · rw [if_neg hp]
    rcases idx.setIfWins_cases e with ⟨hset, _⟩ | ⟨hkept, _⟩
    · rw [hset, Index.get_set_of_ne idx e (Ne.symm hp)]
    · rw [hkept]

/-- Read at one path, a merge is the fold that keeps the largest key. -/
theorem get_mergeAll (idx : Index) (entries : List Entry) (p : Bytes) :
    (mergeAll idx entries).get p = best lwwKey (idx.get p) (entries.filter (·.path = p)) := by
  induction entries generalizing idx with
  | nil => rfl
  | cons e rest ih =>
    have hstep : mergeAll idx (e :: rest) = mergeAll (idx.setIfWins e).1 rest := rfl
    rw [hstep, ih, get_setIfWins]
    by_cases hp : e.path = p
    · rw [if_pos hp, List.filter_cons_of_pos (by simpa using hp), best, best, List.foldl_cons]
    · rw [if_neg hp, List.filter_cons_of_neg (by simpa using hp)]

theorem candidate_iff (idx : Index) (entries : List Entry) (p : Bytes) (e : Entry) :
    Candidate (idx.get p) (entries.filter (·.path = p)) e ↔ Offered idx entries p e := by
  simp [Candidate, Offered]

/-- The merged entry of a path is an offered one that no offered one beats, and a
path without an entry was offered none. -/
theorem mergeAll_max (idx : Index) (entries : List Entry) (p : Bytes) :
    (∀ e, (mergeAll idx entries).get p = some e →
      Offered idx entries p e ∧ ∀ o, Offered idx entries p o → ¬ wins e o) ∧
    ((mergeAll idx entries).get p = none → ∀ o, ¬ Offered idx entries p o) := by
  rw [get_mergeAll]
  obtain ⟨hsome, hnone⟩ := best_spec lwwKey (idx.get p) (entries.filter (·.path = p))
  simp only [candidate_iff] at hsome hnone
  refine ⟨?_, hnone⟩
  intro e he
  obtain ⟨hoffered, hmax⟩ := hsome e he
  refine ⟨hoffered, ?_⟩
  intro o ho
  rw [wins_iff, not_lt]
  exact hmax o ho

/-- Merges of lists with the same members agree on every path up to the version. -/
theorem mergeAll_congr (idx : Index) {l l' : List Entry} (hsame : ∀ e, e ∈ l ↔ e ∈ l')
    (p : Bytes) :
    Option.Rel SameVersion ((mergeAll idx l).get p) ((mergeAll idx l').get p) := by
  have hfilter : ∀ e, e ∈ l.filter (·.path = p) ↔ e ∈ l'.filter (·.path = p) := by
    simp [hsame]
  have hkey := best_key_congr lwwKey (idx.get p) hfilter
  rw [← get_mergeAll, ← get_mergeAll] at hkey
  cases hl : (mergeAll idx l).get p with
  | none =>
    cases hl' : (mergeAll idx l').get p with
    | none => exact .none
    | some e' => simp [hl, hl'] at hkey
  | some e =>
    cases hl' : (mergeAll idx l').get p with
    | none => simp [hl, hl'] at hkey
    | some e' =>
      simp only [hl, hl', Option.map_some, Option.some.injEq] at hkey
      exact .some ((sameVersion_iff e e').mpr hkey)

/-- SetIfWins reports an update exactly when the path was unknown or the version
stored under it is another one afterwards. -/
theorem setIfWins_reports (idx : Index) (e : Entry) :
    (idx.setIfWins e).2 = true ↔
      idx.get e.path = none ∨
        ¬ Option.Rel SameVersion (idx.get e.path) ((idx.setIfWins e).1.get e.path) := by
  rcases idx.setIfWins_cases e with ⟨hset, hbeats⟩ | ⟨hkept, loc, hloc, -⟩
  · rw [hset]
    simp only [Index.get_set_self, true_iff]
    cases hget : idx.get e.path with
    | none => exact Or.inl rfl
    | some loc =>
      refine Or.inr fun hrel => ?_
      cases hrel with
      | some hsame =>
        have hlt := (wins_iff loc e).mp (hbeats loc hget)
        exact hlt.ne ((sameVersion_iff loc e).mp hsame)
  · rw [hkept]
    simp only [Bool.false_eq_true, hloc, reduceCtorEq, false_or, false_iff, not_not]
    exact .some ((sameVersion_iff loc loc).mpr rfl)

theorem wins_trans {a b c : Entry} (hab : wins a b) (hbc : wins b c) : wins a c := by
  rw [wins_iff] at hab hbc ⊢
  exact hab.trans hbc

/-- Wins is a strict weak order that is blind to nothing but the five fields, so
merging any arrangement of the same entries gives one result up to them: at each
path the largest of what was there and what was listed. SetIfWins reports exactly
the merges that change it or make a path known. -/
theorem index_merge_is_join (idx : Index) (l l' : List Entry) (hsame : ∀ e, e ∈ l' ↔ e ∈ l) :
    (∀ a, ¬ wins a a) ∧
    (∀ a b, wins a b → ¬ wins b a) ∧
    (∀ a b c, wins a b → wins b c → wins a c) ∧
    (∀ a b c, Incomparable a b → Incomparable b c → Incomparable a c) ∧
    (∀ a b, Incomparable a b ↔ SameVersion a b) ∧
    (∀ p, Option.Rel SameVersion ((mergeAll idx l').get p) ((mergeAll idx l).get p)) ∧
    (∀ p e, (mergeAll idx l').get p = some e →
      Offered idx l p e ∧ ∀ o, Offered idx l p o → ¬ wins e o) ∧
    (∀ p, (mergeAll idx l').get p = none → ∀ o, ¬ Offered idx l p o) ∧
    (∀ e, (idx.setIfWins e).2 = true ↔ idx.get e.path = none ∨
      ¬ Option.Rel SameVersion (idx.get e.path) ((idx.setIfWins e).1.get e.path)) := by
  have hoffered : ∀ p e, Offered idx l' p e ↔ Offered idx l p e := by
    intro p e
    simp only [Offered, hsame]
  refine ⟨?_, ?_, fun a b c => wins_trans, ?_, incomparable_iff, mergeAll_congr idx hsame, ?_, ?_,
    setIfWins_reports idx⟩
  · intro a
    simp [wins_iff]
  · intro a b hab hba
    rw [wins_iff] at hab hba
    exact hab.not_gt hba
  · intro a b c hab hbc
    simp only [incomparable_iff, sameVersion_iff] at hab hbc ⊢
    exact hab.trans hbc
  · intro p e he
    simpa only [hoffered] using (mergeAll_max idx l' p).1 e he
  · intro p hnone
    simpa only [hoffered] using (mergeAll_max idx l' p).2 hnone

def versionOfMode (mode : Mode) : Entry := ⟨ascii "a", 1, 5, mode, ascii "h", false, 0, 9⟩

/-- Two versions that differ in the mode only, merged in another order and with a
repetition. -/
theorem index_merge_two_versions :
    (mergeAll Index.empty [versionOfMode 0o600, versionOfMode 0o644]).get (ascii "a") =
        some (versionOfMode 0o644) ∧
      Option.Rel SameVersion
        ((mergeAll Index.empty [versionOfMode 0o644, versionOfMode 0o600,
          versionOfMode 0o644]).get (ascii "a"))
        ((mergeAll Index.empty [versionOfMode 0o600, versionOfMode 0o644]).get (ascii "a")) :=
  ⟨by decide +kernel, (index_merge_is_join Index.empty _ _ (by simp [or_comm])).2.2.2.2.2.1 _⟩

end TailSync.IndexJoins

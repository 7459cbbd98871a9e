import TailSync.NotifyTracker
import TailSync.RemoteApply

/-!
Inbound notifies of daemon/notify.go. A notify is dropped when the index has, for
each of its hints, an entry the hint does not beat; otherwise a pull is requested.
The filter asks Wins alone, where the apply path also looks at deletions, hashes,
modification times and the disk. It is safe because every branch of the apply path
that changes something asks Wins as well.
-/
namespace TailSync.NotifyHints

open ByteStrings Entries IndexMap SyncRoot Scanning Transfers RemoteApply NotifyTracker
open RelativePaths (cleanRel relPath)

def alreadyHaveAll (idx : Index) (hints : List Entry) : Bool :=
  hints.all fun h =>
    match idx.get h.path with
    | none => false
    | some loc => !wins loc h

/-- onNotify: the tracker afterwards, and whether a pull was requested. -/
def onNotify (idx : Index) (t : Tracker) (now : Time) (hints : List Entry) : Tracker × Bool :=
  if hints.length > 0 ∧ alreadyHaveAll idx hints = true then (t.mark now hints, false)
  else (t, true)

/-- applyRemote on a list of entries, each call with its own surroundings. -/
def applyEach (cfg : Config) (hs : Hashes) (d : Daemon) (calls : List (Entry × ApplyEnv)) :
    Daemon :=
  calls.foldl (fun d call => (applyRemote cfg hs call.2 d call.1).1) d

section Covered
variable {cfg : Config} {hs : Hashes} {d : Daemon} {re loc : Entry}

theorem alreadyHaveAll_iff {idx : Index} {hints : List Entry} :
    alreadyHaveAll idx hints = true ↔
      ∀ h ∈ hints, ∃ loc, idx.get h.path = some loc ∧ wins loc h = false := by
  rw [alreadyHaveAll, List.all_eq_true]
  refine forall₂_congr ?_
  intro h _
  cases idx.get h.path <;> simp

/-- An entry that does not beat the recorded one is decided away or stored over a
tombstone, where SetIfWins refuses it. -/
theorem decideApply_covered (hnot : wins loc re = false) (present : Bool) :
    (decideApply (some loc) re present).kind = .noop ∨
      (decideApply (some loc) re present).kind = .tombstone := by
  unfold decideApply
  simp only [hnot, Bool.and_false, Bool.false_eq_true, if_false]
  split
  · split
    · exact Or.inr rfl
    · exact Or.inl rfl
  · split
    · exact Or.inl rfl
    · exact Or.inl rfl

theorem applyDecided_covered (h : Host) (hget : d.idx.get re.path = some loc)
    (hnot : wins loc re = false) : ∃ r, applyDecided h d re = (d, .finished r) := by
  have hkept : d.idx.setIfWins re = (d.idx, false) := by
    simp [Index.setIfWins, hget, hnot]
  unfold applyDecided
  split
  · exact ⟨_, rfl⟩
  · split
    · exact ⟨_, rfl⟩
    · rename_i present _
      dsimp only
      rw [hget]
      rcases decideApply_covered hnot present with hkind | hkind
      · rw [hkind]
        exact ⟨_, rfl⟩
      · rw [hkind, hkept]
        exact ⟨_, rfl⟩

theorem applyDecide_covered (cfg : Config) (h : Host) (hclean : cleanRel re.path = .ok re.path)
    (hget : d.idx.get re.path = some loc) (hnot : wins loc re = false) :
    ∃ r, applyDecide cfg h d re = (d, .finished r) := by
  unfold applyDecide
  split
  · exact ⟨_, rfl⟩
  · rename_i rel hrel
    have hsame : rel = re.path := by
      unfold relPath at hrel
      rw [hclean] at hrel
      dsimp only at hrel
      split at hrel
      · split at hrel
        · exact (Except.ok.inj hrel).symm
        · cases hrel
      · cases hrel
    subst hsame
    split
    · exact ⟨_, rfl⟩
    · exact applyDecided_covered h hget hnot

/-- Applying a covered entry leaves the daemon as it is, whatever the disk holds and
whatever the peer would have answered. -/
theorem applyRemote_covered (env : ApplyEnv) (hclean : cleanRel re.path = .ok re.path)
    (hget : d.idx.get re.path = some loc) (hnot : wins loc re = false) :
    (applyRemote cfg hs env d re).1 = d := by
  obtain ⟨r, hdecide⟩ := applyDecide_covered cfg env.decideHost hclean hget hnot
  unfold applyRemote
  rw [hdecide]
  cases r <;> rfl

theorem applyEach_covered {calls : List (Entry × ApplyEnv)}
    (hcovered : ∀ call ∈ calls, cleanRel call.1.path = .ok call.1.path ∧
      ∃ loc, d.idx.get call.1.path = some loc ∧ wins loc call.1 = false) :
    applyEach cfg hs d calls = d := by
  induction calls with
  | nil => rfl
  | cons call rest ih =>
    obtain ⟨hclean, loc, hget, hnot⟩ := hcovered call (by simp)
    rw [applyEach, List.foldl_cons, applyRemote_covered call.2 hclean hget hnot]
    exact ih fun call' hcall' => hcovered call' (by simp [hcall'])

end Covered

/-- A notify that is dropped could not have changed anything: applying its hints, in
any order, any number of times and in any surroundings, leaves index and disk as they
are. So a hint that can change something makes onNotify request a pull. -/
theorem ignored_notify_safe (cfg : Config) (hs : Hashes) (d : Daemon) (t : Tracker) (now : Time)
    (hints : List Entry) (hclean : ∀ h ∈ hints, cleanRel h.path = .ok h.path) :
    ((onNotify d.idx t now hints).2 = false →
      ∀ calls : List (Entry × ApplyEnv), (∀ call ∈ calls, call.1 ∈ hints) →
        applyEach cfg hs d calls = d) ∧
    (∀ h ∈ hints, (∃ env, (applyRemote cfg hs env d h).1 ≠ d) →
      (onNotify d.idx t now hints).2 = true) := by
  have hdropped : (onNotify d.idx t now hints).2 = false → alreadyHaveAll d.idx hints = true := by
    unfold onNotify
    split
    · rename_i hall
      exact fun _ => hall.2
    · simp
  constructor
  · intro hfalse calls hcalls
    have hall := alreadyHaveAll_iff.mp (hdropped hfalse)
    refine applyEach_covered fun call hcall => ?_
    exact ⟨hclean _ (hcalls call hcall), hall _ (hcalls call hcall)⟩
  · rintro h hh ⟨env, hchange⟩
    by_contra hfalse
    obtain ⟨loc, hget, hnot⟩ :=
      alreadyHaveAll_iff.mp (hdropped (by simpa using hfalse)) h hh
    exact hchange (applyRemote_covered env (hclean h hh) hget hnot)

def updatedEntry (updatedAt : Time) (deleted : Bool) : Entry :=
  ⟨ascii "a", 1, 5, 0o644, ascii "h", deleted, 0, updatedAt⟩

/-- An older tombstone and the version itself, announced to a node that has no file
for it: the notify is dropped, and pulling would have written nothing. -/
theorem ignored_notify_old_hints :
    (onNotify (Index.empty.set (updatedEntry 9 false)) .new 20
        [updatedEntry 8 true, updatedEntry 9 false]).2 = false ∧
      applyEach Config.plain Hashes.plain
        ⟨Index.empty.set (updatedEntry 9 false), .empty, 0, .empty⟩
        [(updatedEntry 9 false, ⟨.plain, .plain, .plain, .serving (ascii "x")⟩),
          (updatedEntry 8 true, ⟨.plain, .plain, .plain, .serving (ascii "x")⟩)] =
        ⟨Index.empty.set (updatedEntry 9 false), .empty, 0, .empty⟩ := by
  have hdropped : (onNotify (Index.empty.set (updatedEntry 9 false)) .new 20
      [updatedEntry 8 true, updatedEntry 9 false]).2 = false := by decide +kernel
  have hclean : ∀ h ∈ [updatedEntry 8 true, updatedEntry 9 false],
      cleanRel h.path = .ok h.path := by decide +kernel
  refine ⟨hdropped, ?_⟩
  exact (ignored_notify_safe Config.plain Hashes.plain
    ⟨Index.empty.set (updatedEntry 9 false), .empty, 0, .empty⟩ .new 20 _ hclean).1 hdropped _
    (by simp)

end TailSync.NotifyHints

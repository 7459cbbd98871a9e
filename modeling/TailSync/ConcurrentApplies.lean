import TailSync.LwwJoins
import Mathlib.Data.Set.Finite.Range

/-!
Any number of applies to one path, each decided under the lock, then transferring
without it and committing under it again. Every section that succeeds joins its
entry to the version of the path, so the order of the sections does not matter: when
all calls have returned the path shows the entry that beats all others. Links are
followed, on the way to the path and at its end, as long as none on the way dangles.
-/
namespace TailSync.ConcurrentApplies

open ByteStrings Entries IndexMap SyncRoot RootEffects Scanning Transfers RemoteApply
open ApplyEffects ApplyRuns ObservedMeta LwwJoins Runs
open FileTrees (Tree)
open RelativePaths (CleanPath cleanRel)

/-- The sections of the calls and their transfers, on a system that keeps modes and
times exactly. No new calls, no scans and no edits. -/
inductive CallAction {ι : Type*} : Action ι → Prop
  | decide (k : ι) {h : Host} (exact : h.Exact) : CallAction (.decide k h)
  | transfer (k : ι) (h : Host) (replies : Replies) : CallAction (.transfer k h replies)
  | commit (k : ι) {h : Host} (exact : h.Exact) : CallAction (.commit k h)

def Competes {ι : Type*} (idx : Index) (p : Bytes) (remote : ι → Entry) (e : Entry) : Prop :=
  idx.get p = some e ∨ ∃ k, e = remote k

section Steps
variable {ι : Type*} [DecidableEq ι] {cfg : Config} {hs : Hashes} {remote : ι → Entry}
variable {p : Bytes} {idx₀ : Index}

/-- What holds while no call has failed: the version lies above the first one and above
the entry of every finished call, and is one of these. -/
structure Joined (cfg : Config) (hs : Hashes) (remote : ι → Entry) (p : Bytes) (idx₀ : Index)
    (s : NodeState ι) : Prop where
  sound : ∀ k, (s.calls k).Sound cfg hs
  serves : ∀ k, (s.calls k).Serves (· = remote k)
  way : WayLeads s.daemon.root p
  agrees : Agrees hs s.daemon p
  first : version idx₀ p ≤ version s.daemon.idx p
  done : ∀ k b, s.calls k = .finished (.ok b) →
    (coarseKey (remote k) : WithBot CoarseKey) ≤ version s.daemon.idx p
  attained : version s.daemon.idx p = version idx₀ p ∨
    ∃ k, version s.daemon.idx p = coarseKey (remote k)

/-- One successful section joins its entry to the version. -/
theorem Joined.applied {s s' : NodeState ι} (hj : Joined cfg hs remote p idx₀ s) {k : ι}
    {h : Host} {re : Entry} {content : Option (Bytes × Bytes)} {b : Bool} (hexact : h.Exact)
    (hpaths : ∀ k, cleanRel (remote k).path = .ok p) (hproper : ∀ k, Proper (remote k))
    (hconcerns : (s.calls k).Concerns re) (hclean : CleanPath re.path)
    (hended : Ended h re content s.daemon s'.daemon (.ok b)) (hver : Verified cfg hs re content)
    (hothers : ∀ j, j ≠ k → s'.calls j = s.calls j)
    (hsound : ∀ k, (s'.calls k).Sound cfg hs) (hserves : ∀ k, (s'.calls k).Serves (· = remote k)) :
    Joined cfg hs remote p idx₀ s' := by
  obtain ⟨r, rel, rfl, hrel, rfl⟩ := hconcerns.announced (hj.serves k)
  rw [hpaths k] at hrel
  cases hrel
  have hre : Proper { remote k with path := p } :=
    ⟨(hproper k).updatedAt, (hproper k).modTime, (hproper k).mode, (hproper k).permOnly⟩
  obtain ⟨hsettles, hway⟩ := ended_settles hended hexact hclean hj.way hver hre hj.agrees
  have hversion : version s'.daemon.idx p = version s.daemon.idx p ⊔ coarseKey (remote k) :=
    hsettles.version
  refine ⟨hsound, hserves, hway, hsettles.agrees hj.agrees, ?_, ?_, ?_⟩
  · rw [hversion]
    exact hj.first.trans le_sup_left
  · intro j b' hjdone
    rw [hversion]
    by_cases hjk : j = k
    · rw [hjk]
      exact le_sup_right
    · rw [hothers j hjk] at hjdone
      exact (hj.done j b' hjdone).trans le_sup_left
  · rw [hversion]
    rcases le_total (version s.daemon.idx p) (coarseKey (remote k)) with hle | hle
    · exact Or.inr ⟨k, sup_eq_right.mpr hle⟩
    · rw [sup_eq_left.mpr hle]
      exact hj.attained

def Failed (s : NodeState ι) : Prop := ∃ k e, s.calls k = .finished (.error e)

theorem Joined.next {s s' : NodeState ι} {a : Action ι} (hj : Joined cfg hs remote p idx₀ s)
    (hpaths : ∀ k, cleanRel (remote k).path = .ok p) (hproper : ∀ k, Proper (remote k))
    (hstep : step cfg hs s a = some s') (ha : CallAction a) :
    Failed s' ∨ Joined cfg hs remote p idx₀ s' := by
  have hstepped := step_stepped hj.sound hstep
  have hsound := hstepped.sound hj.sound
  have hserves : ∀ k, (s'.calls k).Serves (· = remote k) := by
    refine hstepped.serves ?_ hj.serves
    rintro k r rfl
    cases ha
  cases hstepped with
  | quiet daemon calls =>
    refine Or.inr ⟨hsound, hserves, ?_, ?_, ?_, ?_, ?_⟩
    · rw [daemon]
      exact hj.way
    · rw [daemon]
      exact hj.agrees
    · rw [daemon]
      exact hj.first
    · intro k b hk
      have hadv := calls k
      rw [hk] at hadv
      rw [daemon]
      refine hj.done k b ?_
      generalize s.calls k = phase at hadv
      cases hadv
      rfl
    · rw [daemon]
      exact hj.attained
  | @ran a k h re content r acts concerns clean run verified done others =>
    have hexact : h.Exact := by
      rcases acts with rfl | rfl
      · cases ha
        assumption
      · cases ha
        assumption
    cases r with
    | error e => exact Or.inl ⟨k, e, done⟩
    | ok b =>
      exact Or.inr (hj.applied hexact hpaths hproper concerns clean run.ended verified others
        hsound hserves)
  | reconciled _ _ => cases ha
  | edited _ _ => cases ha

/-- What holds throughout: a failed call stays failed, so a run at whose end no call
has failed was a run of joins. -/
structure FailedOrJoined (cfg : Config) (hs : Hashes) (remote : ι → Entry) (p : Bytes)
    (idx₀ : Index) (s : NodeState ι) : Prop where
  sound : ∀ k, (s.calls k).Sound cfg hs
  either : Failed s ∨ Joined cfg hs remote p idx₀ s

theorem FailedOrJoined.next {s s' : NodeState ι} {a : Action ι}
    (hs₀ : FailedOrJoined cfg hs remote p idx₀ s)
    (hpaths : ∀ k, cleanRel (remote k).path = .ok p) (hproper : ∀ k, Proper (remote k))
    (hstep : step cfg hs s a = some s') (ha : CallAction a) :
    FailedOrJoined cfg hs remote p idx₀ s' := by
  refine ⟨(step_stepped hs₀.sound hstep).sound hs₀.sound, ?_⟩
  rcases hs₀.either with ⟨k, e, hk⟩ | hj
  · refine Or.inl ⟨k, e, step_finished hs₀.sound hstep ?_ hk⟩
    rintro r rfl
    cases ha
  · exact hj.next hpaths hproper hstep ha

omit [DecidableEq ι] in
/-- When every call has returned, the version is that of the winner. -/
theorem Joined.version_eq {s : NodeState ι} (hj : Joined cfg hs remote p idx₀ s)
    (hdone : ∀ k, ∃ b, s.calls k = .finished (.ok b)) {w : Entry}
    (hw : IsWinner (Competes idx₀ p remote) w) : version s.daemon.idx p = coarseKey w := by
  apply le_antisymm
  · rcases hj.attained with heq | ⟨k, heq⟩
    · rw [heq]
      cases hget : idx₀.get p with
      | none => simp [version, hget]
      | some e =>
        rw [version_of_get hget, WithBot.coe_le_coe]
        exact hw.coarse_le (Or.inl hget)
    · rw [heq, WithBot.coe_le_coe]
      exact hw.coarse_le (Or.inr ⟨k, rfl⟩)
  · rcases hw.1 with hget | ⟨k, rfl⟩
    · rw [← version_of_get hget]
      exact hj.first
    · obtain ⟨b, hk⟩ := hdone k
      exact hj.done k b hk

end Steps

section Runs
variable {ι : Type*} [DecidableEq ι] {cfg : Config} {hs : Hashes} {remote : ι → Entry}
variable {p : Bytes}

/-- Concurrent applies to one path do not depend on their order. Where disk and index
agree on the path, every link on the way to it leads to a directory and every call
returns without an error, the path ends up showing the entry that no other beats, of
the recorded one and all announced ones. -/
theorem concurrent_applies_join [Finite ι] {s₀ s : NodeState ι} {as : List (Action ι)}
    (hway : WayLeads s₀.daemon.root p) (hagrees : Agrees hs s₀.daemon p)
    (hpaths : ∀ k, cleanRel (remote k).path = .ok p) (hproper : ∀ k, Proper (remote k))
    (hcalls : ∀ k, s₀.calls k = .waiting (remote k))
    (hrun : Run (Steps cfg hs fun _ => CallAction) s₀ as s)
    (hdone : ∀ k, ∃ b, s.calls k = .finished (.ok b)) :
    (∀ e, Competes s₀.daemon.idx p remote e →
      ∃ w, IsWinner (Competes s₀.daemon.idx p remote) w) ∧
    ∀ w, IsWinner (Competes s₀.daemon.idx p remote) w → Shows hs s.daemon p w := by
  have hstart : Joined cfg hs remote p s₀.daemon.idx s₀ := by
    refine ⟨fun k => ?_, fun k => ?_, hway, hagrees, le_refl _, ?_, Or.inl rfl⟩
    · rw [hcalls k]
      trivial
    · rw [hcalls k]
      rfl
    · intro k b hk
      rw [hcalls k] at hk
      exact absurd hk (by simp)
  have hend : FailedOrJoined cfg hs remote p s₀.daemon.idx s :=
    hrun.invariant (fun _ _ _ hi hst => hi.next hpaths hproper hst.1 hst.2)
      ⟨hstart.sound, Or.inr hstart⟩
  have hj : Joined cfg hs remote p s₀.daemon.idx s := by
    refine hend.either.resolve_left ?_
    rintro ⟨k, e, hk⟩
    obtain ⟨b, hok⟩ := hdone k
    rw [hk] at hok
    exact absurd hok (by simp)
  refine ⟨?_, ?_⟩
  · intro e he
    refine exists_winner ?_ he
    have hfirst : {e | s₀.daemon.idx.get p = some e}.Finite :=
      Set.Subsingleton.finite fun a ha b hb => Option.some.inj (ha.symm.trans hb)
    refine (hfirst.union (Set.finite_range remote)).subset ?_
    rintro o (ho | ⟨k, rfl⟩)
    · exact Or.inl ho
    · exact Or.inr ⟨k, rfl⟩
  · intro w hw
    exact hj.agrees.shows (hj.version_eq hdone hw)

end Runs

def racing : Bool → Entry
  | true => ⟨ascii "a", 1, 5, 0o600, contentHash Hashes.plain.sha256 (ascii "x"), false, 0, 7⟩
  | false => ⟨ascii "a", 0, 5, 0o600, [], true, 9, 9⟩

def racingStart : NodeState Bool :=
  ⟨NodeState.fresh.daemon (ι := Bool), fun k => .waiting (racing k)⟩

def racingRun : List (Action Bool) :=
  [.decide true .plain, .transfer true .plain (.serving (ascii "x")), .decide false .plain,
    .commit true .plain]

theorem concurrent_applies_join_small :
    ∃ s, exec Config.plain Hashes.plain racingStart racingRun = some s ∧
      Shows Hashes.plain s.daemon (ascii "a") (racing false) := by
  have hdone : ∃ s, exec Config.plain Hashes.plain racingStart racingRun = some s ∧
      ∀ k, s.calls k = .finished (.ok (!k)) := by
    refine ⟨_, rfl, ?_⟩
    rintro (_ | _) <;> rfl
  obtain ⟨s, hexec, hdone⟩ := hdone
  refine ⟨s, hexec, ?_⟩
  have hrun : Run (Steps Config.plain Hashes.plain fun _ => CallAction) racingStart racingRun
      s := by
    refine run_of_exec hexec ?_
    intro a ha _
    simp only [racingRun, List.mem_cons, List.not_mem_nil, or_false] at ha
    rcases ha with rfl | rfl | rfl | rfl
    · exact .decide true Host.plain_exact
    · exact .transfer true _ _
    · exact .decide false Host.plain_exact
    · exact .commit true Host.plain_exact
  have hproper : ∀ k, Proper (racing k) := by
    rintro (_ | _) <;> exact ⟨by decide, by decide, by decide, by decide⟩
  have hagrees : Agrees Hashes.plain racingStart.daemon (ascii "a") :=
    ⟨fun e he => absurd he (by simp [racingStart, NodeState.fresh]), fun _ => by decide +kernel⟩
  have hway := WayLeads.of_direct (direct_of_linkFree Tree.empty_linkFree (ascii "a"))
  refine (concurrent_applies_join hway hagrees (by decide +kernel) hproper
    (fun _ => rfl) hrun fun k => ⟨_, hdone k⟩).2 _ ⟨Or.inr ⟨false, rfl⟩, ?_⟩
  rintro o (ho | ⟨_ | _, rfl⟩)
  · exact absurd ho (by simp [racingStart, NodeState.fresh])
  · decide
  · decide

def announcedAt (p : Bytes) : Entry :=
  ⟨p, 1, 5, 0o600, contentHash Hashes.plain.sha256 (ascii "x"), false, 0, 7⟩

/-- The link l leads to m/.. although there is no m, and the link k to the root. -/
def danglingRoot : Root :=
  let root : Option Root := do
    let l ← fileName (ascii "l")
    let k ← fileName (ascii "k")
    let m ← fileName (ascii "m")
    let t ← Tree.empty.put [l] (.link (some [.down m, .up]))
    t.put [k] (.link (some []))
  root.getD .empty

def emptyDir : Root :=
  let root : Option Root := do
    let d ← fileName (ascii "d")
    Tree.empty.put [d] .dir
  root.getD .empty

def toldOf (root : Root) (p : Bytes) : NodeState Unit :=
  ⟨⟨.empty, root, 0, .empty⟩, fun _ => .waiting (announcedAt p)⟩

def tellingRun : List (Action Unit) :=
  [.decide () .plain, .transfer () .plain (.serving (ascii "x")), .commit () .plain]

def toldNode (root : Root) (p : Bytes) : NodeState Unit :=
  (exec Config.plain Hashes.plain (toldOf root p) tellingRun).getD .fresh

/-- What the statement about all trees would ask: no live entry and no file at the path,
a run of one call that ends well, and the announced file as the winner. -/
structure ToldWell (root : Root) (p : Bytes) : Prop where
  agree : FilesAgree Hashes.plain (toldOf root p).daemon p
  clean : cleanRel p = .ok p
  proper : Proper (announcedAt p)
  run : Run (Steps Config.plain Hashes.plain fun _ => CallAction) (toldOf root p) tellingRun
    (toldNode root p)
  done : ∀ k, ∃ b, (toldNode root p).calls k = .finished (.ok b)
  winner : IsWinner (Competes (toldOf root p).daemon.idx p fun _ : Unit => announcedAt p)
    (announcedAt p)

def returned : Phase → Bool
  | .finished (.ok _) => true
  | _ => false

theorem returned_iff {phase : Phase} :
    returned phase = true ↔ ∃ b, phase = .finished (.ok b) := by
  constructor
  · intro h
    unfold returned at h
    split at h
    · exact ⟨_, rfl⟩
    · exact absurd h (by simp)
  · rintro ⟨b, rfl⟩
    rfl

theorem toldWell {root : Root} {p : Bytes} (hfree : FileTrees.Node.asFile (found root p) = none)
    (hclean : cleanRel p = .ok p)
    (hexec : (exec Config.plain Hashes.plain (toldOf root p) tellingRun).isSome = true)
    (hdone : returned ((toldNode root p).calls ()) = true) : ToldWell root p := by
  refine ⟨⟨fun e he => absurd he (by simp [toldOf]), ?_⟩, hclean, ⟨by simp [announcedAt],
    by simp [announcedAt], by simp [announcedAt], by simp only [announcedAt]; decide⟩, ?_,
    fun _ => returned_iff.mp hdone, Or.inr ⟨(), rfl⟩, ?_⟩
  · intro _ f hf
    have hfile : FileTrees.Node.asFile (found root p) = some f :=
      FileTrees.Node.asFile_eq_some.mpr hf
    rw [hfree] at hfile
    exact absurd hfile (by simp)
  · obtain ⟨s, hs⟩ := Option.isSome_iff_exists.mp hexec
    have hexec' : exec Config.plain Hashes.plain (toldOf root p) tellingRun =
        some (toldNode root p) := by
      rw [toldNode, hs, Option.getD_some]
    refine run_of_exec hexec' ?_
    intro a ha _
    simp only [tellingRun, List.mem_cons, List.not_mem_nil, or_false] at ha
    rcases ha with rfl | rfl | rfl
    · exact .decide () Host.plain_exact
    · exact .transfer () _ _
    · exact .commit () Host.plain_exact
  · rintro o (ho | ⟨_, rfl⟩)
    · exact absurd ho (by simp [toldOf])
    · rw [wins_iff]
      exact lt_irrefl _

/-- With a dangling link on the way the written file may take the place of the link, and
Stat does not find it; with a directory at the path the file is not written at all. Both
calls report no error. -/
theorem link_or_dir_hides_file :
    (ToldWell danglingRoot (ascii "l/k/l") ∧ found danglingRoot (ascii "l/k/l") = none ∧
      ¬ Shows Hashes.plain (toldNode danglingRoot (ascii "l/k/l")).daemon (ascii "l/k/l")
        (announcedAt (ascii "l/k/l"))) ∧
    (ToldWell emptyDir (ascii "d") ∧
      ¬ Shows Hashes.plain (toldNode emptyDir (ascii "d")).daemon (ascii "d")
        (announcedAt (ascii "d"))) := by
  refine ⟨⟨toldWell (by decide +kernel) (by decide +kernel) (by decide +kernel)
    (by decide +kernel), by decide +kernel, ?_⟩, toldWell (by decide +kernel) (by decide +kernel)
    (by decide +kernel) (by decide +kernel), ?_⟩
  · intro hshows
    obtain ⟨f, hf, _⟩ := hshows.bytes rfl
    have hnone : found (toldNode danglingRoot (ascii "l/k/l")).daemon.root (ascii "l/k/l") =
        none := by decide +kernel
    rw [hnone] at hf
    exact absurd hf (by simp)
  · intro hshows
    obtain ⟨f, hf, _⟩ := hshows.bytes rfl
    have hdir : found (toldNode emptyDir (ascii "d")).daemon.root (ascii "d") = some .dir := by
      decide +kernel
    rw [hdir] at hf
    exact absurd hf (by simp)

end TailSync.ConcurrentApplies

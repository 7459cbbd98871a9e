import TailSync.ApplyEffects
import TailSync.Runs
import Mathlib.Logic.Function.Basic

/-!
One node as a system of interleaved steps. Any number of applyRemote calls are
under way, each between its atomic sections: called, decided, transferring,
arrived, finished. Sections of different calls, reconciles and edits of the tree
by the user happen in any order. A step whose guard does not hold, or in which
the program would panic, does not exist.
-/
namespace TailSync.ApplyRuns

open ByteStrings Entries IndexMap SyncRoot RootEffects Scanning Transfers RemoteApply
open ApplyEffects MachineInts
open RelativePaths (CleanPath cleanRel relPath relPath_eq_cleanRel cleanRel_ok)

inductive Phase where
  | idle
  | waiting (remote : Entry)
  | transferring (re : Entry) (useDelta : Bool)
  | arrived (re : Entry) (data got : Bytes)
  | finished (result : Except ApplyError Bool)

structure NodeState (ι : Type*) where
  daemon : Daemon
  calls : ι → Phase

inductive Action (ι : Type*) where
  | call (k : ι) (remote : Entry)
  | decide (k : ι) (h : Host)
  | transfer (k : ι) (h : Host) (replies : Replies)
  | commit (k : ι) (h : Host)
  | reconcile (h : Host)
  | edit (root : Root)

variable {ι : Type*} [DecidableEq ι]

def NodeState.setPhase (s : NodeState ι) (k : ι) (d : Daemon) (phase : Phase) : NodeState ι :=
  ⟨d, Function.update s.calls k phase⟩

def Started.phase : Started → Phase
  | .finished r => .finished r
  | .transfer re useDelta => .transferring re useDelta

def step (cfg : Config) (hs : Hashes) (s : NodeState ι) : Action ι → Option (NodeState ι)
  | .call k remote =>
      match s.calls k with
      | .idle => some (s.setPhase k s.daemon (.waiting remote))
      | .finished _ => some (s.setPhase k s.daemon (.waiting remote))
      | _ => none
  | .decide k h =>
      match s.calls k with
      | .waiting remote =>
          let started := applyDecide cfg h s.daemon remote
          some (s.setPhase k started.1 (Started.phase started.2))
      | _ => none
  | .transfer k h replies =>
      match s.calls k with
      | .transferring re useDelta =>
          match transfer cfg hs h s.daemon.root re useDelta replies with
          | .ok (data, got) => some (s.setPhase k s.daemon (.arrived re data got))
          | .err e => some (s.setPhase k s.daemon (.finished (.error e)))
          | .panic => none
      | _ => none
  | .commit k h =>
      match s.calls k with
      | .arrived re data got =>
          let committed := applyCommit h s.daemon re data got
          some (s.setPhase k committed.1 (.finished committed.2))
      | _ => none
  | .reconcile h => some { s with daemon := (reconcile cfg hs.sha256 h s.daemon).1 }
  | .edit root => some { s with daemon := { s.daemon with root := root } }

def Steps (cfg : Config) (hs : Hashes) (Ok : NodeState ι → Action ι → Prop) (s : NodeState ι)
    (a : Action ι) (s' : NodeState ι) : Prop :=
  step cfg hs s a = some s' ∧ Ok s a

def exec (cfg : Config) (hs : Hashes) : NodeState ι → List (Action ι) → Option (NodeState ι)
  | s, [] => some s
  | s, a :: rest => (step cfg hs s a).bind fun s' => exec cfg hs s' rest

theorem run_of_exec {cfg : Config} {hs : Hashes} {Ok : NodeState ι → Action ι → Prop}
    {s s' : NodeState ι} {as : List (Action ι)} (hexec : exec cfg hs s as = some s')
    (hok : ∀ a ∈ as, ∀ s, Ok s a) : Runs.Run (Steps cfg hs Ok) s as s' := by
  induction as generalizing s with
  | nil =>
    cases hexec
    exact .nil _
  | cons a rest ih =>
    obtain ⟨t, hstep, hrest⟩ := Option.bind_eq_some_iff.mp hexec
    exact .cons ⟨hstep, hok a (by simp) s⟩ (ih hrest fun b hb => hok b (by simp [hb]))

theorem run_of_exec_isSome {cfg : Config} {hs : Hashes} {Ok : NodeState ι → Action ι → Prop}
    {s default : NodeState ι} {as : List (Action ι)} (hsome : (exec cfg hs s as).isSome)
    (hok : ∀ a ∈ as, ∀ s, Ok s a) :
    Runs.Run (Steps cfg hs Ok) s as ((exec cfg hs s as).getD default) := by
  obtain ⟨s', hexec⟩ := Option.isSome_iff_exists.mp hsome
  rw [hexec, Option.getD_some]
  exact run_of_exec hexec hok

def NodeState.fresh : NodeState ι := ⟨⟨.empty, .empty, 0, .empty⟩, fun _ => .idle⟩

def Announced (A : Entry → Prop) (re : Entry) : Prop :=
  ∃ remote rel, A remote ∧ cleanRel remote.path = .ok rel ∧ re = { remote with path := rel }

def Phase.Serves (A : Entry → Prop) : Phase → Prop
  | .idle => True
  | .waiting remote => A remote
  | .transferring re _ => Announced A re
  | .arrived re _ _ => Announced A re
  | .finished _ => True

def Phase.Sound (cfg : Config) (hs : Hashes) : Phase → Prop
  | .transferring re _ => CleanPath re.path ∧ re.deleted = false
  | .arrived re data got => CleanPath re.path ∧ re.deleted = false ∧
      got = contentHash hs.sha256 data ∧ got = re.hash ∧ (data.length : ℤ) ≤ cfg.maxFileBytes
  | _ => True

structure NodeState.Valid (cfg : Config) (hs : Hashes) (s : NodeState ι) : Prop where
  linkFree : s.daemon.root.LinkFree
  calls : ∀ k, (s.calls k).Sound cfg hs

def Phase.Concerns (re : Entry) : Phase → Prop
  | .waiting remote => ∃ rel, cleanRel remote.path = .ok rel ∧ re = { remote with path := rel }
  | .transferring re' _ => re' = re
  | .arrived re' _ _ => re' = re
  | _ => False

theorem Phase.Concerns.announced {phase : Phase} {re : Entry} (h : phase.Concerns re)
    {A : Entry → Prop} (hserves : phase.Serves A) : Announced A re := by
  cases phase with
  | waiting remote =>
    obtain ⟨rel, hrel, rfl⟩ := h
    exact ⟨remote, rel, hserves, hrel, rfl⟩
  | transferring re' u =>
    cases h
    exact hserves
  | arrived re' data got =>
    cases h
    exact hserves
  | idle => exact h.elim
  | finished r => exact h.elim

/-- Bytes that a section commits: live, verified, and not too large. -/
def Verified (cfg : Config) (hs : Hashes) (re : Entry) (content : Option (Bytes × Bytes)) : Prop :=
  ∀ data got, content = some (data, got) → re.deleted = false ∧
    got = contentHash hs.sha256 data ∧ got = re.hash ∧ (data.length : ℤ) ≤ cfg.maxFileBytes

/-- How a call moves on in a step that leaves the daemon's state alone. -/
inductive Advances (cfg : Config) (hs : Hashes) (a : Action ι) (j : ι) : Phase → Phase → Prop
  | stays {phase : Phase} : Advances cfg hs a j phase phase
  | called {phase : Phase} {remote : Entry} (acts : a = .call j remote) :
      Advances cfg hs a j phase (.waiting remote)
  | handedOn {phase : Phase} {re : Entry} {useDelta : Bool} (concerns : phase.Concerns re)
      (clean : CleanPath re.path) (live : re.deleted = false) :
      Advances cfg hs a j phase (.transferring re useDelta)
  | delivered {re : Entry} {useDelta : Bool} {data got : Bytes}
      (verified : Verified cfg hs re (some (data, got))) :
      Advances cfg hs a j (.transferring re useDelta) (.arrived re data got)
  | gaveUp {phase : Phase} {e : ApplyError} (running : ∀ r, phase ≠ .finished r) :
      Advances cfg hs a j phase (.finished (.error e))

/-- A critical section of a call, from one state of the daemon to the next, with the bytes
it commits. -/
inductive SectionRun (h : Host) (re : Entry) (d d' : Daemon) (r : Except ApplyError Bool) :
    Option (Bytes × Bytes) → Prop
  | decided (run : applyDecided h d re = (d', .finished r)) : SectionRun h re d d' r none
  | committed {data got : Bytes} (run : applyCommit h d re data got = (d', r)) :
      SectionRun h re d d' r (some (data, got))

/-- Everything a step can do, with the section that was run. -/
inductive Stepped (cfg : Config) (hs : Hashes) (s s' : NodeState ι) : Action ι → Prop
  | quiet {a : Action ι} (daemon : s'.daemon = s.daemon)
      (calls : ∀ j, Advances cfg hs a j (s.calls j) (s'.calls j)) : Stepped cfg hs s s' a
  | ran {a : Action ι} {k : ι} {h : Host} {re : Entry} {content : Option (Bytes × Bytes)}
      {r : Except ApplyError Bool} (acts : a = .decide k h ∨ a = .commit k h)
      (concerns : (s.calls k).Concerns re) (clean : CleanPath re.path)
      (run : SectionRun h re s.daemon s'.daemon r content) (verified : Verified cfg hs re content)
      (done : s'.calls k = .finished r) (others : ∀ j, j ≠ k → s'.calls j = s.calls j) :
      Stepped cfg hs s s' a
  | reconciled {h : Host} (daemon : s'.daemon = (reconcile cfg hs.sha256 h s.daemon).1)
      (calls : s'.calls = s.calls) : Stepped cfg hs s s' (.reconcile h)
  | edited {root : Root} (daemon : s'.daemon = { s.daemon with root := root })
      (calls : s'.calls = s.calls) : Stepped cfg hs s s' (.edit root)

/-- Everything a step can do in a tree without links. -/
inductive Moves (cfg : Config) (hs : Hashes) (s s' : NodeState ι) : Action ι → Prop
  | quiet {a : Action ι} (daemon : s'.daemon = s.daemon)
      (calls : ∀ j, Advances cfg hs a j (s.calls j) (s'.calls j)) : Moves cfg hs s s' a
  | applied {a : Action ι} {k : ι} {h : Host} {re : Entry} {content : Option (Bytes × Bytes)}
      {r : Except ApplyError Bool} (acts : a = .decide k h ∨ a = .commit k h)
      (concerns : (s.calls k).Concerns re) (clean : CleanPath re.path)
      (effect : Effect h re content s.daemon s'.daemon r)
      (touches : Touches (h.fails .cleanup) re.path s.daemon.root s'.daemon.root)
      (verified : Verified cfg hs re content) (done : s'.calls k = .finished r)
      (others : ∀ j, j ≠ k → s'.calls j = s.calls j) : Moves cfg hs s s' a
  | reconciled {h : Host} (daemon : s'.daemon = (reconcile cfg hs.sha256 h s.daemon).1)
      (calls : s'.calls = s.calls) : Moves cfg hs s s' (.reconcile h)
  | edited {root : Root} (daemon : s'.daemon = { s.daemon with root := root })
      (calls : s'.calls = s.calls) : Moves cfg hs s s' (.edit root)

section Inversion
variable {cfg : Config} {hs : Hashes} {h : Host} {d : Daemon}

/-- Before the lock is taken an entry is rejected, or continues under its cleaned
path. -/
theorem applyDecide_cases (cfg : Config) (h : Host) (d : Daemon) (remote : Entry) :
    (∃ e, applyDecide cfg h d remote = (d, .finished (.error e))) ∨
    ∃ rel, cleanRel remote.path = .ok rel ∧ CleanPath rel ∧
      ¬ (remote.deleted = false ∧ remote.hash = []) ∧
      applyDecide cfg h d remote = applyDecided h d { remote with path := rel } := by
  unfold applyDecide
  have hrel : relPath cfg.dir remote.path = cleanRel remote.path :=
    relPath_eq_cleanRel cfg.dirs_element remote.path
  cases hclean : cleanRel remote.path with
  | error e =>
    rw [hrel, hclean]
    exact Or.inl ⟨_, rfl⟩
  | ok rel =>
    rw [hrel, hclean]
    dsimp only
    by_cases hhash : remote.deleted = false ∧ remote.hash = []
    · rw [if_pos hhash]
      exact Or.inl ⟨_, rfl⟩
    · rw [if_neg hhash]
      exact Or.inr ⟨rel, rfl, (cleanRel_ok hclean).2.2.2, hhash, rfl⟩

/-- An entry handed on to a transfer is live, and nothing has been done. -/
theorem applyDecided_transfer (re : Entry) (d' : Daemon) (re' : Entry) (useDelta : Bool)
    (hrun : applyDecided h d re = (d', .transfer re' useDelta)) :
    d' = d ∧ re' = re ∧ re.deleted = false := by
  rcases applyDecided_ended h d re with ⟨r, hr, _⟩ | ⟨u, hu, hlive⟩
  · rw [hrun] at hr
    exact absurd hr (by simp)
  · rw [hrun] at hu
    cases hu
    exact ⟨rfl, rfl, hlive⟩

theorem setPhase_calls_self (s : NodeState ι) (k : ι) (d : Daemon) (phase : Phase) :
    (s.setPhase k d phase).calls k = phase := by
  simp [NodeState.setPhase]

theorem setPhase_calls_of_ne (s : NodeState ι) (d : Daemon) (phase : Phase) {k j : ι}
    (hj : j ≠ k) : (s.setPhase k d phase).calls j = s.calls j := by
  simp [NodeState.setPhase, Function.update_of_ne hj]

/-- A step that changes the phase of one call only. -/
theorem setPhase_advances {s : NodeState ι} {a : Action ι} {k : ι} {d : Daemon} {phase : Phase}
    (hk : Advances cfg hs a k (s.calls k) phase) (j : ι) :
    Advances cfg hs a j (s.calls j) ((s.setPhase k d phase).calls j) := by
  by_cases hj : j = k
  · subst hj
    rw [setPhase_calls_self]
    exact hk
  · rw [setPhase_calls_of_ne s d phase hj]
    exact .stays

/-- The inversion of a step. -/
theorem step_stepped {s s' : NodeState ι} {a : Action ι}
    (hsound : ∀ k, (s.calls k).Sound cfg hs) (hstep : step cfg hs s a = some s') :
    Stepped cfg hs s s' a := by
  cases a with
  | call k remote =>
    simp only [step] at hstep
    split at hstep
    · cases hstep
      exact .quiet rfl (setPhase_advances (.called rfl))
    · cases hstep
      exact .quiet rfl (setPhase_advances (.called rfl))
    · exact absurd hstep (by simp)
  | decide k h =>
    simp only [step] at hstep
    split at hstep
    · rename_i remote hphase
      cases hstep
      rcases applyDecide_cases cfg h s.daemon remote with ⟨e, heq⟩ | ⟨rel, hrel, hclean, _, heq⟩
      · rw [heq]
        exact .quiet rfl (setPhase_advances (.gaveUp (by simp [hphase])))
      · rw [heq]
        have hconcerns : (s.calls k).Concerns { remote with path := rel } := by
          rw [hphase]
          exact ⟨rel, hrel, rfl⟩
        have htransfer := applyDecided_transfer (h := h) (d := s.daemon) { remote with path := rel }
        cases hrun : applyDecided h s.daemon { remote with path := rel } with
        | mk d' started =>
          cases started with
          | finished r =>
            refine .ran (Or.inl rfl) hconcerns hclean (.decided hrun) ?_
              (setPhase_calls_self s k _ _) (fun j => setPhase_calls_of_ne s _ _)
            intro data got hnone
            exact absurd hnone (by simp)
          | transfer re useDelta =>
            obtain ⟨rfl, rfl, hlive⟩ := htransfer _ _ _ hrun
            exact .quiet rfl (setPhase_advances (.handedOn hconcerns hclean hlive))
    · exact absurd hstep (by simp)
  | transfer k h replies =>
    simp only [step] at hstep
    split at hstep
    · rename_i re useDelta hphase
      have hcall := hsound k
      rw [hphase] at hcall
      split at hstep
      · rename_i data got htransfer
        cases hstep
        refine .quiet rfl (setPhase_advances ?_)
        rw [hphase]
        refine .delivered ?_
        intro data' got' heq
        cases heq
        exact ⟨hcall.2, transfer_ok htransfer⟩
      · cases hstep
        exact .quiet rfl (setPhase_advances (.gaveUp (by simp [hphase])))
      · exact absurd hstep (by simp)
    · exact absurd hstep (by simp)
  | commit k h =>
    simp only [step] at hstep
    split at hstep
    · rename_i re data got hphase
      cases hstep
      have hcall := hsound k
      rw [hphase] at hcall
      obtain ⟨hclean, hverified⟩ := hcall
      refine .ran (Or.inr rfl) (by rw [hphase]; rfl) hclean (.committed rfl) ?_
        (setPhase_calls_self s k _ _) (fun j => setPhase_calls_of_ne s _ _)
      intro data' got' hsome
      cases hsome
      exact hverified
    · exact absurd hstep (by simp)
  | reconcile h =>
    cases hstep
    exact .reconciled rfl rfl
  | edit root =>
    cases hstep
    exact .edited rfl rfl

theorem SectionRun.ended {re : Entry} {d' : Daemon} {r : Except ApplyError Bool}
    {content : Option (Bytes × Bytes)} (hrun : SectionRun h re d d' r content) :
    Ended h re content d d' r := by
  cases hrun with
  | decided run =>
    rcases applyDecided_ended h d re with ⟨r', hr, hended⟩ | ⟨u, hu, _⟩
    · rw [run] at hr hended
      cases hr
      exact hended
    · rw [run] at hu
      exact absurd hu (by simp)
  | @committed data got run =>
    have hended := applyCommit_ended h d re data got
    rwa [run] at hended

/-- In a tree without links every step is one of the moves. -/
theorem step_moves {s s' : NodeState ι} {a : Action ι} (hv : s.Valid cfg hs)
    (hstep : step cfg hs s a = some s') : Moves cfg hs s s' a := by
  cases step_stepped hv.calls hstep with
  | quiet daemon calls => exact .quiet daemon calls
  | ran acts concerns clean run verified done others =>
    obtain ⟨heffect, htouches⟩ := run.ended.effect (direct_of_linkFree hv.linkFree _) clean
    exact .applied acts concerns clean heffect htouches verified done others
  | reconciled daemon calls => exact .reconciled daemon calls
  | edited daemon calls => exact .edited daemon calls

omit [DecidableEq ι] in
theorem Advances.sound {a : Action ι} {j : ι} {phase phase' : Phase}
    (hadv : Advances cfg hs a j phase phase') (hsound : phase.Sound cfg hs) :
    phase'.Sound cfg hs := by
  cases hadv with
  | stays => exact hsound
  | called _ => trivial
  | handedOn _ clean live => exact ⟨clean, live⟩
  | delivered verified => exact ⟨hsound.1, verified _ _ rfl⟩
  | gaveUp _ => trivial

omit [DecidableEq ι] in
theorem Advances.serves {a : Action ι} {j : ι} {phase phase' : Phase}
    (hadv : Advances cfg hs a j phase phase') {A : Entry → Prop}
    (hcall : ∀ remote, a = .call j remote → A remote) (hserves : phase.Serves A) :
    phase'.Serves A := by
  cases hadv with
  | stays => exact hserves
  | called acts => exact hcall _ acts
  | handedOn concerns _ _ => exact concerns.announced hserves
  | delivered _ => exact hserves
  | gaveUp _ => trivial

omit [DecidableEq ι] in
/-- A fact about single calls that quiet steps and finishing keep. -/
theorem Stepped.calls {s s' : NodeState ι} {a : Action ι} (hstepped : Stepped cfg hs s s' a)
    {P : ι → Phase → Prop} (hquiet : ∀ j phase phase', Advances cfg hs a j phase phase' →
      P j phase → P j phase') (hfinished : ∀ j r, P j (.finished r))
    (hP : ∀ j, P j (s.calls j)) (j : ι) : P j (s'.calls j) := by
  cases hstepped with
  | quiet _ calls => exact hquiet j _ _ (calls j) (hP j)
  | @ran _ k _ _ _ r _ _ _ _ _ done others =>
    by_cases hj : j = k
    · subst hj
      rw [done]
      exact hfinished j r
    · rw [others j hj]
      exact hP j
  | reconciled _ calls =>
    rw [calls]
    exact hP j
  | edited _ calls =>
    rw [calls]
    exact hP j

omit [DecidableEq ι] in
theorem Stepped.sound {s s' : NodeState ι} {a : Action ι} (hstepped : Stepped cfg hs s s' a)
    (hsound : ∀ k, (s.calls k).Sound cfg hs) : ∀ k, (s'.calls k).Sound cfg hs :=
  hstepped.calls (P := fun _ phase => phase.Sound cfg hs) (fun _ _ _ hadv => hadv.sound)
    (fun _ _ => trivial) hsound

omit [DecidableEq ι] in
/-- Calls keep serving the entries they were called with. -/
theorem Stepped.serves {s s' : NodeState ι} {a : Action ι} (hstepped : Stepped cfg hs s s' a)
    {A : ι → Entry → Prop} (hcall : ∀ k remote, a = .call k remote → A k remote)
    (hserves : ∀ k, (s.calls k).Serves (A k)) : ∀ k, (s'.calls k).Serves (A k) :=
  hstepped.calls (P := fun k phase => phase.Serves (A k)) (fun j _ _ hadv => hadv.serves (hcall j))
    (fun _ _ => trivial) hserves

/-- A finished call stays finished until it is called again. -/
theorem step_finished {s s' : NodeState ι} {a : Action ι}
    (hsound : ∀ k, (s.calls k).Sound cfg hs) (hstep : step cfg hs s a = some s') {k : ι}
    {r : Except ApplyError Bool} (hcall : ∀ remote, a ≠ .call k remote)
    (hfinished : s.calls k = .finished r) :
    s'.calls k = .finished r := by
  cases step_stepped hsound hstep with
  | quiet _ calls =>
    have hadv := calls k
    generalize s'.calls k = phase' at hadv
    rw [hfinished] at hadv
    cases hadv with
    | stays => rfl
    | called acts => exact absurd acts (hcall _)
    | handedOn concerns _ _ => exact concerns.elim
    | gaveUp running => exact absurd rfl (running r)
  | @ran _ j _ re _ _ _ concerns _ _ _ _ others =>
    have hk : k ≠ j := by
      rintro rfl
      rw [hfinished] at concerns
      exact concerns
    rw [others k hk, hfinished]
  | reconciled _ calls => rw [calls, hfinished]
  | edited _ calls => rw [calls, hfinished]

/-- Steps keep the state valid, as long as the user makes no links. -/
theorem step_valid {s s' : NodeState ι} {a : Action ι} (hv : s.Valid cfg hs)
    (hstep : step cfg hs s a = some s') (hedit : ∀ root, a = .edit root → root.LinkFree) :
    s'.Valid cfg hs := by
  refine ⟨?_, (step_stepped hv.calls hstep).sound hv.calls⟩
  cases step_moves hv hstep with
  | quiet hd _ =>
    rw [hd]
    exact hv.linkFree
  | applied _ _ _ _ touches _ _ _ => exact touches.linkFree hv.linkFree
  | reconciled hd _ =>
    rw [hd, reconcile_root]
    exact hv.linkFree
  | edited hd _ =>
    rw [hd]
    exact hedit _ rfl

def outcome : Except ApplyError Bool → Outcome ApplyError Bool
  | .ok changed => .ok changed
  | .error e => .err e

/-- An applyRemote during which nothing else runs does nothing, or ends with a section on the
announced entry under its cleaned path. -/
theorem applyRemote_section (cfg : Config) (hs : Hashes) (env : ApplyEnv) (d : Daemon)
    (remote : Entry) :
    ((applyRemote cfg hs env d remote).1 = d ∧
      ∀ changed, (applyRemote cfg hs env d remote).2 ≠ .ok changed) ∨
    ∃ h rel content r, (h = env.decideHost ∨ h = env.commitHost) ∧
      cleanRel remote.path = .ok rel ∧ CleanPath rel ∧
      ¬ (remote.deleted = false ∧ remote.hash = []) ∧
      SectionRun h { remote with path := rel } d (applyRemote cfg hs env d remote).1 r content ∧
      Verified cfg hs { remote with path := rel } content ∧
      (applyRemote cfg hs env d remote).2 = outcome r := by
  unfold applyRemote
  rcases applyDecide_cases cfg env.decideHost d remote with
    ⟨e, heq⟩ | ⟨rel, hrel, hclean, hhash, heq⟩
  · rw [heq]
    exact Or.inl ⟨rfl, by simp⟩
  · rw [heq]
    have htransfer := applyDecided_transfer (h := env.decideHost) (d := d)
      { remote with path := rel }
    cases hrun : applyDecided env.decideHost d { remote with path := rel } with
    | mk d₁ started =>
      cases started with
      | finished r =>
        refine Or.inr ⟨env.decideHost, rel, none, r, Or.inl rfl, hrel, hclean, hhash, ?_⟩
        have hver : Verified cfg hs { remote with path := rel } none := by
          intro data got hnone
          exact absurd hnone (by simp)
        cases r with
        | ok changed => exact ⟨.decided hrun, hver, rfl⟩
        | error e => exact ⟨.decided hrun, hver, rfl⟩
      | transfer re u =>
        obtain ⟨rfl, rfl, hlive⟩ := htransfer _ _ _ hrun
        dsimp only
        cases hpull : transfer cfg hs env.transferHost d₁.root { remote with path := rel } u
            env.replies with
        | panic => exact Or.inl ⟨rfl, by simp⟩
        | err e => exact Or.inl ⟨rfl, by simp⟩
        | ok result =>
          obtain ⟨data, got⟩ := result
          have hver : Verified cfg hs { remote with path := rel } (some (data, got)) := by
            intro data' got' heq
            cases heq
            exact ⟨hlive, transfer_ok hpull⟩
          dsimp only
          cases hcommit : applyCommit env.commitHost d₁ { remote with path := rel } data got with
          | mk d₂ r =>
            refine Or.inr ⟨env.commitHost, rel, some (data, got), r, Or.inr rfl, hrel, hclean,
              hhash, ?_⟩
            cases r with
            | ok changed => exact ⟨.committed hcommit, hver, rfl⟩
            | error e => exact ⟨.committed hcommit, hver, rfl⟩

/-- What applyRemote does when nothing else runs meanwhile: nothing, or one of the
effects on the announced entry under its cleaned path. -/
theorem applyRemote_effect (cfg : Config) (hs : Hashes) (ht : d.root.LinkFree) (env : ApplyEnv)
    (remote : Entry) :
    ((applyRemote cfg hs env d remote).1 = d ∧
      ∀ changed, (applyRemote cfg hs env d remote).2 ≠ .ok changed) ∨
    ∃ h rel content r, (h = env.decideHost ∨ h = env.commitHost) ∧
      cleanRel remote.path = .ok rel ∧ CleanPath rel ∧
      Effect h { remote with path := rel } content d (applyRemote cfg hs env d remote).1 r ∧
      Touches (h.fails .cleanup) rel d.root (applyRemote cfg hs env d remote).1.root ∧
      Verified cfg hs { remote with path := rel } content ∧
      (applyRemote cfg hs env d remote).2 = outcome r := by
  rcases applyRemote_section cfg hs env d remote with
    hnothing | ⟨h, rel, content, r, hhost, hrel, hclean, _, hrun, hver, hr⟩
  · exact Or.inl hnothing
  · obtain ⟨heffect, htouches⟩ := hrun.ended.effect (direct_of_linkFree ht _) hclean
    exact Or.inr ⟨h, rel, content, r, hhost, hrel, hclean, heffect, htouches, hver, hr⟩

end Inversion

end TailSync.ApplyRuns

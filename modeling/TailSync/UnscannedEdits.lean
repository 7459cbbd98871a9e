import TailSync.ApplyRuns

/-!
The user works in the tree while remote entries are applied. Index and disk are
tied together by one fact only: a file whose size and modification time are those
of its live entry has the hash of that entry. Scans, commits, metadata adopts and
failed adopts keep it, and so does a user whose writes give the path another size
or time. Behind the guard of the apply path it says that the bytes about to be
lost are known to the index. The disk has to be one of files and directories: a
path through a symbolic link is a second name for the file of another path, and
under it the index can vouch for bytes that it does not know.
-/
namespace TailSync.UnscannedEdits

open ByteStrings Entries IndexMap SyncRoot RootEffects Scanning Transfers RemoteApply
open ApplyEffects ApplyRuns Runs
open FileTrees (Tree)
open Framing (emptyHeader zeroInt)
open RelativePaths (CleanPath)

/-- Outside the reserved names, a file with the size and time of its live entry has
the hash of the entry. -/
def Coherent (hs : Hashes) (d : Daemon) : Prop :=
  ∀ p e f, reservedPath p = false → d.idx.get p = some e → e.deleted = false →
    fileAt d.root p = some f → e.size = f.bytes.length → e.modTime = f.modTime →
    e.hash = contentHash hs.sha256 f.bytes

/-- Each path that the user writes gets a size or a time that the index does not record
for it. -/
def WritesDiffer (d : Daemon) (root : Root) : Prop :=
  ∀ p f', fileAt root p = some f' →
    (∃ f, fileAt d.root p = some f ∧ f.bytes = f'.bytes ∧ f.modTime = f'.modTime) ∨
    (∀ e, d.idx.get p = some e → e.deleted = false →
      e.size ≠ f'.bytes.length ∨ e.modTime ≠ f'.modTime)

structure UserEdit (d : Daemon) (root : Root) : Prop where
  linkFree : root.LinkFree
  files : WritesDiffer d root

def Admitted {ι : Type*} (s : NodeState ι) (a : Action ι) : Prop :=
  ∀ root, a = .edit root → UserEdit s.daemon root

section Steps
variable {cfg : Config} {hs : Hashes} {h : Host} {re : Entry} {content : Option (Bytes × Bytes)}
variable {d d' : Daemon} {r : Except ApplyError Bool} {junk : Bool}

/-- The bytes behind the guard are those the index knows. -/
theorem guarded_hash (hd : Coherent hs d) {p : Bytes}
    (hp : reservedPath p = false) (hg : Guarded h d p) {f : File}
    (hf : fileAt d.root p = some f) :
    ∃ e, d.idx.get p = some e ∧ e.deleted = false ∧ e.hash = contentHash hs.sha256 f.bytes := by
  obtain ⟨cur, hcur, hlive, hsize, htime⟩ := guarded_file hg hf
  exact ⟨cur, hcur, hlive, hd p cur f hp hcur hlive hf hsize htime⟩

theorem effect_coherent (heff : Effect h re content d d' r)
    (htouch : Touches junk re.path d.root d'.root) (hver : Verified cfg hs re content)
    (hd : Coherent hs d) : Coherent hs d' := by
  intro p e f' hp he hlive hf' hsize htime
  by_cases hpath : p = re.path
  · subst hpath
    cases heff with
    | lost same _ _ =>
      subst same
      exact hd _ _ _ hp he hlive hf' hsize htime
    | skipped same _ =>
      subst same
      exact hd _ _ _ hp he hlive hf' hsize htime
    | failed idx node =>
      rw [idx] at he
      rw [fileAt_eq_asFile, node, ← fileAt_eq_asFile] at hf'
      exact hd _ _ _ hp he hlive hf' hsize htime
    | retouched guarded _ idx file noFile =>
      rw [idx] at he
      cases hf : fileAt d.root re.path with
      | none =>
        rw [fileAt_eq_asFile, noFile hf, ← fileAt_eq_asFile, hf] at hf'
        exact absurd hf' (by simp)
      | some f =>
        -- the new time may be anything; the guard has tied the bytes to the entry
        obtain ⟨cur, hcur, _, hhash⟩ := guarded_hash hd hp guarded hf
        obtain ⟨f'', hf'', hbytes⟩ := file f hf
        rw [hf'] at hf''
        cases hf''
        rw [he] at hcur
        cases hcur
        rw [hhash, hbytes]
    | tombstoned deleted _ _ _ idx =>
      rw [Index.get_of_set idx rfl] at he
      cases he
      rw [deleted] at hlive
      exact absurd hlive (by simp)
    | removed deleted _ _ _ idx =>
      rw [Index.get_of_set idx rfl] at he
      cases he
      rw [deleted] at hlive
      exact absurd hlive (by simp)
    | adopted cur _ _ _ _ _ guarded file noFile idx =>
      have hloc := Index.get_path cur
      rw [Index.get_of_set idx hloc] at he
      cases he
      cases hf : fileAt d.root re.path with
      | none =>
        rw [fileAt_eq_asFile, noFile hf, ← fileAt_eq_asFile, hf] at hf'
        exact absurd hf' (by simp)
      | some f =>
        obtain ⟨cur', hcur', _, hhash⟩ := guarded_hash hd hp guarded hf
        rw [cur] at hcur'
        cases hcur'
        rw [file f hf] at hf'
        cases hf'
        exact hhash
    | written bytes _ _ file idx =>
      obtain ⟨_, hgot, _, _⟩ := hver _ _ bytes
      rw [Index.get_of_set idx (committedEntry_path ..)] at he
      cases he
      rw [file] at hf'
      cases hf'
      exact hgot
  · rw [heff.get_ne hpath] at he
    rw [htouch.fileAt_eq hpath fun _ => not_reserved_of_path hp] at hf'
    exact hd _ _ _ hp he hlive hf' hsize htime

theorem reconcile_coherent (hd : Coherent hs d) :
    Coherent hs (reconcile cfg hs.sha256 h d).1 := by
  intro p e f hp he hlive hf hsize htime
  rw [reconcile_root] at hf
  cases hscan : scan hs.sha256 h.now h d.root d.idx with
  | error e' =>
    rw [reconcile_failed hscan] at he
    exact hd _ _ _ hp he hlive hf hsize htime
  | ok res =>
    rcases reconcile_live_cases hscan he hlive with hold | ⟨g, hg, _, _, _, hhash⟩
    · exact hd _ _ _ hp hold hlive hf hsize htime
    · have hfg : g = f := Option.some.inj (hg.1.symm.trans hf)
      subst hfg
      rw [hhash]
      rcases diskHash_cases hs.sha256 d.idx p g with hnew | ⟨prev, hprev, hplive, hps, hpt, hkept⟩
      · exact hnew
      · rw [hkept]
        exact hd _ _ _ hp hprev hplive hf hps hpt

theorem edit_coherent (hd : Coherent hs d) {root : Root} (hedit : UserEdit d root) :
    Coherent hs { d with root := root } := by
  intro p e f' hp he hlive hf' hsize htime
  rcases hedit.files p f' hf' with ⟨f, hf, hbytes, hmod⟩ | hdiff
  · rw [← hbytes] at hsize ⊢
    rw [← hmod] at htime
    exact hd _ _ _ hp he hlive hf hsize htime
  · rcases hdiff e he hlive with hne | hne
    · exact absurd hsize hne
    · exact absurd htime hne

end Steps

section Runs
variable {ι : Type*} [DecidableEq ι] {cfg : Config} {hs : Hashes}

structure Tracked (cfg : Config) (hs : Hashes) (s : NodeState ι) : Prop where
  valid : s.Valid cfg hs
  coherent : Coherent hs s.daemon

theorem Tracked.next {s s' : NodeState ι} {a : Action ι} (hs₀ : Tracked cfg hs s)
    (hstep : step cfg hs s a = some s') (ha : Admitted s a) : Tracked cfg hs s' := by
  refine ⟨step_valid hs₀.valid hstep fun root hroot => (ha root hroot).linkFree, ?_⟩
  cases step_moves hs₀.valid hstep with
  | quiet daemon _ =>
    rw [daemon]
    exact hs₀.coherent
  | applied _ _ _ effect touches verified _ _ =>
    exact effect_coherent effect touches verified hs₀.coherent
  | reconciled daemon _ =>
    rw [daemon]
    exact reconcile_coherent hs₀.coherent
  | edited daemon _ =>
    rw [daemon]
    exact edit_coherent hs₀.coherent (ha _ rfl)

/-- No unscanned bytes are lost where there are no symbolic links. In every interleaving of
user edits, reconciles and the atomic sections of concurrent applies: when a step of the daemon
changes or removes the file at a path, the index holds a live entry for the path with the
hash of the bytes, and the remote entry being applied beats it. -/
theorem unscanned_bytes_kept {s₀ s s' : NodeState ι} {as : List (Action ι)} {a : Action ι}
    (hlinks : s₀.daemon.root.LinkFree) (hidle : ∀ k, s₀.calls k = .idle)
    (hcoherent : Coherent hs s₀.daemon) (hrun : Run (Steps cfg hs Admitted) s₀ as s)
    (hstep : step cfg hs s a = some s') (hdaemon : ∀ root, a ≠ .edit root) {p : Bytes} {f : File}
    (hf : fileAt s.daemon.root p = some f) (hchanged : fileAt s'.daemon.root p ≠ some f) :
    ∃ k h re e, (a = .decide k h ∨ a = .commit k h) ∧ (s.calls k).Concerns re ∧ re.path = p ∧
      s.daemon.idx.get p = some e ∧ e.deleted = false ∧
      e.hash = contentHash hs.sha256 f.bytes ∧ wins e re := by
  have hstart : Tracked cfg hs s₀ := by
    refine ⟨⟨hlinks, fun k => ?_⟩, hcoherent⟩
    rw [hidle k]
    trivial
  obtain ⟨hv, hd⟩ : Tracked cfg hs s :=
    hrun.invariant (fun _ _ _ ht hst => ht.next hst.1 hst.2) hstart
  cases step_moves hv hstep with
  | quiet daemon _ => exact absurd (by rw [daemon, hf]) hchanged
  | @applied a k h re content r acts concerns clean effect touches verified _ _ =>
    by_cases hp : p = re.path
    · subst hp
      obtain ⟨hguard, hbeats⟩ := effect.changed hf hchanged
      obtain ⟨e, he, hlive, hhash⟩ :=
        guarded_hash hd (reservedPath_of_clean clean) hguard hf
      exact ⟨k, h, re, e, acts, concerns, rfl, he, hlive, hhash, hbeats e he⟩
    · exact absurd (touches.fileAt_of_some hp hf) hchanged
  | reconciled daemon _ => exact absurd (by rw [daemon, reconcile_root, hf]) hchanged
  | edited _ _ => exact absurd rfl (hdaemon _)

end Runs

def editedRoot : Root := (writeFileRoot .plain .empty (ascii "a") (ascii "x") 0o644).1

def removal : Entry := ⟨ascii "a", 0, 0, 0o644, [], true, 7, 7⟩

def removingNode : NodeState Unit :=
  (exec Config.plain Hashes.plain .fresh
    [.edit editedRoot, .reconcile .plain, .call () removal]).getD .fresh

theorem unscanned_bytes_kept_small :
    fileAt removingNode.daemon.root (ascii "a") = some ⟨ascii "x", 1, 0o644⟩ ∧
    ∃ s', step Config.plain Hashes.plain removingNode (.decide () .plain) = some s' ∧
      fileAt s'.daemon.root (ascii "a") = none ∧
      ∃ e, removingNode.daemon.idx.get (ascii "a") = some e ∧
        e.hash = contentHash Hashes.plain.sha256 (ascii "x") := by
  have hclean : CleanPath (ascii "a") :=
    (RelativePaths.cleanRel_ok (show RelativePaths.cleanRel (ascii "a") = .ok (ascii "a") by
      decide +kernel)).2.2.2
  have hlinks : editedRoot.LinkFree :=
    (writeFileRoot_touches (direct_of_linkFree Tree.empty_linkFree _) hclean (ascii "x")
      0o644).linkFree Tree.empty_linkFree
  have hedit : UserEdit (NodeState.fresh (ι := Unit)).daemon editedRoot :=
    ⟨hlinks, fun p f' _ => Or.inr fun e he _ => absurd he (by simp [NodeState.fresh])⟩
  have hrun : Run (Steps Config.plain Hashes.plain Admitted) .fresh
      [.edit editedRoot, .reconcile .plain, .call () removal] removingNode := by
    refine .cons ⟨rfl, ?_⟩ (run_of_exec rfl ?_)
    · rintro root ⟨⟩
      exact hedit
    · rintro a ha s root rfl
      simp at ha
  have hfile : fileAt removingNode.daemon.root (ascii "a") = some ⟨ascii "x", 1, 0o644⟩ := by
    decide +kernel
  have hstep : ∃ s', step Config.plain Hashes.plain removingNode (.decide () .plain) = some s' ∧
      fileAt s'.daemon.root (ascii "a") = none := ⟨_, rfl, by decide +kernel⟩
  obtain ⟨s', hstep, hgone⟩ := hstep
  obtain ⟨_, _, _, e, _, _, _, he, _, hhash, _⟩ :=
    unscanned_bytes_kept Tree.empty_linkFree (fun _ => rfl)
      (fun p e f _ he _ _ _ _ => absurd he (by simp [NodeState.fresh])) hrun hstep
      (by simp) hfile (by simp [hgone])
  exact ⟨hfile, s', hstep, hgone, e, he, hhash⟩

def aliasNode : NodeState Unit :=
  let linked : Option Root := do
    let target ← fileName (ascii "e")
    let names ← pathNames (ascii "d")
    (Tree.empty.mkdirAll maxSymlinks [target]).1.put names (.link (some [.down target]))
  { NodeState.fresh with daemon := ⟨.empty, linked.getD .empty, 0, .empty⟩ }

def aliasVersion (data : String) (updatedAt : Time) : Entry :=
  ⟨ascii "d/x", 1, 5, 0o600, contentHash Hashes.plain.sha256 (ascii data), false, 0, updatedAt⟩

def aliasFetch (data : String) (updatedAt : Time) : List (Action Unit) :=
  [.call () (aliasVersion data updatedAt), .decide () .plain,
    .transfer () .plain { Replies.serving (ascii data) with
      delta := fun _ => .message ⟨{ emptyHeader zeroInt with type := .error }, []⟩ }]

def aliasWritten : NodeState Unit :=
  (exec Config.plain Hashes.plain aliasNode (aliasFetch "x" 7 ++ [.commit () .plain])).getD .fresh

def aliasRoot : Root :=
  ((pathNames (ascii "e/x")).bind fun names =>
    aliasWritten.daemon.root.put names (.file ⟨ascii "y", 5, 0o600⟩)).getD .empty

def aliasEdited : NodeState Unit :=
  { aliasWritten with daemon := { aliasWritten.daemon with root := aliasRoot } }

def aliasFetched : NodeState Unit :=
  (exec Config.plain Hashes.plain aliasEdited (aliasFetch "z" 8)).getD .fresh

theorem alias_writes_differ : WritesDiffer aliasWritten.daemon aliasRoot := by
  intro p f' hf'
  right
  intro e he _
  have hpaths : aliasWritten.daemon.idx.files.map Entry.path = [ascii "d/x"] := by decide +kernel
  have hmem : e.path ∈ aliasWritten.daemon.idx.files.map Entry.path :=
    List.mem_map_of_mem (Index.get_mem he)
  rw [hpaths, List.mem_singleton, Index.get_path he] at hmem
  rw [hmem] at hf'
  have hnone : fileAt aliasRoot (ascii "d/x") = none := by decide +kernel
  rw [hnone] at hf'
  exact absurd hf' (by simp)

/-- Under a second name the bytes that the user wrote are lost: the index has no entry for
their own path, and the one for the path through the link does not have their hash. -/
theorem link_loses_user_bytes :
    Run (Steps Config.plain Hashes.plain fun s a =>
      ∀ root, a = .edit root → WritesDiffer s.daemon root) aliasNode
      ((aliasFetch "x" 7 ++ [.commit () .plain]) ++ .edit aliasRoot :: aliasFetch "z" 8)
      aliasFetched ∧
    aliasNode.daemon.idx.files = [] ∧
    fileAt aliasFetched.daemon.root (ascii "e/x") = some ⟨ascii "y", 5, 0o600⟩ ∧
    aliasFetched.daemon.idx.get (ascii "e/x") = none ∧
    (∃ e, aliasFetched.daemon.idx.get (ascii "d/x") = some e ∧
      e.hash ≠ contentHash Hashes.plain.sha256 (ascii "y")) ∧
    ∃ s', step Config.plain Hashes.plain aliasFetched (.commit () .plain) = some s' ∧
      fileAt s'.daemon.root (ascii "e/x") = some ⟨ascii "z", 5, 0o600⟩ := by
  have hnoEdit : ∀ a ∈ aliasFetch "x" 7 ++ [.commit () .plain] ++ aliasFetch "z" 8,
      ∀ (s : NodeState Unit) root, a = .edit root → WritesDiffer s.daemon root := by
    rintro a ha s root rfl
    simp [aliasFetch] at ha
  have hcommit : (step Config.plain Hashes.plain aliasFetched (.commit () .plain)).map
      (fun s' => fileAt s'.daemon.root (ascii "e/x")) = some (some ⟨ascii "z", 5, 0o600⟩) := by
    decide +kernel
  refine ⟨?_, rfl, by decide +kernel, by decide +kernel, ?_, Option.map_eq_some_iff.mp hcommit⟩
  swap
  · have hhash : (aliasFetched.daemon.idx.get (ascii "d/x")).map Entry.hash =
        some (contentHash Hashes.plain.sha256 (ascii "x")) := by
      decide +kernel
    obtain ⟨e, he, hx⟩ := Option.map_eq_some_iff.mp hhash
    exact ⟨e, he, by rw [hx]; decide +kernel⟩
  refine .append
    (run_of_exec_isSome (by decide +kernel) fun a ha => hnoEdit a (List.mem_append_left _ ha))
    (.cons ⟨rfl, ?_⟩ (run_of_exec_isSome (by decide +kernel) fun a ha =>
      hnoEdit a (List.mem_append_right _ ha)))
  rintro root ⟨⟩
  exact alias_writes_differ

end TailSync.UnscannedEdits

import TailSync.ApplyRuns

/-!
What a peer that sends anything at all can do to a node. The announced entries
and every reply are arbitrary; replies on which the delta decoder would panic do
not lead to a step. Bytes reach the disk only after they hash to the announced
hash, metadata adopts leave bytes alone, and every operation stays at the cleaned
path of an announced entry or makes a directory on the way to it. This is so in a
tree without symbolic links. A link is followed, and a link to the state directory
lets a peer write there, as the last theorem shows.
-/
namespace TailSync.ByzantinePeers

open ByteStrings Entries IndexMap SyncRoot RootEffects Scanning Transfers RemoteApply
open ApplyEffects ApplyRuns Runs
open FileTrees (Tree)
open RelativePaths (CleanPath cleanRel exists_cleanRel_eq)

/-- Every live entry has a file with its hash and size. -/
def Describes (hs : Hashes) (d : Daemon) : Prop :=
  ∀ p e, d.idx.get p = some e → e.deleted = false →
    ∃ f, fileAt d.root p = some f ∧ e.hash = contentHash hs.sha256 f.bytes ∧
      e.size = f.bytes.length

/-- The user does nothing, the peer announces entries of A, and temp files can be
cleaned up. -/
structure PeerAction {ι : Type*} (A : Entry → Prop) (a : Action ι) : Prop where
  noEdit : ∀ root, a ≠ .edit root
  announced : ∀ k remote, a = .call k remote → A remote
  cleansUp : ∀ k h, a = .decide k h ∨ a = .commit k h → h.fails .cleanup = false

section Steps
variable {cfg : Config} {hs : Hashes} {h : Host} {re : Entry} {content : Option (Bytes × Bytes)}
variable {d d' : Daemon} {r : Except ApplyError Bool} {junk : Bool}

theorem effect_describes (heff : Effect h re content d d' r)
    (htouch : Touches junk re.path d.root d'.root) (hver : Verified cfg hs re content)
    (hd : Describes hs d) : Describes hs d' := by
  intro p e he hlive
  by_cases hp : p = re.path
  · subst hp
    cases heff with
    | lost same _ _ =>
      subst same
      exact hd _ _ he hlive
    | skipped same _ =>
      subst same
      exact hd _ _ he hlive
    | failed idx node =>
      rw [idx] at he
      obtain ⟨f, hf, hrest⟩ := hd _ _ he hlive
      refine ⟨f, ?_, hrest⟩
      rw [fileAt_eq_asFile, node, ← fileAt_eq_asFile, hf]
    | retouched _ _ idx file _ =>
      rw [idx] at he
      obtain ⟨f, hf, hhash, hsize⟩ := hd _ _ he hlive
      obtain ⟨f', hf', hbytes⟩ := file f hf
      exact ⟨f', hf', by rw [hbytes]; exact hhash, by rw [hbytes]; exact hsize⟩
    | tombstoned deleted _ _ _ idx =>
      rw [idx, Index.get_set_self] at he
      cases he
      rw [deleted] at hlive
      exact absurd hlive (by simp)
    | removed deleted _ _ _ idx =>
      rw [idx, Index.get_set_self] at he
      cases he
      rw [deleted] at hlive
      exact absurd hlive (by simp)
    | adopted cur live _ _ _ _ _ file _ idx =>
      obtain ⟨f, hf, hhash, hsize⟩ := hd _ _ cur live
      have hpath := Index.get_path cur
      rw [Index.get_of_set idx hpath] at he
      cases he
      exact ⟨_, file f hf, hhash, hsize⟩
    | written bytes _ _ file idx =>
      obtain ⟨_, hgot, _, _⟩ := hver _ _ bytes
      rw [Index.get_of_set idx (committedEntry_path ..)] at he
      cases he
      exact ⟨_, file, hgot, rfl⟩
  · rw [heff.get_ne hp] at he
    obtain ⟨f, hf, hrest⟩ := hd _ _ he hlive
    exact ⟨f, htouch.fileAt_of_some hp hf, hrest⟩

/-- A reconcile keeps hashes of files that have not changed, and these are right. -/
theorem reconcile_describes (hd : Describes hs d) :
    Describes hs (reconcile cfg hs.sha256 h d).1 := by
  intro p e he hlive
  rw [reconcile_root]
  cases hscan : scan hs.sha256 h.now h d.root d.idx with
  | error e' =>
    rw [reconcile_failed hscan] at he
    exact hd _ _ he hlive
  | ok res =>
    rcases reconcile_live_cases hscan he hlive with hold | ⟨f, hf, hsize, _, _, hhash⟩
    · exact hd _ _ hold hlive
    · refine ⟨f, hf.1, ?_, hsize⟩
      rw [hhash]
      rcases diskHash_cases hs.sha256 d.idx p f with hnew | ⟨prev, hprev, hplive, _, _, hkept⟩
      · exact hnew
      · obtain ⟨f', hf', hhash', _⟩ := hd _ _ hprev hplive
        rw [hf.1] at hf'
        cases hf'
        rw [hkept, hhash']

/-- The bytes at a path after a critical section are those from before, or the
verified bytes of the entry. -/
theorem effect_bytes (heff : Effect h re content d d' r)
    (htouch : Touches false re.path d.root d'.root) (hver : Verified cfg hs re content)
    {p : Bytes} {f' : File} (hf' : fileAt d'.root p = some f') :
    (∃ f, fileAt d.root p = some f ∧ f.bytes = f'.bytes) ∨
      (p = re.path ∧ re.deleted = false ∧ contentHash hs.sha256 f'.bytes = re.hash ∧
        (f'.bytes.length : ℤ) ≤ cfg.maxFileBytes) := by
  by_cases hp : p = re.path
  · subst hp
    have hkeep : nodeAt d'.root re.path = nodeAt d.root re.path →
        ∃ f, fileAt d.root re.path = some f ∧ f.bytes = f'.bytes := by
      intro hnode
      rw [fileAt_eq_asFile, hnode, ← fileAt_eq_asFile] at hf'
      exact ⟨f', hf', rfl⟩
    cases heff with
    | lost same _ _ => exact Or.inl ⟨f', by rw [← same]; exact hf', rfl⟩
    | skipped same _ => exact Or.inl ⟨f', by rw [← same]; exact hf', rfl⟩
    | failed _ node => exact Or.inl (hkeep node)
    | retouched _ _ _ file noFile =>
      cases hf : fileAt d.root re.path with
      | none => exact Or.inl (hf ▸ hkeep (noFile hf))
      | some f =>
        obtain ⟨f'', hf'', hbytes⟩ := file f hf
        rw [hf'] at hf''
        cases hf''
        exact Or.inl ⟨f, rfl, hbytes.symm⟩
    | tombstoned _ root _ _ _ => exact Or.inl ⟨f', by rw [← root]; exact hf', rfl⟩
    | removed _ _ _ gone _ =>
      rw [fileAt_eq_asFile, gone] at hf'
      exact absurd hf' (by simp [FileTrees.Node.asFile])
    | adopted _ _ _ _ _ _ _ file noFile _ =>
      cases hf : fileAt d.root re.path with
      | none => exact Or.inl (hf ▸ hkeep (noFile hf))
      | some f =>
        rw [file f hf] at hf'
        cases hf'
        exact Or.inl ⟨f, rfl, rfl⟩
    | written bytes _ _ file _ =>
      obtain ⟨hlive, hgot, hhash, hsize⟩ := hver _ _ bytes
      rw [file] at hf'
      cases hf'
      exact Or.inr ⟨rfl, hlive, hgot.symm.trans hhash, hsize⟩
  · rw [htouch.fileAt_eq hp (by simp)] at hf'
    exact Or.inl ⟨f', hf', rfl⟩

end Steps

section Runs
variable {ι : Type*} [DecidableEq ι] {cfg : Config} {hs : Hashes} {A : Entry → Prop}

structure Contained (cfg : Config) (hs : Hashes) (A : Entry → Prop) (s : NodeState ι) : Prop where
  valid : s.Valid cfg hs
  serves : ∀ k, (s.calls k).Serves A
  describes : Describes hs s.daemon

theorem Contained.next {s s' : NodeState ι} {a : Action ι} (hc : Contained cfg hs A s)
    (hstep : step cfg hs s a = some s') (ha : PeerAction A a) : Contained cfg hs A s' := by
  refine ⟨?_, ?_, ?_⟩
  · exact step_valid hc.valid hstep fun root hroot => absurd hroot (ha.noEdit root)
  · exact (step_stepped hc.valid.calls hstep).serves ha.announced hc.serves
  · cases step_moves hc.valid hstep with
    | quiet daemon _ =>
      rw [daemon]
      exact hc.describes
    | applied _ _ _ effect touches verified _ _ =>
      exact effect_describes effect touches verified hc.describes
    | reconciled daemon _ =>
      rw [daemon]
      exact reconcile_describes hc.describes
    | edited _ _ => exact absurd rfl (ha.noEdit _)

/-- A step that does anything to the tree is a critical section on an announced
entry. -/
theorem Contained.effect {s s' : NodeState ι} {a : Action ι} (hc : Contained cfg hs A s)
    (hstep : step cfg hs s a = some s') (ha : PeerAction A a) :
    s'.daemon.root = s.daemon.root ∨
    ∃ h re content r, Announced A re ∧ CleanPath re.path ∧
      Effect h re content s.daemon s'.daemon r ∧
      Touches false re.path s.daemon.root s'.daemon.root ∧ Verified cfg hs re content := by
  cases step_moves hc.valid hstep with
  | quiet daemon _ => exact Or.inl (by rw [daemon])
  | @applied a k h re content r acts concerns clean effect touches verified _ _ =>
    rw [ha.cleansUp k h acts] at touches
    exact Or.inr ⟨h, re, content, r, concerns.announced (hc.serves k), clean, effect, touches,
      verified⟩
  | reconciled daemon _ => exact Or.inl (by rw [daemon, reconcile_root])
  | edited _ _ => exact absurd rfl (ha.noEdit _)

/-- A touched path is the path of the entry or a directory on the way to it. -/
theorem touched_path {t t' : Root} {p q : Bytes} (htouch : Touches false p t t')
    (hclean : CleanPath p) (hq : nodeAt t' q ≠ nodeAt t q) :
    CleanPath q ∧ (q = p ∨ DirPrefix q p) := by
  by_cases hqp : q = p
  · subst hqp
    exact ⟨hclean, Or.inl rfl⟩
  · rcases htouch.other hqp with heq | ⟨_, ⟨hdir, _⟩ | ⟨hjunk, _⟩⟩
    · exact absurd heq hq
    · exact ⟨cleanPath_of_dirPrefix hclean hdir, Or.inr hdir⟩
    · exact absurd hjunk (by simp)

/-- A peer can neither plant wrong bytes nor touch foreign paths. From a node whose
live entries describe its disk, and whatever the peer announces and replies, each
step leaves the live entries describing the disk; new bytes hash to the announced
hash and are not too long; and every node that changed is at a path CleanRel
returns, the path of an announced entry or a directory on the way to it. -/
theorem byzantine_peer_contained {s₀ s s' : NodeState ι} {as : List (Action ι)} {a : Action ι}
    (hlinks : s₀.daemon.root.LinkFree) (hidle : ∀ k, s₀.calls k = .idle)
    (hdescribes : Describes hs s₀.daemon)
    (hrun : Run (Steps cfg hs fun _ => PeerAction A) s₀ as s)
    (hstep : step cfg hs s a = some s') (ha : PeerAction A a) :
    Describes hs s'.daemon ∧
    (∀ p f', fileAt s'.daemon.root p = some f' →
      (∃ f, fileAt s.daemon.root p = some f ∧ f.bytes = f'.bytes) ∨
      ∃ remote, A remote ∧ cleanRel remote.path = .ok p ∧ remote.deleted = false ∧
        contentHash hs.sha256 f'.bytes = remote.hash ∧
        (f'.bytes.length : ℤ) ≤ cfg.maxFileBytes) ∧
    (∀ q, nodeAt s'.daemon.root q ≠ nodeAt s.daemon.root q →
      CleanPath q ∧ (∃ name, cleanRel name = .ok q) ∧
      ∃ remote p, A remote ∧ cleanRel remote.path = .ok p ∧ (q = p ∨ DirPrefix q p)) := by
  have hstart : Contained cfg hs A s₀ := by
    refine ⟨⟨hlinks, fun k => ?_⟩, fun k => ?_, hdescribes⟩
    · rw [hidle k]
      trivial
    · rw [hidle k]
      trivial
  have hc : Contained cfg hs A s := hrun.invariant (fun _ _ _ hc hst => hc.next hst.1 hst.2) hstart
  refine ⟨(hc.next hstep ha).describes, ?_, ?_⟩
  · intro p f' hf'
    rcases hc.effect hstep ha with hroot | ⟨h, re, content, r, hann, _, heff, htouch, hver⟩
    · exact Or.inl ⟨f', by rw [← hroot]; exact hf', rfl⟩
    · refine (effect_bytes heff htouch hver hf').imp_right ?_
      rintro ⟨rfl, hlive, hhash, hsize⟩
      obtain ⟨remote, rel, hA, hrel, rfl⟩ := hann
      exact ⟨remote, hA, hrel, hlive, hhash, hsize⟩
  · intro q hq
    rcases hc.effect hstep ha with hroot | ⟨h, re, content, r, hann, hclean, _, htouch, _⟩
    · exact absurd (by rw [hroot]) hq
    · obtain ⟨hqclean, hwhere⟩ := touched_path htouch hclean hq
      obtain ⟨remote, rel, hA, hrel, rfl⟩ := hann
      exact ⟨hqclean, exists_cleanRel_eq hqclean, remote, rel, hA, hrel, hwhere⟩

end Runs

def plantedEntry : Entry where
  path := ascii "./a"
  size := 1
  modTime := 5
  mode := 0o600
  hash := contentHash Hashes.plain.sha256 (ascii "x")
  deleted := false
  deletedAt := 0
  updatedAt := 7

def plantingRun : List (Action Unit) :=
  [.call () plantedEntry, .decide () .plain, .transfer () .plain (.serving (ascii "x"))]

def plantingNode : NodeState Unit :=
  (exec Config.plain Hashes.plain .fresh plantingRun).getD .fresh

theorem byzantine_peer_contained_small :
    ∃ s', step Config.plain Hashes.plain plantingNode (.commit () .plain) = some s' ∧
      fileAt s'.daemon.root (ascii "a") = some ⟨ascii "x", 5, 0o600⟩ ∧
      Describes Hashes.plain s'.daemon := by
  have hstep : ∃ s', step Config.plain Hashes.plain plantingNode (.commit () .plain) = some s' ∧
      fileAt s'.daemon.root (ascii "a") = some ⟨ascii "x", 5, 0o600⟩ :=
    ⟨_, rfl, by decide +kernel⟩
  obtain ⟨s', hstep, hfile⟩ := hstep
  have hplain : ∀ h : Host, h = .plain → h.fails .cleanup = false := by
    rintro h rfl
    rfl
  have hactions : ∀ a ∈ plantingRun ++ [.commit () .plain], PeerAction (· = plantedEntry) a := by
    intro a ha
    refine ⟨?_, ?_, ?_⟩
    · rintro root rfl
      simp [plantingRun] at ha
    · rintro k remote rfl
      simpa [plantingRun] using ha
    · rintro k h (rfl | rfl)
      · exact hplain h (by simpa [plantingRun] using ha)
      · exact hplain h (by simpa [plantingRun] using ha)
  have hrun : Run (Steps Config.plain Hashes.plain fun _ => PeerAction (· = plantedEntry)) .fresh
      plantingRun plantingNode :=
    run_of_exec rfl fun a ha _ => hactions a (by simp [ha])
  refine ⟨s', hstep, hfile, ?_⟩
  exact (byzantine_peer_contained Tree.empty_linkFree (fun _ => rfl)
    (by simp [Describes, NodeState.fresh]) hrun hstep (hactions _ (by simp))).1

def linkedNode : NodeState Unit :=
  let filed := (writeFileRoot .plain .empty (ascii ".tailsync/lock") [] 0o644).1
  let linked := do
    let names ← pathNames (ascii "d")
    let target ← fileName (ascii ".tailsync")
    filed.put names (.link (some [.down target]))
  { NodeState.fresh with daemon := ⟨.empty, linked.getD .empty, 0, .empty⟩ }

def throughLinkEntry : Entry := { plantedEntry with path := ascii "d/x" }

def throughLinkRun : List (Action Unit) :=
  [.call () throughLinkEntry, .decide () .plain, .transfer () .plain (.serving (ascii "x")),
    .commit () .plain]

/-- A clean path through the link reaches the state directory. -/
theorem link_reaches_state_dir :
    Describes Hashes.plain linkedNode.daemon ∧
    cleanRel throughLinkEntry.path = .ok (ascii "d/x") ∧
    nodeAt linkedNode.daemon.root (ascii ".tailsync/x") = none ∧
    ¬ CleanPath (ascii ".tailsync/x") ∧
    ∃ s, exec Config.plain Hashes.plain linkedNode throughLinkRun = some s ∧
      fileAt s.daemon.root (ascii ".tailsync/x") = some ⟨ascii "x", 5, 0o600⟩ := by
  refine ⟨by simp [Describes, linkedNode], ?_, ?_, ?_, _, rfl, ?_⟩ <;> decide +kernel

end TailSync.ByzantinePeers

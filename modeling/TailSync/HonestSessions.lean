import TailSync.MeshConvergence
import TailSync.PeerPulls

/-!
A whole pull from a node that follows the protocol, down to the frames: the manifest is
asked for, and each of its entries is applied with the bytes that the other node serves. If
on both sides disk and index agree, nothing is in the way of the files, the system refuses
nothing, the messages of the session come through and no rebuilt file collides with the
announced one, then no entry fails, whichever routes the transfers take. The puller ends with
the later of the two versions at every path, on disk as in the index.
-/
namespace TailSync.HonestSessions

open ByteStrings Entries IndexMap SyncRoot RootEffects Scanning MachineInts DeltaBlocks DeltaWire
open Framing FrameRoundTrips Transfers RemoteApply ApplyEffects LwwJoins PullSessions
open MeshConvergence FileServing OpStreams PeerPulls
open FileTrees (Tree)
open Handshakes (newError tableCodec)
open RelativePaths (CleanPath cleanRel cleanRel_ok relPath relPath_eq_cleanRel)

def newManifestReq : Message := ⟨{ emptyHeader zeroInt with type := .manifestReq }, []⟩

def manifestOf : Reply → Except PullError (List Entry)
  | .cancelled => .error (.fetch .cancelled)
  | .failed => .error (.fetch .transport)
  | .message man =>
      if man.header.type = .error then
        .error (.fetch (.peerLogical (.reported man.header.error)))
      else if man.header.type ≠ .manifest then .error (.fetch .transport)
      else .ok man.header.entries

def fetchManifest (s : Server) : Except PullError (List Entry) :=
  manifestOf ((ask s newManifestReq).getD .failed)

structure EntryHosts where
  decide : Host
  transfer : Host
  commit : Host

/-- The entries with their surroundings: the other node serves what is asked for. -/
def surrounded (s : Server) (cfg : Config) (hosts : Entry → EntryHosts) (entries : List Entry) :
    List (Entry × EntryEnv) :=
  entries.map fun e =>
    (e, ⟨(hosts e).decide.cancelled,
      ⟨(hosts e).decide, (hosts e).transfer, (hosts e).commit, repliesOf s cfg e⟩⟩)

/-- pullFromSession, with the other node at the end of its streams. -/
def pullFromServer (s : Server) (cfg : Config) (hs : Hashes) (h : Host) (d : Daemon)
    (hosts : Entry → EntryHosts) : Pulled :=
  pullFromSession cfg hs h d ((fetchManifest s).map (surrounded s cfg hosts))

structure Working (h : Host) : Prop where
  running : h.cancelled = false
  succeeds : ∀ op, h.fails op = false
  exact : h.Exact

def Roomy (h : Host) (t : Root) : Prop :=
  ∀ dir, ∃ i < 10000, t.get (dir ++ [h.tmpName i]) = none

def Open (t : Root) (p : Bytes) : Prop :=
  ∀ dir base, pathNames p = some (dir ++ [base]) → t.Passable dir

section Calls
variable {h : Host} {t : Root} {p data : Bytes} {names : List FileName}

theorem Open.passable (hopen : Open t p) (hnames : pathNames p = some names)
    (hnone : nodeAt t p = none) : t.Passable names := by
  obtain ⟨dir, base, rfl⟩ : ∃ dir base, names = dir ++ [base] :=
    ⟨_, _, (List.dropLast_append_getLast (pathOf_of_pathNames hnames).2).symm⟩
  intro q hq
  rcases List.prefix_concat_iff.mp hq with rfl | hq
  · exact Or.inl (by simpa [nodeAt, hnames] using hnone)
  · exact hopen dir base hnames q hq

/-- Where nothing is, Stat says that nothing is there. -/
theorem stat_absent (hworking : Working h) (op : FsOp) (hopen : Open t p)
    (hnames : pathNames p = some names) (hnone : nodeAt t p = none) :
    stat h op t p = .error (.lookup .notExist) := by
  have hget : t.get names = none := by simpa [nodeAt, hnames] using hnone
  unfold stat locate
  rw [hworking.succeeds op, hnames]
  rcases Tree.resolve_passable maxSymlinks true (hopen.passable hnames hnone) with hr | hr
  · simp [hr, hget]
  · simp [hr]

theorem freeTempName_exists {dir : List FileName} {n : ℕ}
    (hfree : ∃ i < n, t.get (dir ++ [h.tmpName i]) = none) :
    ∃ tmp, freeTempName h t dir n = some tmp := by
  induction n with
  | zero => obtain ⟨i, hi, _⟩ := hfree; omega
  | succ n ih =>
    unfold freeTempName
    split
    · exact ⟨_, rfl⟩
    · rename_i htaken
      obtain ⟨i, hi, hnone⟩ := hfree
      refine ih ⟨i, ?_, hnone⟩
      rcases Nat.lt_succ_iff_lt_or_eq.mp hi with hlt | rfl
      · exact hlt
      · exact absurd (by simp [hnone]) htaken

theorem createTempRoot_succeeds (hworking : Working h) {dir : List FileName}
    (hdir : t.get dir = some .dir) (hfree : ∃ i < 10000, t.get (dir ++ [h.tmpName i]) = none) :
    ∃ t1 tmp, createTempRoot h t dir = .ok (t1, tmp) := by
  obtain ⟨tmp, htmp⟩ := freeTempName_exists hfree
  have hput : (t.put (dir ++ [tmp]) (.file ⟨[], h.writeTime, 0o600⟩)).isSome := by
    rw [Tree.put_isSome_iff]
    exact ⟨by simp, by simpa using hdir, by simp [(freeTempName_some htmp).1]⟩
  obtain ⟨t1, hput⟩ := Option.isSome_iff_exists.mp hput
  unfold createTempRoot
  rw [hworking.succeeds, htmp]
  exact ⟨t1, dir ++ [tmp], by simp [hput]⟩

theorem writeInDir_succeeds (hworking : Working h) {dir : List FileName} {base : FileName}
    (hdir : t.get dir = some .dir) (hbase : t.get (dir ++ [base]) ≠ some .dir)
    (hfree : ∃ i < 10000, t.get (dir ++ [h.tmpName i]) = none) (mode : Mode) :
    (writeInDir h t dir base data mode).2 = .ok () := by
  obtain ⟨t1, tmp, hcreate⟩ := createTempRoot_succeeds hworking hdir hfree
  obtain ⟨hnone, _, _, hput⟩ := createTempRoot_ok hcreate
  obtain ⟨t2, herase, hsame⟩ := erase_put_get hnone hput
  have htarget : (t2.put (dir ++ [base])
      (.file ⟨data, h.writeTime, h.storedPerm mode⟩)).isSome := by
    rw [Tree.put_isSome_iff, hsame, hsame]
    exact ⟨by simp, by simpa using hdir, hbase⟩
  obtain ⟨t3, htarget⟩ := Option.isSome_iff_exists.mp htarget
  have hrename : renameTemp t1 tmp (dir ++ [base])
      ⟨data, h.writeTime, h.storedPerm mode⟩ = some t3 := by
    rw [renameTemp, herase]
    exact htarget
  unfold writeInDir
  rw [hcreate]
  simp [hworking.succeeds, hrename]

/-- WriteFileRoot succeeds where nothing is in the way. -/
theorem writeFileRoot_succeeds (hworking : Working h) (hroomy : Roomy h t) (ht : t.LinkFree)
    (hp : CleanPath p) (hopen : Open t p) (hnames : pathNames p = some names)
    (hnode : nodeAt t p ≠ some .dir) (mode : Mode) :
    (writeFileRoot h t p data mode).2 = .ok () := by
  obtain ⟨_, hhead⟩ := RelativePaths.head_ne_slash hp.isElement
  obtain ⟨dir, base, rfl⟩ : ∃ dir base, names = dir ++ [base] :=
    ⟨_, _, (List.dropLast_append_getLast (pathOf_of_pathNames hnames).2).symm⟩
  have hmkdir := Tree.mkdirAll_passable maxSymlinks (hopen dir base hnames)
  obtain ⟨hgrow, hmade⟩ := Tree.mkdirAll_unlinked maxSymlinks (ht.unlinked dir)
  -- nothing appears below the directory
  have hbelow : ∀ n, (t.mkdirAll maxSymlinks dir).1.get (dir ++ [n]) = t.get (dir ++ [n]) := by
    intro n
    rcases hgrow (dir ++ [n]) with heq | ⟨_, _, hpre⟩
    · exact heq
    · exact absurd hpre.length_le (by simp)
  have hdir := (hmade dir hmkdir).2
  have hpair : t.mkdirAll maxSymlinks dir = ((t.mkdirAll maxSymlinks dir).1, .ok dir) := by
    rw [← hmkdir]
  unfold writeFileRoot
  simp only [RelativePaths.clean_eq_self hp.isElement, hp.ne_dot, hhead, hp.validPath, hp.isLocal,
    hnames, Bool.true_eq_false, or_self, if_false, List.getLast?_concat, List.dropLast_concat,
    hworking.succeeds, Bool.false_eq_true]
  rw [hpair]
  refine writeInDir_succeeds hworking hdir ?_ ?_ _
  · rw [hbelow]
    simpa [nodeAt, hnames] using hnode
  · obtain ⟨i, hi, hfree⟩ := hroomy dir
    exact ⟨i, hi, by rw [hbelow, hfree]⟩

end Calls

/-- Disk and index agree, and nothing is in the way of the paths. -/
structure Ready (hs : Hashes) (P : PathSet) (d : Daemon) : Prop extends NodeOk hs P d where
  passable : ∀ p, P.mem p → Open d.root p

section Sections
variable {hs : Hashes} {P : PathSet} {h : Host} {d : Daemon} {re : Entry}

/-- A live entry has its file. -/
theorem nodeOk_file (hd : NodeOk hs P d) {p : Bytes} (hpath : P.mem p) {e : Entry}
    (hget : d.idx.get p = some e) (hlive : e.deleted = false) :
    ∃ f, fileAt d.root p = some f ∧ e.size = f.bytes.length ∧ e.modTime = f.modTime ∧
      e.hash = contentHash hs.sha256 f.bytes := by
  obtain ⟨f, hf, hmeta⟩ := (hd.agrees p hpath).live e hget hlive
  rw [found_eq_nodeAt (direct_of_linkFree hd.linkFree p)] at hf
  exact ⟨f, fileAt_eq_some.mpr hf, hmeta⟩

theorem nodeOk_free (hd : NodeOk hs P d) {p : Bytes} (hpath : P.mem p)
    (hnone : liveEntry d.idx p = none) : nodeAt d.root p = none := by
  rw [← found_eq_nodeAt (direct_of_linkFree hd.linkFree p)]
  exact (hd.agrees p hpath).free hnone

/-- The guard lets every path of the set pass. -/
theorem Ready.guarded (hd : Ready hs P d) (hworking : Working h) (hpath : P.mem re.path)
    (hnames : ∃ names, pathNames re.path = some names) : Guarded h d re.path := by
  obtain ⟨names, hnames⟩ := hnames
  unfold Guarded diskUnsynced
  cases hlive : liveEntry d.idx re.path with
  | none =>
    rw [stat_absent hworking .statGuard (hd.passable _ hpath) hnames
      (nodeOk_free hd.toNodeOk hpath hlive)]
    rfl
  | some cur =>
    obtain ⟨hget, halive⟩ := liveEntry_eq_some.mp hlive
    obtain ⟨f, hf, hsize, htime, _⟩ := nodeOk_file hd.toNodeOk hpath hget halive
    rw [stat_file (hworking.succeeds _) hf]
    simp [File.info, hsize, htime]

theorem names_of_file {t : Root} {p : Bytes} {f : File} (hf : fileAt t p = some f) :
    ∃ names, pathNames p = some names := by
  obtain ⟨names, hnames, _⟩ := Option.bind_eq_some_iff.mp hf
  exact ⟨names, hnames⟩

theorem execDeleteLive_succeeds (hworking : Working h) (hguard : Guarded h d re.path) {f : File}
    (hf : fileAt d.root re.path = some f) :
    ∃ changed, (execDeleteLive h d re).2 = .ok changed := by
  have hremove : (remove h d.root re.path).2 = .ok () := by
    obtain ⟨q, _, hloc⟩ := locate_file false hf
    obtain ⟨_, _, _, hget⟩ := locate_eq_ok.mp hloc
    obtain ⟨t', herase⟩ := Option.isSome_iff_exists.mp (Tree.erase_file_isSome hget)
    simp [remove, hworking.succeeds, hloc, herase]
  unfold execDeleteLive
  split
  · exact ⟨false, rfl⟩
  · rw [show diskUnsynced h d.root re.path (liveEntry d.idx re.path) = .ok false from hguard]
    dsimp only
    rw [hremove]
    dsimp only
    unfold execDeleteLive.storeTombstone
    dsimp only
    split
    · exact ⟨true, rfl⟩
    · exact ⟨false, rfl⟩

theorem execMetaOnly_succeeds (hworking : Working h) {loc : Entry}
    (hguard : diskUnsynced h d.root re.path (some loc) = .ok false) {f : File}
    (hf : fileAt d.root re.path = some f) :
    ∃ changed, (execMetaOnly h d loc re).2 = .ok changed := by
  have htimed : (timedRoot h d re).2 = .ok () ∧
      ∃ f', fileAt (timedRoot h d re).1 re.path = some f' := by
    unfold timedRoot
    split
    · exact ⟨rfl, f, hf⟩
    · obtain ⟨_, _, hloc⟩ := locate_file true hf
      have hok : (chtimes h .chtimes d.root re.path re.modTime).2 = .ok () :=
        (tryAttr_file (hworking.succeeds .chtimes) hloc).1
      exact ⟨hok, _, tryAttr_fileAt hf hok⟩
  obtain ⟨hok, f', hf'⟩ := htimed
  obtain ⟨_, _, hloc⟩ := locate_file true hf'
  have hmoded : (chmod h .chmod (timedRoot h d re).1 re.path (fileMode re.mode)).2 = .ok () :=
    (tryAttr_file (hworking.succeeds .chmod) hloc).1
  unfold timedRoot at hok hmoded
  unfold execMetaOnly
  rw [hguard]
  dsimp only
  rw [hok]
  dsimp only
  rw [hmoded]
  exact ⟨true, rfl⟩

theorem Ready.commit_succeeds (hd : Ready hs P d) (hworking : Working h)
    (hroomy : Roomy h d.root) (hpath : P.mem re.path)
    (hnames : ∃ names, pathNames re.path = some names) (data got : Bytes) :
    ∃ changed, (commitContent h d re data got).2 = .ok changed := by
  have hguard := hd.guarded hworking hpath hnames
  obtain ⟨names, hnames⟩ := hnames
  have hnode : nodeAt d.root re.path ≠ some .dir := by
    cases hlive : liveEntry d.idx re.path with
    | none => simp [nodeOk_free hd.toNodeOk hpath hlive]
    | some cur =>
      obtain ⟨hget, halive⟩ := liveEntry_eq_some.mp hlive
      obtain ⟨f, hf, _⟩ := nodeOk_file hd.toNodeOk hpath hget halive
      simp [fileAt_eq_some.mp hf]
  have hwrite := @writeFileRoot_succeeds h d.root re.path data names hworking hroomy hd.linkFree
    (cleanRel_ok (P.clean _ hpath)).2.2.2 (hd.passable _ hpath) hnames hnode (fileMode re.mode)
  unfold commitContent
  split
  · exact ⟨false, rfl⟩
  · rw [show diskUnsynced h d.root re.path (liveEntry d.idx re.path) = .ok false from hguard]
    dsimp only
    rw [hwrite]
    exact ⟨true, rfl⟩

/-- The first critical section ends without an error or asks for the bytes. -/
theorem Ready.decided (hd : Ready hs P d) (hworking : Working h) (hpath : P.mem re.path) :
    (∃ d' changed, applyDecided h d re = (d', .finished (.ok changed))) ∨
      ∃ useDelta, re.deleted = false ∧ applyDecided h d re = (d, .transfer re useDelta) := by
  have hpresent : ∃ present, diskPresent h d re = .ok present := by
    unfold diskPresent
    split
    · rename_i loc hlive
      obtain ⟨hget, halive⟩ := liveEntry_eq_some.mp hlive
      obtain ⟨f, hf, _⟩ := nodeOk_file hd.toNodeOk hpath hget halive
      split
      · exact ⟨true, by rw [stat_file (hworking.succeeds _) hf]⟩
      · exact ⟨false, rfl⟩
    · exact ⟨false, rfl⟩
  obtain ⟨present, hpresent⟩ := hpresent
  have hkind := decideApply_decidedBy (d.idx.get re.path) re present
  unfold applyDecided
  rw [hworking.running, hpresent, if_neg (by simp)]
  dsimp only
  cases hdec : (decideApply (d.idx.get re.path) re present).kind with
  | noop => exact Or.inl ⟨d, false, rfl⟩
  | tombstone =>
    left
    dsimp only
    split
    · exact ⟨_, true, rfl⟩
    · exact ⟨_, false, rfl⟩
  | deleteLive =>
    obtain ⟨loc, hget, hlive⟩ := decideApply_deleteLive hdec
    obtain ⟨f, hf, _⟩ := nodeOk_file hd.toNodeOk hpath hget hlive
    obtain ⟨changed, hok⟩ :=
      execDeleteLive_succeeds hworking (hd.guarded hworking hpath (names_of_file hf)) hf
    exact Or.inl ⟨(execDeleteLive h d re).1, changed, by simp [hok]⟩
  | metaOnly =>
    rw [hdec] at hkind
    obtain ⟨loc, hget, hlive, _⟩ := hkind
    obtain ⟨f, hf, _⟩ := nodeOk_file hd.toNodeOk hpath hget hlive
    have hguard := hd.guarded hworking hpath (names_of_file hf)
    rw [Guarded, liveEntry_eq_some.mpr ⟨hget, hlive⟩] at hguard
    obtain ⟨changed, hok⟩ := execMetaOnly_succeeds hworking hguard hf
    rw [hget]
    exact Or.inl ⟨(execMetaOnly h d loc re).1, changed, by simp [hok]⟩
  | content =>
    rw [hdec] at hkind
    exact Or.inr ⟨_, hkind, rfl⟩

end Sections

section Entries
variable {cfg : Config} {hs : Hashes} {P : PathSet} {d : Daemon} {re : Entry} {env : ApplyEnv}

/-- A path stays open when another one, that does not lead to it, is touched. -/
theorem Open.touched {t t' : Root} {p q : Bytes} (hopen : Open t p)
    (htouch : Touches false q t t') (hapart : ¬ DirPrefix q p) : Open t' p := by
  intro dir base hnames a ha
  cases hq : pathNames q with
  | none =>
    rw [htouch.noNames hq]
    exact hopen dir base hnames a ha
  | some names =>
    have hne : a ≠ names := by
      rintro rfl
      obtain ⟨rest, rfl⟩ := ha
      refine hapart ⟨(rest ++ [base]).map FileName.bytes, by simp, ?_⟩
      rw [← elements_of_pathNames hnames, ← elements_of_pathNames hq]
      simp
    rcases (htouch.frame names hq).other a hne with heq | ⟨_, ⟨_, hdir⟩ | ⟨hjunk, _⟩⟩
    · rw [heq]
      exact hopen dir base hnames a ha
    · exact Or.inr hdir
    · exact absurd hjunk (by simp)

/-- Temp names that are free stay free. -/
theorem Roomy.touched {h : Host} {t t' : Root} {p : Bytes} (hroomy : Roomy h t)
    (htouch : Touches false p t t') (hp : CleanPath p) : Roomy h t' := by
  intro dir
  obtain ⟨i, hi, hfree⟩ := hroomy dir
  refine ⟨i, hi, ?_⟩
  have hres : Reserved (dir ++ [h.tmpName i]) := ⟨h.tmpName i, by simp, h.tmp_reserved i⟩
  cases hnames : pathNames p with
  | none => rw [htouch.noNames hnames, hfree]
  | some names =>
    have hclean := not_reserved_of_clean hp hnames
    have hne : dir ++ [h.tmpName i] ≠ names := by
      rintro rfl
      exact hclean hres
    rcases (htouch.frame names hnames).other _ hne with heq | ⟨_, ⟨hpre, _⟩ | ⟨hjunk, _⟩⟩
    · rw [heq, hfree]
    · obtain ⟨n, hn, hreserved⟩ := hres
      exact absurd ⟨n, hpre.subset hn, hreserved⟩ hclean
    · exact absurd hjunk (by simp)

/-- An entry whose bytes arrive is applied. -/
theorem Ready.applies (hd : Ready hs P d) (hpath : P.mem re.path)
    (hdecide : Working env.decideHost) (hcommit : Working env.commitHost)
    (hroomy : Roomy env.commitHost d.root) (hhash : re.deleted = false → re.hash ≠ [])
    (hnames : re.deleted = false → ∃ names, pathNames re.path = some names)
    (harrives : re.deleted = false → ∀ useDelta, ∃ data,
      transfer cfg hs env.transferHost d.root re useDelta env.replies = .ok (data, re.hash)) :
    ∃ changed, (applyRemote cfg hs env d re).2 = .ok changed := by
  have hrel : relPath cfg.dir re.path = .ok re.path := by
    rw [Config.dir, relPath_eq_cleanRel cfg.dirs_element, P.clean _ hpath]
  have hstart : applyDecide cfg env.decideHost d re = applyDecided env.decideHost d re := by
    unfold applyDecide
    rw [hrel]
    dsimp only
    rw [if_neg fun hmissing => hhash hmissing.1 hmissing.2]
  unfold applyRemote
  rw [hstart]
  rcases hd.decided hdecide hpath with ⟨d', changed, hdec⟩ | ⟨useDelta, hlive, hdec⟩
  · rw [hdec]
    exact ⟨changed, rfl⟩
  · obtain ⟨data, hdata⟩ := harrives hlive useDelta
    obtain ⟨changed, hok⟩ :=
      hd.commit_succeeds hcommit hroomy hpath (hnames hlive) data re.hash
    have hcommitted : applyCommit env.commitHost d re data re.hash =
        ((commitContent env.commitHost d re data re.hash).1, .ok changed) := by
      unfold applyCommit
      rw [hcommit.running, if_neg (by simp), ← hok]
    rw [hdec]
    dsimp only
    rw [hdata]
    dsimp only
    rw [hcommitted]
    exact ⟨changed, rfl⟩

/-- The apply leaves the node ready for the next entry, and the files at other paths as they
were. -/
theorem Ready.next (hd : Ready hs P d) (hpath : P.mem re.path) (hre : Proper re)
    (hdecide : Working env.decideHost) (hcommit : Working env.commitHost) {changed : Bool}
    (hok : (applyRemote cfg hs env d re).2 = .ok changed) :
    Ready hs P (applyRemote cfg hs env d re).1 ∧
      (∀ h, Roomy h d.root → Roomy h (applyRemote cfg hs env d re).1.root) ∧
      ∀ q, q ≠ re.path → fileAt (applyRemote cfg hs env d re).1.root q = fileAt d.root q := by
  obtain ⟨hnode, _⟩ :=
    applyRemote_joins hd.toNodeOk hpath hre ⟨hdecide.exact, hcommit.exact⟩ hok
  rcases ApplyRuns.applyRemote_effect cfg hs hd.linkFree env re with
    ⟨_, hno⟩ | ⟨h, rel, content, r, hhost, hrel, hclean, _, htouch, _⟩
  · exact absurd hok (hno changed)
  · rw [P.clean _ hpath] at hrel
    cases hrel
    have hcleanup : h.fails .cleanup = false := by
      rcases hhost with rfl | rfl
      · exact hdecide.succeeds _
      · exact hcommit.succeeds _
    rw [hcleanup] at htouch
    refine ⟨⟨hnode, fun p hp => ?_⟩, fun h hroomy => hroomy.touched htouch hclean,
      fun q hq => htouch.fileAt_eq hq (by simp)⟩
    exact (hd.passable p hp).touched htouch (P.apart _ _ hpath hp)

end Entries

/-- A live entry of the manifest, and the file that the other node has for it. -/
structure Announced (s : Server) (e : Entry) (f : File) : Prop where
  listed : e ∈ s.listed
  live : e.deleted = false
  file : fileAt s.daemon.root e.path = some f

/-- Everything that is said in a session comes through. -/
structure Conversant (s : Server) (cfg : Config) (hs : Hashes) (d : Daemon) : Prop where
  asked : Crosses s.json newManifestReq
  listed : Crosses s.json (newManifest s.listed)
  full : ∀ e f, Announced s e f → FullExchange s e e.path e f.bytes
  delta : ∀ e f g, Announced s e f → fileAt d.root e.path = some g →
    DeltaExchange s cfg hs e e.path e f.bytes g.bytes

/-- The files that are announced are within the limits of both nodes, and what their deltas
make of the puller's files has their hash only if it has their bytes. -/
structure Transferable (s : Server) (cfg : Config) (hs : Hashes) (d : Daemon) : Prop where
  allocates : cfg.maxFileBytes ≤ maxAlloc
  sized : ∀ e ∈ s.listed, e.deleted = false →
    e.size ≤ s.cfg.maxFileBytes ∧ e.size ≤ cfg.maxFileBytes
  identified : ∀ e f g out, Announced s e f → fileAt d.root e.path = some g →
    Rebuilt s cfg hs g.bytes f.bytes out →
    contentHash hs.sha256 out = contentHash hs.sha256 f.bytes → out = f.bytes

section Session
variable {s : Server} {cfg : Config} {hs : Hashes} {P : PathSet} {d : Daemon} {e : Entry}

theorem fetchManifest_listed (hserver : Working s.host) (htalk : Conversant s cfg hs d) :
    fetchManifest s = .ok s.listed := by
  have hask : ask s newManifestReq = some (.message (framed (newManifest s.listed))) := by
    refine ask_answered htalk.asked (by simp [newManifestReq]) ?_ htalk.listed
    unfold Server.handleStream Server.serveInSlot Server.serveMsg
    rw [(framed_fields newManifestReq).1, hserver.running]
    simp only [newManifestReq, Bool.not_true, Bool.false_eq_true, if_false]
    rw [send_ok htalk.listed.2]
  have hentries : (framed (newManifest s.listed)).header.entries = s.listed := rfl
  have htype : (framed (newManifest s.listed)).header.type = .manifest :=
    (framed_fields _).1
  unfold fetchManifest
  rw [hask, Option.getD_some]
  unfold manifestOf
  simp [htype, hentries]

theorem contentHash_ne_nil (sha256 : Bytes → Digest 32) (data : Bytes) :
    contentHash sha256 data ≠ [] := by
  have hlen := (sha256 data).property
  unfold contentHash
  cases hbytes : (sha256 data).val with
  | nil => simp [hbytes] at hlen
  | cons b rest => simp [hexEncode]

/-- A live entry of the other node is served as it is announced. -/
theorem offers_listed (hserver : Working s.host) (hnode : NodeOk hs P s.daemon)
    (hfiles : Transferable s cfg hs d) {f : File} (he : Announced s e f)
    (hsize : e.size = f.bytes.length) (htime : e.modTime = f.modTime)
    (hhash : e.hash = contentHash hs.sha256 f.bytes) :
    Offers s hs e e.path e f.bytes := by
  have hget : s.daemon.idx.get e.path = some e :=
    Index.get_of_mem (s.complete.mem_iff.mp he.listed)
  obtain ⟨hpath, _⟩ := hnode.keys _ _ hget
  have hrel : relPath s.cfg.dir e.path = .ok e.path := by
    rw [Config.dir, relPath_eq_cleanRel s.cfg.dirs_element, P.clean _ hpath]
  refine ⟨hserver.running, ?_, ?_, hhash.symm⟩
  · have hmax := (hfiles.sized e he.listed he.live).1
    have hchecked : checkFileSize s.cfg e.path f.info.size = .ok () := by
      unfold checkFileSize
      rw [if_neg (by simp only [File.info]; omega)]
    unfold serveEntry
    rw [hrel]
    dsimp only
    rw [hget]
    simp only [Option.filter_some, he.live, Bool.not_false, if_true]
    rw [stat_file (hserver.succeeds _) he.file]
    dsimp only
    rw [hchecked]
    simp [File.info, hsize, htime, hserver.running]
  · obtain ⟨q, _, hloc⟩ := locate_file true he.file
    simp [readFile, hserver.succeeds, hloc]

theorem fileAt_of_readFile {h : Host} {t : Root} {p data : Bytes} (ht : t.LinkFree)
    (hread : readFile h t p = .ok data) : ∃ f, fileAt t p = some f ∧ f.bytes = data := by
  unfold readFile at hread
  split at hread
  · exact absurd hread (by simp)
  · split at hread
    · exact absurd hread (by simp)
    · rename_i f hloc
      cases hread
      exact ⟨f, fileAt_eq_some.mpr (nodeAt_of_locate (direct_of_linkFree ht p) hloc), rfl⟩
    · exact absurd hread (by simp)

/-- Its bytes arrive, on whichever route, as long as the puller's file at the path is the one
the session began with. -/
theorem transfer_listed {h : Host} {root : Root} (hserver : Working s.host)
    (hnode : NodeOk hs P s.daemon) (htalk : Conversant s cfg hs d)
    (hfiles : Transferable s cfg hs d) (hworking : Working h) (he : e ∈ s.listed)
    (hlive : e.deleted = false) (hroot : root.LinkFree)
    (hsame : fileAt root e.path = fileAt d.root e.path) (useDelta : Bool) :
    ∃ data, transfer cfg hs h root e useDelta (repliesOf s cfg e) = .ok (data, e.hash) := by
  have hget : s.daemon.idx.get e.path = some e := Index.get_of_mem (s.complete.mem_iff.mp he)
  obtain ⟨hpath, _⟩ := hnode.keys _ _ hget
  obtain ⟨f, hf, hsize, htime, hhash⟩ := nodeOk_file hnode hpath hget hlive
  have hannounced : Announced s e f := ⟨he, hlive, hf⟩
  have hoffers := offers_listed hserver hnode hfiles hannounced hsize htime hhash
  have hbasis : ∀ basis, readFileLimited cfg h root e.path = .ok basis →
      ∃ g, fileAt d.root e.path = some g ∧ g.bytes = basis := by
    intro basis hbasis
    rw [← hsame]
    exact fileAt_of_readFile hroot (readFileLimited_ok hbasis).1
  obtain ⟨out, hpull, hsource⟩ := pullAndVerify_arrives useDelta hworking.running
    hfiles.allocates hoffers (htalk.full e f hannounced) fun _ basis hread => by
      obtain ⟨g, hg, rfl⟩ := hbasis basis hread
      exact htalk.delta e f g hannounced hg
  have hout : out = f.bytes := by
    rcases hsource with rfl | ⟨_, basis, hread, hrebuilt⟩
    · rfl
    · obtain ⟨g, hg, rfl⟩ := hbasis basis hread
      exact hfiles.identified e f g out hannounced hg hrebuilt
        ((pullAndVerify_ok hpull).1.symm.trans hhash)
  have hchecked : checkFileSize cfg e.path out.length = .ok () := by
    have hmax := (hfiles.sized e he hlive).2
    unfold checkFileSize
    rw [if_neg (by rw [hout]; omega)]
  unfold transfer
  rw [hpull]
  dsimp only
  rw [hchecked]
  exact ⟨out, rfl⟩

/-- No entry of the manifest fails. The puller has come from its first state to the present
one by entries at other paths. -/
theorem allApplied_listed (hserver : Working s.host) (hnode : NodeOk hs P s.daemon)
    {d₀ : Daemon} (htalk : Conversant s cfg hs d₀) (hfiles : Transferable s cfg hs d₀)
    {hosts : Entry → EntryHosts}
    (hhosts : ∀ e ∈ s.listed, Working (hosts e).decide ∧ Working (hosts e).transfer ∧
      Working (hosts e).commit) {entries : List Entry} (hlisted : ∀ e ∈ entries, e ∈ s.listed)
    (hnodup : (entries.map Entry.path).Nodup)
    (hsame : ∀ e ∈ entries, fileAt d.root e.path = fileAt d₀.root e.path)
    (hd : Ready hs P d) (hroomy : ∀ e ∈ s.listed, Roomy (hosts e).commit d.root) :
    AllApplied cfg hs d (surrounded s cfg hosts entries) ∧
      Ready hs P (applyAll cfg hs d (surrounded s cfg hosts entries)) := by
  induction entries generalizing d with
  | nil => exact ⟨trivial, hd⟩
  | cons e rest ih =>
    have he : e ∈ s.listed := hlisted e (List.mem_cons_self ..)
    obtain ⟨hdecide, htransfer, hcommit⟩ := hhosts e he
    have hget : s.daemon.idx.get e.path = some e := Index.get_of_mem (s.complete.mem_iff.mp he)
    obtain ⟨hpath, hproper⟩ := hnode.keys _ _ hget
    -- a live entry has a file on the other node, so its path can be a path here
    have hfile : e.deleted = false → e.hash ≠ [] ∧ ∃ names, pathNames e.path = some names := by
      intro hlive
      obtain ⟨f, hf, _, _, hhash⟩ := nodeOk_file hnode hpath hget hlive
      exact ⟨by rw [hhash]; exact contentHash_ne_nil _ _, names_of_file hf⟩
    let env : ApplyEnv :=
      ⟨(hosts e).decide, (hosts e).transfer, (hosts e).commit, repliesOf s cfg e⟩
    obtain ⟨changed, hok⟩ := @Ready.applies cfg hs P d e env hd hpath hdecide hcommit
      (hroomy e he) (fun hlive => (hfile hlive).1) (fun hlive => (hfile hlive).2)
      fun hlive => transfer_listed hserver hnode htalk hfiles htransfer he hlive hd.linkFree
        (hsame e (List.mem_cons_self ..))
    obtain ⟨hnext, hkept, hother⟩ := @Ready.next cfg hs P d e env hd hpath hproper hdecide hcommit
      changed hok
    obtain ⟨hfresh, hnodup⟩ := List.nodup_cons.mp hnodup
    obtain ⟨hall, hlast⟩ := ih (fun x hx => hlisted x (List.mem_cons_of_mem _ hx)) hnodup
      (fun x hx => by
        have hne : x.path ≠ e.path := fun heq => hfresh (heq ▸ List.mem_map_of_mem hx)
        exact (hother _ hne).trans (hsame x (List.mem_cons_of_mem _ hx)))
      hnext fun x hx => hkept _ (hroomy x hx)
    exact ⟨⟨hdecide.running, ⟨changed, hok⟩, hall⟩, hlast⟩

end Session

theorem pullFromSession_result {cfg : Config} {hs : Hashes} {h : Host} {d : Daemon}
    {entries : List (Entry × EntryEnv)} (hall : AllApplied cfg hs d entries)
    (hsave : h.fails .save = false) :
    (pullFromSession cfg hs h d (.ok entries)).result = .ok () := by
  have hfinish : ∀ loop, (pullFromSession.finish h loop (.ok ())).result = .ok () := by
    intro loop
    unfold pullFromSession.finish
    rw [hsave]
    split <;> rfl
  obtain ⟨_, hstop⟩ := pullEntries_complete hall false []
  unfold pullFromSession
  dsimp only
  rw [hstop]
  exact hfinish _

/-- A pull between two nodes that follow the protocol is complete, if everything that is said
comes through and the files can be transferred. No entry of the manifest fails; the puller then
has the later version of every path, shows the other node's entry wherever that is no older than
its own, and is as ready as before for the next pull. -/
theorem honest_session_completes (s : Server) (cfg : Config) (hs : Hashes) (h : Host)
    (d : Daemon) (P : PathSet) (hosts : Entry → EntryHosts) (hserver : Working s.host)
    (hnode : NodeOk hs P s.daemon) (hd : Ready hs P d) (htalk : Conversant s cfg hs d)
    (hfiles : Transferable s cfg hs d) (hsave : h.fails .save = false)
    (hhosts : ∀ e ∈ s.listed, Working (hosts e).decide ∧ Working (hosts e).transfer ∧
      Working (hosts e).commit)
    (hroomy : ∀ e ∈ s.listed, Roomy (hosts e).commit d.root) :
    (pullFromServer s cfg hs h d hosts).result = .ok () ∧
    Ready hs P (pullFromServer s cfg hs h d hosts).daemon ∧
    (∀ p, version (pullFromServer s cfg hs h d hosts).daemon.idx p =
      version d.idx p ⊔ version s.daemon.idx p) ∧
    ∀ p e, s.daemon.idx.get p = some e → version d.idx p ≤ coarseKey e →
      Shows hs (pullFromServer s cfg hs h d hosts).daemon p e := by
  have hnodup : (s.listed.map Entry.path).Nodup :=
    (s.complete.map Entry.path).nodup_iff.mpr s.daemon.idx.nodup
  obtain ⟨hall, hready⟩ := allApplied_listed hserver hnode htalk hfiles hhosts
    (fun e he => he) hnodup (fun e _ => rfl) hd hroomy
  have hmap : (surrounded s cfg hosts s.listed).map Prod.fst = s.listed := by
    rw [surrounded, List.map_map]
    exact List.map_id _
  have hpull : pullFromServer s cfg hs h d hosts =
      pullFromSession cfg hs h d (.ok (surrounded s cfg hosts s.listed)) := by
    rw [pullFromServer, fetchManifest_listed hserver htalk]
    rfl
  rw [hpull]
  obtain ⟨hidx, hroot⟩ := pullFromSession_complete (h := h) hall
  have hend : Ready hs P
      (pullFromSession cfg hs h d (.ok (surrounded s cfg hosts s.listed))).daemon :=
    ⟨hready.toNodeOk.of_eq hidx hroot, fun p hp => by rw [hroot]; exact hready.passable p hp⟩
  -- the entries of the manifest are those of the other node
  have hmanifest : s.daemon.idx.IsManifest ((surrounded s cfg hosts s.listed).map Prod.fst) := by
    rw [hmap]
    exact s.complete
  have hentries : ∀ x ∈ surrounded s cfg hosts s.listed, P.mem x.1.path ∧ Proper x.1 := by
    intro x hx
    exact hnode.keys _ _
      (Index.get_of_mem (hmanifest.mem_iff.mp (List.mem_map_of_mem hx)))
  have hexact : ∀ x ∈ surrounded s cfg hosts s.listed,
      x.2.apply.decideHost.Exact ∧ x.2.apply.commitHost.Exact := by
    intro x hx
    obtain ⟨e, he, rfl⟩ := List.mem_map.mp hx
    exact ⟨(hhosts e he).1.exact, (hhosts e he).2.2.exact⟩
  obtain ⟨_, hversion⟩ := applyAll_joins hd.toNodeOk hentries hexact hall
  have hjoin : ∀ p, version
      (pullFromSession cfg hs h d (.ok (surrounded s cfg hosts s.listed))).daemon.idx p =
        version d.idx p ⊔ version s.daemon.idx p := by
    intro p
    rw [hidx]
    refine eq_of_forall_ge_iff fun u => ?_
    rw [hversion p u, manifest_version_le hmanifest, sup_le_iff]
  refine ⟨pullFromSession_result hall hsave, hend, hjoin, ?_⟩
  intro p e he hle
  have hpath := (hnode.keys p e he).1
  refine (hend.agrees p hpath).shows ?_
  rw [hjoin p, version_of_get he, sup_eq_right]
  exact hle

def freshEntry : Entry := { servedEntry [9, 1, 2, 3] with updatedAt := 2 }

def freshDaemon : Daemon :=
  { servingDaemon [9, 1, 2, 3] with idx := .set .empty freshEntry }

def freshTable : List (Header × Bytes) :=
  [(framedHeader newManifestReq, ascii "manifest_req"),
    (framedHeader (newManifest [freshEntry]), ascii "manifest"),
    (framedHeader (fullRequest freshEntry), ascii "file_req"),
    (framedHeader (basisRequest pullingConfig .plain freshEntry [1, 2, 3]), ascii "delta_req"),
    (framedHeader (newFileData (ascii "f") freshEntry [9, 1, 2, 3]), ascii "file_data"),
    (framedHeader (newDelta (ascii "f") freshEntry grownDelta), ascii "delta"),
    (framedHeader (newError []), ascii "error")]

def freshCodec : HeaderJson := tableCodec freshTable (by decide +kernel)

theorem freshDaemon_files : freshDaemon.idx.files = [freshEntry] := rfl

def freshServer : Server where
  cfg := standardConfig
  json := freshCodec
  md5 := paddedDigest 16
  host := .plain
  daemon := freshDaemon
  self := Handshakes.selfB
  listed := [freshEntry]
  complete := freshDaemon_files ▸ List.Perm.refl _
  text _ := []

def onePath : PathSet where
  mem p := p = ascii "f"
  clean := by
    rintro p rfl
    decide +kernel
  apart := by
    rintro p q rfl rfl ⟨rest, hrest, heq⟩
    exact hrest (by simpa using heq)

theorem onePath_clean : CleanPath (ascii "f") := (cleanRel_ok (onePath.clean _ rfl)).2.2.2

theorem plain_working : Working .plain := ⟨rfl, fun _ => rfl, Host.plain_exact⟩

theorem servingDaemon_touches (data : Bytes) :
    Touches false (ascii "f") .empty (servingDaemon data).root :=
  @writeFileRoot_touches .plain .empty (ascii "f") (direct_of_linkFree Tree.empty_linkFree _)
    onePath_clean data 0o644

theorem servingDaemon_linkFree (data : Bytes) : (servingDaemon data).root.LinkFree :=
  (servingDaemon_touches data).linkFree Tree.empty_linkFree

theorem servingDaemon_file (data : Bytes) :
    fileAt (servingDaemon data).root (ascii "f") = some ⟨data, 1, 0o644⟩ := by
  obtain ⟨q, hloc⟩ := servingDaemon_locate data
  exact fileAt_eq_some.mpr
    (nodeAt_of_locate (direct_of_linkFree (servingDaemon_linkFree data) _) hloc)

/-- A node that has the one file and an entry that describes it. -/
theorem oneFile_nodeOk {data : Bytes} {e : Entry} {d : Daemon}
    (hidx : d.idx = .set .empty e) (hroot : d.root = (servingDaemon data).root)
    (hpath : e.path = ascii "f") (hproper : Proper e) (hlive : e.deleted = false)
    (hsize : e.size = data.length) (htime : e.modTime = 1)
    (hhash : e.hash = contentHash Hashes.plain.sha256 data) : NodeOk .plain onePath d := by
  have hget : ∀ p e', d.idx.get p = some e' → p = ascii "f" ∧ e' = e := by
    intro p e' he'
    by_cases hp : e.path = p
    · rw [Index.get_of_set hidx hp] at he'
      exact ⟨hp.symm.trans hpath, (Option.some.inj he').symm⟩
    · rw [hidx, Index.get_set_of_ne _ _ (Ne.symm hp)] at he'
      exact absurd he' (by simp)
  refine ⟨hroot ▸ servingDaemon_linkFree data, ?_, ?_⟩
  · intro p e' he'
    obtain ⟨rfl, rfl⟩ := hget p e' he'
    exact ⟨rfl, hproper⟩
  · rintro p rfl
    refine ⟨?_, fun hnone => ?_⟩
    · intro e' he' _
      obtain ⟨_, rfl⟩ := hget _ e' he'
      exact ⟨⟨data, 1, 0o644⟩, hroot ▸ found_file (servingDaemon_file data), hsize, htime, hhash⟩
    · rw [liveEntry_eq_none.mp hnone e (Index.get_of_set hidx hpath)] at hlive
      exact absurd hlive (by simp)

theorem fresh_nodeOk : NodeOk .plain onePath freshDaemon :=
  oneFile_nodeOk rfl rfl rfl ⟨by decide, by decide, by decide, by decide⟩ rfl rfl rfl rfl

theorem stale_ready : Ready .plain onePath (servingDaemon [1, 2, 3]) := by
  refine ⟨oneFile_nodeOk rfl rfl rfl ⟨by decide, by decide, by decide, by decide⟩ rfl rfl rfl rfl,
    ?_⟩
  rintro p rfl dir base hnames q hq
  have hone : (pathNames (ascii "f")).map List.length = some 1 := by decide +kernel
  rw [hnames] at hone
  have hdir : dir = [] := by simpa using hone
  rw [hdir] at hq
  rw [List.prefix_nil.mp hq]
  exact Or.inr (by simp)

theorem stale_roomy : Roomy .plain (servingDaemon [1, 2, 3]).root := by
  have hempty : Roomy .plain .empty := by
    intro dir
    refine ⟨0, by decide, ?_⟩
    rw [Tree.get_of_ne_nil _ (by simp)]
    rfl
  exact hempty.touched (servingDaemon_touches _) onePath_clean

theorem fresh_keeps (h : Header) : freshCodec.Keeps h :=
  Handshakes.tableCodec_keeps (by decide +kernel) h

theorem fresh_crosses {msg : Message} (hlen : msg.payload.length ≤ 1024)
    (hmem : framedHeader msg ∈ freshTable.map Prod.fst) : Crosses freshCodec msg :=
  ⟨fresh_keeps _, Handshakes.tableCodec_fits (by decide +kernel) hlen hmem⟩

theorem fresh_announced {e : Entry} {f : File} (h : Announced freshServer e f) :
    e = freshEntry ∧ f.bytes = [9, 1, 2, 3] := by
  obtain rfl := List.mem_singleton.mp h.listed
  have heq : some f = some ⟨[9, 1, 2, 3], 1, 0o644⟩ := h.file.symm.trans (servingDaemon_file _)
  exact ⟨rfl, by rw [Option.some.inj heq]⟩

theorem stale_bytes {g : File} (hg : fileAt (servingDaemon [1, 2, 3]).root (ascii "f") = some g) :
    g.bytes = [1, 2, 3] := by
  rw [servingDaemon_file] at hg
  rw [← Option.some.inj hg]

theorem fresh_conversant :
    Conversant freshServer pullingConfig .plain (servingDaemon [1, 2, 3]) where
  asked := fresh_crosses (by decide) (by simp [freshTable])
  listed := fresh_crosses (by simp [newManifest]) (by simp [freshTable, freshServer])
  full e f h := by
    obtain ⟨rfl, hbytes⟩ := fresh_announced h
    rw [hbytes]
    exact ⟨fresh_crosses (by decide) (by simp [freshTable]),
      fresh_crosses (by decide) (by simp [freshTable, freshEntry, servedEntry])⟩
  delta e f g h hg := by
    obtain ⟨rfl, hbytes⟩ := fresh_announced h
    rw [hbytes, stale_bytes hg]
    exact ⟨fresh_crosses (by decide +kernel) (by simp [freshTable]),
      fun _ _ => fresh_keeps _,
      fun _ _ => fresh_crosses (by simp [newError]) (by simp [freshTable, freshServer])⟩

theorem fresh_transferable :
    Transferable freshServer pullingConfig .plain (servingDaemon [1, 2, 3]) where
  allocates := by decide
  sized e he _ := by
    obtain rfl := List.mem_singleton.mp he
    exact ⟨by decide, by decide⟩
  identified e f g out h hg hrebuilt _ := by
    obtain ⟨rfl, hbytes⟩ := fresh_announced h
    rw [hbytes, stale_bytes hg] at hrebuilt
    obtain ⟨sig, hsig, happly⟩ := hrebuilt
    rw [basisSignature_own (by decide) (by decide) (by decide)] at hsig
    cases hsig
    have hown : DeltaBlocks.apply [1, 2, 3] (encodeBytes freshServer.md5
        (signBytes Hashes.plain.md5 [1, 2, 3] pullingConfig.blockSize) [9, 1, 2, 3]) =
        .ok [9, 1, 2, 3] := by
      decide +kernel
    rw [hown] at happly
    rw [hbytes]
    exact (Outcome.ok.inj happly).symm

theorem honest_session_completes_fresh :
    (pullFromServer freshServer pullingConfig .plain .plain (servingDaemon [1, 2, 3])
      fun _ => ⟨.plain, .plain, .plain⟩).result = .ok () ∧
    Shows .plain (pullFromServer freshServer pullingConfig .plain .plain (servingDaemon [1, 2, 3])
      fun _ => ⟨.plain, .plain, .plain⟩).daemon (ascii "f") freshEntry := by
  obtain ⟨hok, _, _, hshows⟩ := honest_session_completes freshServer pullingConfig .plain .plain
    (servingDaemon [1, 2, 3]) onePath (fun _ => ⟨.plain, .plain, .plain⟩) plain_working
    fresh_nodeOk stale_ready fresh_conversant fresh_transferable rfl
    (fun _ _ => ⟨plain_working, plain_working, plain_working⟩) fun _ _ => stale_roomy
  exact ⟨hok, hshows _ _ rfl (by decide +kernel)⟩

end TailSync.HonestSessions

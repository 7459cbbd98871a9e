import TailSync.JoinGossip
import TailSync.LwwJoins
import TailSync.PullSessions
import Mathlib.Data.Set.Finite.Range

/-!
A mesh of nodes that pull from each other. A complete pull joins, at every path, the
version the peer announces to the version of the puller, so the versions of one path
at all nodes are gossip over a linear order. Disks follow along: pulls keep disk and
index in agreement as long as no path is a directory on the way to another one. The
manifests arrive in any order, and the pulls come in any finite sequence. The disks
have no symbolic links, which are not synced.
-/
namespace TailSync.MeshConvergence

open ByteStrings Entries IndexMap SyncRoot RootEffects Scanning Transfers RemoteApply
open ApplyEffects ApplyRuns ObservedMeta LwwJoins PullSessions Runs JoinGossip
open FileTrees (Tree)
open RelativePaths (CleanPath cleanRel cleanRel_ok elements)

/-- One pull: from which node into which, the entries in the order of the manifest
with the outside of each apply, and the system while the index is saved. -/
structure Pull (ι : Type*) where
  src : ι
  dst : ι
  entries : List (Entry × EntryEnv)
  host : Host

/-- A complete pull: all entries of the peer are announced, each apply returns
without an error, and modes and times are kept exactly. -/
structure PullStep {ι : Type*} [DecidableEq ι] (cfg : ι → Config) (hs : Hashes)
    (s : ι → Daemon) (a : Pull ι) (s' : ι → Daemon) : Prop where
  manifest : (s a.src).idx.IsManifest (a.entries.map Prod.fst)
  exact : ∀ x ∈ a.entries, x.2.apply.decideHost.Exact ∧ x.2.apply.commitHost.Exact
  succeeds : AllApplied (cfg a.dst) hs (s a.dst) a.entries
  result : s' = Function.update s a.dst
    (pullFromSession (cfg a.dst) hs a.host (s a.dst) (.ok a.entries)).daemon

structure PathSet where
  mem : Bytes → Prop
  clean : ∀ p, mem p → cleanRel p = .ok p
  apart : ∀ p q, mem p → mem q → ¬ DirPrefix p q

/-- A node whose entries are proper and lie on these paths, and on each of them agree
with the disk. -/
structure NodeOk (hs : Hashes) (P : PathSet) (d : Daemon) : Prop where
  linkFree : d.root.LinkFree
  keys : ∀ p e, d.idx.get p = some e → P.mem p ∧ Proper e
  agrees : ∀ p, P.mem p → Agrees hs d p

section Applies
variable {cfg : Config} {hs : Hashes} {P : PathSet} {d : Daemon} {re : Entry}

/-- A successful apply joins the entry to the version of its path and leaves every
other path of the set as it was. -/
theorem applyRemote_joins (hd : NodeOk hs P d) (hpath : P.mem re.path) (hre : Proper re)
    {env : ApplyEnv} (hexact : env.decideHost.Exact ∧ env.commitHost.Exact) {changed : Bool}
    (hok : (applyRemote cfg hs env d re).2 = .ok changed) :
    NodeOk hs P (applyRemote cfg hs env d re).1 ∧
    version (applyRemote cfg hs env d re).1.idx re.path =
      version d.idx re.path ⊔ coarseKey re ∧
    ∀ q, q ≠ re.path →
      version (applyRemote cfg hs env d re).1.idx q = version d.idx q := by
  rcases applyRemote_section cfg hs env d re with
    ⟨_, hno⟩ | ⟨h, rel, content, r, hhost, hrel, hcleanPath, _, hrun, hver, hout⟩
  · exact absurd hok (hno changed)
  · rw [P.clean _ hpath] at hrel
    cases hrel
    have hr : r = .ok changed := by
      rw [hok] at hout
      cases r with
      | ok b =>
        cases hout
        rfl
      | error e => exact absurd hout (by simp [outcome])
    subst hr
    have hexact : h.Exact := by
      rcases hhost with rfl | rfl
      · exact hexact.1
      · exact hexact.2
    generalize (applyRemote cfg hs env d re).1 = d' at hrun ⊢
    have hdirect : ∀ q, Direct d.root q := direct_of_linkFree hd.linkFree
    obtain ⟨hsettles, _⟩ := ended_settles hrun.ended hexact hcleanPath (.of_direct (hdirect _)) hver
      hre (hd.agrees _ hpath)
    obtain ⟨heff, htouch⟩ := hrun.ended.effect (hdirect _) hcleanPath
    have hfree' : d'.root.LinkFree := htouch.linkFree hd.linkFree
    have hget : ∀ q, q ≠ re.path → d'.idx.get q = d.idx.get q := fun q hq => heff.get_ne hq
    refine ⟨⟨hfree', ?_, ?_⟩, hsettles.version, ?_⟩
    · intro p e he
      by_cases hp : p = re.path
      · subst hp
        cases hsettles with
        | kept same _ =>
          rw [same] at he
          exact hd.keys _ _ he
        | stored get _ proper _ _ =>
          rw [get] at he
          cases he
          exact ⟨hpath, proper⟩
      · rw [hget p hp] at he
        exact hd.keys _ _ he
    · intro p hp
      by_cases hpre : p = re.path
      · subst hpre
        exact hsettles.agrees (hd.agrees _ hp)
      · have hres := not_reserved_names (cleanRel_ok (P.clean p hp)).2.2.2
        refine ⟨?_, ?_⟩
        · intro e he hlive
          rw [hget p hpre] at he
          obtain ⟨f, hf, hrest⟩ := (hd.agrees p hp).live e he hlive
          rw [found_eq_nodeAt (hdirect p), ← fileAt_eq_some] at hf
          exact ⟨f, found_file (htouch.fileAt_of_some hpre hf), hrest⟩
        · intro hdead
          unfold liveEntry at hdead
          rw [hget p hpre] at hdead
          have hnone := (hd.agrees p hp).free hdead
          rw [found_eq_nodeAt (hdirect p)] at hnone
          rw [found_eq_nodeAt (direct_of_linkFree hfree' p)]
          exact htouch.nodeAt_none hpre (P.apart p re.path hp hpath) hres hnone
    · intro q hq
      simp [version, hget q hq]

/-- After all entries of a manifest have been applied, the version of each path is the
least one above its old version and the announced entries for the path. -/
theorem applyAll_joins {entries : List (Entry × EntryEnv)} (hd : NodeOk hs P d)
    (hentries : ∀ x ∈ entries, P.mem x.1.path ∧ Proper x.1)
    (hexact : ∀ x ∈ entries, x.2.apply.decideHost.Exact ∧ x.2.apply.commitHost.Exact)
    (hall : AllApplied cfg hs d entries) :
    NodeOk hs P (applyAll cfg hs d entries) ∧
    ∀ p u, version (applyAll cfg hs d entries).idx p ≤ u ↔
      version d.idx p ≤ u ∧ ∀ x ∈ entries, x.1.path = p → (coarseKey x.1 : WithBot _) ≤ u := by
  induction entries generalizing d with
  | nil => exact ⟨hd, fun p u => by simp [applyAll]⟩
  | cons x rest ih =>
    obtain ⟨remote, env⟩ := x
    obtain ⟨_, ⟨changed, hok⟩, hrest⟩ := hall
    obtain ⟨hpath, hre⟩ := hentries _ (List.mem_cons_self ..)
    obtain ⟨hd', hself, hother⟩ :=
      applyRemote_joins hd hpath hre (hexact _ (List.mem_cons_self ..)) hok
    obtain ⟨hlast, hversion⟩ := ih hd' (fun y hy => hentries y (List.mem_cons_of_mem _ hy))
      (fun y hy => hexact y (List.mem_cons_of_mem _ hy)) hrest
    refine ⟨hlast, ?_⟩
    intro p u
    simp only [applyAll, List.foldl_cons, List.forall_mem_cons] at hversion ⊢
    rw [hversion p u]
    by_cases hp : p = remote.path
    · subst hp
      rw [hself, sup_le_iff, and_assoc]
      simp
    · rw [hother p hp]
      have hne : remote.path ≠ p := Ne.symm hp
      simp [hne]

theorem NodeOk.of_eq {d' : Daemon} (hd : NodeOk hs P d) (hidx : d'.idx = d.idx)
    (hroot : d'.root = d.root) : NodeOk hs P d' := by
  refine ⟨?_, ?_, ?_⟩
  · rw [hroot]
    exact hd.linkFree
  · rw [hidx]
    exact hd.keys
  · intro p hp
    refine ⟨?_, ?_⟩
    · rw [hidx, hroot]
      exact (hd.agrees p hp).live
    · rw [hidx, hroot]
      exact (hd.agrees p hp).free

end Applies

section Pulls
variable {ι : Type*} [DecidableEq ι] {cfg : ι → Config} {hs : Hashes} {P : PathSet}

/-- What a manifest says about one path. -/
theorem manifest_version_le {idx : Index} {entries : List (Entry × EntryEnv)}
    (hmanifest : idx.IsManifest (entries.map Prod.fst)) (p : Bytes) (u : WithBot CoarseKey) :
    (∀ x ∈ entries, x.1.path = p → (coarseKey x.1 : WithBot _) ≤ u) ↔ version idx p ≤ u := by
  constructor
  · intro hentries
    cases hget : idx.get p with
    | none => simp [version, hget]
    | some e =>
      obtain ⟨hmem, hpath⟩ := Index.get_eq_some_iff.mp hget
      obtain ⟨x, hx, rfl⟩ := List.mem_map.mp (hmanifest.mem_iff.mpr hmem)
      rw [version_of_get hget]
      exact hentries x hx hpath
  · rintro hversion x hx rfl
    have hmem : x.1 ∈ idx.files := hmanifest.mem_iff.mp (List.mem_map_of_mem hx)
    rwa [version_of_get (Index.get_of_mem hmem)] at hversion

/-- A complete pull is an exchange at every path. -/
theorem pull_exchanges {s s' : ι → Daemon} {a : Pull ι} (hs₀ : ∀ i, NodeOk hs P (s i))
    (hstep : PullStep cfg hs s a s') :
    (∀ i, NodeOk hs P (s' i)) ∧
    ∀ p, (fun i => version (s' i).idx p) =
      exchange (fun i => version (s i).idx p) (a.src, a.dst) := by
  obtain ⟨hidx, hroot⟩ := pullFromSession_complete (h := a.host) hstep.succeeds
  have hentries : ∀ x ∈ a.entries, P.mem x.1.path ∧ Proper x.1 := by
    intro x hx
    have hmem : x.1 ∈ (s a.src).idx.files :=
      hstep.manifest.mem_iff.mp (List.mem_map_of_mem hx)
    exact (hs₀ a.src).keys _ _ (Index.get_of_mem hmem)
  obtain ⟨hall, hversion⟩ := applyAll_joins (hs₀ a.dst) hentries hstep.exact hstep.succeeds
  have hother : ∀ i, i ≠ a.dst → s' i = s i := by
    intro i hi
    rw [hstep.result, Function.update_of_ne hi]
  have hself : s' a.dst =
      (pullFromSession (cfg a.dst) hs a.host (s a.dst) (.ok a.entries)).daemon := by
    rw [hstep.result, Function.update_self]
  refine ⟨?_, ?_⟩
  · intro i
    by_cases hi : i = a.dst
    · subst hi
      rw [hself]
      exact hall.of_eq hidx hroot
    · rw [hother i hi]
      exact hs₀ i
  · intro p
    funext i
    by_cases hi : i = a.dst
    · subst hi
      rw [hself, hidx]
      simp only [exchange, Function.update_self]
      refine eq_of_forall_ge_iff fun u => ?_
      rw [hversion p u, manifest_version_le hstep.manifest, sup_le_iff]
    · simp only [exchange, Function.update_of_ne hi, hother i hi]

/-- The versions of one path in a run of complete pulls are gossip. -/
theorem pulls_gossip {s₀ s : ι → Daemon} {pulls : List (Pull ι)} (hs₀ : ∀ i, NodeOk hs P (s₀ i))
    (hrun : Run (PullStep cfg hs) s₀ pulls s) :
    (∀ i, NodeOk hs P (s i)) ∧
    ∀ p, (fun i => version (s i).idx p) =
      gossip (fun i => version (s₀ i).idx p) (pulls.map fun a => (a.src, a.dst)) := by
  induction hrun with
  | nil s => exact ⟨hs₀, fun p => rfl⟩
  | cons hstep _ ih =>
    obtain ⟨hnext, hexchange⟩ := pull_exchanges hs₀ hstep
    obtain ⟨hlast, hgossip⟩ := ih hnext
    refine ⟨hlast, ?_⟩
    intro p
    rw [hgossip p, hexchange p]
    rfl

def Held (s : ι → Daemon) (p : Bytes) (e : Entry) : Prop := ∃ i, (s i).idx.get p = some e

omit [DecidableEq ι] in
theorem held_finite [Finite ι] (s : ι → Daemon) (p : Bytes) : {e | Held s p e}.Finite := by
  have hrange : (Set.range fun i => (s i).idx.get p).Finite := Set.finite_range _
  refine (hrange.preimage (Option.some_injective _).injOn).subset ?_
  rintro o ⟨i, hi⟩
  exact ⟨i, hi⟩

omit [DecidableEq ι] in
/-- No node holds a later version of the path than one with a winner. -/
theorem version_le_winner {s : ι → Daemon} {p : Bytes} {w : Entry} {i : ι}
    (hw : IsWinner (Held s p) w) (hi : (s i).idx.get p = some w) (j : ι) :
    version (s j).idx p ≤ version (s i).idx p := by
  rw [version_of_get hi]
  cases hget : (s j).idx.get p with
  | none => simp [version, hget]
  | some o =>
    rw [version_of_get hget, WithBot.coe_le_coe]
    exact hw.coarse_le ⟨j, hget⟩

/-- Mesh convergence. Nodes whose indexes agree with their disks, on paths that CleanRel
keeps and that do not lead through each other, make complete pulls in any order; once
every node has been reached from every other by a chain of pulls, each path at every
node shows the entry that no other beats, of all entries first held for it, and the
bytes that belong to it, up to collisions of SHA-256. -/
theorem mesh_converges [Finite ι] {s₀ s : ι → Daemon} {pulls : List (Pull ι)}
    (hlinks : ∀ i, (s₀ i).root.LinkFree)
    (hclean : ∀ p e, Held s₀ p e → cleanRel p = .ok p)
    (hapart : ∀ p e q e', Held s₀ p e → Held s₀ q e' → ¬ DirPrefix p q)
    (hproper : ∀ p e, Held s₀ p e → Proper e)
    (hagrees : ∀ i p e, Held s₀ p e → Agrees hs (s₀ i) p)
    (hrun : Run (PullStep cfg hs) s₀ pulls s)
    (hchains : ∀ a b, a ≠ b → Chain (pulls.map fun x => (x.src, x.dst)) a b) :
    (∀ p, (∀ e, ¬ Held s₀ p e) → ∀ i, (s i).idx.get p = none) ∧
    ∀ p e, Held s₀ p e → ∃ w, IsWinner (Held s₀ p) w ∧ ∀ i, Shows hs (s i) p w ∧
      ∀ i₀ f₀, (s₀ i₀).idx.get p = some w → found (s₀ i₀).root p = some (.file f₀) →
        w.deleted = false → ∃ f, found (s i).root p = some (.file f) ∧
          (f.bytes = f₀.bytes ∨
            f.bytes ≠ f₀.bytes ∧ contentHash hs.sha256 f.bytes = contentHash hs.sha256 f₀.bytes) := by
  let P : PathSet :=
    ⟨fun p => ∃ e, Held s₀ p e, fun p ⟨e, he⟩ => hclean p e he,
      fun p q ⟨e, he⟩ ⟨e', he'⟩ => hapart p e q e' he he'⟩
  have hstart : ∀ i, NodeOk hs P (s₀ i) := by
    intro i
    refine ⟨hlinks i, ?_, ?_⟩
    · intro p e he
      exact ⟨⟨e, i, he⟩, hproper p e ⟨i, he⟩⟩
    · rintro p ⟨e, he⟩
      exact hagrees i p e he
  obtain ⟨hend, hgossip⟩ := pulls_gossip hstart hrun
  refine ⟨?_, ?_⟩
  · intro p hnone i
    by_contra hsome
    obtain ⟨e, he⟩ := Option.ne_none_iff_exists'.mp hsome
    obtain ⟨⟨e', he'⟩, _⟩ := (hend i).keys p e he
    exact hnone e' he'
  · intro p e he
    obtain ⟨w, hw⟩ := exists_winner (held_finite s₀ p) he
    obtain ⟨i₀, hi₀⟩ := hw.1
    refine ⟨w, hw, ?_⟩
    intro i
    have hreached : ∀ a, Chain (pulls.map fun x => (x.src, x.dst)) a i := by
      intro a
      by_cases hai : a = i
      · rw [hai]
        exact .refl _ _
      · exact hchains a i hai
    have hversion : version (s i).idx p = coarseKey w := by
      rw [← version_of_get hi₀]
      exact (congrFun (hgossip p) i).trans
        (gossip_eq_of_chains hreached (version_le_winner hw hi₀))
    have hshows : Shows hs (s i) p w := ((hend i).agrees p ⟨e, he⟩).shows hversion
    refine ⟨hshows, ?_⟩
    intro i₁ f₀ hi₁ hf₀ hlive
    obtain ⟨f, hf, hhash⟩ := hshows.bytes hlive
    obtain ⟨f₁, hf₁, _, _, hhash₁⟩ := (hagrees i₁ p e he).live w hi₁ hlive
    rw [hf₀] at hf₁
    cases hf₁
    refine ⟨f, hf, ?_⟩
    by_cases hsame : f.bytes = f₀.bytes
    · exact Or.inl hsame
    · exact Or.inr ⟨hsame, hhash.trans hhash₁⟩

end Pulls

def scannedEntry (p : Bytes) : Entry :=
  ⟨p, 1, 1, 0o644, contentHash Hashes.plain.sha256 (ascii "x"), false, 0, 1⟩

def pair (paths : List Bytes) (root : Root) : Bool → Daemon
  | true => (reconcile Config.plain Hashes.plain.sha256 .plain
      ⟨.empty, paths.foldl (fun t p => (writeFileRoot .plain t p (ascii "x") 0o644).1) .empty, 0,
        .empty⟩).1
  | false => ⟨.empty, root, 0, .empty⟩

def pairPull (s : Bool → Daemon) (src dst : Bool) : Pull Bool where
  src := src
  dst := dst
  entries := (s src).idx.files.map fun e =>
    (e, ⟨false, ⟨.plain, .plain, .plain, .serving (ascii "x")⟩⟩)
  host := .plain

def afterPull (s : Bool → Daemon) (a : Pull Bool) : Bool → Daemon :=
  Function.update s a.dst
    (pullFromSession Config.plain Hashes.plain a.host (s a.dst) (.ok a.entries)).daemon

theorem pairPull_step {s : Bool → Daemon} {src dst : Bool}
    (hall : AllApplied Config.plain Hashes.plain (s dst) (pairPull s src dst).entries) :
    PullStep (fun _ => Config.plain) Hashes.plain s (pairPull s src dst)
      (afterPull s (pairPull s src dst)) := by
  refine ⟨?_, ?_, hall, rfl⟩
  · simp [Index.IsManifest, pairPull, Function.comp_def]
  · intro x hx
    obtain ⟨e, _, rfl⟩ := List.mem_map.mp hx
    exact ⟨Host.plain_exact, Host.plain_exact⟩

def exchanged (s : Bool → Daemon) : Bool → Daemon :=
  let s' := afterPull s (pairPull s true false)
  afterPull s' (pairPull s' false true)

theorem exchanged_run {s : Bool → Daemon}
    (hfirst : AllApplied Config.plain Hashes.plain (s false) (pairPull s true false).entries)
    (hsecond : AllApplied Config.plain Hashes.plain (afterPull s (pairPull s true false) true)
      (pairPull (afterPull s (pairPull s true false)) false true).entries) :
    ∃ pulls, Run (PullStep (fun _ => Config.plain) Hashes.plain) s pulls (exchanged s) ∧
      ∀ a b, a ≠ b → Chain (pulls.map fun x => (x.src, x.dst)) a b := by
  refine ⟨_, .cons (pairPull_step hfirst) (.single (pairPull_step hsecond)), ?_⟩
  rintro (_ | _) (_ | _) hne
  · exact absurd rfl hne
  · exact .skip _ (.hop (.refl _ _))
  · exact .hop (.refl _ _)
  · exact absurd rfl hne

theorem pair_held {paths : List Bytes} {root : Root}
    (hfiles : (pair paths root true).idx.files = paths.map scannedEntry) {p : Bytes} {e : Entry}
    (he : Held (pair paths root) p e) : p ∈ paths ∧ e = scannedEntry p := by
  obtain ⟨_ | _, hi⟩ := he
  · exact absurd hi (by simp [pair])
  · obtain ⟨hmem, hpath⟩ := Index.get_eq_some_iff.mp hi
    rw [hfiles, List.mem_map] at hmem
    obtain ⟨q, hq, rfl⟩ := hmem
    cases hpath
    exact ⟨hq, rfl⟩

theorem not_dirPrefix {p q : Bytes} (hlen : (elements q).length ≤ (elements p).length) :
    ¬ DirPrefix p q := by
  rintro ⟨rest, hrest, heq⟩
  have hpos := List.length_pos_of_ne_nil hrest
  rw [heq, List.length_append] at hlen
  omega

theorem scannedEntry_proper (p : Bytes) : Proper (scannedEntry p) :=
  ⟨one_ne_zero, one_ne_zero, by simp [scannedEntry], by simp only [scannedEntry]; decide⟩

theorem mesh_converges_pair :
    ∃ s pulls,
      Run (PullStep (fun _ => Config.plain) Hashes.plain) (pair [ascii "a"] .empty) pulls s ∧
      ∀ i, Shows Hashes.plain (s i) (ascii "a") (scannedEntry (ascii "a")) := by
  obtain ⟨pulls, hrun, hchains⟩ :=
    exchanged_run (s := pair [ascii "a"] .empty) (by decide +kernel) (by decide +kernel)
  have hpath : ∀ {p e}, Held (pair [ascii "a"] .empty) p e →
      p = ascii "a" ∧ e = scannedEntry p := by
    intro p e he
    obtain ⟨hp, he⟩ := pair_held (by decide +kernel) he
    exact ⟨List.mem_singleton.mp hp, he⟩
  have hclean : cleanRel (ascii "a") = .ok (ascii "a") := by decide +kernel
  have hlinks : ∀ i, (pair [ascii "a"] .empty i).root.LinkFree := by
    rintro (_ | _)
    · exact Tree.empty_linkFree
    · exact (writeFileRoot_touches (direct_of_linkFree Tree.empty_linkFree _)
        (cleanRel_ok hclean).2.2.2 _ _).linkFree Tree.empty_linkFree
  have hagrees : ∀ i, Agrees Hashes.plain (pair [ascii "a"] .empty i) (ascii "a") := by
    rintro (_ | _)
    · exact ⟨fun e he => absurd he (by simp [pair]), fun _ => by decide +kernel⟩
    · refine ⟨?_, fun hnone => absurd hnone (by decide +kernel)⟩
      intro e he _
      obtain ⟨_, rfl⟩ := hpath ⟨true, he⟩
      exact ⟨⟨ascii "x", 1, 0o644⟩, by decide +kernel, rfl, rfl, rfl⟩
  obtain ⟨_, hall⟩ := mesh_converges hlinks
    (fun p e he => (hpath he).1 ▸ hclean)
    (fun p e q e' he he' => by
      rw [(hpath he).1, (hpath he').1]
      exact not_dirPrefix le_rfl)
    (fun p e he => (hpath he).2 ▸ scannedEntry_proper p)
    (fun i p e he => (hpath he).1 ▸ hagrees i) hrun hchains
  obtain ⟨w, hw, hshows⟩ := hall (ascii "a") (scannedEntry (ascii "a")) ⟨true, rfl⟩
  obtain ⟨_, rfl⟩ := hpath hw.1
  exact ⟨_, _, hrun, fun i => (hshows i).1⟩

/-- What the nodes start with when a path without a live entry has no file, but may have
a directory or lie behind a link. -/
structure FileAgreement (s : Bool → Daemon) : Prop where
  clean : ∀ p e, Held s p e → cleanRel p = .ok p
  apart : ∀ p e q e', Held s p e → Held s q e' → ¬ DirPrefix p q
  proper : ∀ p e, Held s p e → Proper e
  agree : ∀ i p e, Held s p e → FilesAgree Hashes.plain (s i) p

theorem pair_fileAgreement {paths : List Bytes} {root : Root}
    (hfiles : (pair paths root true).idx.files = paths.map scannedEntry)
    (hpaths : ∀ p ∈ paths, cleanRel p = .ok p ∧
      found (pair paths root true).root p = some (.file ⟨ascii "x", 1, 0o644⟩) ∧
      liveEntry (pair paths root true).idx p = some (scannedEntry p) ∧
      FileTrees.Node.asFile (found root p) = none)
    (hdepth : ∀ p ∈ paths, ∀ q ∈ paths, (elements q).length ≤ (elements p).length) :
    FileAgreement (pair paths root) := by
  refine ⟨?_, ?_, ?_, ?_⟩
  · intro p e he
    exact (hpaths p (pair_held hfiles he).1).1
  · intro p e q e' he he'
    exact not_dirPrefix (hdepth p (pair_held hfiles he).1 q (pair_held hfiles he').1)
  · intro p e he
    rw [(pair_held hfiles he).2]
    exact scannedEntry_proper p
  · intro i p e he
    obtain ⟨_, hfile, hlive, hfree⟩ := hpaths p (pair_held hfiles he).1
    cases i with
    | false =>
      refine ⟨fun e' he' => absurd he' (by simp [pair]), ?_⟩
      intro _ f hf
      have hsome : FileTrees.Node.asFile (found root p) = some f :=
        FileTrees.Node.asFile_eq_some.mpr hf
      rw [hfree] at hsome
      exact absurd hsome (by simp)
    | true =>
      refine ⟨?_, fun hnone => absurd (hlive.symm.trans hnone) (by simp)⟩
      intro e' he' _
      obtain ⟨_, rfl⟩ := pair_held hfiles ⟨true, he'⟩
      exact ⟨_, hfile, rfl, rfl, rfl⟩

def dirRoot (name : Bytes) : Root :=
  match pathNames name with
  | some names => (Tree.empty.mkdirAll maxSymlinks names).1
  | none => .empty

def linkedRoot : Root :=
  let linked := do
    let target ← fileName (ascii "e")
    let names ← pathNames (ascii "d")
    (dirRoot (ascii "e")).put names (.link (some [.down target]))
  linked.getD .empty

/-- A link or a directory keeps an entry out for good. Written through the link d, the
file d/x is also the file e/x, for which the index has no entry; and over an empty
directory no file is written. No call fails, and the nodes end with different indexes. -/
theorem link_or_dir_keeps_entry_out :
    (FileAgreement (pair [ascii "d/x", ascii "e/x"] linkedRoot) ∧
      (∃ pulls, Run (PullStep (fun _ => Config.plain) Hashes.plain)
          (pair [ascii "d/x", ascii "e/x"] linkedRoot) pulls
          (exchanged (pair [ascii "d/x", ascii "e/x"] linkedRoot)) ∧
        ∀ a b, a ≠ b → Chain (pulls.map fun x => (x.src, x.dst)) a b) ∧
      (exchanged (pair [ascii "d/x", ascii "e/x"] linkedRoot) true).idx.get (ascii "e/x") =
        some (scannedEntry (ascii "e/x")) ∧
      (exchanged (pair [ascii "d/x", ascii "e/x"] linkedRoot) false).idx.get (ascii "e/x") =
        none) ∧
    FileAgreement (pair [ascii "a"] (dirRoot (ascii "a"))) ∧
    (∃ pulls, Run (PullStep (fun _ => Config.plain) Hashes.plain)
        (pair [ascii "a"] (dirRoot (ascii "a"))) pulls
        (exchanged (pair [ascii "a"] (dirRoot (ascii "a")))) ∧
      ∀ a b, a ≠ b → Chain (pulls.map fun x => (x.src, x.dst)) a b) ∧
    (exchanged (pair [ascii "a"] (dirRoot (ascii "a"))) true).idx.get (ascii "a") =
      some (scannedEntry (ascii "a")) ∧
    (exchanged (pair [ascii "a"] (dirRoot (ascii "a"))) false).idx.get (ascii "a") = none := by
  refine ⟨⟨?_, ?_, ?_, ?_⟩, ?_, ?_, ?_, ?_⟩
  · exact pair_fileAgreement (by decide +kernel) (by decide +kernel) (by decide +kernel)
  · exact exchanged_run (by decide +kernel) (by decide +kernel)
  · decide +kernel
  · decide +kernel
  · exact pair_fileAgreement (by decide +kernel) (by decide +kernel) (by decide +kernel)
  · exact exchanged_run (by decide +kernel) (by decide +kernel)
  · decide +kernel
  · decide +kernel

end TailSync.MeshConvergence

import TailSync.ApplyRuns
import Mathlib.Data.Set.Basic
import Mathlib.Logic.Relation

/-!
Deletions and the collection of tombstones. Nodes announce what is in their indexes, and a
call is about an entry that some node announced at some time, however long ago. Tombstones
are collected by any clock. If no node has a live version of a path, on disk, in its index or
under way, then no order of the steps brings one back, unless a user makes the file anew: a
collected tombstone leaves nothing behind that could win. The path is meant with all its
spellings, since CleanRel maps several to one.
-/
namespace TailSync.FinalDeletions

open ByteStrings Entries IndexMap SyncRoot RootEffects Scanning Transfers RemoteApply
open ApplyEffects ApplyRuns Runs
open RelativePaths (cleanRel CleanPath)

variable {κ ι : Type*} [DecidableEq κ] [DecidableEq ι]

/-- The nodes, and every entry that one of them has announced. -/
structure Mesh (κ ι : Type*) where
  nodes : κ → NodeState ι
  sent : Set Entry

inductive MeshAction (κ ι : Type*) where
  | announce (i : κ)
  | act (i : κ) (a : Action ι)

/-- CleanRel, applied once or several times, takes the second path to the first. -/
def Leads (p q : Bytes) : Prop := Relation.ReflTransGen (fun a b => cleanRel a = .ok b) q p

def NoFile (p : Bytes) (t : Root) : Prop := ∀ q f, Leads p q → ¬ Recorded t q f

def Spares (p : Bytes) (e : Entry) : Prop := e.deleted = false → ¬ Leads p e.path

/-- One step. Users do whatever they like but make the file. -/
inductive MeshMove (cfg : κ → Config) (hs : Hashes) (p : Bytes) :
    Mesh κ ι → MeshAction κ ι → Mesh κ ι → Prop
  | announce {m : Mesh κ ι} {i : κ} :
      MeshMove cfg hs p m (.announce i)
        { m with sent := m.sent ∪ {e | ∃ q, (m.nodes i).daemon.idx.get q = some e} }
  | act {m : Mesh κ ι} {i : κ} {a : Action ι} {s : NodeState ι}
      (step : step (cfg i) hs (m.nodes i) a = some s)
      (announced : ∀ k remote, a = .call k remote → remote ∈ m.sent)
      (edited : ∀ root, a = .edit root → root.LinkFree ∧ NoFile p root) :
      MeshMove cfg hs p m (.act i a) { m with nodes := Function.update m.nodes i s }

/-- The node has no live version of the path, and is not fetching one. -/
structure Gone (p : Bytes) (s : NodeState ι) : Prop where
  disk : NoFile p s.daemon.root
  idx : ∀ q e, s.daemon.idx.get q = some e → Spares p e
  calls : ∀ k, (s.calls k).Serves (Spares p)

section Step
variable {cfg : Config} {hs : Hashes} {p : Bytes} {s s' : NodeState ι} {a : Action ι}

theorem Announced.spares {re : Entry} (h : Announced (Spares p) re) : Spares p re := by
  obtain ⟨remote, rel, hspares, hrel, rfl⟩ := h
  intro hlive hleads
  exact hspares hlive (.head hrel hleads)

/-- A section about an entry that spares the path leaves no file there. -/
theorem noFile_of_effect {h : Host} {re : Entry} {content : Option (Bytes × Bytes)}
    {d d' : Daemon} {r : Except ApplyError Bool} (hspares : Spares p re)
    (heff : Effect h re content d d' r)
    (htouch : Touches (h.fails .cleanup) re.path d.root d'.root)
    (hver : Verified cfg hs re content) (hd : NoFile p d.root) : NoFile p d'.root := by
  intro q f hleads hrec
  by_cases hq : q = re.path
  · subst hq
    have hnone : fileAt d.root re.path = none := by
      cases hfile : fileAt d.root re.path with
      | none => rfl
      | some g => exact absurd ⟨hfile, hrec.2⟩ (hd _ g hleads)
    have hfile := fileAt_eq_some.mp hrec.1
    have hold : nodeAt d'.root re.path ≠ nodeAt d.root re.path := by
      intro heq
      rw [heq, ← fileAt_eq_some, hnone] at hfile
      exact absurd hfile (by simp)
    cases heff with
    | lost same _ _ => exact hold (by rw [same])
    | skipped same _ => exact hold (by rw [same])
    | failed _ node => exact hold node
    | retouched _ _ _ _ noFile => exact hold (noFile hnone)
    | tombstoned _ root _ _ _ => exact hold (by rw [root])
    | removed _ _ _ gone _ =>
      rw [gone] at hfile
      exact absurd hfile (by simp)
    | adopted _ _ alive _ _ _ _ _ _ _ => exact hspares alive hleads
    | written bytes _ _ _ _ => exact hspares (hver _ _ bytes).1 hleads
  · have hsame : fileAt d'.root q = fileAt d.root q :=
      htouch.fileAt_eq hq fun _ => not_reserved_of_path hrec.2
    exact hd q f hleads ⟨hsame ▸ hrec.1, hrec.2⟩

/-- What the section stores is the tombstone, or about another path. -/
theorem spares_of_effect {h : Host} {re : Entry} {content : Option (Bytes × Bytes)}
    {d d' : Daemon} {r : Except ApplyError Bool} (hspares : Spares p re)
    (heff : Effect h re content d d' r) (hver : Verified cfg hs re content)
    (hd : ∀ q e, d.idx.get q = some e → Spares p e) {q : Bytes} {e : Entry}
    (he : d'.idx.get q = some e) : Spares p e := by
  by_cases hq : q = re.path
  · subst hq
    have hpath : e.path = re.path := Index.get_path he
    have halive : re.deleted = false → Spares p e := fun hlive _ hleads =>
      hspares hlive (hpath ▸ hleads)
    have htomb : d'.idx = d.idx.set re → Spares p e := by
      intro hidx
      rw [hidx, Index.get_set_self] at he
      cases he
      exact hspares
    cases heff with
    | lost same _ _ => exact hd _ e (same ▸ he)
    | skipped same _ => exact hd _ e (same ▸ he)
    | failed idx _ => exact hd _ e (idx ▸ he)
    | retouched _ _ idx _ _ => exact hd _ e (idx ▸ he)
    | tombstoned _ _ _ _ idx => exact htomb idx
    | removed _ _ _ _ idx => exact htomb idx
    | adopted _ _ alive _ _ _ _ _ _ _ => exact halive alive
    | written bytes _ _ _ _ => exact halive (hver _ _ bytes).1
  · exact hd q e (heff.get_ne hq ▸ he)

/-- After a scan the live entries are those of recorded files. -/
theorem spares_of_reconcile {h : Host} {d : Daemon} (hdisk : NoFile p d.root)
    (hd : ∀ q e, d.idx.get q = some e → Spares p e) {q : Bytes} {e : Entry}
    (he : (reconcile cfg hs.sha256 h d).1.idx.get q = some e) : Spares p e := by
  cases hscan : scan hs.sha256 h.now h d.root d.idx with
  | error err =>
    rw [reconcile_failed hscan] at he
    exact hd q e he
  | ok res =>
    intro hlive hleads
    rcases reconcile_live_cases hscan he hlive with hold | ⟨f, hrec, _⟩
    · exact hd q e hold hlive hleads
    · exact hdisk q f (Index.get_path he ▸ hleads) hrec

theorem Gone.next (hv : s.Valid cfg hs) (hgone : Gone p s) (hstep : step cfg hs s a = some s')
    (hcall : ∀ k remote, a = .call k remote → Spares p remote)
    (hedit : ∀ root, a = .edit root → root.LinkFree ∧ NoFile p root) :
    s'.Valid cfg hs ∧ Gone p s' := by
  have hstepped := step_stepped hv.calls hstep
  have hserves := hstepped.serves hcall hgone.calls
  have hsound := hstepped.sound hv.calls
  cases step_moves hv hstep with
  | quiet daemon _ =>
    refine ⟨⟨by rw [daemon]; exact hv.linkFree, hsound⟩, ⟨by rw [daemon]; exact hgone.disk, ?_,
      hserves⟩⟩
    rw [daemon]
    exact hgone.idx
  | applied _ concerns _ effect touches verified _ _ =>
    have hspares := Announced.spares (concerns.announced (hgone.calls _))
    exact ⟨⟨touches.linkFree hv.linkFree, hsound⟩,
      ⟨noFile_of_effect hspares effect touches verified hgone.disk,
        fun q e he => spares_of_effect hspares effect verified hgone.idx he, hserves⟩⟩
  | reconciled daemon _ =>
    have hroot : s'.daemon.root = s.daemon.root := by rw [daemon, reconcile_root]
    refine ⟨⟨hroot ▸ hv.linkFree, hsound⟩, ⟨hroot ▸ hgone.disk, fun q e he => ?_, hserves⟩⟩
    rw [daemon] at he
    exact spares_of_reconcile hgone.disk hgone.idx he
  | edited daemon _ =>
    obtain ⟨hfree, hnoFile⟩ := hedit _ rfl
    refine ⟨⟨by rw [daemon]; exact hfree, hsound⟩, ⟨by rw [daemon]; exact hnoFile, ?_, hserves⟩⟩
    rw [daemon]
    exact hgone.idx

end Step

/-- No node has a live version, and none has been announced. -/
structure AllGone (cfg : κ → Config) (hs : Hashes) (p : Bytes) (m : Mesh κ ι) : Prop where
  valid : ∀ i, (m.nodes i).Valid (cfg i) hs
  gone : ∀ i, Gone p (m.nodes i)
  sent : ∀ e ∈ m.sent, Spares p e

section Runs
variable {cfg : κ → Config} {hs : Hashes} {p : Bytes} {m m' : Mesh κ ι} {a : MeshAction κ ι}

theorem AllGone.next (h : AllGone cfg hs p m) (hstep : MeshMove cfg hs p m a m') :
    AllGone cfg hs p m' := by
  cases hstep with
  | announce =>
    refine ⟨h.valid, h.gone, ?_⟩
    rintro e (hold | ⟨q, hq⟩)
    · exact h.sent e hold
    · exact (h.gone _).idx q e hq
  | @act i _ s step announced edited =>
    have hnext := (h.gone i).next (h.valid i) step
      (fun k remote hcall => h.sent _ (announced k remote hcall)) edited
    refine ⟨fun j => ?_, fun j => ?_, h.sent⟩
    · by_cases hj : j = i
      · subst hj
        simpa using hnext.1
      · simpa [Function.update_of_ne hj] using h.valid j
    · by_cases hj : j = i
      · subst hj
        simpa using hnext.2
      · simpa [Function.update_of_ne hj] using h.gone j

end Runs

/-- Once no node has a live version of a path or is fetching one, none ever has again unless a
user makes the file, whichever tombstones are collected in between. -/
theorem deletion_is_final (cfg : κ → Config) (hs : Hashes) (p : Bytes) (m₀ m : Mesh κ ι)
    (as : List (MeshAction κ ι)) (hstart : AllGone cfg hs p m₀)
    (hrun : Run (MeshMove cfg hs p) m₀ as m) (i : κ) :
    (∀ f, ¬ Recorded (m.nodes i).daemon.root p f) ∧
      ∀ e, (m.nodes i).daemon.idx.get p = some e → e.deleted = true := by
  have hend : AllGone cfg hs p m := hrun.invariant (fun _ _ _ h hstep => h.next hstep) hstart
  refine ⟨fun f => (hend.gone i).disk p f .refl, fun e he => ?_⟩
  by_contra hlive
  exact (hend.gone i).idx p e he (by simpa using hlive) (Index.get_path he ▸ .refl)

def buried : Entry := ⟨ascii "a", 0, 0, 0, [], true, 5, 5⟩

def buriedNode : NodeState Unit := ⟨⟨.set .empty buried, .empty, 0, .empty⟩, fun _ => .idle⟩

def buriedMesh : Mesh Bool Unit := ⟨fun _ => buriedNode, ∅⟩

def forgetful : Config := { Config.plain with tombstoneTTL := 1 }

def laterHost : Host := { Host.plain with gcNow := 100 }

theorem buriedMesh_gone : AllGone (fun _ => forgetful) .plain (ascii "a") buriedMesh where
  valid _ := ⟨FileTrees.Tree.empty_linkFree, fun _ => trivial⟩
  gone _ := by
    refine ⟨?_, ?_, fun _ => trivial⟩
    · intro q f _ hrec
      have hwalk : walk buriedNode.daemon.root = [] := rfl
      have hmem := mem_walk.mpr hrec
      rw [show (buriedMesh.nodes _).daemon.root = buriedNode.daemon.root from rfl, hwalk] at hmem
      exact absurd hmem (by simp)
    · intro q e he hlive
      have hmem : e ∈ [buried] := Index.get_mem he
      rw [List.mem_singleton.mp hmem] at hlive
      exact absurd hlive (by simp [buried])
  sent e he := absurd he (by simp [buriedMesh])

def collectedMesh : Mesh Bool Unit :=
  { buriedMesh with
    nodes := Function.update buriedMesh.nodes false
      { buriedNode with daemon := (reconcile forgetful Hashes.plain.sha256 laterHost
          buriedNode.daemon).1 } }

/-- That node is then told of the deletion again by the other one. -/
theorem deletion_is_final_collected :
    (collectedMesh.nodes false).daemon.idx.get (ascii "a") = none ∧
    ∃ m : Mesh Bool Unit,
      Run (MeshMove (fun _ => forgetful) .plain (ascii "a")) buriedMesh
        [.act false (.reconcile laterHost), .announce true, .act false (.call () buried),
          .act false (.decide () .plain)] m ∧
      ∀ i e, (m.nodes i).daemon.idx.get (ascii "a") = some e → e.deleted = true := by
  refine ⟨by decide +kernel, ?_⟩
  have hrun : ∃ m : Mesh Bool Unit,
      Run (MeshMove (fun _ => forgetful) .plain (ascii "a")) buriedMesh
        [.act false (.reconcile laterHost), .announce true, .act false (.call () buried),
          .act false (.decide () .plain)] m := by
    refine ⟨_, .cons (t := collectedMesh) (.act rfl nofun nofun) (.cons .announce
      (.cons (.act rfl ?_ nofun) (.single (.act rfl nofun nofun))))⟩
    rintro k remote ⟨⟩
    exact Or.inr ⟨ascii "a", rfl⟩
  obtain ⟨m, hrun⟩ := hrun
  exact ⟨m, hrun, fun i => (deletion_is_final _ _ _ _ _ _ buriedMesh_gone hrun i).2⟩

end TailSync.FinalDeletions

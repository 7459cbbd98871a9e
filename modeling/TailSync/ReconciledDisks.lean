import TailSync.Scanning

/-!
A scan whose changes are applied makes the index describe the disk. With the clock
of the scan later than the zero time, live entries and recorded files correspond,
vanished files have tombstones, changed entries are stamped strictly later and
nothing else is touched; a second scan of the same tree then finds nothing to change.
-/
namespace TailSync.ReconciledDisks

open ByteStrings Entries IndexMap SyncRoot Scanning

/-- Live entries that match a recorded file in size and time carry its hash. -/
def HashesKnown (sha256 : Bytes → Digest 32) (t : Root) (idx : Index) : Prop :=
  ∀ p e f, idx.get p = some e → e.deleted = false → Recorded t p f →
    e.size = f.bytes.length → e.modTime = f.modTime → e.hash = contentHash sha256 f.bytes

structure Agrees (sha256 : Bytes → Digest 32) (e : Entry) (f : File) : Prop where
  live : e.deleted = false
  size : e.size = f.bytes.length
  modTime : e.modTime = f.modTime
  mode : e.mode = perm f.perm
  hash : e.hash = contentHash sha256 f.bytes

structure Describes (sha256 : Bytes → Digest 32) (t : Root) (idx : Index) : Prop where
  recorded : ∀ p f, Recorded t p f → ∃ e, idx.get p = some e ∧ Agrees sha256 e f
  live : ∀ p e, idx.get p = some e → e.deleted = false → ∃ f, Recorded t p f

/-- How an index may have been brought up to date at an instant, with the entries
that were stored on the way. -/
structure Updated (sha256 : Bytes → Digest 32) (t : Root) (now : Time) (idx idx' : Index)
    (applied : List Entry) : Prop where
  gone : ∀ p e, idx.get p = some e → e.deleted = false → (∀ f, ¬ Recorded t p f) →
    ∃ e', idx'.get p = some e' ∧ e'.deleted = true ∧ e'.hash = [] ∧ e'.size = 0
  later : ∀ p e', idx'.get p = some e' → idx.get p ≠ some e' →
    now ≤ e'.updatedAt ∧ ∀ e, idx.get p = some e → e.updatedAt < e'.updatedAt
  tombstones : ∀ p e, idx.get p = some e → e.deleted = true → (∀ f, ¬ Recorded t p f) →
    idx'.get p = some e
  agreeing : ∀ p e f, idx.get p = some e → Recorded t p f → Agrees sha256 e f →
    idx'.get p = some e
  paths : ∀ p, p ∈ applied.map Entry.path ↔ idx'.get p ≠ idx.get p
  stored : ∀ e ∈ applied, idx'.get e.path = some e
  once : (applied.map Entry.path).Nodup

section Scan
variable {sha256 : Bytes → Digest 32} {now : Time} {h : Host} {t : Root} {idx : Index}
  {res : ScanResult}

/-- The hash of a recorded file is the right one, computed or not. -/
theorem HashesKnown.diskHash (hknown : HashesKnown sha256 t idx) {p : Bytes} {f : File}
    (hf : Recorded t p f) : diskHash sha256 idx p f = contentHash sha256 f.bytes := by
  rcases diskHash_cases sha256 idx p f with heq | ⟨prev, hget, hlive, hsize, htime, heq⟩
  · exact heq
  · rw [heq, hknown p prev f hget hlive hf hsize htime]

theorem describes_apply (hnow : 0 < now) (hknown : HashesKnown sha256 t idx)
    (hscan : scan sha256 now h t idx = .ok res) : Describes sha256 t (apply idx res.changes).1 := by
  constructor
  · intro p f hf
    obtain ⟨e, hget, hlive, hsize, htime, hmode, hhash⟩ := get_apply_recorded hnow hscan hf
    exact ⟨e, hget, hlive, hsize, htime, hmode, hhash.trans (hknown.diskHash hf)⟩
  · intro p e hget hlive
    by_contra hnone
    have hdead := get_apply_unrecorded hnow hscan (fun f hf => hnone ⟨f, hf⟩) hget
    simp [hlive] at hdead

/-- The change of a path, told by what the walk saw there. -/
theorem change_cases (hscan : scan sha256 now h t idx = .ok res) {c : Change}
    (hc : c ∈ res.changes) :
    (∃ f, Recorded t c.entry.path f ∧
      diskChange now idx (diskEntry sha256 now idx c.entry.path f) = some c) ∨
    (∃ prev, idx.get c.entry.path = some prev ∧ prev.deleted = false ∧
      (∀ f, ¬ Recorded t c.entry.path f) ∧
      c.entry = { prev with
        deleted := true, deletedAt := now, updatedAt := stampUpdatedAt now 0 prev.updatedAt,
        size := 0, hash := [] }) := by
  rcases (mem_changes hscan).mp hc with ⟨p, f, hf, hc⟩ | ⟨prev, hprev, hc⟩
  · have hpath : c.entry.path = p := by rw [(diskChange_spec hc).1]; rfl
    rw [hpath]
    exact Or.inl ⟨f, hf, hc⟩
  · obtain ⟨hlive, hdisk, _, hentry⟩ := tombChange_spec hc
    have hpath : c.entry.path = prev.path := by rw [hentry]
    rw [hpath]
    refine Or.inr ⟨prev, Index.get_of_mem hprev, hlive, ?_, hentry⟩
    intro f hf
    refine hdisk (diskEntry sha256 now idx prev.path f) ?_ rfl
    rw [(scan_ok hscan).2.1]
    exact List.mem_map.mpr ⟨(prev.path, f), mem_walk.mpr hf, rfl⟩

theorem change_not_before (hnow : 0 < now) (hscan : scan sha256 now h t idx = .ok res) {c : Change}
    (hc : c ∈ res.changes) : now ≤ c.entry.updatedAt := by
  rcases change_cases hscan hc with ⟨f, _, hc⟩ | ⟨prev, _, _, _, hentry⟩
  · rw [(diskChange_spec hc).1]
    exact (stampUpdatedAt_bounds hnow _ _).1
  · rw [hentry]
    exact (stampUpdatedAt_bounds hnow _ _).1

/-- A recorded file that its entry agrees with gives no change. -/
theorem diskChange_agreeing (now : Time) {p : Bytes} {e : Entry} {f : File}
    (hget : idx.get p = some e) (hagrees : Agrees sha256 e f)
    (hhash : diskHash sha256 idx p f = contentHash sha256 f.bytes) :
    diskChange now idx (diskEntry sha256 now idx p f) = none := by
  have hget' : idx.get (diskEntry sha256 now idx p f).path = some e := hget
  unfold diskChange
  rw [hget']
  simp only [diskEntry, hagrees.live, hagrees.size, hagrees.modTime, hagrees.mode, hagrees.hash,
    hhash, ne_eq, not_true_eq_false, or_self, Bool.false_eq_true, if_false]

theorem updated_apply (hnow : 0 < now) (hknown : HashesKnown sha256 t idx)
    (hscan : scan sha256 now h t idx = .ok res) :
    Updated sha256 t now idx (apply idx res.changes).1 (apply idx res.changes).2 := by
  obtain ⟨hmem, hother, happlied⟩ := get_apply idx (changes_nodup hscan)
    (fun c hc e he => change_wins hnow hscan hc he)
  refine ⟨?_, ?_, ?_, ?_, ?_, ?_, ?_⟩
  · intro p e hget hlive hnone
    rcases get_apply_scan hnow hscan p with ⟨c, hc, rfl, hnew⟩ | ⟨_, hkept⟩
    · rcases change_cases hscan hc with ⟨f, hf, _⟩ | ⟨prev, _, _, _, hentry⟩
      · exact absurd hf (hnone f)
      · exact ⟨c.entry, hnew, by rw [hentry], by rw [hentry], by rw [hentry]⟩
    · have hdead := get_apply_unrecorded hnow hscan hnone (hkept.trans hget)
      simp [hlive] at hdead
  · intro p e' hget' hne
    rcases get_apply_scan hnow hscan p with ⟨c, hc, rfl, hnew⟩ | ⟨_, hkept⟩
    · have hentry : c.entry = e' := Option.some.inj (hnew.symm.trans hget')
      subst hentry
      exact ⟨change_not_before hnow hscan hc, fun e he => change_stamp hnow hscan hc he⟩
    · exact absurd (hkept.symm.trans hget') hne
  · intro p e hget hdead hnone
    rcases get_apply_scan hnow hscan p with ⟨c, hc, rfl, _⟩ | ⟨_, hkept⟩
    · rcases change_cases hscan hc with ⟨f, hf, _⟩ | ⟨prev, hprev, hlive, _, _⟩
      · exact absurd hf (hnone f)
      · rw [hget] at hprev
        cases hprev
        simp [hdead] at hlive
    · exact hkept.trans hget
  · intro p e f hget hf hagrees
    rcases get_apply_scan hnow hscan p with ⟨c, hc, rfl, _⟩ | ⟨_, hkept⟩
    · rcases change_cases hscan hc with ⟨g, hg, hchange⟩ | ⟨_, _, _, hnone, _⟩
      · have hfg : g = f := Option.some.inj (hg.1.symm.trans hf.1)
        subst hfg
        rw [diskChange_agreeing now hget hagrees (hknown.diskHash hf)] at hchange
        cases hchange
      · exact absurd hf (hnone f)
    · exact hkept.trans hget
  · intro p
    rw [happlied, List.map_map, List.mem_map]
    constructor
    · rintro ⟨c, hc, rfl⟩ hsame
      have hstamp := change_stamp hnow hscan hc (hsame.symm.trans (hmem c hc))
      exact lt_irrefl _ hstamp
    · intro hne
      rcases get_apply_scan hnow hscan p with ⟨c, hc, hpath, _⟩ | ⟨_, hkept⟩
      · exact ⟨c, hc, hpath⟩
      · exact absurd hkept hne
  · intro e he
    rw [happlied] at he
    obtain ⟨c, hc, rfl⟩ := List.mem_map.mp he
    exact hmem c hc
  · rw [happlied, List.map_map]
    exact changes_nodup hscan

/-- An index that describes the tree is left alone by a scan. -/
theorem Describes.quiet (hdesc : Describes sha256 t idx)
    (hscan : scan sha256 now h t idx = .ok res) : res.changes = [] := by
  rw [List.eq_nil_iff_forall_not_mem]
  intro c hc
  rcases change_cases hscan hc with ⟨f, hf, hchange⟩ | ⟨prev, hprev, hlive, hnone, _⟩
  · obtain ⟨e, hget, hagrees⟩ := hdesc.recorded _ f hf
    have hhash : diskHash sha256 idx c.entry.path f = contentHash sha256 f.bytes := by
      rcases diskHash_cases sha256 idx c.entry.path f with heq | ⟨prev, hprev, _, _, _, heq⟩
      · exact heq
      · rw [hget] at hprev
        cases hprev
        rw [heq, hagrees.hash]
    rw [diskChange_agreeing now hget hagrees hhash] at hchange
    cases hchange
  · obtain ⟨f, hf⟩ := hdesc.live _ prev hprev hlive
    exact hnone f hf

end Scan

def oneEntry (updatedAt : Time) : Index :=
  Index.empty.set ⟨ascii "a", 1, 5, 0o644, ascii "h", false, 0, updatedAt⟩

def oneFile : Root :=
  let root : Option Root := do
    let names ← pathNames (ascii "f")
    FileTrees.Tree.empty.put names (.file ⟨ascii "x", 4, 0o600⟩)
  root.getD .empty

theorem oneEntry_known (sha256 : Bytes → Digest 32) {t : Root} (ht : fileAt t (ascii "a") = none)
    (updatedAt : Time) : HashesKnown sha256 t (oneEntry updatedAt) := by
  intro p e f hget _ hf
  have hpath : p = ascii "a" := by
    by_contra hne
    rw [oneEntry, Index.get_set_of_ne _ _ hne] at hget
    simp at hget
  rw [hpath] at hf
  simp [Recorded, ht] at hf

end TailSync.ReconciledDisks

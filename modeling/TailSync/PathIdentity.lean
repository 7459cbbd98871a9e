import TailSync.ApplyRuns

/-!
Paths on their way from the scan of one node to the apply path of another. The
walk stores names as the file system has them, while CleanRel trims white space
and rejects what is not UTF-8. The two agree on a recorded path exactly when its
string is valid UTF-8 without white space at either end, and where they agree an
announced entry goes into the index under its own path only. On the disk it stays
at that path too, as long as no symbolic link is on the way to it.
-/
namespace TailSync.PathIdentity

open ByteStrings Entries IndexMap SyncRoot RootEffects Scanning Transfers RemoteApply
open ApplyEffects ApplyRuns MachineInts
open FileTrees (Tree)
open RelativePaths (CleanPath cleanRel cleanRel_self_iff validString StartsWithSpace EndsWithSpace)

/-- What it means that the recorded paths of a tree keep their identity: CleanRel
returns each unchanged, no two become one, and any announced entry for one of them
is stored there and nowhere else, whatever node it is applied at. The file is
written there and nowhere else at a node without a link at the path or on the way. -/
structure KeepsIdentity (cfg : Config) (hs : Hashes) (t : Root) : Prop where
  clean : ∀ p f, Recorded t p f → cleanRel p = .ok p
  distinct : ∀ p f q g rel, Recorded t p f → Recorded t q g →
    cleanRel p = .ok rel → cleanRel q = .ok rel → p = q
  stored : ∀ p f remote env d, Recorded t p f → remote.path = p →
    (∀ q, q ≠ p → (applyRemote cfg hs env d remote).1.idx.get q = d.idx.get q) ∧
    ((applyRemote cfg hs env d remote).2 = .ok true →
      ∃ e, (applyRemote cfg hs env d remote).1.idx.get p = some e ∧
        e.deleted = remote.deleted ∧ e.hash = remote.hash)
  written : ∀ p f remote env d, Recorded t p f → remote.path = p → Direct d.root p →
    ∀ q, q ≠ p → reservedPath q = false →
      fileAt (applyRemote cfg hs env d remote).1.root q = fileAt d.root q

section Recorded
variable {cfg : Config} {hs : Hashes} {t : Root} {p : Bytes} {f : File}

/-- A recorded path is made of proper, unreserved elements. -/
theorem recorded_elements (hf : Recorded t p f) :
    ∀ e ∈ RelativePaths.elements p,
      RelativePaths.IsElement e ∧ RelativePaths.isReservedComponent e = false := by
  obtain ⟨names, hnames, _⟩ := Option.bind_eq_some_iff.mp (fileAt_eq_some.mp hf.1)
  intro e he
  have hmem := he
  rw [← elements_of_pathNames hnames] at hmem
  obtain ⟨n, _, rfl⟩ := List.mem_map.mp hmem
  refine ⟨n.element, ?_⟩
  by_contra hres
  exact not_reserved_of_path hf.2 names hnames
    ⟨n, by assumption, by simpa using hres⟩

theorem cleanRel_recorded_iff (hf : Recorded t p f) :
    cleanRel p = .ok p ↔
      validString p = true ∧ ¬ StartsWithSpace p ∧ ¬ EndsWithSpace p := by
  rw [cleanRel_self_iff]
  constructor
  · rintro ⟨hclean, hspace⟩
    exact ⟨hclean.1, hspace⟩
  · rintro ⟨hvalid, hspace⟩
    exact ⟨⟨hvalid, recorded_elements hf⟩, hspace⟩

/-- A section that reports a change has stored what was announced. -/
theorem applied_stored {h : Host} {re : Entry} {content : Option (Bytes × Bytes)} {d d' : Daemon}
    (happlied : Applied h re content d d') (hver : Verified cfg hs re content) :
    ∃ e, d'.idx.get re.path = some e ∧ e.deleted = re.deleted ∧ e.hash = re.hash := by
  cases happlied with
  | tombstoned _ _ _ idx => exact ⟨re, Index.get_of_set idx rfl, rfl, rfl⟩
  | removed _ _ _ _ _ idx => exact ⟨re, Index.get_of_set idx rfl, rfl, rfl⟩
  | adopted alive live hash _ _ _ _ _ idx =>
    obtain ⟨hget, hlive⟩ := liveEntry_eq_some.mp live
    have hpath := Index.get_path hget
    exact ⟨_, Index.get_of_set idx hpath, hlive.trans alive.symm, hash⟩
  | committed bytes _ _ _ idx =>
    obtain ⟨_, _, hgot, _⟩ := hver _ _ bytes
    exact ⟨_, Index.get_of_set idx (committedEntry_path ..), rfl, hgot⟩

/-- An announced entry is stored under the path CleanRel returns. -/
theorem applyRemote_stored {rel : Bytes} {remote : Entry} (hrel : cleanRel remote.path = .ok rel)
    (env : ApplyEnv) (d : Daemon) :
    (∀ q, q ≠ rel → (applyRemote cfg hs env d remote).1.idx.get q = d.idx.get q) ∧
    ((applyRemote cfg hs env d remote).2 = .ok true →
      ∃ e, (applyRemote cfg hs env d remote).1.idx.get rel = some e ∧
        e.deleted = remote.deleted ∧ e.hash = remote.hash) := by
  rcases applyRemote_section cfg hs env d remote with
    ⟨hsame, hno⟩ | ⟨h, rel', content, r, _, hrel', _, _, hrun, hver, hout⟩
  · rw [hsame]
    exact ⟨fun q _ => rfl, fun hok => absurd hok (hno true)⟩
  · rw [hrel] at hrel'
    cases hrel'
    rcases hrun.ended.kept_or_applied with ⟨hresult, hkept⟩ | ⟨rfl, _, happlied, _⟩
    · refine ⟨fun q _ => by rw [hkept.idx], fun hok => ?_⟩
      rw [hok] at hout
      cases r with
      | error e => exact absurd hout (by simp [outcome])
      | ok changed =>
        cases hout
        exact absurd rfl hresult
    · refine ⟨fun q hq => ?_, fun _ => applied_stored happlied hver⟩
      obtain ⟨e, hpath, hidx⟩ := happlied.set
      rw [hidx, Index.get_set_of_ne _ _ (by rw [hpath]; exact hq)]

/-- With no link in its way it is written there. -/
theorem applyRemote_written {rel : Bytes} {remote : Entry} (hrel : cleanRel remote.path = .ok rel)
    (env : ApplyEnv) {d : Daemon} (ht : Direct d.root rel) {q : Bytes} (hq : q ≠ rel)
    (hres : reservedPath q = false) :
    fileAt (applyRemote cfg hs env d remote).1.root q = fileAt d.root q := by
  rcases applyRemote_section cfg hs env d remote with
    ⟨hsame, _⟩ | ⟨h, rel', content, r, _, hrel', hclean, _, hrun, _, _⟩
  · rw [hsame]
  · rw [hrel] at hrel'
    cases hrel'
    exact (hrun.ended.effect ht hclean).2.fileAt_eq hq fun _ => not_reserved_of_path hres

end Recorded

def blankDaemon : Daemon :=
  let filed := (writeFileRoot .plain .empty (ascii "a") (ascii "x") 0o644).1
  let filed := (writeFileRoot .plain filed (ascii " a") (ascii "y") 0o644).1
  (reconcile Config.plain Hashes.plain.sha256 .plain ⟨.empty, filed, 0, .empty⟩).1

end TailSync.PathIdentity

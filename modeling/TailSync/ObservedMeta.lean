import TailSync.ApplyEffects

/-!
What the Stat after an apply observes, in any tree. The daemon stores the mode
and the modification time it finds on disk, and finds the file through links. On
a system that keeps these values exactly it reads back the mode it asked for, and
the time it asked for, if it asked for one.
-/
namespace TailSync.ObservedMeta

open ByteStrings Entries IndexMap SyncRoot RootEffects Scanning RemoteApply ApplyEffects
open FileTrees (Tree Node)
open RelativePaths (CleanPath)

/-- A live entry that passes the guard has the modification time of what is there. -/
theorem guard_modTime {h : Host} {t : Root} {p : Bytes} {q : List FileName}
    {x : Node FileName File} (hop : h.fails .statGuard = false) {loc : Entry}
    (hguard : diskUnsynced h t p (some loc) = .ok false)
    (hloc : locate t true p = .ok (q, x)) : (infoOf h .statGuard x).modTime = loc.modTime := by
  unfold diskUnsynced at hguard
  rw [stat_of_locate hop hloc] at hguard
  have hsame := of_decide_eq_false (Except.ok.inj hguard)
  rw [not_or, not_not, not_not] at hsame
  exact hsame.2

/-- Every link on the way to the path leads to a directory. -/
def WayLeads (t : Root) (p : Bytes) : Prop :=
  ∀ names, pathNames p = some names → t.LinksLead maxSymlinks names.dropLast

section Ways
variable {h : Host} {t : Root} {p : Bytes} {q : List FileName} {x : Node FileName File}

theorem WayLeads.of_direct (ht : Direct t p) : WayLeads t p := by
  intro names hnames
  refine Tree.Unlinked.linksLead fun q target hq => ht names hnames q target ?_
  exact hq.trans (List.dropLast_prefix names)

theorem pathNames_concat {names : List FileName} (hnames : pathNames p = some names) :
    ∃ parent base, names = parent ++ [base] :=
  ⟨_, _, (List.dropLast_append_getLast (pathOf_of_pathNames hnames).2).symm⟩

theorem WayLeads.of_parent {parent dir : List FileName} {base : FileName}
    (hnames : pathNames p = some (parent ++ [base]))
    (hparent : t.resolve maxSymlinks true parent = .ok dir) (hdir : t.get dir = some .dir) :
    WayLeads t p := by
  intro names hn
  rw [hnames] at hn
  cases hn
  rw [List.dropLast_concat]
  exact Tree.linksLead_of_resolve hparent hdir

theorem WayLeads.of_locate (hloc : locate t true p = .ok (q, x)) : WayLeads t p := by
  obtain ⟨names, hnames, hresolve, _⟩ := locate_eq_ok.mp hloc
  obtain ⟨parent, base, rfl⟩ := pathNames_concat hnames
  obtain ⟨dir, hparent, hdir⟩ := Tree.resolve_front hresolve
  exact .of_parent hnames hparent hdir

/-- Where Stat finds a file or nothing, a file can be put. -/
theorem settable_of_guard {live : Option Entry} (hguard : diskUnsynced h t p live = .ok false)
    (hdir : found t p ≠ some .dir) {names : List FileName} (hnames : pathNames p = some names) :
    t.Settable maxSymlinks names := by
  refine ⟨?_, ?_⟩
  · intro r hr hget
    exact hdir (found_eq_some.mpr ⟨r, locate_eq_ok.mpr ⟨names, hnames, hr, hget⟩⟩)
  · intro hloop
    have hloc : locate t true p = .error (.lookup .loop) := by
      simp [locate, hnames, hloop]
    unfold diskUnsynced stat at hguard
    rw [hloc] at hguard
    cases hop : h.fails .statGuard <;> simp [hop, isNotExist] at hguard

/-- Once the file was removed, or the link that led to it, Stat finds nothing. -/
theorem removed_found {f : File} (hloc : locate t true p = .ok (q, .file f))
    (hgone : ∀ e, (remove h t p).2 = .error e → isNotExist e = true) :
    found (remove h t p).1 p = none ∧ WayLeads (remove h t p).1 p := by
  obtain ⟨names, hnames, hresolve, hget⟩ := locate_eq_ok.mp hloc
  obtain ⟨parent, base, rfl⟩ := pathNames_concat hnames
  obtain ⟨dir, hparent, hdir⟩ := Tree.resolve_front hresolve
  have hname := Tree.resolve_name_false hparent hdir base
  rcases remove_cases h t p with ⟨q', x, t', hloc', herase, heq⟩ | ⟨e, heq⟩
  · obtain ⟨names', hnames', hresolve', _⟩ := locate_eq_ok.mp hloc'
    rw [hnames] at hnames'
    cases hnames'
    rw [hname] at hresolve'
    cases hresolve'
    have hset : t.Settable maxSymlinks (parent ++ [base]) :=
      ⟨fun r hr => by rw [hresolve] at hr; cases hr; simp [hget], by simp [hresolve]⟩
    have hget' := Tree.get_erase herase
    have hsame : Tree.SameBut (dir ++ [base]) t t' := fun q hq => by rw [hget', if_neg hq]
    obtain ⟨hparent', hdir'⟩ := hsame.resolve hparent hdir hset
    have hnone : t'.get (dir ++ [base]) = none := by rw [hget', if_pos rfl]
    rw [heq]
    refine ⟨?_, .of_parent hnames hparent' hdir'⟩
    simp [found, locate, hnames, Tree.resolve_name hparent' hdir' (Or.inl hnone), hnone]
  · -- the removal did not fail, as there was something to remove
    exfalso
    obtain ⟨e', hloc'⟩ := remove_notExist (by rw [heq]) (hgone e (by rw [heq]))
    cases hnode : t.get (dir ++ [base]) with
    | none =>
      rw [Tree.resolve_name hparent hdir (Or.inl hnode)] at hresolve
      cases hresolve
      rw [hnode] at hget
      exact absurd hget (by simp)
    | some y =>
      rw [locate_eq_ok.mpr ⟨_, hnames, hname, hnode⟩] at hloc'
      exact absurd hloc' (by simp)

end Ways

section Adopted
variable {h : Host} {d : Daemon} {re loc : Entry}

theorem perm_fileMode {mode : Mode} (hmode : perm mode = mode) :
    perm (fileMode mode) = fileMode mode := by
  unfold fileMode
  split
  · decide
  · exact hmode

/-- Stat is believed, unless it shows no time where one was recorded. -/
theorem diskMeta_of_stat {t : Root} {p : Bytes} {mode : Mode} {mt fallback : Time} {i : FileInfo}
    (hstat : stat h (.statAfter (fileMode mode) mt) t p = .ok i) (hmode : perm mode = mode)
    (hperm : i.perm = perm (fileMode mode)) :
    diskMeta h t p (fileMode mode) mt fallback = (fileMode mode,
      if isZero mt && isZero i.modTime && !isZero fallback then fallback else i.modTime) := by
  have hkept : perm i.perm = fileMode mode := by
    rw [hperm, perm_fileMode hmode, perm_fileMode hmode]
  simp only [diskMeta, hstat, hkept, if_neg (fileMode_ne_zero mode)]

/-- After a metadata adopt the path leads to the file as before. -/
theorem adopted_located (htimed : (timedRoot h d re).2 = .ok ())
    (hmoded : (chmod h .chmod (timedRoot h d re).1 re.path (fileMode re.mode)).2 = .ok ())
    {q : List FileName} {f : File} (hloc : locate d.root true re.path = .ok (q, .file f)) :
    locate (chmod h .chmod (timedRoot h d re).1 re.path (fileMode re.mode)).1 true re.path =
      .ok (q, .file (retimed h re f)) := by
  obtain ⟨_, hloc'⟩ := timedRoot_file htimed hloc
  rcases tryAttr_cases h .chmod (fun f => { f with perm := h.storedPerm (fileMode re.mode) })
    (timedRoot h d re).1 re.path with ⟨q', g, hg, _, _, _, hfound⟩ | ⟨_, hno⟩
  · rw [hloc'] at hg
    cases hg
    exact hfound
  · exact absurd hloc' (hno hmoded q _)

/-- After a metadata adopt Stat shows the mode and, if there is one, the time of the
remote entry, and otherwise the time that was recorded. -/
theorem adopted_observed (hexact : h.Exact) (hmode : perm re.mode = re.mode)
    (hguard : diskUnsynced h d.root re.path (some loc) = .ok false)
    (htimed : (timedRoot h d re).2 = .ok ())
    (hmoded : (chmod h .chmod (timedRoot h d re).1 re.path (fileMode re.mode)).2 = .ok ()) :
    diskMeta h (chmod h .chmod (timedRoot h d re).1 re.path (fileMode re.mode)).1 re.path
      (fileMode re.mode) re.modTime loc.modTime =
      (fileMode re.mode, if isZero re.modTime then loc.modTime else re.modTime) := by
  have hstat : ∃ i, stat h (.statAfter (fileMode re.mode) re.modTime)
      (chmod h .chmod (timedRoot h d re).1 re.path (fileMode re.mode)).1 re.path = .ok i ∧
      i.perm = perm (fileMode re.mode) ∧
      i.modTime = if isZero re.modTime then loc.modTime else re.modTime := by
    by_cases hfile : ∃ q f, locate d.root true re.path = .ok (q, .file f)
    · obtain ⟨q, f, hloc⟩ := hfile
      have hseen := adopted_located htimed hmoded hloc
      have htime : f.modTime = loc.modTime := guard_modTime hexact.statGuard hguard hloc
      refine ⟨_, stat_of_locate (hexact.statAfter _ _) hseen, hexact.storedPerm _, ?_⟩
      simp only [infoOf, File.info, retimed, htime, hexact.storedTime]
    · -- a directory, say, keeps what it had
      have hno : ∀ q f, locate d.root true re.path ≠ .ok (q, .file f) :=
        fun q f hloc => hfile ⟨q, f, hloc⟩
      obtain ⟨q, x, hloc⟩ := tryAttr_located hmoded
      rw [timedRoot_no_file hno] at hloc ⊢
      rw [chmod, tryAttr_no_file hno]
      have hinfo : ∀ op, infoOf h op x = h.nodeInfo op := by
        intro op
        cases x with
        | file f => exact absurd hloc (hno q f)
        | dir => rfl
        | link target => rfl
        | special => rfl
      have hnode := guard_modTime hexact.statGuard hguard hloc
      rw [hinfo] at hnode
      refine ⟨_, stat_of_locate (hexact.statAfter _ _) hloc, ?_, ?_⟩
      · rw [hinfo, hexact.nodePerm]
      · rw [hinfo, hexact.nodeTime, hnode]
  obtain ⟨i, hi, hperm, htime⟩ := hstat
  rw [diskMeta_of_stat hi hmode hperm, htime]
  cases hzero : isZero re.modTime with
  | false => rfl
  | true => cases hprev : isZero loc.modTime <;> simp [hprev]

end Adopted

section Committed
variable {h : Host} {d : Daemon} {re : Entry} {data : Bytes}

/-- The committed file stands in the directory that was made for it, and whatever the
path leads to afterwards is that file. -/
theorem committedRoot_added (hp : CleanPath re.path)
    (hok : (writeFileRoot h d.root re.path data (fileMode re.mode)).2 = .ok ()) :
    ∃ parent base dir t₁ f, pathNames re.path = some (parent ++ [base]) ∧
      d.root.mkdirAll maxSymlinks parent = (t₁, .ok dir) ∧
      Tree.FileAdded t₁ (committedRoot h d re data) (dir ++ [base]) f ∧ f.bytes = data ∧
      ∀ q x, locate (committedRoot h d re data) true re.path = .ok (q, x) →
        q = dir ++ [base] ∧ x = .file f ∧ f = writtenFile h re data := by
  have hwrite := writeFileRoot_cases h d.root re.path data (fileMode re.mode)
  rw [if_neg (fileMode_ne_zero re.mode)] at hwrite
  obtain ⟨parent, base, dir, t₁, hnames, hmkdir, hadded⟩ := hwrite.added hp hok
  have hfound : ∀ t' f q x, Tree.FileAdded t₁ t' (dir ++ [base]) f →
      locate t' true re.path = .ok (q, x) → q = dir ++ [base] ∧ x = .file f := by
    intro t' f q x hadded' hloc
    obtain ⟨names, hnames', hresolve, hget⟩ := locate_eq_ok.mp hloc
    rw [hnames] at hnames'
    cases hnames'
    obtain rfl := hadded'.resolve_eq (Tree.mkdirAll_resolves hmkdir).1 hresolve
    rw [hadded'.file] at hget
    exact ⟨rfl, (Option.some.inj hget).symm⟩
  suffices hfile : ∃ f, Tree.FileAdded t₁ (committedRoot h d re data) (dir ++ [base]) f ∧
      f.bytes = data ∧ ∀ q x, locate (committedRoot h d re data) true re.path = .ok (q, x) →
        x = .file f → f = writtenFile h re data by
    obtain ⟨f, hf, hbytes, hwritten⟩ := hfile
    refine ⟨parent, base, dir, t₁, f, hnames, hmkdir, hf, hbytes, ?_⟩
    intro q x hloc
    obtain ⟨hq, hx⟩ := hfound _ f q x hf hloc
    exact ⟨hq, hx, hwritten q x hloc hx⟩
  by_cases hzero : isZero re.modTime = true
  · have hroot : committedRoot h d re data =
        (writeFileRoot h d.root re.path data (fileMode re.mode)).1 := if_pos hzero
    rw [hroot]
    exact ⟨_, hadded, rfl, fun _ _ _ _ => by simp [writtenFile, hzero]⟩
  · have hroot : committedRoot h d re data = (tryAttr h .chtimes
        (fun f => { f with modTime := h.storedTime re.modTime })
        (writeFileRoot h d.root re.path data (fileMode re.mode)).1 re.path).1 := if_neg hzero
    rw [hroot]
    rcases tryAttr_cases h .chtimes (fun f => { f with modTime := h.storedTime re.modTime })
      (writeFileRoot h d.root re.path data (fileMode re.mode)).1 re.path with
      ⟨q, g, hloc, hop, _, hset, _⟩ | ⟨hsame, hno⟩
    · obtain ⟨rfl, hg⟩ := hfound _ _ q _ hadded hloc
      cases hg
      exact ⟨_, hadded.trans hset, rfl, fun _ _ _ _ => by simp [writtenFile, hzero, hop]⟩
    · rw [hsame]
      refine ⟨_, hadded, rfl, ?_⟩
      -- a file at the path can only have kept its time because the call failed
      rintro q x hloc rfl
      cases hop : h.fails .chtimes with
      | true => simp [writtenFile, hzero, hop]
      | false => exact absurd hloc (hno (tryAttr_file hop hloc).1 q _)

/-- Where the links on the way lead to directories and Stat found a file or nothing, the
path leads to the committed file. -/
theorem committed_located (hp : CleanPath re.path)
    (hok : (writeFileRoot h d.root re.path data (fileMode re.mode)).2 = .ok ())
    (hguard : Guarded h d re.path) (hway : WayLeads d.root re.path)
    (hdir : found d.root re.path ≠ some .dir) :
    ∃ q, locate (committedRoot h d re data) true re.path =
      .ok (q, .file (writtenFile h re data)) := by
  obtain ⟨parent, base, dir, t₁, f, hnames, hmkdir, hadded, _, hfound⟩ :=
    committedRoot_added hp hok
  have hlead := hway _ hnames
  rw [List.dropLast_concat] at hlead
  obtain ⟨_, _, hresolve⟩ := hadded.resolves hmkdir hlead (settable_of_guard hguard hdir hnames)
  have hloc := locate_eq_ok.mpr ⟨_, hnames, hresolve, hadded.file⟩
  obtain ⟨_, _, rfl⟩ := hfound _ _ hloc
  exact ⟨_, hloc⟩

/-- After a content commit Stat shows the mode of the remote entry and its time; where
it has none, the time of the write or what the daemon falls back to. -/
theorem committed_observed (hexact : h.Exact) (hmode : perm re.mode = re.mode)
    (hp : CleanPath re.path)
    (hok : (writeFileRoot h d.root re.path data (fileMode re.mode)).2 = .ok ())
    (fallback : Time) :
    ∃ mt, diskMeta h (committedRoot h d re data) re.path (fileMode re.mode) re.modTime fallback =
        (fileMode re.mode, mt) ∧
      (mt = re.modTime ∨ isZero re.modTime = true ∧ (mt = h.writeTime ∨ mt = fallback)) := by
  cases hloc : locate (committedRoot h d re data) true re.path with
  | error e =>
    have hstat : stat h (.statAfter (fileMode re.mode) re.modTime) (committedRoot h d re data)
        re.path = .error e := by
      simp [stat, hexact.statAfter, hloc]
    refine ⟨if isZero re.modTime then fallback else re.modTime, by simp [diskMeta, hstat], ?_⟩
    by_cases hzero : isZero re.modTime = true
    · exact Or.inr ⟨hzero, Or.inr (if_pos hzero)⟩
    · exact Or.inl (if_neg hzero)
  | ok r =>
    obtain ⟨q, x⟩ := r
    obtain ⟨_, _, _, _, f, _, _, _, _, hfound⟩ := committedRoot_added hp hok
    obtain ⟨_, rfl, rfl⟩ := hfound q x hloc
    have hstat := stat_of_locate (hexact.statAfter (fileMode re.mode) re.modTime) hloc
    refine ⟨_, diskMeta_of_stat hstat hmode (hexact.storedPerm _), ?_⟩
    have htime : (writtenFile h re data).modTime =
        if isZero re.modTime then h.writeTime else re.modTime := by
      simp [writtenFile, hexact.chtimes, hexact.storedTime]
    simp only [infoOf, File.info, htime]
    cases hzero : isZero re.modTime with
    | false => exact Or.inl rfl
    | true =>
      rw [if_pos rfl]
      exact Or.inr ⟨rfl, (ite_eq_or_eq _ fallback h.writeTime).symm⟩

end Committed

end TailSync.ObservedMeta

import TailSync.LinkWalks
import TailSync.SyncRoot

/-!
What the operations on the sync root do. A file that is found, perhaps through links,
gets its new attributes where it is. With no link at the path or on the way to it, an
operation acts at its own path, and elsewhere at most parent directories appear and, if
the cleanup of a failed write fails too, a temp file under a reserved name. No operation
makes a link.
-/
namespace TailSync.RootEffects

open ByteStrings Entries FileTrees RelativePaths SyncRoot

def nodeAt (t : Root) (p : Bytes) : Option (Node FileName File) := (pathNames p).bind t.get

theorem fileAt_eq_asFile (t : Root) (p : Bytes) : fileAt t p = Node.asFile (nodeAt t p) := by
  unfold fileAt nodeAt
  cases pathNames p <;> rfl

theorem fileAt_eq_some {t : Root} {p : Bytes} {f : File} :
    fileAt t p = some f ↔ nodeAt t p = some (.file f) := by
  rw [fileAt_eq_asFile, Node.asFile_eq_some]

def Reserved (names : List FileName) : Prop :=
  ∃ n ∈ names, isReservedComponent n.bytes = true

theorem not_reserved_of_clean {p : Bytes} {names : List FileName} (hp : CleanPath p)
    (hnames : pathNames p = some names) : ¬ Reserved names := by
  rintro ⟨n, hn, hres⟩
  have hmem : n.bytes ∈ elements p := by
    rw [← elements_of_pathNames hnames]
    exact List.mem_map_of_mem hn
  rw [(hp.2 _ hmem).2] at hres
  exact absurd hres (by simp)

/-- Away from one path nothing changes but for parent directories that were
made, and for a temp file left behind when junk is set. -/
structure Frame (junk : Bool) (p : List FileName) (t t' : Root) : Prop where
  links : ∀ q target, t'.get q = some (.link target) → t.get q = some (.link target)
  other : ∀ q, q ≠ p → t'.get q = t.get q ∨
    t.get q = none ∧ ((q <+: p ∧ t'.get q = some .dir) ∨ (junk = true ∧ Reserved q))

namespace Frame
variable {junk : Bool} {p : List FileName} {t t' t'' : Root}

theorem refl (junk : Bool) (p : List FileName) (t : Root) : Frame junk p t t :=
  ⟨fun _ _ h => h, fun _ _ => Or.inl rfl⟩

theorem trans (h : Frame junk p t t') (h' : Frame junk p t' t'') : Frame junk p t t'' := by
  refine ⟨fun q target hq => h.links q target (h'.links q target hq), ?_⟩
  intro q hq
  rcases h'.other q hq with heq | ⟨hnone, hnew⟩
  · rw [heq]
    exact h.other q hq
  · rcases h.other q hq with heq | ⟨hold, ⟨_, hdir⟩ | hjunk⟩
    · exact Or.inr ⟨by rw [← heq, hnone], hnew⟩
    · rw [hdir] at hnone
      exact absurd hnone (by simp)
    · exact Or.inr ⟨hold, Or.inr hjunk⟩

/-- The node at the path itself becomes nothing or a file. -/
theorem of_sameBut (h : Tree.SameBut p t t') (hself : ∀ target, t'.get p ≠ some (.link target)) :
    Frame junk p t t' := by
  refine ⟨?_, fun q hq => Or.inl (h q hq)⟩
  intro q target hq
  by_cases heq : q = p
  · subst heq
    exact absurd hq (hself target)
  · rwa [← h q heq]

theorem of_grownBy (junk : Bool) (h : Tree.GrownBy (fun q => q <+: p) t t') :
    Frame junk p t t' := by
  refine ⟨fun q target hq => h.get_link hq, ?_⟩
  intro q hq
  rcases h q with heq | ⟨hnone, hdir, hpre⟩
  · exact Or.inl heq
  · exact Or.inr ⟨hnone, Or.inl ⟨hpre, hdir⟩⟩

end Frame

/-- No link stands at the path or on the way to it. -/
def Direct (t : Root) (p : Bytes) : Prop := ∀ names, pathNames p = some names → t.Unlinked names

theorem direct_of_linkFree {t : Root} (ht : t.LinkFree) (p : Bytes) : Direct t p :=
  fun names _ => ht.unlinked names

section Locate
variable {t : Root} {p : Bytes} {last : Bool}

/-- An operation reaches the node to which the names of the path resolve. -/
theorem locate_eq_ok {q : List FileName} {x : Node FileName File} :
    locate t last p = .ok (q, x) ↔ ∃ names, pathNames p = some names ∧
      t.resolve maxSymlinks last names = .ok q ∧ t.get q = some x := by
  unfold locate
  constructor
  · intro h
    split at h
    · exact absurd h (by simp)
    · rename_i names hnames
      split at h
      · exact absurd h (by simp)
      · rename_i q' hresolve
        split at h
        · rename_i y hget
          cases h
          exact ⟨names, hnames, hresolve, hget⟩
        · exact absurd h (by simp)
  · rintro ⟨names, hnames, hresolve, hget⟩
    simp [hnames, hresolve, hget]

theorem locate_ok (ht : Direct t p) {q : List FileName} {x : Node FileName File}
    (h : locate t last p = .ok (q, x)) : pathNames p = some q ∧ t.get q = some x := by
  obtain ⟨names, hnames, hresolve, hget⟩ := locate_eq_ok.mp h
  rw [Tree.resolve_unlinked (ht names hnames) hresolve] at hget ⊢
  exact ⟨hnames, hget⟩

theorem nodeAt_of_locate (ht : Direct t p) {q : List FileName} {x : Node FileName File}
    (h : locate t last p = .ok (q, x)) : nodeAt t p = some x := by
  obtain ⟨hnames, hget⟩ := locate_ok ht h
  simp [nodeAt, hnames, hget]

theorem locate_of_nodeAt (last : Bool) (ht : Direct t p) {x : Node FileName File}
    (h : nodeAt t p = some x) :
    ∃ q, pathNames p = some q ∧ t.get q = some x ∧ locate t last p = .ok (q, x) := by
  obtain ⟨q, hnames, hget⟩ := Option.bind_eq_some_iff.mp h
  have hresolve := Tree.resolve_recorded maxSymlinks last hget
    fun target heq => ht q hnames q target (List.prefix_refl q) (heq ▸ hget)
  exact ⟨q, hnames, hget, locate_eq_ok.mpr ⟨q, hnames, hresolve, hget⟩⟩

/-- With no link on the way, Stat finds what is at the path. -/
theorem found_eq_nodeAt (ht : Direct t p) : found t p = nodeAt t p := by
  cases hnode : nodeAt t p with
  | some x =>
    obtain ⟨q, _, _, hloc⟩ := locate_of_nodeAt true ht hnode
    exact found_eq_some.mpr ⟨q, hloc⟩
  | none =>
    by_contra hsome
    obtain ⟨x, hx⟩ := Option.ne_none_iff_exists'.mp hsome
    obtain ⟨q, hloc⟩ := found_eq_some.mp hx
    rw [nodeAt_of_locate ht hloc] at hnode
    exact absurd hnode (by simp)

/-- A file is found at its own path, also in a tree with links. -/
theorem locate_file (last : Bool) {f : File} (hfile : fileAt t p = some f) :
    ∃ q, pathNames p = some q ∧ locate t last p = .ok (q, .file f) := by
  obtain ⟨q, hnames, hget⟩ := Option.bind_eq_some_iff.mp (fileAt_eq_some.mp hfile)
  have hresolve := Tree.resolve_recorded maxSymlinks last hget (by simp)
  exact ⟨q, hnames, locate_eq_ok.mpr ⟨q, hnames, hresolve, hget⟩⟩

theorem found_file {f : File} (hfile : fileAt t p = some f) : found t p = some (.file f) := by
  obtain ⟨q, _, hloc⟩ := locate_file true hfile
  exact found_eq_some.mpr ⟨q, hloc⟩

def infoOf (h : Host) (op : FsOp) : Node FileName File → FileInfo
  | .file f => f.info
  | _ => h.nodeInfo op

theorem stat_of_locate {h : Host} {op : FsOp} {q : List FileName} {x : Node FileName File}
    (hop : h.fails op = false) (hloc : locate t true p = .ok (q, x)) :
    stat h op t p = .ok (infoOf h op x) := by
  unfold stat
  rw [if_neg (by simp [hop]), hloc]
  cases x with
  | file f => rfl
  | dir => rfl
  | link target => rfl
  | special => rfl

theorem stat_file {h : Host} {op : FsOp} {f : File} (hop : h.fails op = false)
    (hfile : fileAt t p = some f) : stat h op t p = .ok f.info := by
  obtain ⟨q, _, hloc⟩ := locate_file true hfile
  exact stat_of_locate hop hloc

theorem stat_missing (h : Host) (op : FsOp) (hnone : found t p = none) :
    ∃ e, stat h op t p = .error e := by
  unfold stat
  split
  · exact ⟨_, rfl⟩
  · cases hloc : locate t true p with
    | error e => exact ⟨e, rfl⟩
    | ok r =>
      rw [found_eq_some.mpr ⟨r.1, hloc⟩] at hnone
      exact absurd hnone (by simp)

end Locate

section Attributes
variable {h : Host} {op : FsOp} {t : Root} {p : Bytes} {q : List FileName} {f : File}
variable {change : File → File}

/-- Setting an attribute of a file works, and changes nothing else. -/
theorem setAttr_file (change : File → File) (hloc : locate t true p = .ok (q, .file f)) :
    (setAttr change t p).2 = .ok () ∧
      Tree.FileAdded t (setAttr change t p).1 q (change f) ∧
      locate (setAttr change t p).1 true p = .ok (q, .file (change f)) := by
  obtain ⟨names, hnames, hresolve, hget⟩ := locate_eq_ok.mp hloc
  obtain ⟨t', hput⟩ := Option.isSome_iff_exists.mp (Tree.put_over_file (.file (change f)) hget)
  unfold setAttr
  simp only [hloc, hput]
  have hadded : Tree.FileAdded t t' q (change f) :=
    ⟨by simp [Tree.get_put hput], fun q' hq' => by simp [Tree.get_put hput, hq']⟩
  refine ⟨trivial, hadded, ?_⟩
  refine locate_eq_ok.mpr ⟨names, hnames, ?_, by simp [Tree.get_put hput]⟩
  rw [Tree.resolve_fileForFile (Tree.put_fileForFile hget hput), hresolve]

theorem tryAttr_file (hop : h.fails op = false) (hloc : locate t true p = .ok (q, .file f)) :
    (tryAttr h op change t p).2 = .ok () ∧
      Tree.FileAdded t (tryAttr h op change t p).1 q (change f) ∧
      locate (tryAttr h op change t p).1 true p = .ok (q, .file (change f)) := by
  unfold tryAttr
  rw [if_neg (by simp [hop])]
  exact setAttr_file change hloc

/-- Nothing is changed where no file is found. -/
theorem tryAttr_no_file (hno : ∀ q f, locate t true p ≠ .ok (q, .file f)) :
    (tryAttr h op change t p).1 = t := by
  unfold tryAttr
  split
  · rfl
  · unfold setAttr
    split
    · rfl
    · rename_i q f hloc
      exact absurd hloc (hno q f)
    · rfl

/-- A file that is found is changed in place; anything else is left alone. -/
theorem tryAttr_cases (h : Host) (op : FsOp) (change : File → File) (t : Root) (p : Bytes) :
    (∃ q f, locate t true p = .ok (q, .file f) ∧ h.fails op = false ∧
      (tryAttr h op change t p).2 = .ok () ∧
      Tree.FileAdded t (tryAttr h op change t p).1 q (change f) ∧
      locate (tryAttr h op change t p).1 true p = .ok (q, .file (change f))) ∨
    ((tryAttr h op change t p).1 = t ∧
      ((tryAttr h op change t p).2 = .ok () → ∀ q f, locate t true p ≠ .ok (q, .file f))) := by
  by_cases hfile : ∃ q f, locate t true p = .ok (q, .file f)
  · obtain ⟨q, f, hloc⟩ := hfile
    cases hop : h.fails op with
    | true =>
      refine Or.inr ⟨by simp [tryAttr, hop], ?_⟩
      intro hok
      exact absurd hok (by simp [tryAttr, hop])
    | false => exact Or.inl ⟨q, f, hloc, rfl, tryAttr_file hop hloc⟩
  · have hno : ∀ q f, locate t true p ≠ .ok (q, .file f) := fun q f hloc => hfile ⟨q, f, hloc⟩
    exact Or.inr ⟨tryAttr_no_file hno, fun _ => hno⟩

theorem tryAttr_located (hok : (tryAttr h op change t p).2 = .ok ()) :
    ∃ q x, locate t true p = .ok (q, x) := by
  cases hloc : locate t true p with
  | ok r => exact ⟨r.1, r.2, rfl⟩
  | error e =>
    unfold tryAttr setAttr at hok
    rw [hloc] at hok
    split at hok <;> exact absurd hok (by simp)

theorem tryAttr_failed {e : FsError} (herr : (tryAttr h op change t p).2 = .error e) :
    (tryAttr h op change t p).1 = t := by
  rcases tryAttr_cases h op change t p with ⟨_, _, _, _, hok, _⟩ | ⟨hsame, _⟩
  · rw [hok] at herr
    exact absurd herr (by simp)
  · exact hsame

/-- A file at its own path has the new attributes afterwards. -/
theorem tryAttr_fileAt {f : File} (hfile : fileAt t p = some f)
    (hok : (tryAttr h op change t p).2 = .ok ()) :
    fileAt (tryAttr h op change t p).1 p = some (change f) := by
  obtain ⟨q, hnames, hloc⟩ := locate_file true hfile
  rcases tryAttr_cases h op change t p with ⟨q', g, hloc', _, _, hadded, _⟩ | ⟨_, hno⟩
  · rw [hloc] at hloc'
    cases hloc'
    exact fileAt_eq_some.mpr (by simp [nodeAt, hnames, hadded.file])
  · exact absurd hloc (hno hok q f)

end Attributes

section Remove
variable {h : Host} {t : Root} {p : Bytes}

/-- Remove takes the node that is reached away, or fails and changes nothing. -/
theorem remove_cases (h : Host) (t : Root) (p : Bytes) :
    (∃ q x t', locate t false p = .ok (q, x) ∧ t.erase q = some t' ∧
      remove h t p = (t', .ok ())) ∨
    (∃ e, remove h t p = (t, .error e)) := by
  unfold remove
  split
  · exact Or.inr ⟨_, rfl⟩
  · cases hloc : locate t false p with
    | error e => exact Or.inr ⟨e, rfl⟩
    | ok r =>
      obtain ⟨q, x⟩ := r
      cases herase : t.erase q with
      | none => exact Or.inr ⟨.notEmpty, by simp [herase]⟩
      | some t' => exact Or.inl ⟨q, x, t', rfl, herase, by simp [herase]⟩

theorem remove_failed {e : FsError} (herr : (remove h t p).2 = .error e) :
    (remove h t p).1 = t := by
  rcases remove_cases h t p with ⟨_, _, _, _, _, heq⟩ | ⟨_, heq⟩
  · rw [heq] at herr
    exact absurd herr (by simp)
  · rw [heq]

/-- A removal that failed because nothing is there found nothing. -/
theorem remove_notExist {e : FsError} (herr : (remove h t p).2 = .error e)
    (he : isNotExist e = true) : ∃ e', locate t false p = .error e' := by
  cases hloc : locate t false p with
  | error e' => exact ⟨e', rfl⟩
  | ok r =>
    unfold remove at herr
    split at herr
    · cases herr
      exact absurd he (by simp [isNotExist])
    · rw [hloc] at herr
      dsimp only at herr
      split at herr
      · exact absurd herr (by simp)
      · cases herr
        exact absurd he (by simp [isNotExist])

theorem remove_ok (ht : Direct t p) (hok : (remove h t p).2 = .ok ()) :
    nodeAt (remove h t p).1 p = none := by
  rcases remove_cases h t p with ⟨q, x, t', hloc, herase, heq⟩ | ⟨e, heq⟩
  · rw [heq]
    simp [nodeAt, (locate_ok ht hloc).1, Tree.get_erase herase]
  · rw [heq] at hok
    exact absurd hok (by simp)

end Remove

section Write
variable {h : Host} {t : Root}

theorem freeTempName_some {dir : List FileName} {n : ℕ} {tmp : FileName}
    (hfree : freeTempName h t dir n = some tmp) :
    t.get (dir ++ [tmp]) = none ∧ isReservedComponent tmp.bytes = true := by
  induction n with
  | zero => exact absurd hfree (by simp [freeTempName])
  | succ n ih =>
    unfold freeTempName at hfree
    split at hfree
    · rename_i hnone
      cases hfree
      exact ⟨Option.isNone_iff_eq_none.mp hnone, h.tmp_reserved n⟩
    · exact ih hfree

theorem createTempRoot_ok {dir tmp : List FileName} {t1 : Root}
    (hcreate : createTempRoot h t dir = .ok (t1, tmp)) :
    t.get tmp = none ∧ Reserved tmp ∧ (∃ n, tmp = dir ++ [n] ∧
      isReservedComponent n.bytes = true) ∧
      t.put tmp (.file ⟨[], h.writeTime, 0o600⟩) = some t1 := by
  unfold createTempRoot at hcreate
  split at hcreate
  · exact absurd hcreate (by simp)
  · split at hcreate
    · exact absurd hcreate (by simp)
    · rename_i n hfree
      obtain ⟨hnone, hres⟩ := freeTempName_some hfree
      split at hcreate
      · rename_i t' hput
        cases hcreate
        exact ⟨hnone, ⟨n, by simp, hres⟩, ⟨n, rfl, hres⟩, hput⟩
      · exact absurd hcreate (by simp)

/-- The temp file's removal restores the tree. -/
theorem erase_put_get {tmp : List FileName} {t1 : Root} {f : File} (hnone : t.get tmp = none)
    (hput : t.put tmp (.file f) = some t1) :
    ∃ t2, t1.erase tmp = some t2 ∧ ∀ q, t2.get q = t.get q := by
  have hget1 : t1.get tmp = some (.file f) := by rw [Tree.get_put hput, if_pos rfl]
  obtain ⟨t2, herase⟩ := Option.isSome_iff_exists.mp (Tree.erase_file_isSome hget1)
  refine ⟨t2, herase, ?_⟩
  intro q
  rw [Tree.get_erase herase, Tree.get_put hput]
  by_cases hq : q = tmp
  · subst hq
    simp [hnone]
  · simp [hq]

theorem renameTemp_some {tmp target : List FileName} {t1 t2 : Root} {f g : File}
    (hnone : t.get tmp = none) (hput : t.put tmp (.file f) = some t1)
    (hrename : renameTemp t1 tmp target g = some t2) (q : List FileName) :
    t2.get q = if q = target then some (.file g) else t.get q := by
  obtain ⟨t', herase, hput'⟩ := Option.bind_eq_some_iff.mp hrename
  rw [Tree.get_put hput', Tree.get_erase herase, Tree.get_put hput]
  by_cases hq : q = tmp
  · subst hq
    simp [hnone]
  · simp [hq]

inductive DirWrite (h : Host) (t : Root) (dir : List FileName) (base : FileName) (f : File) :
    Root × Except FsError Unit → Prop
  | failed {t' : Root} {e : FsError} (same : ∀ q, t'.get q = t.get q) :
      DirWrite h t dir base f (t', .error e)
  | littered {t' : Root} {e : FsError} {n : FileName} {g : File}
      (cleanup : h.fails .cleanup = true) (reserved : isReservedComponent n.bytes = true)
      (free : t.get (dir ++ [n]) = none) (added : Tree.FileAdded t t' (dir ++ [n]) g) :
      DirWrite h t dir base f (t', .error e)
  | written {t' : Root} (added : Tree.FileAdded t t' (dir ++ [base]) f) :
      DirWrite h t dir base f (t', .ok ())

theorem writeInDir_cases (h : Host) (t : Root) (dir : List FileName) (base : FileName)
    (data : Bytes) (mode : Mode) :
    DirWrite h t dir base ⟨data, h.writeTime, h.storedPerm mode⟩
      (writeInDir h t dir base data mode) := by
  unfold writeInDir
  cases hcreate : createTempRoot h t dir with
  | error e => exact .failed fun _ => rfl
  | ok r =>
    obtain ⟨t1, tmp⟩ := r
    obtain ⟨hnone, _, ⟨n, rfl, hn⟩, hput⟩ := createTempRoot_ok hcreate
    have hcleaned : ∀ e : FsError, DirWrite h t dir base ⟨data, h.writeTime, h.storedPerm mode⟩
        (if h.fails .cleanup then t1 else (t1.erase (dir ++ [n])).getD t1, .error e) := by
      intro e
      cases hclean : h.fails .cleanup with
      | true =>
        have hget := Tree.get_put hput
        rw [if_pos rfl]
        exact .littered hclean hn hnone
          ⟨by rw [hget, if_pos rfl], fun q hq => by rw [hget, if_neg hq]⟩
      | false =>
        obtain ⟨t2, herase, hsame⟩ := erase_put_get hnone hput
        rw [if_neg (by simp), herase]
        exact .failed hsame
    dsimp only
    split
    · exact hcleaned _
    · cases hrename : renameTemp t1 (dir ++ [n]) (dir ++ [base])
        ⟨data, h.writeTime, h.storedPerm mode⟩ with
      | none => exact hcleaned _
      | some t2 =>
        have hget := renameTemp_some hnone hput hrename
        exact .written ⟨by simp [hget], fun q hq => by simp [hget, hq]⟩

inductive RootWrite (h : Host) (t : Root) (p : Bytes) (f : File) :
    Root × Except FsError Unit → Prop
  | refused {e : FsError} : RootWrite h t p f (t, .error e)
  | unmade {t₁ : Root} {parent : List FileName} {base : FileName} {e : Tree.LookupError}
      {e' : FsError} (names : pathNames (clean p) = some (parent ++ [base]))
      (mkdir : t.mkdirAll maxSymlinks parent = (t₁, .error e)) : RootWrite h t p f (t₁, .error e')
  | entered {t₁ : Root} {parent dir : List FileName} {base : FileName}
      {x : Root × Except FsError Unit} (names : pathNames (clean p) = some (parent ++ [base]))
      (mkdir : t.mkdirAll maxSymlinks parent = (t₁, .ok dir)) (write : DirWrite h t₁ dir base f x) :
      RootWrite h t p f x

theorem writeFileRoot_cases (h : Host) (t : Root) (p data : Bytes) (mode : Mode) :
    RootWrite h t p ⟨data, h.writeTime, h.storedPerm (if mode = 0 then 0o644 else mode)⟩
      (writeFileRoot h t p data mode) := by
  unfold writeFileRoot
  dsimp only
  generalize (if mode = 0 then 0o644 else mode) = mode'
  split
  · exact .refused
  · cases hnames : pathNames (clean p) with
    | none => exact .refused
    | some names =>
      obtain ⟨parent, base, rfl⟩ : ∃ parent base, names = parent ++ [base] :=
        ⟨_, _, (List.dropLast_append_getLast (pathOf_of_pathNames hnames).2).symm⟩
      simp only [List.getLast?_concat, List.dropLast_concat]
      split
      · exact .refused
      · cases hmkdir : t.mkdirAll maxSymlinks parent with
        | mk t₁ r =>
          cases r with
          | error e => exact .unmade hnames hmkdir
          | ok dir => exact .entered hnames hmkdir (writeInDir_cases h t₁ dir base data _)

/-- A successful write makes the parent directory, through links if need be, and puts
the file into it. -/
theorem RootWrite.added {p : Bytes} {f : File} {x : Root × Except FsError Unit}
    (hwrite : RootWrite h t p f x) (hp : CleanPath p) (hok : x.2 = .ok ()) :
    ∃ parent base dir t₁, pathNames p = some (parent ++ [base]) ∧
      t.mkdirAll maxSymlinks parent = (t₁, .ok dir) ∧
      Tree.FileAdded t₁ x.1 (dir ++ [base]) f := by
  cases hwrite with
  | refused => exact absurd hok (by simp)
  | unmade _ _ => exact absurd hok (by simp)
  | entered names mkdir write =>
    rw [clean_eq_self hp.isElement] at names
    cases write with
    | failed _ => exact absurd hok (by simp)
    | littered _ _ _ _ => exact absurd hok (by simp)
    | written added => exact ⟨_, _, _, _, names, mkdir, added⟩

/-- What a write into a directory does to the tree. -/
theorem DirWrite.frame {dir : List FileName} {base : FileName} {f : File}
    {x : Root × Except FsError Unit} (hwrite : DirWrite h t dir base f x)
    (hbase : isReservedComponent base.bytes = false) :
    Frame (h.fails .cleanup) (dir ++ [base]) t x.1 ∧
      (x.2 = .ok () → x.1.get (dir ++ [base]) = some (.file f)) ∧
      (x.2 ≠ .ok () → x.1.get (dir ++ [base]) = t.get (dir ++ [base])) := by
  cases hwrite with
  | failed same =>
    exact ⟨⟨fun q target hq => (same q).symm.trans hq, fun q _ => Or.inl (same q)⟩, by simp,
      fun _ => same _⟩
  | @littered t' e n g cleanup reserved free added =>
    have hne : dir ++ [base] ≠ dir ++ [n] := by
      intro heq
      have hbn : base = n := by simpa using heq
      rw [hbn, reserved] at hbase
      exact absurd hbase (by simp)
    refine ⟨⟨?_, ?_⟩, by simp, fun _ => added.other _ hne⟩
    · exact (@Frame.of_sameBut false _ _ _ added.other (by simp [added.file])).links
    · intro q _
      by_cases hq : q = dir ++ [n]
      · exact Or.inr ⟨hq ▸ free, Or.inr ⟨cleanup, n, by simp [hq], reserved⟩⟩
      · exact Or.inl (added.other q hq)
  | written added =>
    exact ⟨Frame.of_sameBut added.other (by simp [added.file]), fun _ => added.file, by simp⟩

/-- With no link on the way the write touches its own path: on success it holds the
bytes, on failure what it held before. -/
theorem RootWrite.frame {p : Bytes} {f : File} {x : Root × Except FsError Unit}
    (hwrite : RootWrite h t p f x) (ht : Direct t p) (hp : CleanPath p)
    {names : List FileName} (hnames : pathNames p = some names) :
    Frame (h.fails .cleanup) names t x.1 ∧ (x.2 = .ok () → x.1.get names = some (.file f)) ∧
      (x.2 ≠ .ok () → x.1.get names = t.get names) := by
  -- the new directories are proper parents of the path
  have hmade : ∀ parent base t₁ r, names = parent ++ [base] →
      t.mkdirAll maxSymlinks parent = (t₁, r) →
      Frame (h.fails .cleanup) names t t₁ ∧ t₁.get names = t.get names := by
    rintro parent base t₁ r rfl hmkdir
    have hno : t.Unlinked parent := fun q target hq =>
      ht _ hnames q target (hq.trans (List.prefix_append _ _))
    have hgrow := (Tree.mkdirAll_unlinked maxSymlinks hno).1
    rw [hmkdir] at hgrow
    refine ⟨Frame.of_grownBy _ fun q => (hgrow q).imp_right fun ⟨hnone, hd, hpre⟩ =>
      ⟨hnone, hd, hpre.trans (List.prefix_append _ _)⟩, ?_⟩
    rcases hgrow (parent ++ [base]) with heq | ⟨_, _, hpre⟩
    · exact heq
    · exact absurd hpre.length_le (by simp)
  have hclean : clean p = p := clean_eq_self hp.isElement
  cases hwrite with
  | refused => exact ⟨Frame.refl _ _ t, by simp, fun _ => rfl⟩
  | unmade hunmade mkdir =>
    rw [hclean, hnames] at hunmade
    obtain ⟨hframe, hself⟩ := hmade _ _ _ _ (Option.some.inj hunmade) mkdir
    exact ⟨hframe, by simp, fun _ => hself⟩
  | @entered t₁ parent dir base x hentered mkdir write =>
    rw [hclean, hnames] at hentered
    cases hentered
    obtain ⟨hframe, hself⟩ := hmade _ _ _ _ rfl mkdir
    have hno : t.Unlinked parent := fun q target hq =>
      ht _ hnames q target (hq.trans (List.prefix_append _ _))
    obtain ⟨rfl, _⟩ := (Tree.mkdirAll_unlinked maxSymlinks hno).2 dir (by rw [mkdir])
    have hbase : isReservedComponent base.bytes = false := by
      by_contra hres
      exact not_reserved_of_clean hp hnames ⟨base, by simp, by simpa using hres⟩
    obtain ⟨hw, hok, herr⟩ := write.frame hbase
    exact ⟨hframe.trans hw, hok, fun hne => (herr hne).trans hself⟩

/-- A file name with a NUL byte cannot be written. -/
theorem writeFileRoot_no_names {p : Bytes} (hp : CleanPath p)
    (hnames : pathNames p = none) (data : Bytes) (mode : Mode) :
    writeFileRoot h t p data mode = (t, .error .invalid) := by
  unfold writeFileRoot
  simp [clean_eq_self hp.isElement, hnames]

end Write

def DirPrefix (q p : Bytes) : Prop := ∃ rest, rest ≠ [] ∧ elements p = elements q ++ rest

/-- An operation at one path keeps the frame there, and does nothing when the
file system admits no such path. -/
structure Touches (junk : Bool) (p : Bytes) (t t' : Root) : Prop where
  frame : ∀ names, pathNames p = some names → Frame junk names t t'
  noNames : pathNames p = none → t' = t

namespace Touches
variable {junk : Bool} {p q : Bytes} {t t' t'' : Root}

theorem refl (junk : Bool) (p : Bytes) (t : Root) : Touches junk p t t :=
  ⟨fun names _ => Frame.refl junk names t, fun _ => rfl⟩

theorem trans (h : Touches junk p t t') (h' : Touches junk p t' t'') : Touches junk p t t'' :=
  ⟨fun names hn => (h.frame names hn).trans (h'.frame names hn),
    fun hn => (h'.noNames hn).trans (h.noNames hn)⟩

theorem links (h : Touches junk p t t') {q : List FileName} {target : LinkTarget FileName}
    (hq : t'.get q = some (.link target)) : t.get q = some (.link target) := by
  cases hp : pathNames p with
  | none => rwa [← h.noNames hp]
  | some names => exact (h.frame names hp).links q target hq

theorem linkFree (h : Touches junk p t t') (ht : t.LinkFree) : t'.LinkFree :=
  fun q target hq => ht q target (h.links hq)

theorem direct (h : Touches junk p t t') (ht : Direct t q) : Direct t' q :=
  fun names hn q' target hq' hlink => ht names hn q' target hq' (h.links hlink)

/-- The string form of the frame condition. -/
theorem other (h : Touches junk p t t') (hq : q ≠ p) :
    nodeAt t' q = nodeAt t q ∨ nodeAt t q = none ∧
      ((DirPrefix q p ∧ nodeAt t' q = some .dir) ∨
        (junk = true ∧ ∃ names, pathNames q = some names ∧ Reserved names)) := by
  cases hp : pathNames p with
  | none => exact Or.inl (by rw [h.noNames hp])
  | some names =>
    cases hqn : pathNames q with
    | none => exact Or.inl (by simp [nodeAt, hqn])
    | some qnames =>
      have hne : qnames ≠ names := by
        rintro rfl
        exact hq (pathNames_inj hqn hp)
      simp only [nodeAt, hqn, Option.bind_some]
      rcases (h.frame names hp).other qnames hne with heq | ⟨hnone, ⟨hpre, hdir⟩ | ⟨hj, hr⟩⟩
      · exact Or.inl heq
      · refine Or.inr ⟨hnone, Or.inl ⟨?_, hdir⟩⟩
        obtain ⟨rest, rfl⟩ := hpre
        refine ⟨rest.map FileName.bytes, ?_, ?_⟩
        · rintro hnil
          exact hne (by simp [List.map_eq_nil_iff.mp hnil])
        · rw [← elements_of_pathNames hp, ← elements_of_pathNames hqn, List.map_append]
      · exact Or.inr ⟨hnone, Or.inr ⟨hj, qnames, rfl, hr⟩⟩

theorem nodeAt_of_some (h : Touches junk p t t') (hq : q ≠ p) {x : Node FileName File}
    (hx : nodeAt t q = some x) : nodeAt t' q = some x := by
  rcases h.other hq with heq | ⟨hnone, _⟩
  · rw [heq, hx]
  · rw [hx] at hnone
    exact absurd hnone (by simp)

theorem fileAt_of_some (h : Touches junk p t t') (hq : q ≠ p) {f : File}
    (hf : fileAt t q = some f) : fileAt t' q = some f :=
  fileAt_eq_some.mpr (h.nodeAt_of_some hq (fileAt_eq_some.mp hf))

/-- Without junk, or outside the reserved names, no file appears at another path. -/
theorem fileAt_eq (h : Touches junk p t t') (hq : q ≠ p)
    (hres : junk = true → ∀ names, pathNames q = some names → ¬ Reserved names) :
    fileAt t' q = fileAt t q := by
  rw [fileAt_eq_asFile, fileAt_eq_asFile]
  rcases h.other hq with heq | ⟨hnone, ⟨_, hdir⟩ | ⟨hjunk, names, hnames, hr⟩⟩
  · rw [heq]
  · rw [hnone, hdir]
    rfl
  · exact absurd hr (hres hjunk names hnames)

/-- A free path that is no parent of the touched one stays free. -/
theorem nodeAt_none (h : Touches junk p t t') (hq : q ≠ p) (hpre : ¬ DirPrefix q p)
    (hres : ∀ names, pathNames q = some names → ¬ Reserved names)
    (hnone : nodeAt t q = none) : nodeAt t' q = none := by
  rcases h.other hq with heq | ⟨_, ⟨hdir, _⟩ | ⟨_, names, hnames, hr⟩⟩
  · rw [heq, hnone]
  · exact absurd hdir hpre
  · exact absurd hr (hres names hnames)

end Touches

theorem not_reserved_names {p : Bytes} (hp : CleanPath p) :
    ∀ names, pathNames p = some names → ¬ Reserved names :=
  fun _ hnames => not_reserved_of_clean hp hnames

theorem cleanPath_of_dirPrefix {q p : Bytes} (hp : CleanPath p) (h : DirPrefix q p) :
    CleanPath q := by
  obtain ⟨rest, hrest, heq⟩ := h
  have hjoin : joinPath (elements q ++ rest) = p := by rw [← heq, joinPath_elements]
  have hslash : ∀ e ∈ elements q ++ rest, slash ∉ e := by
    intro e he
    rw [← heq] at he
    exact slash_notMem_element p e he
  have hclean := CleanPath.parent (elements_ne_nil q) hrest (by rwa [hjoin]) hslash
  rwa [joinPath_elements] at hclean

section Operations
variable {h : Host} {t : Root} {p : Bytes} (junk : Bool)

theorem tryAttr_touches (ht : Direct t p) (op : FsOp) (change : File → File) :
    Touches junk p t (tryAttr h op change t p).1 := by
  rcases tryAttr_cases h op change t p with ⟨q, f, hloc, _, _, hadded, _⟩ | ⟨hsame, _⟩
  · obtain ⟨hnames, _⟩ := locate_ok ht hloc
    refine ⟨?_, fun hnone => absurd (hnames.symm.trans hnone) (by simp)⟩
    intro names hn
    rw [hnames] at hn
    cases hn
    exact Frame.of_sameBut hadded.other (by simp [hadded.file])
  · rw [hsame]
    exact Touches.refl junk p t

theorem remove_touches (ht : Direct t p) : Touches junk p t (remove h t p).1 := by
  rcases remove_cases h t p with ⟨q, x, t', hloc, herase, heq⟩ | ⟨e, heq⟩
  · obtain ⟨hnames, _⟩ := locate_ok ht hloc
    rw [heq]
    refine ⟨?_, fun hnone => absurd (hnames.symm.trans hnone) (by simp)⟩
    intro names hn
    rw [hnames] at hn
    cases hn
    have hget := Tree.get_erase herase
    exact Frame.of_sameBut (fun q' hq' => by simp [hget, hq']) (by simp [hget])
  · rw [heq]
    exact Touches.refl junk p t

theorem writeFileRoot_touches (ht : Direct t p) (hp : CleanPath p) (data : Bytes) (mode : Mode) :
    Touches (h.fails .cleanup) p t (writeFileRoot h t p data mode).1 := by
  refine ⟨fun names hn => ((writeFileRoot_cases h t p data mode).frame ht hp hn).1, ?_⟩
  intro hn
  rw [writeFileRoot_no_names hp hn]

theorem writeFileRoot_ok (ht : Direct t p) (hp : CleanPath p) {data : Bytes} {mode : Mode}
    (hok : (writeFileRoot h t p data mode).2 = .ok ()) :
    fileAt (writeFileRoot h t p data mode).1 p =
      some ⟨data, h.writeTime, h.storedPerm (if mode = 0 then 0o644 else mode)⟩ := by
  cases hn : pathNames p with
  | none =>
    rw [writeFileRoot_no_names hp hn] at hok
    exact absurd hok (by simp)
  | some names =>
    rw [fileAt_eq_some]
    simpa [nodeAt, hn] using ((writeFileRoot_cases h t p data mode).frame ht hp hn).2.1 hok

theorem writeFileRoot_error (ht : Direct t p) (hp : CleanPath p) {data : Bytes} {mode : Mode}
    (herr : (writeFileRoot h t p data mode).2 ≠ .ok ()) :
    nodeAt (writeFileRoot h t p data mode).1 p = nodeAt t p := by
  cases hn : pathNames p with
  | none => rw [writeFileRoot_no_names hp hn]
  | some names =>
    simpa [nodeAt, hn] using ((writeFileRoot_cases h t p data mode).frame ht hp hn).2.2 herr

/-- The bytes at a path stay; where there is no file nothing happens. -/
structure KeepsBytes (p : Bytes) (t t' : Root) : Prop where
  file : ∀ f, fileAt t p = some f → ∃ f', fileAt t' p = some f' ∧ f'.bytes = f.bytes
  noFile : fileAt t p = none → t' = t

theorem KeepsBytes.refl (p : Bytes) (t : Root) : KeepsBytes p t t :=
  ⟨fun f hf => ⟨f, hf, rfl⟩, fun _ => rfl⟩

theorem KeepsBytes.trans {t t' t'' : Root} (h : KeepsBytes p t t') (h' : KeepsBytes p t' t'') :
    KeepsBytes p t t'' := by
  refine ⟨?_, ?_⟩
  · intro f hf
    obtain ⟨f', hf', hbytes⟩ := h.file f hf
    obtain ⟨f'', hf'', hbytes'⟩ := h'.file f' hf'
    exact ⟨f'', hf'', hbytes'.trans hbytes⟩
  · intro hnone
    have hsame := h.noFile hnone
    rw [h'.noFile (by rw [hsame, hnone]), hsame]

theorem tryAttr_keeps (ht : Direct t p) (op : FsOp) {change : File → File}
    (hbytes : ∀ f, (change f).bytes = f.bytes) :
    KeepsBytes p t (tryAttr h op change t p).1 := by
  rcases tryAttr_cases h op change t p with ⟨q, f, hloc, _, _, hadded, _⟩ | ⟨hsame, _⟩
  · have hnames := (locate_ok ht hloc).1
    have hfile : fileAt t p = some f := fileAt_eq_some.mpr (nodeAt_of_locate ht hloc)
    refine ⟨?_, fun hnone => absurd (hfile.symm.trans hnone) (by simp)⟩
    intro g hg
    rw [hfile] at hg
    cases hg
    exact ⟨change f, fileAt_eq_some.mpr (by simp [nodeAt, hnames, hadded.file]), hbytes f⟩
  · rw [hsame]
    exact KeepsBytes.refl p t

end Operations

end TailSync.RootEffects

import Mathlib.Data.List.AList
import Mathlib.Data.List.Induction

/-!
Directory trees as finite tables from paths to nodes. A table is closed: below
every recorded path there is a directory at each shorter path, so a file can
have no entries under it and a directory holding entries cannot disappear.
Names, file contents and link targets are arbitrary. Links are resolved inside
the tree, a bounded number of times; a target that climbs above the root or
that is absolute is refused.
-/
namespace TailSync.FileTrees

inductive Hop (N : Type*) where
  | down (name : N)
  | up
  deriving DecidableEq

/-- A link target; none is a target that leaves the tree. -/
abbrev LinkTarget (N : Type*) := Option (List (Hop N))

inductive Node (N F : Type*) where
  | file (f : F)
  | dir
  | link (target : LinkTarget N)
  | special
  deriving DecidableEq

namespace Node
variable {N F : Type*}

def isDir : Option (Node N F) → Bool
  | some .dir => true
  | _ => false

theorem isDir_iff (x : Option (Node N F)) : isDir x = true ↔ x = some .dir := by
  cases x with
  | none => simp [isDir]
  | some n => cases n <;> simp [isDir]

theorem isDir_eq_false_iff (x : Option (Node N F)) : isDir x = false ↔ x ≠ some .dir := by
  rw [← Bool.not_eq_true, isDir_iff]

def asFile : Option (Node N F) → Option F
  | some (.file f) => some f
  | _ => none

theorem asFile_eq_some {x : Option (Node N F)} {f : F} :
    asFile x = some f ↔ x = some (.file f) := by
  cases x with
  | none => simp [asFile]
  | some n => cases n <;> simp [asFile]

end Node

structure Tree (N F : Type*) [DecidableEq N] where
  table : AList fun _ : List N => Node N F
  closed : ∀ p n, (table.lookup (p ++ [n])).isSome → p = [] ∨ table.lookup p = some .dir

namespace Tree
variable {N F : Type*} [DecidableEq N]

def empty : Tree N F where
  table := ∅
  closed := by
    intro p n h
    simp at h

def get (t : Tree N F) (p : List N) : Option (Node N F) :=
  if p = [] then some .dir else t.table.lookup p

@[simp] theorem get_nil (t : Tree N F) : t.get [] = some .dir := rfl

theorem get_of_ne_nil (t : Tree N F) {p : List N} (hp : p ≠ []) :
    t.get p = t.table.lookup p := if_neg hp

theorem get_parent (t : Tree N F) {p : List N} {n : N} (h : (t.get (p ++ [n])).isSome) :
    t.get p = some .dir := by
  rw [get_of_ne_nil t (by simp)] at h
  rcases t.closed p n h with rfl | hdir
  · rfl
  · by_cases hp : p = []
    · subst hp
      rfl
    · rw [get_of_ne_nil t hp, hdir]

/-- Every proper prefix of a recorded path is a directory. -/
theorem get_prefix (t : Tree N F) (p r : List N) (hr : r ≠ []) (h : (t.get (p ++ r)).isSome) :
    t.get p = some .dir := by
  induction r using List.reverseRecOn with
  | nil => exact absurd rfl hr
  | append_singleton r n ih =>
    have hparent : t.get (p ++ r) = some .dir := by
      apply get_parent t (n := n)
      simpa only [List.append_assoc] using h
    by_cases hr' : r = []
    · simpa only [hr', List.append_nil] using hparent
    · exact ih hr' (by simp [hparent])

def fileAt (t : Tree N F) (p : List N) : Option F := Node.asFile (t.get p)

def entries (t : Tree N F) : List (List N × Node N F) :=
  (t.table.entries.map fun e => (e.1, e.2)).filter fun e => e.1 ≠ []

theorem mem_entries {t : Tree N F} {p : List N} {x : Node N F} :
    (p, x) ∈ t.entries ↔ p ≠ [] ∧ t.get p = some x := by
  simp only [entries, List.mem_filter, List.mem_map, decide_eq_true_eq, Prod.mk.injEq]
  constructor
  · rintro ⟨⟨e, he, rfl, rfl⟩, hp⟩
    refine ⟨hp, ?_⟩
    rw [get_of_ne_nil t hp]
    exact AList.mem_lookup_iff.mpr he
  · rintro ⟨hp, hget⟩
    rw [get_of_ne_nil t hp] at hget
    exact ⟨⟨⟨p, x⟩, AList.mem_lookup_iff.mp hget, rfl, rfl⟩, hp⟩

theorem entries_nodup (t : Tree N F) : (t.entries.map Prod.fst).Nodup := by
  have hkeys := t.table.nodupKeys
  rw [List.NodupKeys, List.keys] at hkeys
  have hmap : (t.table.entries.map fun e => (e.1, e.2)).map Prod.fst =
      t.table.entries.map Sigma.fst := by
    simp only [List.map_map]
    rfl
  exact (hmap ▸ hkeys).sublist (List.Sublist.map _ List.filter_sublist)

/-- Record a node below an existing directory, over anything but a directory. -/
def put (t : Tree N F) (p : List N) (x : Node N F) : Option (Tree N F) :=
  if h : p ≠ [] ∧ Node.isDir (t.get p.dropLast) = true ∧ Node.isDir (t.get p) = false then
    some {
      table := t.table.insert p x
      closed := by
        intro q n hq
        by_cases hqp : q ++ [n] = p
        · have hparent := h.2.1
          rw [← hqp, List.dropLast_concat, Node.isDir_iff] at hparent
          by_cases hnil : q = []
          · exact Or.inl hnil
          · have hne : q ≠ p := by
              intro heq
              simpa using congrArg List.length (heq.trans hqp.symm)
            rw [get_of_ne_nil t hnil] at hparent
            exact Or.inr (by rw [AList.lookup_insert_ne hne, hparent])
        · rw [AList.lookup_insert_ne hqp] at hq
          rcases t.closed q n hq with hnil | hdir
          · exact Or.inl hnil
          · by_cases hnil : q = []
            · exact Or.inl hnil
            · have hne : q ≠ p := by
                rintro rfl
                have hnot := h.2.2
                rw [get_of_ne_nil t hnil, hdir] at hnot
                simp [Node.isDir] at hnot
              exact Or.inr (by rw [AList.lookup_insert_ne hne, hdir])
    }
  else none

def childless (t : Tree N F) (p : List N) : Bool :=
  t.table.entries.all fun e => decide (e.1 = [] ∨ e.1.dropLast ≠ p)

/-- Remove a node; a directory only when it is empty. -/
def erase (t : Tree N F) (p : List N) : Option (Tree N F) :=
  if h : p ≠ [] ∧ (t.get p).isSome ∧ (Node.isDir (t.get p) = false ∨ t.childless p = true) then
    some {
      table := t.table.erase p
      closed := by
        intro q n hq
        have hqp : q ++ [n] ≠ p := by
          rintro rfl
          simp at hq
        rw [AList.lookup_erase_ne hqp] at hq
        have hold := t.closed q n hq
        rcases hold with hnil | hdir
        · exact Or.inl hnil
        · have hne : q ≠ p := by
            rintro rfl
            rcases h.2.2 with hfile | hleaf
            · rw [get_of_ne_nil t h.1, hdir] at hfile
              simp [Node.isDir] at hfile
            · obtain ⟨x, hx⟩ := Option.isSome_iff_exists.mp hq
              have hmem := AList.mem_lookup_iff.mp (Option.mem_def.mpr hx)
              have hall := List.all_eq_true.mp hleaf _ hmem
              simp at hall
          exact Or.inr (by rw [AList.lookup_erase_ne hne, hdir])
    }
  else none

theorem put_isSome_iff {t : Tree N F} {p : List N} {x : Node N F} :
    (t.put p x).isSome ↔ p ≠ [] ∧ t.get p.dropLast = some .dir ∧ t.get p ≠ some .dir := by
  unfold put
  rw [← Node.isDir_iff, ← Node.isDir_eq_false_iff]
  split <;> simp_all

theorem get_put {t t' : Tree N F} {p : List N} {x : Node N F} (h : t.put p x = some t')
    (q : List N) : t'.get q = if q = p then some x else t.get q := by
  unfold put at h
  split at h
  · rename_i hcond
    cases h
    by_cases hq : q = p
    · subst hq
      simp [get, hcond.1]
    · by_cases hnil : q = []
      · subst hnil
        simp [hq]
      · simp [get, hnil, hq]
  · exact absurd h (by simp)

theorem get_erase {t t' : Tree N F} {p : List N} (h : t.erase p = some t') (q : List N) :
    t'.get q = if q = p then none else t.get q := by
  unfold erase at h
  split at h
  · rename_i hcond
    cases h
    by_cases hq : q = p
    · subst hq
      simp [get, hcond.1]
    · by_cases hnil : q = []
      · subst hnil
        simp [hq]
      · simp [get, hnil, hq]
  · exact absurd h (by simp)

theorem erase_file_isSome {t : Tree N F} {p : List N} {f : F} (h : t.get p = some (.file f)) :
    (t.erase p).isSome := by
  have hp : p ≠ [] := by
    rintro rfl
    simp at h
  unfold erase
  rw [dif_pos ⟨hp, by simp [h], Or.inl (by simp [h, Node.isDir])⟩]
  rfl

/-- Replacing a file in place always succeeds. -/
theorem put_over_file {t : Tree N F} {p : List N} {f : F} (x : Node N F)
    (h : t.get p = some (.file f)) : (t.put p x).isSome := by
  have hp : p ≠ [] := by
    rintro rfl
    simp at h
  rw [put_isSome_iff]
  refine ⟨hp, ?_, by simp [h]⟩
  apply get_parent t (n := p.getLast hp)
  rw [List.dropLast_append_getLast, h]
  rfl

/-- The second of two writes at one path counts. -/
theorem put_put {t t₁ t₂ : Tree N F} {p : List N} {x y : Node N F} (h : t.put p x = some t₁)
    (h' : t₁.put p y = some t₂) : t.put p y = some t₂ := by
  unfold put at h
  split at h
  · rename_i hcond
    cases h
    unfold put at h' ⊢
    rw [dif_pos hcond]
    split at h'
    · cases h'
      simp only [AList.insert_insert]
    · exact absurd h' (by simp)
  · exact absurd h (by simp)

/-- Removing a node leaves no trace of what it was. -/
theorem erase_put_eq {t t₁ t₂ : Tree N F} {p : List N} {f g : F}
    (h : t.put p (.file f) = some t₁) (h' : t.put p (.file g) = some t₂) :
    t₁.erase p = t₂.erase p := by
  have hgone : ∀ x : Node N F, (t.table.insert p x).erase p = t.table.erase p := by
    intro x
    ext1
    change List.kerase p (⟨p, x⟩ :: List.kerase p t.table.entries) = _
    exact List.kerase_cons_eq rfl
  have hfile : ∀ (t' : Tree N F) (f : F), t.put p (.file f) = some t' →
      t'.table.erase p = t.table.erase p ∧ t'.get p = some (.file f) := by
    intro t' f hput
    refine ⟨?_, by rw [get_put hput, if_pos rfl]⟩
    unfold put at hput
    split at hput
    · cases hput
      exact hgone _
    · exact absurd hput (by simp)
  obtain ⟨htable, hget⟩ := hfile t₁ f h
  obtain ⟨htable', hget'⟩ := hfile t₂ g h'
  obtain ⟨u, hu⟩ := Option.isSome_iff_exists.mp (erase_file_isSome hget)
  obtain ⟨u', hu'⟩ := Option.isSome_iff_exists.mp (erase_file_isSome hget')
  rw [hu, hu']
  unfold erase at hu hu'
  split at hu
  · split at hu'
    · cases hu
      cases hu'
      simp only [htable, htable']
    · exact absurd hu' (by simp)
  · exact absurd hu (by simp)

inductive LookupError where
  | notExist
  | exist
  | notDir
  | escapes
  | loop
  deriving DecidableEq, Repr

/-- Walk the hops from an already resolved directory. A link in the middle, and
at the end when last is set, hands the rest of the walk to restart. -/
def follow (t : Tree N F) (last : Bool)
    (restart : List N → List (Hop N) → Except LookupError (List N)) :
    List N → List (Hop N) → Except LookupError (List N)
  | done, [] => .ok done
  | done, .up :: rest =>
      if done = [] then .error .escapes else t.follow last restart done.dropLast rest
  | done, .down n :: rest =>
      match t.get (done ++ [n]) with
      | none => if rest.isEmpty then .ok (done ++ [n]) else .error .notExist
      | some .dir => t.follow last restart (done ++ [n]) rest
      | some (.link target) =>
          if rest.isEmpty && !last then .ok (done ++ [n])
          else match target with
            | none => .error .escapes
            | some hops => restart done (hops ++ rest)
      | some _ => if rest.isEmpty then .ok (done ++ [n]) else .error .notDir

/-- Resolution with a budget of links to follow. -/
def resolveFrom (t : Tree N F) (last : Bool) :
    ℕ → List N → List (Hop N) → Except LookupError (List N)
  | 0 => t.follow last fun _ _ => .error .loop
  | budget + 1 => t.follow last (t.resolveFrom last budget)

def resolve (t : Tree N F) (budget : ℕ) (last : Bool) (p : List N) :
    Except LookupError (List N) :=
  t.resolveFrom last budget [] (p.map .down)

/-- Walk the hops and make the directories that are missing on the way. A link in the
middle hands the rest of the walk to restart. What the last link leads to is not made
but left to final. -/
def mkdirWalk (final : Tree N F → Except LookupError (List N))
    (restart : Tree N F → List N → List (Hop N) → Tree N F × Except LookupError (List N)) :
    Tree N F → List N → List (Hop N) → Tree N F × Except LookupError (List N)
  | t, done, [] => (t, .ok done)
  | t, done, .up :: rest =>
      if done = [] then (t, .error .escapes) else mkdirWalk final restart t done.dropLast rest
  | t, done, .down n :: rest =>
      match t.get (done ++ [n]) with
      | none =>
          match t.put (done ++ [n]) .dir with
          | some t' => mkdirWalk final restart t' (done ++ [n]) rest
          | none => (t, .error .notDir)
      | some .dir => mkdirWalk final restart t (done ++ [n]) rest
      | some (.link target) =>
          if rest.isEmpty then (t, final t)
          else match target with
            | none => (t, .error .escapes)
            | some hops => restart t done (hops ++ rest)
      | some _ => (t, .error (if rest.isEmpty then .exist else .notDir))

def mkdirFrom (final : Tree N F → Except LookupError (List N)) :
    ℕ → Tree N F → List N → List (Hop N) → Tree N F × Except LookupError (List N)
  | 0 => mkdirWalk final fun t _ _ => (t, .error .loop)
  | budget + 1 => mkdirWalk final (mkdirFrom final budget)

def existingDir (budget : ℕ) (p : List N) (t : Tree N F) : Except LookupError (List N) :=
  match t.resolve budget true p with
  | .ok q => if Node.isDir (t.get q) then .ok q else .error .exist
  | .error _ => .error .exist

theorem existingDir_eq_ok {budget : ℕ} {p q : List N} {t : Tree N F} :
    existingDir budget p t = .ok q ↔ t.resolve budget true p = .ok q ∧ t.get q = some .dir := by
  unfold existingDir
  cases t.resolve budget true p with
  | error e => simp
  | ok r =>
    rw [← Node.isDir_iff]
    dsimp only
    split
    · constructor
      · rintro ⟨⟩
        exact ⟨rfl, ‹_›⟩
      · rintro ⟨⟨⟩, _⟩
        rfl
    · constructor
      · intro h
        exact absurd h (by simp)
      · rintro ⟨⟨⟩, hdir⟩
        exact absurd hdir ‹_›

def mkdirAll (t : Tree N F) (budget : ℕ) (p : List N) :
    Tree N F × Except LookupError (List N) :=
  mkdirFrom (existingDir budget p) budget t [] (p.map .down)

/-- A tree of files and directories only, apart from special nodes. -/
def LinkFree (t : Tree N F) : Prop := ∀ p target, t.get p ≠ some (.link target)

/-- No link stands at the path or on the way to it. -/
def Unlinked (t : Tree N F) (p : List N) : Prop :=
  ∀ q target, q <+: p → t.get q ≠ some (.link target)

theorem LinkFree.unlinked {t : Tree N F} (ht : t.LinkFree) (p : List N) : t.Unlinked p :=
  fun q target _ => ht q target

theorem empty_linkFree : (empty : Tree N F).LinkFree := by
  intro p target hp
  by_cases hnil : p = []
  · simp [hnil] at hp
  · rw [get_of_ne_nil _ hnil] at hp
    exact absurd hp (by simp [empty])

private theorem follow_recorded {t : Tree N F} (last : Bool)
    (restart : List N → List (Hop N) → Except LookupError (List N)) (rest done : List N)
    {x : Node N F} (hget : t.get (done ++ rest) = some x) (hx : ∀ target, x ≠ .link target) :
    t.follow last restart done (rest.map .down) = .ok (done ++ rest) := by
  induction rest generalizing done with
  | nil => simp [follow]
  | cons n rest ih =>
    have hassoc : done ++ n :: rest = done ++ [n] ++ rest := by simp
    simp only [List.map_cons, follow]
    -- whatever lies on the way is a directory, because the table is closed
    by_cases hrest : rest = []
    · subst hrest
      rw [hget]
      cases x with
      | link target => exact absurd rfl (hx target)
      | dir => simp [follow]
      | file f => simp
      | special => simp
    · rw [hassoc] at hget ⊢
      rw [t.get_prefix (done ++ [n]) rest hrest (by rw [hget]; rfl)]
      exact ih (done ++ [n]) hget

/-- A recorded path resolves to itself, unless a link is recorded there. -/
theorem resolve_recorded {t : Tree N F} (budget : ℕ) (last : Bool) {p : List N} {x : Node N F}
    (hget : t.get p = some x) (hx : ∀ target, x ≠ .link target) :
    t.resolve budget last p = .ok p := by
  unfold resolve
  cases budget with
  | zero => exact follow_recorded last _ p [] hget hx
  | succ budget => exact follow_recorded last _ p [] hget hx

private theorem follow_unlinked {t : Tree N F} (last : Bool)
    (restart : List N → List (Hop N) → Except LookupError (List N)) (rest done q : List N)
    (hno : t.Unlinked (done ++ rest))
    (h : t.follow last restart done (rest.map .down) = .ok q) : q = done ++ rest := by
  induction rest generalizing done with
  | nil => simpa [follow] using h.symm
  | cons n rest ih =>
    have hassoc : done ++ n :: rest = done ++ [n] ++ rest := by simp
    simp only [List.map_cons, follow] at h
    cases hget : t.get (done ++ [n]) with
    | none =>
      cases rest with
      | nil => simpa [hget] using h.symm
      | cons m rest => simp [hget] at h
    | some x =>
      cases x with
      | dir =>
        rw [hget] at h
        rw [hassoc] at hno ⊢
        exact ih (done ++ [n]) hno h
      | link target => exact absurd hget (hno _ target (by simp))
      | file f =>
        cases rest with
        | nil => simpa [hget] using h.symm
        | cons m rest => simp [hget] at h
      | special =>
        cases rest with
        | nil => simpa [hget] using h.symm
        | cons m rest => simp [hget] at h

/-- With no link on its way a path that resolves stands for itself. -/
theorem resolve_unlinked {t : Tree N F} {budget : ℕ} {last : Bool} {p q : List N}
    (hno : t.Unlinked p) (h : t.resolve budget last p = .ok q) : q = p := by
  unfold resolve at h
  cases budget with
  | zero => exact follow_unlinked last _ p [] q hno h
  | succ budget => exact follow_unlinked last _ p [] q hno h

def Passable (t : Tree N F) (p : List N) : Prop :=
  ∀ q, q <+: p → t.get q = none ∨ t.get q = some .dir

private theorem follow_passable {t : Tree N F} (last : Bool)
    (restart : List N → List (Hop N) → Except LookupError (List N)) (rest done : List N)
    (hway : t.Passable (done ++ rest)) :
    t.follow last restart done (rest.map .down) = .ok (done ++ rest) ∨
      t.follow last restart done (rest.map .down) = .error .notExist := by
  induction rest generalizing done with
  | nil => exact Or.inl (by simp [follow])
  | cons n rest ih =>
    have hassoc : done ++ n :: rest = done ++ [n] ++ rest := by simp
    rw [hassoc] at hway ⊢
    simp only [List.map_cons, follow]
    rcases hway (done ++ [n]) (List.prefix_append _ _) with hnone | hdir
    · rw [hnone]
      cases rest with
      | nil => exact Or.inl (by simp)
      | cons m rest => exact Or.inr (by simp)
    · rw [hdir]
      exact ih (done ++ [n]) hway

/-- A path with nothing in its way resolves to itself, or ends where nothing is yet. -/
theorem resolve_passable {t : Tree N F} (budget : ℕ) (last : Bool) {p : List N}
    (hway : t.Passable p) :
    t.resolve budget last p = .ok p ∨ t.resolve budget last p = .error .notExist := by
  unfold resolve
  cases budget with
  | zero => exact follow_passable last _ p [] hway
  | succ budget => exact follow_passable last _ p [] hway

private theorem mkdirWalk_passable (final : Tree N F → Except LookupError (List N))
    (restart : Tree N F → List N → List (Hop N) → Tree N F × Except LookupError (List N))
    (rest : List N) (t : Tree N F) (done : List N) (hdone : t.get done = some .dir)
    (hway : t.Passable (done ++ rest)) :
    (mkdirWalk final restart t done (rest.map .down)).2 = .ok (done ++ rest) := by
  induction rest generalizing t done with
  | nil => simp [mkdirWalk]
  | cons n rest ih =>
    have hassoc : done ++ n :: rest = done ++ [n] ++ rest := by simp
    rw [hassoc] at hway ⊢
    simp only [List.map_cons, mkdirWalk]
    rcases hway (done ++ [n]) (List.prefix_append _ _) with hnone | hdir
    · rw [hnone]
      have hput : (t.put (done ++ [n]) .dir).isSome := by
        rw [put_isSome_iff]
        exact ⟨by simp, by simpa using hdone, by simp [hnone]⟩
      obtain ⟨t', hput⟩ := Option.isSome_iff_exists.mp hput
      rw [hput]
      refine ih t' (done ++ [n]) (by rw [get_put hput, if_pos rfl]) ?_
      intro q hq
      rw [get_put hput]
      split
      · exact Or.inr rfl
      · exact hway q hq
    · rw [hdir]
      exact ih t (done ++ [n]) hdir hway

/-- With nothing in the way the directory can be made. -/
theorem mkdirAll_passable {t : Tree N F} (budget : ℕ) {p : List N} (hway : t.Passable p) :
    (t.mkdirAll budget p).2 = .ok p := by
  unfold mkdirAll
  cases budget with
  | zero => exact mkdirWalk_passable _ _ p t [] rfl hway
  | succ budget => exact mkdirWalk_passable _ _ p t [] rfl hway

def GrownBy (allowed : List N → Prop) (t t' : Tree N F) : Prop :=
  ∀ q, t'.get q = t.get q ∨ (t.get q = none ∧ t'.get q = some .dir ∧ allowed q)

namespace GrownBy
variable {allowed : List N → Prop} {t t' t'' : Tree N F}

theorem refl (allowed : List N → Prop) (t : Tree N F) : GrownBy allowed t t := fun _ => Or.inl rfl

theorem trans (h : GrownBy allowed t t') (h' : GrownBy allowed t' t'') :
    GrownBy allowed t t'' := by
  intro q
  rcases h' q with heq | ⟨hnone, hdir, hq⟩
  · rw [heq]
    exact h q
  · rcases h q with heq | ⟨_, hdir', _⟩
    · exact Or.inr ⟨by rw [← heq, hnone], hdir, hq⟩
    · rw [hdir'] at hnone
      exact absurd hnone (by simp)

theorem get_link (h : GrownBy allowed t t') {q : List N} {target : LinkTarget N}
    (hq : t'.get q = some (.link target)) : t.get q = some (.link target) := by
  rcases h q with heq | ⟨_, hdir, _⟩
  · rw [← heq, hq]
  · rw [hdir] at hq
    exact absurd hq (by simp)

theorem unlinked (h : GrownBy allowed t t') {p : List N} (ht : t.Unlinked p) : t'.Unlinked p :=
  fun q target hpre hq => ht q target hpre (h.get_link hq)

theorem get_of_some (h : GrownBy allowed t t') {q : List N} {x : Node N F}
    (hq : t.get q = some x) : t'.get q = some x := by
  rcases h q with heq | ⟨hnone, _, _⟩
  · rw [heq, hq]
  · rw [hq] at hnone
    exact absurd hnone (by simp)

end GrownBy

theorem put_dir_grownBy {t t' : Tree N F} {p : List N} (hnone : t.get p = none)
    (h : t.put p .dir = some t') {allowed : List N → Prop} (hp : allowed p) :
    GrownBy allowed t t' := by
  intro q
  rw [get_put h]
  by_cases hq : q = p
  · subst hq
    exact Or.inr ⟨hnone, by simp, hp⟩
  · exact Or.inl (by simp [hq])

private theorem mkdirWalk_unlinked (final : Tree N F → Except LookupError (List N))
    (restart : Tree N F → List N → List (Hop N) → Tree N F × Except LookupError (List N))
    (rest : List N) {t : Tree N F} (done : List N) (hno : t.Unlinked (done ++ rest)) :
    GrownBy (fun q => q <+: done ++ rest) t (mkdirWalk final restart t done (rest.map .down)).1 ∧
    ∀ q, (mkdirWalk final restart t done (rest.map .down)).2 = .ok q →
      q = done ++ rest ∧
        (t.get done = some .dir →
          (mkdirWalk final restart t done (rest.map .down)).1.get q = some .dir) := by
  induction rest generalizing done t with
  | nil =>
    refine ⟨GrownBy.refl _ t, ?_⟩
    intro q hq
    have heq : q = done := by simpa [mkdirWalk] using hq.symm
    subst heq
    exact ⟨by simp, fun h => h⟩
  | cons n rest ih =>
    have hassoc : done ++ n :: rest = done ++ [n] ++ rest := by simp
    simp only [List.map_cons, mkdirWalk]
    rw [hassoc] at hno ⊢
    cases hget : t.get (done ++ [n]) with
    | none =>
      cases hput : t.put (done ++ [n]) .dir with
      | none =>
        exact ⟨GrownBy.refl _ t, by simp⟩
      | some t' =>
        have hgrow : GrownBy (fun q => q <+: done ++ [n] ++ rest) t t' :=
          put_dir_grownBy hget hput (by simp)
        obtain ⟨hgrow', hok⟩ := ih (done ++ [n]) (hgrow.unlinked hno)
        refine ⟨hgrow.trans hgrow', ?_⟩
        intro q hq
        obtain ⟨heq, hdir⟩ := hok q hq
        exact ⟨heq, fun _ => hdir (by rw [get_put hput]; simp)⟩
    | some x =>
      cases x with
      | dir =>
        obtain ⟨hgrow, hok⟩ := ih (done ++ [n]) hno
        refine ⟨hgrow, ?_⟩
        intro q hq
        obtain ⟨heq, hdir⟩ := hok q hq
        exact ⟨heq, fun _ => hdir hget⟩
      | link target => exact absurd hget (hno _ target (List.prefix_append _ _))
      | file f => exact ⟨GrownBy.refl _ t, by simp⟩
      | special => exact ⟨GrownBy.refl _ t, by simp⟩

/-- With no link on the way MkdirAll only adds directories on the way to the path, and
on success the path is a directory. -/
theorem mkdirAll_unlinked {t : Tree N F} (budget : ℕ) {p : List N} (hno : t.Unlinked p) :
    GrownBy (fun q => q <+: p) t (t.mkdirAll budget p).1 ∧
    ∀ q, (t.mkdirAll budget p).2 = .ok q →
      q = p ∧ (t.mkdirAll budget p).1.get q = some .dir := by
  have hwalk := fun final restart => mkdirWalk_unlinked final restart p [] hno
  unfold mkdirAll
  cases budget with
  | zero =>
    obtain ⟨hgrow, hok⟩ := hwalk _ fun t _ _ => (t, .error .loop)
    exact ⟨hgrow, fun q hq => ⟨(hok q hq).1, (hok q hq).2 rfl⟩⟩
  | succ budget =>
    obtain ⟨hgrow, hok⟩ := hwalk _ (mkdirFrom _ budget)
    exact ⟨hgrow, fun q hq => ⟨(hok q hq).1, (hok q hq).2 rfl⟩⟩

end Tree

end TailSync.FileTrees

import TailSync.FileTrees

/-!
Resolution in trees that hold links. Changing files in place does not change how
a path resolves. Making a directory keeps every node that was there, and the path
of the directory then resolves to it. A file put into the directory may take the
place of a link that its own path leads through; this needs a path that led to a
directory before, or a link on the way that led nowhere until the directory was made.
-/
namespace TailSync.FileTrees.Tree

variable {N F : Type*} [DecidableEq N]

def FileForFile (t t' : Tree N F) : Prop :=
  ∀ q, t'.get q = t.get q ∨ ∃ f f', t.get q = some (.file f) ∧ t'.get q = some (.file f')

theorem put_fileForFile {t t' : Tree N F} {p : List N} {f f' : F}
    (hget : t.get p = some (.file f)) (hput : t.put p (.file f') = some t') :
    FileForFile t t' := by
  intro q
  rw [get_put hput]
  by_cases hq : q = p
  · subst hq
    exact Or.inr ⟨f, f', hget, by simp⟩
  · exact Or.inl (by simp [hq])

private theorem follow_fileForFile {t t' : Tree N F} (h : FileForFile t t') (last : Bool)
    {restart restart' : List N → List (Hop N) → Except LookupError (List N)}
    (hrestart : ∀ done hops, restart' done hops = restart done hops)
    (hops : List (Hop N)) (done : List N) :
    t'.follow last restart' done hops = t.follow last restart done hops := by
  induction hops generalizing done with
  | nil => rfl
  | cons hop rest ih =>
    cases hop with
    | up => simp only [follow, ih]
    | down n =>
      simp only [follow]
      rcases h (done ++ [n]) with heq | ⟨f, f', hf, hf'⟩
      · simp only [heq, ih, hrestart]
      · simp only [hf, hf']

private theorem resolveFrom_fileForFile {t t' : Tree N F} (h : FileForFile t t') (last : Bool)
    (budget : ℕ) (done : List N) (hops : List (Hop N)) :
    t'.resolveFrom last budget done hops = t.resolveFrom last budget done hops := by
  induction budget generalizing done hops with
  | zero => exact follow_fileForFile h last (fun _ _ => rfl) hops done
  | succ budget ih => exact follow_fileForFile h last ih hops done

theorem resolve_fileForFile {t t' : Tree N F} (h : FileForFile t t') (budget : ℕ) (last : Bool)
    (p : List N) : t'.resolve budget last p = t.resolve budget last p :=
  resolveFrom_fileForFile h last budget [] (p.map .down)

abbrev Grown (t t' : Tree N F) : Prop := GrownBy (fun _ => True) t t'

private theorem mkdirWalk_grown {final : Tree N F → Except LookupError (List N)}
    {restart : Tree N F → List N → List (Hop N) → Tree N F × Except LookupError (List N)}
    (hrestart : ∀ t done hops, Grown t (restart t done hops).1) (hops : List (Hop N))
    (t : Tree N F) (done : List N) : Grown t (mkdirWalk final restart t done hops).1 := by
  induction hops generalizing t done with
  | nil => exact GrownBy.refl _ t
  | cons hop rest ih =>
    cases hop with
    | up =>
      simp only [mkdirWalk]
      split
      · exact GrownBy.refl _ t
      · exact ih t done.dropLast
    | down n =>
      simp only [mkdirWalk]
      split
      · rename_i hnone
        split
        · rename_i t' hput
          exact (put_dir_grownBy hnone hput trivial).trans (ih t' (done ++ [n]))
        · exact GrownBy.refl _ t
      · exact ih t (done ++ [n])
      · split
        · exact GrownBy.refl _ t
        · split
          · exact GrownBy.refl _ t
          · exact hrestart t done _
      · exact GrownBy.refl _ t

theorem mkdirFrom_grown (final : Tree N F → Except LookupError (List N)) (budget : ℕ)
    (t : Tree N F) (done : List N) (hops : List (Hop N)) :
    Grown t (mkdirFrom final budget t done hops).1 := by
  induction budget generalizing t done hops with
  | zero => exact mkdirWalk_grown (fun t _ _ => GrownBy.refl _ t) hops t done
  | succ budget ih => exact mkdirWalk_grown ih hops t done

theorem mkdirAll_grown {t t₁ : Tree N F} {budget : ℕ} {p : List N}
    {r : Except LookupError (List N)} (h : t.mkdirAll budget p = (t₁, r)) : Grown t t₁ := by
  have hgrown := mkdirFrom_grown (existingDir budget p) budget t [] (p.map .down)
  rwa [show mkdirFrom (existingDir budget p) budget t [] (p.map .down) = (t₁, r) from h] at hgrown

theorem get_dropLast (t : Tree N F) {p : List N} (hp : p ≠ []) (h : t.get p = some .dir) :
    t.get p.dropLast = some .dir := by
  apply get_parent t (n := p.getLast hp)
  rw [List.dropLast_append_getLast, h]
  rfl

private theorem mkdirWalk_resolves {t₁ : Tree N F} {dir : List N}
    {final : Tree N F → Except LookupError (List N)}
    {mkdir : Tree N F → List N → List (Hop N) → Tree N F × Except LookupError (List N)}
    {restart : List N → List (Hop N) → Except LookupError (List N)}
    (hgrown : ∀ t done hops, Grown t (mkdir t done hops).1)
    (hrestart : ∀ t done hops, t.get done = some .dir → mkdir t done hops = (t₁, .ok dir) →
      final t₁ = .ok dir ∨ (restart done hops = .ok dir ∧ t₁.get dir = some .dir))
    (hops : List (Hop N)) (t : Tree N F) (done : List N) (hdone : t.get done = some .dir)
    (hmkdir : mkdirWalk final mkdir t done hops = (t₁, .ok dir)) :
    final t₁ = .ok dir ∨ (t₁.follow true restart done hops = .ok dir ∧ t₁.get dir = some .dir) := by
  induction hops generalizing t done with
  | nil =>
    cases hmkdir
    exact Or.inr ⟨rfl, hdone⟩
  | cons hop rest ih =>
    cases hop with
    | up =>
      simp only [mkdirWalk] at hmkdir
      simp only [follow]
      split at hmkdir
      · exact absurd hmkdir (by simp)
      · rename_i hne
        rw [if_neg hne]
        exact ih t done.dropLast (t.get_dropLast hne hdone) hmkdir
    | down n =>
      have hwalk : ∀ t', mkdirWalk final mkdir t' (done ++ [n]) rest = (t₁, .ok dir) →
          Grown t' t₁ := by
        intro t' heq
        have hgrow : Grown t' (mkdirWalk final mkdir t' (done ++ [n]) rest).1 :=
          mkdirWalk_grown hgrown rest t' (done ++ [n])
        rwa [heq] at hgrow
      simp only [mkdirWalk] at hmkdir
      simp only [follow]
      split at hmkdir
      · split at hmkdir
        · rename_i t' hput
          have hdir : t'.get (done ++ [n]) = some .dir := by
            rw [get_put hput]
            simp
          rw [(hwalk t' hmkdir).get_of_some hdir]
          exact ih t' (done ++ [n]) hdir hmkdir
        · exact absurd hmkdir (by simp)
      · rename_i hdir
        rw [(hwalk t hmkdir).get_of_some hdir]
        exact ih t (done ++ [n]) hdir hmkdir
      · rename_i target hlink
        split at hmkdir
        · obtain ⟨rfl, hfinal⟩ := Prod.mk.inj hmkdir
          exact Or.inl hfinal
        · rename_i hmore
          cases target with
          | none => exact absurd hmkdir (by simp)
          | some hops =>
            dsimp only at hmkdir
            have hgrow := hgrown t done (hops ++ rest)
            rw [hmkdir] at hgrow
            rw [hgrow.get_of_some hlink]
            simpa [hmore] using hrestart t done (hops ++ rest) hdone hmkdir
      · exact absurd hmkdir (by simp)

private theorem mkdirFrom_resolves {t₁ : Tree N F} {dir : List N}
    {final : Tree N F → Except LookupError (List N)} (budget : ℕ) (t : Tree N F) (done : List N)
    (hops : List (Hop N)) (hdone : t.get done = some .dir)
    (hmkdir : mkdirFrom final budget t done hops = (t₁, .ok dir)) :
    final t₁ = .ok dir ∨
      (t₁.resolveFrom true budget done hops = .ok dir ∧ t₁.get dir = some .dir) := by
  induction budget generalizing t done hops with
  | zero =>
    refine mkdirWalk_resolves (fun t _ _ => GrownBy.refl _ t) ?_ hops t done hdone hmkdir
    intro t done hops _ hno
    exact absurd hno (by simp)
  | succ budget ih =>
    exact mkdirWalk_resolves (mkdirFrom_grown final budget) ih hops t done hdone hmkdir

/-- A directory that was made is found at its path. -/
theorem mkdirAll_resolves {t t₁ : Tree N F} {budget : ℕ} {p dir : List N}
    (hmkdir : t.mkdirAll budget p = (t₁, .ok dir)) :
    t₁.resolve budget true p = .ok dir ∧ t₁.get dir = some .dir := by
  rcases mkdirFrom_resolves budget t [] (p.map .down) rfl hmkdir with hfinal | hfound
  · exact existingDir_eq_ok.mp hfinal
  · exact hfound

section Walks
variable {t : Tree N F}

def redo (t : Tree N F) (last : Bool) : ℕ → List N → List (Hop N) → Except LookupError (List N)
  | 0 => fun _ _ => .error .loop
  | budget + 1 => t.resolveFrom last budget

theorem resolveFrom_eq_follow (last : Bool) (budget : ℕ) :
    t.resolveFrom last budget = t.follow last (t.redo last budget) := by
  cases budget <;> rfl

@[simp] theorem resolveFrom_nil (last : Bool) (budget : ℕ) (done : List N) :
    t.resolveFrom last budget done [] = .ok done := by
  rw [resolveFrom_eq_follow, follow]

theorem resolveFrom_up (last : Bool) (budget : ℕ) {done : List N} (hne : done ≠ [])
    (rest : List (Hop N)) :
    t.resolveFrom last budget done (.up :: rest) =
      t.resolveFrom last budget done.dropLast rest := by
  rw [resolveFrom_eq_follow, follow, if_neg hne]

theorem resolveFrom_enter (last : Bool) (budget : ℕ) {done : List N} {n : N}
    (hget : t.get (done ++ [n]) = some .dir) (rest : List (Hop N)) :
    t.resolveFrom last budget done (.down n :: rest) =
      t.resolveFrom last budget (done ++ [n]) rest := by
  rw [resolveFrom_eq_follow, follow, hget]

theorem resolveFrom_link {last : Bool} (budget : ℕ) {done : List N} {n : N} {hops : List (Hop N)}
    (hget : t.get (done ++ [n]) = some (.link (some hops))) {rest : List (Hop N)}
    (hlast : rest ≠ [] ∨ last = true) :
    t.resolveFrom last budget done (.down n :: rest) = t.redo last budget done (hops ++ rest) := by
  rw [resolveFrom_eq_follow, follow, hget]
  rcases hlast with hne | rfl
  · simp [hne]
  · simp

theorem resolveFrom_up_ok {budget : ℕ} {done r : List N} {rest : List (Hop N)}
    (h : t.resolveFrom true budget done (.up :: rest) = .ok r) :
    done ≠ [] ∧ t.resolveFrom true budget done.dropLast rest = .ok r := by
  by_cases hne : done = []
  · rw [resolveFrom_eq_follow, follow, if_pos hne] at h
    exact absurd h (by simp)
  · rw [resolveFrom_up true budget hne] at h
    exact ⟨hne, h⟩

/-- What a walk does at a name: it enters a directory, follows a link or ends there. -/
theorem resolveFrom_down_ok {budget : ℕ} {done r : List N} {n : N} {rest : List (Hop N)}
    (h : t.resolveFrom true budget done (.down n :: rest) = .ok r) :
    (t.get (done ++ [n]) = some .dir ∧ t.resolveFrom true budget (done ++ [n]) rest = .ok r) ∨
    (∃ left hops, budget = left + 1 ∧ t.get (done ++ [n]) = some (.link (some hops)) ∧
      t.resolveFrom true left done (hops ++ rest) = .ok r) ∨
    (rest = [] ∧ r = done ++ [n] ∧ t.get r ≠ some .dir) := by
  have hstop : ∀ e : LookupError, t.get (done ++ [n]) ≠ some .dir →
      (if rest.isEmpty then Except.ok (done ++ [n]) else .error e) = .ok r →
      rest = [] ∧ r = done ++ [n] ∧ t.get r ≠ some .dir := by
    intro e hnot hr
    split at hr
    · rename_i hempty
      cases hr
      exact ⟨List.isEmpty_iff.mp hempty, rfl, hnot⟩
    · exact absurd hr (by simp)
  cases hget : t.get (done ++ [n]) with
  | none =>
    rw [resolveFrom_eq_follow, follow, hget] at h
    exact Or.inr (Or.inr (hstop _ (by simp [hget]) h))
  | some x =>
    cases x with
    | dir =>
      rw [resolveFrom_enter true budget hget] at h
      exact Or.inl ⟨rfl, h⟩
    | link target =>
      cases target with
      | none =>
        rw [resolveFrom_eq_follow, follow, hget] at h
        exact absurd h (by simp)
      | some hops =>
        rw [resolveFrom_link budget hget (Or.inr rfl)] at h
        cases budget with
        | zero => exact absurd h (by simp [redo])
        | succ left => exact Or.inr (Or.inl ⟨left, hops, rfl, rfl, h⟩)
    | file f =>
      rw [resolveFrom_eq_follow, follow, hget] at h
      exact Or.inr (Or.inr (hstop _ (by simp [hget]) h))
    | special =>
      rw [resolveFrom_eq_follow, follow, hget] at h
      exact Or.inr (Or.inr (hstop _ (by simp [hget]) h))

/-- The walk along a path that leads to a directory, as a rule of induction: hops that
enter a directory or leave one, and links that are followed. -/
theorem resolves_induction {dir : List N} (hdir : t.get dir = some .dir)
    {P : ℕ → List N → List (Hop N) → Prop} (here : ∀ budget, P budget dir [])
    (up : ∀ budget done rest, done ≠ [] → t.resolveFrom true budget done.dropLast rest = .ok dir →
      P budget done.dropLast rest → P budget done (.up :: rest))
    (enter : ∀ budget done n rest, t.get (done ++ [n]) = some .dir →
      t.resolveFrom true budget (done ++ [n]) rest = .ok dir → P budget (done ++ [n]) rest →
      P budget done (.down n :: rest))
    (link : ∀ budget done n hops rest, t.get (done ++ [n]) = some (.link (some hops)) →
      t.resolveFrom true budget done (hops ++ rest) = .ok dir → P budget done (hops ++ rest) →
      P (budget + 1) done (.down n :: rest))
    (budget : ℕ) (done : List N) (hops : List (Hop N))
    (h : t.resolveFrom true budget done hops = .ok dir) : P budget done hops := by
  induction budget using Nat.strong_induction_on generalizing done hops with
  | _ budget ihb =>
    induction hops generalizing done with
    | nil =>
      rw [resolveFrom_nil] at h
      cases h
      exact here budget
    | cons hop rest ih =>
      cases hop with
      | up =>
        obtain ⟨hne, h⟩ := resolveFrom_up_ok h
        exact up budget done rest hne h (ih done.dropLast h)
      | down n =>
        rcases resolveFrom_down_ok h with ⟨hget, h⟩ | ⟨left, hops, rfl, hget, h⟩ | ⟨_, _, hnot⟩
        · exact enter budget done n rest hget h (ih (done ++ [n]) h)
        · exact link left done n hops rest hget h
            (ihb left (Nat.lt_succ_self _) done (hops ++ rest) h)
        · exact absurd hdir hnot

/-- From the directory that it leads to, a walk goes on with the links it has left. -/
theorem resolveFrom_append {budget : ℕ} {done dir : List N} {hops : List (Hop N)}
    (hdir : t.get dir = some .dir) (h : t.resolveFrom true budget done hops = .ok dir) :
    ∃ left ≤ budget, ∀ more, more ≠ [] →
      (∀ last, t.resolveFrom last budget done (hops ++ more) =
        t.resolveFrom last left dir more) ∧
      ∀ final, mkdirFrom final budget t done (hops ++ more) = mkdirFrom final left t dir more := by
  refine resolves_induction (P := fun budget done hops => ∃ left ≤ budget, ∀ more, more ≠ [] →
      (∀ last, t.resolveFrom last budget done (hops ++ more) =
        t.resolveFrom last left dir more) ∧
      ∀ final, mkdirFrom final budget t done (hops ++ more) = mkdirFrom final left t dir more)
    hdir ?_ ?_ ?_ ?_ budget done hops h
  · intro budget
    exact ⟨budget, le_refl _, fun more _ => ⟨fun last => rfl, fun final => rfl⟩⟩
  · rintro budget done rest hne _ ⟨left, hleft, hmore⟩
    refine ⟨left, hleft, fun more hm => ⟨fun last => ?_, fun final => ?_⟩⟩
    · rw [← (hmore more hm).1, List.cons_append, resolveFrom_up last budget hne]
    · rw [← (hmore more hm).2]
      cases budget <;> simp [mkdirFrom, mkdirWalk, hne]
  · rintro budget done n rest hget _ ⟨left, hleft, hmore⟩
    refine ⟨left, hleft, fun more hm => ⟨fun last => ?_, fun final => ?_⟩⟩
    · rw [← (hmore more hm).1, List.cons_append, resolveFrom_enter last budget hget]
    · rw [← (hmore more hm).2]
      cases budget <;> simp [mkdirFrom, mkdirWalk, hget]
  · rintro budget done n hops rest hget _ ⟨left, hleft, hmore⟩
    refine ⟨left, Nat.le_succ_of_le hleft, fun more hm => ⟨fun last => ?_, fun final => ?_⟩⟩
    · rw [← (hmore more hm).1, List.cons_append,
        resolveFrom_link (budget + 1) hget (Or.inl (by simp [hm])), List.append_assoc]
      rfl
    · rw [← (hmore more hm).2]
      simp [mkdirFrom, mkdirWalk, hget, hm]

/-- With fewer links to follow a walk ends where it did, or gives up. -/
theorem resolveFrom_mono {budget budget' : ℕ} (hle : budget' ≤ budget) {done dir : List N}
    {hops : List (Hop N)} (hdir : t.get dir = some .dir)
    (h : t.resolveFrom true budget done hops = .ok dir) :
    t.resolveFrom true budget' done hops = .ok dir ∨
      t.resolveFrom true budget' done hops = .error .loop := by
  refine resolves_induction (P := fun budget done hops => ∀ budget' ≤ budget,
      t.resolveFrom true budget' done hops = .ok dir ∨
        t.resolveFrom true budget' done hops = .error .loop)
    hdir ?_ ?_ ?_ ?_ budget done hops h budget' hle
  · intro budget budget' _
    exact Or.inl (resolveFrom_nil true budget' dir)
  · intro budget done rest hne _ ih budget' hle
    rw [resolveFrom_up true budget' hne]
    exact ih budget' hle
  · intro budget done n rest hget _ ih budget' hle
    rw [resolveFrom_enter true budget' hget]
    exact ih budget' hle
  · intro budget done n hops rest hget _ ih budget' hle
    rw [resolveFrom_link budget' hget (Or.inr rfl)]
    cases budget' with
    | zero => exact Or.inr rfl
    | succ budget' => exact ih budget' (Nat.le_of_succ_le_succ hle)

/-- Whatever a path leads to, the directories on its way are found. -/
theorem resolveFrom_front {budget : ℕ} {done r : List N} {hops more : List (Hop N)}
    (hdone : t.get done = some .dir) (hmore : more ≠ [])
    (h : t.resolveFrom true budget done (hops ++ more) = .ok r) :
    ∃ dir, t.resolveFrom true budget done hops = .ok dir ∧ t.get dir = some .dir := by
  induction budget using Nat.strong_induction_on generalizing done hops with
  | _ budget ihb =>
    induction hops generalizing done with
    | nil => exact ⟨done, resolveFrom_nil true budget done, hdone⟩
    | cons hop rest ih =>
      rw [List.cons_append] at h
      cases hop with
      | up =>
        obtain ⟨hne, h⟩ := resolveFrom_up_ok h
        rw [resolveFrom_up true budget hne]
        exact ih (t.get_dropLast hne hdone) h
      | down n =>
        rcases resolveFrom_down_ok h with ⟨hget, h⟩ | ⟨left, hops, rfl, hget, h⟩ | ⟨hnil, _⟩
        · rw [resolveFrom_enter true budget hget]
          exact ih hget h
        · rw [resolveFrom_link (left + 1) hget (Or.inr rfl)]
          rw [← List.append_assoc] at h
          exact ihb left (Nat.lt_succ_self _) hdone h
        · exact absurd (List.append_eq_nil_iff.mp hnil).2 hmore

def SameBut (p : List N) (t t' : Tree N F) : Prop := ∀ q, q ≠ p → t'.get q = t.get q

/-- The way to a directory does not lead through a name in it, unless the path with the
name appended leads to a directory itself or runs out of links: behind a link of that
name the walk would come to where it came the first time. -/
theorem SameBut.resolveFrom {t' : Tree N F} {budget : ℕ} {done dir : List N} {base : N}
    {hops : List (Hop N)} (hsame : SameBut (dir ++ [base]) t t') (hdir : t.get dir = some .dir)
    (h : t.resolveFrom true budget done hops = .ok dir)
    (hnodir : ∀ r, t.resolveFrom true budget done (hops ++ [.down base]) = .ok r →
      t.get r ≠ some .dir)
    (hnoloop : t.resolveFrom true budget done (hops ++ [.down base]) ≠ .error .loop) :
    t'.resolveFrom true budget done hops = .ok dir := by
  have hname : t.get (dir ++ [base]) ≠ some .dir := by
    intro hget
    obtain ⟨left, _, hmore⟩ := resolveFrom_append hdir h
    refine hnodir (dir ++ [base]) ?_ hget
    rw [(hmore [.down base] (by simp)).1, resolveFrom_enter true left hget, resolveFrom_nil]
  refine resolves_induction (P := fun budget done hops =>
      (∀ r, t.resolveFrom true budget done (hops ++ [.down base]) = .ok r →
        t.get r ≠ some .dir) →
      t.resolveFrom true budget done (hops ++ [.down base]) ≠ .error .loop →
      t'.resolveFrom true budget done hops = .ok dir)
    hdir ?_ ?_ ?_ ?_ budget done hops h hnodir hnoloop
  · intro budget _ _
    exact resolveFrom_nil true budget dir
  · intro budget done rest hne _ ih hnodir hnoloop
    rw [List.cons_append, resolveFrom_up true budget hne] at hnodir hnoloop
    rw [resolveFrom_up true budget hne]
    exact ih hnodir hnoloop
  · intro budget done n rest hget _ ih hnodir hnoloop
    have hkept : t'.get (done ++ [n]) = some .dir := by
      rw [hsame _ fun heq => hname (heq ▸ hget), hget]
    rw [List.cons_append, resolveFrom_enter true budget hget] at hnodir hnoloop
    rw [resolveFrom_enter true budget hkept]
    exact ih hnodir hnoloop
  · intro budget done n target rest hget hwalk ih hnodir hnoloop
    have hstep : t.resolveFrom true (budget + 1) done (.down n :: rest ++ [.down base]) =
        t.resolveFrom true budget done (target ++ rest ++ [.down base]) := by
      rw [List.cons_append, resolveFrom_link (budget + 1) hget (Or.inr rfl), List.append_assoc]
      rfl
    by_cases heq : done ++ [n] = dir ++ [base]
    · -- the link has the name in question
      exfalso
      obtain ⟨rfl, hn⟩ := List.append_inj' heq rfl
      cases hn
      obtain ⟨left, hleft, hmore⟩ := resolveFrom_append hdir hwalk
      rw [hstep, (hmore [.down base] (by simp)).1, resolveFrom_link left hget (Or.inr rfl),
        List.append_nil] at hnodir hnoloop
      obtain ⟨r, hr, hrdir⟩ : ∃ r, t.resolveFrom true budget done target = .ok r ∧
          t.get r = some .dir := by
        by_cases hrest : rest = []
        · exact ⟨done, by simpa [hrest] using hwalk, hdir⟩
        · exact resolveFrom_front hdir hrest hwalk
      cases left with
      | zero => exact hnoloop rfl
      | succ left =>
        rcases resolveFrom_mono (Nat.le_of_succ_le hleft) hrdir hr with hagain | hloop
        · exact hnodir r hagain hrdir
        · exact hnoloop hloop
    · rw [hstep] at hnodir hnoloop
      rw [resolveFrom_link (budget + 1) ((hsame _ heq).trans hget) (Or.inr rfl)]
      exact ih hnodir hnoloop

/-- A walk to a directory meets no file, so it does not notice one. -/
theorem SameBut.resolveFrom_of_file {t' : Tree N F} {budget : ℕ} {p done dir : List N} {f : F}
    {hops : List (Hop N)} (hsame : SameBut p t t') (hfile : t.get p = some (.file f))
    (hdir : t.get dir = some .dir) (h : t.resolveFrom true budget done hops = .ok dir) :
    t'.resolveFrom true budget done hops = .ok dir := by
  have hkept : ∀ q x, t.get q = some x → (∀ f, x ≠ .file f) → t'.get q = some x := by
    intro q x hx hnot
    rw [hsame q ?_, hx]
    rintro rfl
    rw [hfile] at hx
    cases hx
    exact hnot f rfl
  refine resolves_induction (P := fun budget done hops =>
      t'.resolveFrom true budget done hops = .ok dir) hdir ?_ ?_ ?_ ?_ budget done hops h
  · intro budget
    exact resolveFrom_nil true budget dir
  · intro budget done rest hne _ ih
    rw [resolveFrom_up true budget hne]
    exact ih
  · intro budget done n rest hget _ ih
    rw [resolveFrom_enter true budget (hkept _ _ hget (by simp))]
    exact ih
  · intro budget done n hops rest hget _ ih
    rw [resolveFrom_link (budget + 1) (hkept _ _ hget (by simp)) (Or.inr rfl)]
    exact ih

end Walks

section Paths
variable {t t₁ t₂ : Tree N F} {budget : ℕ} {p dir : List N} {base : N} {f : F}

/-- The path of a name in a directory that is found. -/
theorem resolve_append (hp : t.resolve budget true p = .ok dir) (hdir : t.get dir = some .dir)
    (base : N) :
    ∃ left, ∀ last, t.resolve budget last (p ++ [base]) =
      t.resolveFrom last left dir [.down base] := by
  obtain ⟨left, _, hmore⟩ := resolveFrom_append hdir hp
  refine ⟨left, fun last => ?_⟩
  rw [resolve, List.map_append]
  exact (hmore [.down base] (by simp)).1 last

/-- Where nothing or a file has the name, the path leads there. -/
theorem resolve_name (hp : t.resolve budget true p = .ok dir) (hdir : t.get dir = some .dir)
    (hname : t.get (dir ++ [base]) = none ∨ ∃ f, t.get (dir ++ [base]) = some (.file f))
    (last : Bool) : t.resolve budget last (p ++ [base]) = .ok (dir ++ [base]) := by
  obtain ⟨left, hleft⟩ := resolve_append hp hdir base
  rw [hleft last, resolveFrom_eq_follow, follow]
  rcases hname with hnone | ⟨f, hfile⟩
  · rw [hnone]
    rfl
  · rw [hfile]
    rfl

/-- Without following the last link the path of a name always leads there. -/
theorem resolve_name_false (hp : t.resolve budget true p = .ok dir)
    (hdir : t.get dir = some .dir) (base : N) :
    t.resolve budget false (p ++ [base]) = .ok (dir ++ [base]) := by
  obtain ⟨left, hleft⟩ := resolve_append hp hdir base
  rw [hleft false, resolveFrom_eq_follow, follow]
  cases t.get (dir ++ [base]) with
  | none => rfl
  | some x => cases x <;> rfl

theorem resolve_front {r : List N} (h : t.resolve budget true (p ++ [base]) = .ok r) :
    ∃ dir, t.resolve budget true p = .ok dir ∧ t.get dir = some .dir := by
  rw [resolve, List.map_append] at h
  exact resolveFrom_front rfl (by simp) h

structure FileAdded (t t' : Tree N F) (p : List N) (f : F) : Prop where
  file : t'.get p = some (.file f)
  other : SameBut p t t'

/-- A file that is changed twice is changed once. -/
theorem FileAdded.trans {p : List N} {g : F} (h : FileAdded t t₁ p f)
    (h' : FileAdded t₁ t₂ p g) : FileAdded t t₂ p g :=
  ⟨h'.file, fun q hq => (h'.other q hq).trans (h.other q hq)⟩

/-- A node of the first tree is still there, unless the file took its place. -/
theorem FileAdded.get_cases {p q : List N} (h : FileAdded t₁ t₂ p f) {x : Node N F}
    (hx : t₁.get q = some x) : t₂.get q = some x ∨ t₂.get q = some (.file f) := by
  by_cases hq : q = p
  · subst hq
    exact Or.inr h.file
  · exact Or.inl ((h.other q hq).trans hx)

/-- Where a link was, there is no directory after directories and a file were added. -/
theorem FileAdded.link_not_dir {p q : List N} (h : FileAdded t₁ t₂ p f)
    (hgrown : Grown t t₁) {target : LinkTarget N} (hlink : t.get q = some (.link target)) :
    t₂.get q ≠ some .dir := by
  rcases h.get_cases (hgrown.get_of_some hlink) with heq | heq
  · simp [heq]
  · simp [heq]

/-- After a file was put into a directory, the path of the file resolves to it or to
nothing. -/
theorem FileAdded.resolve_eq {r : List N} (h : FileAdded t₁ t₂ (dir ++ [base]) f)
    (hp : t₁.resolve budget true p = .ok dir)
    (hr : t₂.resolve budget true (p ++ [base]) = .ok r) : r = dir ++ [base] := by
  obtain ⟨dir', hp', hdir'⟩ := resolve_front hr
  have hback : SameBut (dir ++ [base]) t₂ t₁ := fun q hq => (h.other q hq).symm
  have hsame := hback.resolveFrom_of_file h.file hdir' hp'
  rw [show t₁.resolveFrom true budget [] (p.map .down) = .ok dir from hp] at hsame
  cases hsame
  rw [resolve_name hp' hdir' (Or.inr ⟨f, h.file⟩)] at hr
  exact (Except.ok.inj hr).symm

/-- Stat of the path finds no directory and follows no more links than it may. -/
structure Settable (t : Tree N F) (budget : ℕ) (p : List N) : Prop where
  notDir : ∀ r, t.resolve budget true p = .ok r → t.get r ≠ some .dir
  notLoop : t.resolve budget true p ≠ .error .loop

/-- Changing what has a name in a directory does not change the way to the directory. -/
theorem SameBut.resolve (hsame : SameBut (dir ++ [base]) t t₁)
    (hp : t.resolve budget true p = .ok dir) (hdir : t.get dir = some .dir)
    (hset : t.Settable budget (p ++ [base])) :
    t₁.resolve budget true p = .ok dir ∧ t₁.get dir = some .dir := by
  have happend : ∀ t : Tree N F, t.resolveFrom true budget [] (p.map .down ++ [.down base]) =
      t.resolve budget true (p ++ [base]) := by
    intro t
    rw [Tree.resolve, List.map_append]
    rfl
  refine ⟨hsame.resolveFrom hdir hp ?_ ?_, ?_⟩
  · rw [happend]
    exact hset.notDir
  · rw [happend]
    exact hset.notLoop
  · rw [hsame dir (by simp), hdir]

/-- Every link on the way leads to a directory. -/
def LinksLead (t : Tree N F) (budget : ℕ) (p : List N) : Prop :=
  ∀ r q target, r <+: p → t.resolve budget false r = .ok q → t.get q = some (.link target) →
    ∃ dir, t.resolve budget true r = .ok dir ∧ t.get dir = some .dir

theorem linksLead_of_resolve (hp : t.resolve budget true p = .ok dir)
    (hdir : t.get dir = some .dir) : t.LinksLead budget p := by
  rintro r q target ⟨rest, rfl⟩ _ _
  by_cases hrest : rest = []
  · exact ⟨dir, by simpa [hrest] using hp, hdir⟩
  · rw [Tree.resolve, List.map_append] at hp
    exact resolveFrom_front rfl (by simpa using hrest) hp

theorem Unlinked.linksLead (h : t.Unlinked p) : t.LinksLead budget p := by
  intro r q target hr hq hlink
  have hself : q = r := resolve_unlinked (fun s target hs => h s target (hs.trans hr)) hq
  subst hself
  exact absurd hlink (h q target hr)

/-- In a directory that was not there, everything below is made. -/
private theorem mkdirWalk_fresh {final : Tree N F → Except LookupError (List N)}
    {restart : Tree N F → List N → List (Hop N) → Tree N F × Except LookupError (List N)}
    (rest : List N) (t : Tree N F) (done : List N)
    (hempty : ∀ n more, t.get (done ++ n :: more) = none)
    (h : mkdirWalk final restart t done (rest.map .down) = (t₁, .ok dir)) (n : N) :
    t₁.get (dir ++ [n]) = none := by
  induction rest generalizing t done with
  | nil =>
    cases h
    exact hempty n []
  | cons m rest ih =>
    simp only [List.map_cons, mkdirWalk, hempty m []] at h
    cases hput : t.put (done ++ [m]) .dir with
    | none =>
      rw [hput] at h
      exact absurd h (by simp)
    | some t' =>
      rw [hput] at h
      refine ih t' (done ++ [m]) ?_ h
      intro k more
      rw [get_put hput, if_neg (by simp), List.append_assoc]
      exact hempty m (k :: more)

private theorem mkdirWalk_fresh_of_none {final : Tree N F → Except LookupError (List N)}
    {restart : Tree N F → List N → List (Hop N) → Tree N F × Except LookupError (List N)}
    {done : List N} {n : N} (rest : List N) (hnone : t.get (done ++ [n]) = none)
    (h : mkdirWalk final restart t done (.down n :: rest.map .down) = (t₁, .ok dir)) (m : N) :
    t₁.get (dir ++ [m]) = none := by
  simp only [mkdirWalk, hnone] at h
  cases hput : t.put (done ++ [n]) .dir with
  | none =>
    rw [hput] at h
    exact absurd h (by simp)
  | some t' =>
    rw [hput] at h
    refine mkdirWalk_fresh rest t' (done ++ [n]) ?_ h m
    intro k more
    rw [get_put hput, if_neg (by simp)]
    by_contra hsome
    have hdir := t.get_prefix (done ++ [n]) (k :: more) (by simp)
      (Option.isSome_iff_ne_none.mpr hsome)
    rw [hnone] at hdir
    exact absurd hdir (by simp)

/-- MkdirAll from the directory that the front of the path leads to. -/
private theorem mkdirAll_from {rest front done : List N} {n : N}
    (hmkdir : t.mkdirAll budget (front ++ n :: rest) = (t₁, .ok dir))
    (hfront : t.resolve budget true front = .ok done) (hdone : t.get done = some .dir) :
    ∃ final restart,
      mkdirWalk final restart t done (.down n :: rest.map .down) = (t₁, .ok dir) := by
  obtain ⟨left, _, hmore⟩ := resolveFrom_append hdone hfront
  rw [mkdirAll, List.map_append, (hmore _ (by simp)).2] at hmkdir
  cases left with
  | zero => exact ⟨_, _, hmkdir⟩
  | succ left => exact ⟨_, _, hmkdir⟩

private theorem mkdirAll_beyond (hlead : t.LinksLead budget p)
    (hmkdir : t.mkdirAll budget p = (t₁, .ok dir)) (rest : List N) (n : N) (front done : List N)
    (hp : p = front ++ n :: rest) (hfront : t.resolve budget true front = .ok done)
    (hdone : t.get done = some .dir) : t₁ = t ∨ ∀ m, t₁.get (dir ++ [m]) = none := by
  induction rest generalizing n front done with
  | nil =>
    obtain ⟨final, restart, hwalk⟩ := mkdirAll_from (hp ▸ hmkdir) hfront hdone
    cases hget : t.get (done ++ [n]) with
    | none => exact Or.inr (mkdirWalk_fresh_of_none [] hget hwalk)
    | some x =>
      simp only [List.map_nil, mkdirWalk, hget] at hwalk
      cases x with
      | dir => exact Or.inl (Prod.mk.inj hwalk).1.symm
      | link target => exact Or.inl (Prod.mk.inj hwalk).1.symm
      | file f => exact absurd hwalk (by simp)
      | special => exact absurd hwalk (by simp)
  | cons m rest ih =>
    have hnext : ∀ done', t.resolve budget true (front ++ [n]) = .ok done' →
        t.get done' = some .dir → t₁ = t ∨ ∀ m, t₁.get (dir ++ [m]) = none :=
      fun done' => ih m (front ++ [n]) done' (by simp [hp])
    obtain ⟨final, restart, hwalk⟩ := mkdirAll_from (hp ▸ hmkdir) hfront hdone
    cases hget : t.get (done ++ [n]) with
    | none => exact Or.inr (mkdirWalk_fresh_of_none (m :: rest) hget hwalk)
    | some x =>
      cases x with
      | dir =>
        refine hnext (done ++ [n]) ?_ hget
        obtain ⟨left, hleft⟩ := resolve_append hfront hdone n
        rw [hleft, resolveFrom_enter true left hget, resolveFrom_nil]
      | link target =>
        obtain ⟨dir', hres, hdir'⟩ := hlead (front ++ [n]) (done ++ [n]) target
          (by simp [hp]) (resolve_name_false hfront hdone n) hget
        exact hnext dir' hres hdir'
      | file f =>
        simp only [mkdirWalk, hget] at hwalk
        exact absurd hwalk (by simp)
      | special =>
        simp only [mkdirWalk, hget] at hwalk
        exact absurd hwalk (by simp)

/-- Where every link on the way leads to a directory, making the directory changes
nothing, or nothing is in it afterwards. -/
theorem mkdirAll_new (hlead : t.LinksLead budget p)
    (hmkdir : t.mkdirAll budget p = (t₁, .ok dir)) :
    t₁ = t ∨ ∀ n, t₁.get (dir ++ [n]) = none := by
  cases p with
  | nil =>
    cases budget <;> exact Or.inl (Prod.mk.inj hmkdir).1.symm
  | cons n rest =>
    refine mkdirAll_beyond hlead hmkdir rest n [] [] rfl ?_ rfl
    cases budget <;> rfl

/-- Put into a directory that was made, a file is found at its path, when the links on
the way lead to directories and the path led to no directory. -/
theorem FileAdded.resolves (h : FileAdded t₁ t₂ (dir ++ [base]) f)
    (hmkdir : t.mkdirAll budget p = (t₁, .ok dir)) (hlead : t.LinksLead budget p)
    (hset : t.Settable budget (p ++ [base])) :
    t₂.resolve budget true p = .ok dir ∧ t₂.get dir = some .dir ∧
      t₂.resolve budget true (p ++ [base]) = .ok (dir ++ [base]) := by
  obtain ⟨hp, hdir⟩ := mkdirAll_resolves hmkdir
  have hset₁ : t₁.Settable budget (p ++ [base]) := by
    rcases mkdirAll_new hlead hmkdir with rfl | hnew
    · exact hset
    · have hres := resolve_name hp hdir (Or.inl (hnew base)) true
      refine ⟨?_, by simp [hres]⟩
      intro r hr
      rw [hres] at hr
      cases hr
      simp [hnew base]
  obtain ⟨hp₂, hdir₂⟩ := h.other.resolve hp hdir hset₁
  exact ⟨hp₂, hdir₂, resolve_name hp₂ hdir₂ (Or.inr ⟨f, h.file⟩) true⟩

end Paths

end TailSync.FileTrees.Tree

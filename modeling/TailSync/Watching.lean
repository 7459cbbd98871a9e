import TailSync.Runs
import TailSync.SafePaths
import TailSync.Scanning

/-!
The file system watch of daemon/watch.go together with the wake-up of the main loop in
daemon/run.go. What the system reports is left open: watchLoop is handed any events, under any
names and at any time, and finds whatever it finds where it looks. The pulls that the main loop
starts as well change nothing here. Of an event that it does not ignore the daemon loses nothing:
until a reconcile begins, the event is being dealt with, the debounce timer runs or the main loop
has been asked, and each of these leads to a reconcile without another event. The main loop is
asked only after a pause in the events.
-/
namespace TailSync.Watching

open ByteStrings RelativePaths SyncRoot Scanning Runs
open RootEffects (Reserved)

def watchIgnore (root name : Bytes) : Bool :=
  if name = [] then true
  else match rel root name with
    | none => true
    | some r =>
        if r = dot then false
        else if isLocal r = false then true
        else (elements r).any isReservedComponent

/-- The path WalkDir makes of the root and the names below it. -/
def walkName (root : Bytes) (names : List FileName) : Bytes :=
  names.foldl (fun path n => join path n.bytes) root

theorem walkName_concat (root : Bytes) (names : List FileName) (n : FileName) :
    walkName root (names ++ [n]) = join (walkName root names) n.bytes := by
  rw [walkName, List.foldl_append]
  rfl

theorem isElement_map (names : List FileName) : ∀ e ∈ names.map FileName.bytes, IsElement e := by
  intro e he
  obtain ⟨n, _, rfl⟩ := List.mem_map.mp he
  exact n.element

theorem join_pathOf {root : Bytes} (hroot : root.head? = some slash) {names : List FileName}
    (hne : names ≠ []) : join root (pathOf names) =
      absPath ((cleanStack true root).reverse ++ names.map FileName.bytes) := by
  have hall : ∀ e ∈ elements (pathOf names), IsElement e := by
    rw [elements_pathOf hne]
    exact isElement_map names
  have hhead : (root ++ slash :: pathOf names).head? = some slash := by
    rw [List.head?_append, hroot]
    rfl
  rw [join, SafePaths.clean_rooted hhead, SafePaths.cleanStack_join hall, List.reverse_append,
    List.reverse_reverse, elements_pathOf hne]

theorem walkName_eq {root : Bytes} (hroot : root.head? = some slash) {names : List FileName}
    (hne : names ≠ []) : walkName root names = join root (pathOf names) := by
  induction names using List.reverseRecOn with
  | nil => exact absurd rfl hne
  | append_singleton names n ih =>
    have hone : pathOf [n] = n.bytes := by simp [pathOf, joinPath]
    rw [walkName_concat]
    by_cases hnil : names = []
    · subst hnil
      rw [List.nil_append, hone]
      rfl
    · have hdirs : ∀ e ∈ (cleanStack true root).reverse ++ names.map FileName.bytes,
          IsElement e := by
        intro e he
        rcases List.mem_append.mp he with he | he
        · exact SafePaths.isElement_rooted root e he
        · exact isElement_map names e he
      rw [ih hnil, join_pathOf hroot hnil, join_pathOf hroot hne, List.map_append,
        ← List.append_assoc, ← join_absPath hdirs (isElement_map [n]) (by simp), ← pathOf, hone]

/-- The watch ignores what Scan skips, and nothing else. -/
theorem watchIgnore_iff {root : Bytes} (hroot : root.head? = some slash) (names : List FileName) :
    watchIgnore root (walkName root names) = true ↔ Reserved names := by
  have hne : root ≠ [] := by
    rintro rfl
    exact absurd hroot (by simp)
  unfold watchIgnore
  by_cases hnil : names = []
  · subst hnil
    have hself : rel root root = some dot := by simp [rel]
    simp [walkName, hne, hself, Reserved]
  · have helements := elements_pathOf hnil
    have hall : ∀ e ∈ elements (pathOf names), IsElement e := by
      rw [helements]
      exact isElement_map names
    have hname : join root (pathOf names) ≠ [] := by
      intro heq
      have hhead := SafePaths.head_clean (q := root ++ slash :: pathOf names) (by simp)
      rw [← join, heq, List.head?_append_of_ne_nil root hne] at hhead
      exact absurd (hhead.mpr hroot) (by simp)
    have hdot : pathOf names ≠ dot := by
      intro heq
      exact (hall dot (by rw [heq]; decide +kernel)).2.2.1 rfl
    rw [walkName_eq hroot hnil, if_neg hname, SafePaths.rel_join hall hne]
    dsimp only
    rw [if_neg hdot, if_neg (by simp [isLocal_of_isElement hall]), helements]
    simp [Reserved]

theorem not_reserved_of_below {a q : List FileName} (hq : ¬ Reserved q) (h : a <+: q) :
    ¬ Reserved a := by
  rintro ⟨n, hn, hres⟩
  exact hq ⟨n, h.subset hn, hres⟩

/-- Directories as WalkDir comes upon them, each with the ones inside. It passes over one that
cannot be read, which is then as if there was nothing inside. -/
inductive Forest where
  | nil
  | cons (name : FileName) (inside rest : Forest)

namespace Forest

def Has : Forest → List FileName → Prop
  | nil, _ => False
  | cons _ _ _, [] => False
  | cons name inside rest, n :: below =>
      (name = n ∧ (below = [] ∨ inside.Has below)) ∨ rest.Has (n :: below)

end Forest

inductive WatchError where
  | add (path : Bytes)
  | nothing (dir : Bytes)
  deriving DecidableEq, Repr

/-- What the walk of addWatchTree watches inside a directory: Add may fail there. -/
def addInside (root : Bytes) (adds : Bytes → Bool) (path : Bytes) : Forest → List Bytes
  | .nil => []
  | .cons name inside rest =>
      if watchIgnore root (join path name.bytes) then addInside root adds path rest
      else
        (if adds (join path name.bytes) then [join path name.bytes] else []) ++
          addInside root adds (join path name.bytes) inside ++ addInside root adds path rest

/-- The paths for which Add has worked. There is no walk when dir is not a directory. -/
def addWatchTree (root : Bytes) (adds : Bytes → Bool) (dir : Bytes) (walk : Option Forest) :
    Except WatchError (List Bytes) :=
  match walk with
  | none => .error (.nothing dir)
  | some inside =>
      if watchIgnore root dir then .error (.nothing dir)
      else if adds dir = false then .error (.add dir)
      else .ok (dir :: addInside root adds dir inside)

theorem addInside_kept {root : Bytes} {adds : Bytes → Bool} {path p : Bytes} {inside : Forest}
    (h : p ∈ addInside root adds path inside) : watchIgnore root p = false := by
  induction inside generalizing path with
  | nil => exact absurd h (by simp [addInside])
  | cons name inside rest ihInside ihRest =>
    rw [addInside] at h
    by_cases hignored : watchIgnore root (join path name.bytes) = true
    · rw [if_pos hignored] at h
      exact ihRest h
    · rw [if_neg hignored, List.append_assoc, List.mem_append, List.mem_append] at h
      rcases h with hself | hin | hrest
      · have heq : p = join path name.bytes := by
          by_cases hadds : adds (join path name.bytes) = true
          · simpa [hadds] using hself
          · simp [hadds] at hself
        rw [heq]
        simpa using hignored
      · exact ihInside hin
      · exact ihRest hrest

theorem addWatchTree_ok {root dir : Bytes} {adds : Bytes → Bool} {walk : Option Forest}
    {added : List Bytes} (h : addWatchTree root adds dir walk = .ok added) :
    watchIgnore root dir = false ∧
      ∃ inside, walk = some inside ∧ added = dir :: addInside root adds dir inside := by
  unfold addWatchTree at h
  cases walk with
  | none => exact absurd h (by simp)
  | some inside =>
    dsimp only at h
    split_ifs at h with hignored hadds
    exact ⟨by simpa using hignored, inside, rfl, (Except.ok.inj h).symm⟩

theorem addWatchTree_kept {root dir p : Bytes} {adds : Bytes → Bool} {walk : Option Forest}
    {added : List Bytes} (h : addWatchTree root adds dir walk = .ok added) (hp : p ∈ added) :
    watchIgnore root p = false := by
  obtain ⟨hdir, inside, _, rfl⟩ := addWatchTree_ok h
  rcases List.mem_cons.mp hp with rfl | hin
  · exact hdir
  · exact addInside_kept hin

/-- No directory that the walk comes upon is left out, unless it is reserved or refused. -/
theorem addInside_has {root : Bytes} (hroot : root.head? = some slash) {adds : Bytes → Bool}
    {inside : Forest} {names below : List FileName} (h : inside.Has below)
    (hres : ¬ Reserved (names ++ below)) (hadds : adds (walkName root (names ++ below)) = true) :
    walkName root (names ++ below) ∈ addInside root adds (walkName root names) inside := by
  induction inside generalizing names below with
  | nil => exact absurd h (by simp [Forest.Has])
  | cons name inside rest ihInside ihRest =>
    cases below with
    | nil => exact absurd h (by simp [Forest.Has])
    | cons n below =>
      rw [addInside, ← walkName_concat]
      rcases h with ⟨rfl, hbelow⟩ | hrest
      · -- the directory itself or one inside
        have hkept : ¬ watchIgnore root (walkName root (names ++ [name])) = true := by
          rw [watchIgnore_iff hroot]
          exact not_reserved_of_below hres ⟨below, by simp⟩
        rw [if_neg hkept, List.append_assoc, List.mem_append, List.mem_append]
        rcases hbelow with rfl | hin
        · exact Or.inl (by rw [if_pos hadds]; exact List.mem_singleton_self _)
        · rw [List.append_cons names name below] at hres hadds ⊢
          exact Or.inr (Or.inl (ihInside hin hres hadds))
      · have hmem := ihRest hrest hres hadds
        split_ifs
        · exact hmem
        all_goals exact List.mem_append_right _ hmem

structure Event where
  name : Bytes
  create : Bool
  remove : Bool
  rename : Bool
  deriving DecidableEq, Repr

/-- What watchLoop finds at the name of an event: whether Stat says that it is a directory,
what the walk comes upon, and which calls of Add work. -/
structure Finding where
  isDir : Bool
  walk : Option Forest
  adds : Bytes → Bool

def addFound (root : Bytes) (ev : Event) (f : Finding) (watched : List Bytes) : List Bytes :=
  if ev.create && f.isDir then
    match addWatchTree root f.adds ev.name f.walk with
    | .ok added => added ++ watched
    | .error _ => watched
  else watched

/-- The body of watchLoop for an event it does not ignore, up to armDebounce. -/
def handle (root : Bytes) (ev : Event) (f : Finding) (watched : List Bytes) : List Bytes :=
  if ev.remove || ev.rename then (addFound root ev f watched).filter (· ≠ ev.name)
  else addFound root ev f watched

theorem handle_kept {root : Bytes} {ev : Event} {f : Finding} {watched : List Bytes}
    (hwatched : ∀ p ∈ watched, watchIgnore root p = false) :
    ∀ p ∈ handle root ev f watched, watchIgnore root p = false := by
  have hadd : ∀ p ∈ addFound root ev f watched, watchIgnore root p = false := by
    unfold addFound
    split_ifs
    · cases hadded : addWatchTree root f.adds ev.name f.walk with
      | ok added =>
        intro p hp
        rcases List.mem_append.mp hp with hnew | hold
        · exact addWatchTree_kept hadded hnew
        · exact hwatched p hold
      | error _ => exact hwatched
    · exact hwatched
  intro p hp
  unfold handle at hp
  split_ifs at hp
  · exact hadd p (List.mem_filter.mp hp).1
  · exact hadd p hp

inductive LoopStage where
  | selecting
  | handling (ev : Event)
  | returned
  deriving DecidableEq, Repr

inductive MainStage where
  | selecting
  | reconciling
  | returned
  deriving DecidableEq, Repr

/-- watchLoop, its watches and its timer, needReconcile, and the loop of Run. debounce has the
time at which the timer fires. -/
structure Watch where
  watched : List Bytes
  loop : LoopStage
  pending : Bool
  debounce : Option ℕ
  needReconcile : Bool
  main : MainStage
  now : ℕ
  deriving DecidableEq, Repr

inductive WatchAction where
  | deliver (ev : Event)
  | handled (f : Finding)
  | fsError
  | expire
  | cancel
  | receive
  | scanTick
  | reconciled
  | shutdown
  | wait (d : ℕ)

namespace WatchAction

def begins : WatchAction → Bool
  | receive | scanTick => true
  | _ => false

/-- What the daemon does without a tick, an event or a cancelled context. -/
def own : WatchAction → Bool
  | handled _ | expire | receive | reconciled | wait _ => true
  | _ => false

def duration : WatchAction → ℕ
  | wait d => d
  | _ => 0

end WatchAction

def elapsed (as : List WatchAction) : ℕ := (as.map WatchAction.duration).sum

inductive WatchStep (root : Bytes) (watchDebounce : ℕ) : Watch → WatchAction → Watch → Prop
  | ignored {s : Watch} {ev : Event} (loop : s.loop = .selecting)
      (ignore : watchIgnore root ev.name = true) : WatchStep root watchDebounce s (.deliver ev) s
  | deliver {s : Watch} {ev : Event} (loop : s.loop = .selecting)
      (keep : watchIgnore root ev.name = false) :
      WatchStep root watchDebounce s (.deliver ev) { s with loop := .handling ev }
  -- ends with armDebounce; no stale tick is left in the channel
  | handled {s : Watch} {ev : Event} (f : Finding) (loop : s.loop = .handling ev) :
      WatchStep root watchDebounce s (.handled f)
        { s with
          watched := handle root ev f s.watched, loop := .selecting, pending := true,
          debounce := some (s.now + watchDebounce) }
  | fsError {s : Watch} (loop : s.loop = .selecting) : WatchStep root watchDebounce s .fsError s
  | expire {s : Watch} {t : ℕ} (loop : s.loop = .selecting) (armed : s.debounce = some t)
      (due : t ≤ s.now) :
      WatchStep root watchDebounce s .expire
        { s with
          debounce := none, pending := false, needReconcile := s.needReconcile || s.pending }
  | cancel {s : Watch} (loop : s.loop = .selecting) :
      WatchStep root watchDebounce s .cancel { s with loop := .returned, debounce := none }
  | receive {s : Watch} (main : s.main = .selecting) (token : s.needReconcile = true) :
      WatchStep root watchDebounce s .receive
        { s with needReconcile := false, main := .reconciling }
  | scanTick {s : Watch} (main : s.main = .selecting) :
      WatchStep root watchDebounce s .scanTick { s with main := .reconciling }
  | reconciled {s : Watch} (main : s.main = .reconciling) :
      WatchStep root watchDebounce s .reconciled { s with main := .selecting }
  | shutdown {s : Watch} (main : s.main = .selecting) :
      WatchStep root watchDebounce s .shutdown { s with main := .returned }
  | wait {s : Watch} (d : ℕ) :
      WatchStep root watchDebounce s (.wait d) { s with now := s.now + d }

/-- A reconcile has been asked for, or is going to be. -/
def Outstanding (s : Watch) : Prop :=
  (∃ ev, s.loop = .handling ev) ∨ (s.pending = true ∧ s.debounce.isSome = true) ∨
    s.needReconcile = true

structure Sound (root : Bytes) (watchDebounce : ℕ) (s : Watch) : Prop where
  kept : ∀ p ∈ s.watched, watchIgnore root p = false
  due : ∀ t, s.debounce = some t → t ≤ s.now + watchDebounce
  stopped : s.loop = .returned → s.debounce = none

/-- An event came at time t: the timer will not fire before the time it allows for is over. -/
def Quiet (watchDebounce t : ℕ) (s : Watch) : Prop :=
  t ≤ s.now ∧ ((∃ ev, s.loop = .handling ev) ∨
    ∀ fires, s.debounce = some fires → t + watchDebounce ≤ fires)

section Steps
variable {root : Bytes} {watchDebounce : ℕ} {s s' : Watch} {a : WatchAction} {as : List WatchAction}

theorem now_next (hstep : WatchStep root watchDebounce s a s') : s'.now = s.now + a.duration := by
  cases hstep <;> rfl

theorem now_run (hrun : Run (WatchStep root watchDebounce) s as s') :
    s'.now = s.now + elapsed as := by
  induction hrun with
  | nil s => rfl
  | cons hstep _ ih =>
    rw [ih, now_next hstep]
    simp only [elapsed, List.map_cons, List.sum_cons]
    omega

theorem Outstanding.next (h : Outstanding s) (hstep : WatchStep root watchDebounce s a s')
    (hbegins : a.begins = false) (hcancel : a ≠ .cancel) : Outstanding s' := by
  cases hstep with
  | ignored loop ignore => exact h
  | deliver loop keep => exact Or.inl ⟨_, rfl⟩
  | handled f loop => exact Or.inr (Or.inl ⟨rfl, rfl⟩)
  | fsError loop => exact h
  | expire loop armed due =>
    rcases h with ⟨ev, hev⟩ | ⟨hpending, _⟩ | htoken
    · exact absurd (loop.symm.trans hev) (by simp)
    · exact Or.inr (Or.inr (by simp [hpending]))
    · exact Or.inr (Or.inr (by simp [htoken]))
  | cancel loop => exact absurd rfl hcancel
  | receive main token => exact absurd hbegins (by simp [WatchAction.begins])
  | scanTick main => exact absurd hbegins (by simp [WatchAction.begins])
  | reconciled main => exact h
  | shutdown main => exact h
  | wait d => exact h

theorem Outstanding.run (h : Outstanding s) (hrun : Run (WatchStep root watchDebounce) s as s')
    (hafter : ∀ a ∈ as, a.begins = false ∧ a ≠ .cancel) : Outstanding s' := by
  induction hrun with
  | nil s => exact h
  | cons hstep _ ih =>
    obtain ⟨hbegins, hcancel⟩ := hafter _ List.mem_cons_self
    exact ih (h.next hstep hbegins hcancel) fun a ha => hafter a (List.mem_cons_of_mem _ ha)

theorem Sound.next (h : Sound root watchDebounce s) (hstep : WatchStep root watchDebounce s a s') :
    Sound root watchDebounce s' := by
  cases hstep with
  | ignored loop ignore => exact h
  | deliver loop keep => exact ⟨h.kept, h.due, by simp⟩
  | handled f loop =>
    refine ⟨handle_kept h.kept, ?_, by simp⟩
    rintro t ⟨⟩
    exact le_rfl
  | fsError loop => exact h
  | expire loop armed due => exact ⟨h.kept, by simp, by simp⟩
  | cancel loop => exact ⟨h.kept, by simp, by simp⟩
  | receive main token => exact ⟨h.kept, h.due, h.stopped⟩
  | scanTick main => exact ⟨h.kept, h.due, h.stopped⟩
  | reconciled main => exact ⟨h.kept, h.due, h.stopped⟩
  | shutdown main => exact ⟨h.kept, h.due, h.stopped⟩
  | wait d =>
    refine ⟨h.kept, fun t ht => ?_, h.stopped⟩
    have hdue := h.due t ht
    dsimp only
    omega

theorem Quiet.next {t : ℕ} (h : Quiet watchDebounce t s)
    (hstep : WatchStep root watchDebounce s a s') : Quiet watchDebounce t s' := by
  obtain ⟨hnow, hstage⟩ := h
  refine ⟨by rw [now_next hstep]; omega, ?_⟩
  cases hstep with
  | ignored loop ignore => exact hstage
  | deliver loop keep => exact Or.inl ⟨_, rfl⟩
  | handled f loop =>
    refine Or.inr ?_
    rintro fires ⟨⟩
    omega
  | fsError loop => exact hstage
  | expire loop armed due => exact Or.inr (by simp)
  | cancel loop => exact Or.inr (by simp)
  | receive main token => exact hstage
  | scanTick main => exact hstage
  | reconciled main => exact hstage
  | shutdown main => exact hstage
  | wait d => exact hstage

/-- The timer fires only when the time is over. -/
theorem Quiet.expired {t : ℕ} (h : Quiet watchDebounce t s)
    (hstep : WatchStep root watchDebounce s .expire s') : t + watchDebounce ≤ s.now := by
  cases hstep with
  | @expire fires loop armed due =>
    rcases h.2 with ⟨ev, hev⟩ | hquiet
    · exact absurd (loop.symm.trans hev) (by simp)
    · exact (hquiet fires armed).trans due

theorem handling_of_deliver {ev : Event} (hstep : WatchStep root watchDebounce s (.deliver ev) s')
    (hkeep : watchIgnore root ev.name = false) : s'.loop = .handling ev := by
  cases hstep with
  | ignored loop ignore => rw [ignore] at hkeep; exact absurd hkeep (by simp)
  | deliver loop keep => rfl

/-- Within that time the daemon begins a reconcile by itself. -/
def Begins (root : Bytes) (watchDebounce : ℕ) (s : Watch) (time : ℕ) : Prop :=
  ∃ as s', Run (WatchStep root watchDebounce) s as s' ∧ (∀ a ∈ as, a.own = true) ∧
    elapsed as ≤ time ∧ ∃ a ∈ as, a.begins = true

theorem Begins.after {time : ℕ} (h : Begins root watchDebounce s' time)
    (hstep : WatchStep root watchDebounce s a s') (hown : a.own = true) :
    Begins root watchDebounce s (a.duration + time) := by
  obtain ⟨as, t, hrun, has, htime, b, hb, hbegins⟩ := h
  refine ⟨a :: as, t, .cons hstep hrun, ?_, ?_, b, List.mem_cons_of_mem a hb, hbegins⟩
  · rintro c (_ | ⟨_, hc⟩)
    · exact hown
    · exact has c hc
  · simp only [elapsed, List.map_cons, List.sum_cons] at htime ⊢
    omega

theorem begins_of_selecting (hmain : s.main = .selecting) (htoken : s.needReconcile = true) :
    Begins root watchDebounce s 0 :=
  ⟨_, _, .single (.receive hmain htoken), by simp [WatchAction.own], le_rfl, .receive, by simp,
    rfl⟩

theorem begins_of_token (hmain : s.main ≠ .returned) (htoken : s.needReconcile = true) :
    Begins root watchDebounce s 0 := by
  cases hstage : s.main with
  | selecting => exact begins_of_selecting hstage htoken
  | reconciling =>
    -- the reconcile that runs has to end first
    have hnext : Begins root watchDebounce { s with main := .selecting } 0 :=
      begins_of_selecting rfl htoken
    exact hnext.after (.reconciled hstage) rfl
  | returned => exact absurd hstage hmain

theorem begins_of_pending {t : ℕ} (hmain : s.main ≠ .returned) (hloop : s.loop = .selecting)
    (hpending : s.pending = true) (harmed : s.debounce = some t) :
    Begins root watchDebounce s (t - s.now) := by
  let later : Watch := { s with now := s.now + (t - s.now) }
  have hasked : Begins root watchDebounce
      { later with
        debounce := none, pending := false, needReconcile := later.needReconcile || later.pending }
      0 := begins_of_token hmain (by simp [later, hpending])
  have hdue : t ≤ later.now := by
    dsimp only [later]
    omega
  have hexpired : Begins root watchDebounce later 0 :=
    hasked.after (.expire hloop harmed hdue) rfl
  exact hexpired.after (.wait (t - s.now)) rfl

theorem Outstanding.begins (h : Outstanding s) (hsound : Sound root watchDebounce s)
    (hmain : s.main ≠ .returned) :
    ∃ time ≤ watchDebounce, Begins root watchDebounce s time := by
  cases hloop : s.loop with
  | handling ev =>
    -- whatever it finds at the name
    let f : Finding := ⟨false, none, fun _ => true⟩
    have harmed : Begins root watchDebounce
        { s with
          watched := handle root ev f s.watched, loop := .selecting, pending := true,
          debounce := some (s.now + watchDebounce) } (s.now + watchDebounce - s.now) :=
      begins_of_pending hmain rfl rfl rfl
    refine ⟨_, ?_, harmed.after (.handled f hloop) rfl⟩
    simp [WatchAction.duration]
  | selecting =>
    rcases h with ⟨ev, hev⟩ | ⟨hpending, hsome⟩ | htoken
    · exact absurd (hloop.symm.trans hev) (by simp)
    · obtain ⟨t, ht⟩ := Option.isSome_iff_exists.mp hsome
      have hdue := hsound.due t ht
      exact ⟨_, by omega, begins_of_pending hmain hloop hpending ht⟩
    · exact ⟨0, Nat.zero_le _, begins_of_token hmain htoken⟩
  | returned =>
    rcases h with ⟨ev, hev⟩ | ⟨_, hsome⟩ | htoken
    · exact absurd (hloop.symm.trans hev) (by simp)
    · rw [hsound.stopped hloop] at hsome
      exact absurd hsome (by simp)
    · exact ⟨0, Nat.zero_le _, begins_of_token hmain htoken⟩

end Steps

/-- The watch with which the main loop starts, if there is one. -/
def startFSWatch (root : Bytes) (disableWatch newWatcherFails : Bool) (adds : Bytes → Bool)
    (walk : Option Forest) (now : ℕ) : Option Watch :=
  if disableWatch || newWatcherFails then none
  else match addWatchTree root adds root walk with
    | .error _ => none
    | .ok added =>
        some
          { watched := added, loop := .selecting, pending := false, debounce := none,
            needReconcile := false, main := .selecting, now := now }

/-- The walk comes upon the directories of the tree. -/
def Shows (t : Root) (inside : Forest) : Prop :=
  ∀ names, names ≠ [] → t.get names = some .dir → inside.Has names

section Started
variable {root : Bytes} {disableWatch newWatcherFails : Bool} {adds : Bytes → Bool}
  {walk : Option Forest} {now : ℕ} {s : Watch}

theorem startFSWatch_some
    (h : startFSWatch root disableWatch newWatcherFails adds walk now = some s) :
    addWatchTree root adds root walk = .ok s.watched ∧ s.loop = .selecting ∧ s.debounce = none := by
  unfold startFSWatch at h
  split_ifs at h
  cases hadded : addWatchTree root adds root walk with
  | error e =>
    rw [hadded] at h
    exact absurd h (by simp)
  | ok added =>
    rw [hadded] at h
    obtain rfl := Option.some.inj h
    exact ⟨rfl, rfl, rfl⟩

theorem startFSWatch_sound (watchDebounce : ℕ)
    (h : startFSWatch root disableWatch newWatcherFails adds walk now = some s) :
    Sound root watchDebounce s := by
  obtain ⟨hadded, hloop, htimer⟩ := startFSWatch_some h
  refine ⟨fun p hp => addWatchTree_kept hadded hp, ?_, fun _ => htimer⟩
  rw [htimer]
  simp

/-- The directory of every file that Scan records is watched, unless that is refused. -/
theorem scanned_dir_watched (hroot : root.head? = some slash) {inside : Forest}
    (h : startFSWatch root disableWatch newWatcherFails adds (some inside) now = some s) {t : Root}
    (ht : Shows t inside) {p : Bytes} {f : File} (hf : (p, f) ∈ Scanning.walk t)
    {dir : List FileName} {n : FileName} (hnames : pathNames p = some (dir ++ [n]))
    (hadds : adds (walkName root dir) = true) : walkName root dir ∈ s.watched := by
  obtain ⟨_, found, hfound, hwatched⟩ := addWatchTree_ok (startFSWatch_some h).1
  cases hfound
  obtain ⟨hfile, hres⟩ := mem_walk.mp hf
  rw [hwatched]
  by_cases hnil : dir = []
  · subst hnil
    exact List.mem_cons_self
  · have hget : t.get (dir ++ [n]) = some (.file f) := by
      rw [RootEffects.fileAt_eq_some, RootEffects.nodeAt, hnames] at hfile
      exact hfile
    have hdir : t.get dir = some .dir := t.get_parent (by rw [hget]; rfl)
    have hnot : ¬ Reserved dir :=
      not_reserved_of_below (not_reserved_of_path hres _ hnames) (List.prefix_append dir [n])
    exact List.mem_cons_of_mem _
      (@addInside_has root hroot adds inside [] dir (ht dir hnil hdir) hnot hadds)

end Started

/-- Throughout every run no reserved path is watched. After an event that is not ignored, until
a reconcile begins, one is asked for or is going to be, and unless the main loop has returned
the daemon gets there by itself within WatchDebounce. The timer fires no sooner than that after
an event. When the watch starts, it extends to the directories of all files that Scan records. -/
theorem delivered_events_reconciled (root : Bytes) (hroot : root.head? = some slash)
    (watchDebounce : ℕ) (disableWatch newWatcherFails : Bool) (adds : Bytes → Bool)
    (inside : Forest) (now : ℕ) (s₀ s : Watch) (as : List WatchAction)
    (hstart : startFSWatch root disableWatch newWatcherFails adds (some inside) now = some s₀)
    (hrun : Run (WatchStep root watchDebounce) s₀ as s) :
    (∀ names, walkName root names ∈ s.watched → ¬ Reserved names) ∧
    (∀ before ev after, as = before ++ .deliver ev :: after → watchIgnore root ev.name = false →
      (∀ a ∈ after, a.begins = false ∧ a ≠ .cancel) →
      Outstanding s ∧
        (s.main ≠ .returned → ∃ time ≤ watchDebounce, Begins root watchDebounce s time)) ∧
    (∀ before ev after, as = before ++ .deliver ev :: (after ++ [.expire]) →
      watchIgnore root ev.name = false → watchDebounce ≤ elapsed after) ∧
    ∀ t, Shows t inside → ∀ p f dir n, (p, f) ∈ Scanning.walk t →
      pathNames p = some (dir ++ [n]) → adds (walkName root dir) = true →
      walkName root dir ∈ s₀.watched := by
  have hsound : Sound root watchDebounce s :=
    hrun.invariant (fun _ _ _ h hstep => h.next hstep) (startFSWatch_sound watchDebounce hstart)
  refine ⟨?_, ?_, ?_, fun t ht p f dir n hf hnames hadds =>
    scanned_dir_watched hroot hstart ht hf hnames hadds⟩
  · intro names hin hres
    rw [← watchIgnore_iff hroot, hsound.kept _ hin] at hres
    exact absurd hres (by simp)
  · rintro before ev after rfl hkeep hafter
    obtain ⟨s₁, _, hrest⟩ := hrun.split
    cases hrest with
    | cons hdeliver hrest =>
      have hout := Outstanding.run (Or.inl ⟨ev, handling_of_deliver hdeliver hkeep⟩) hrest hafter
      exact ⟨hout, hout.begins hsound⟩
  · rintro before ev after rfl hkeep
    obtain ⟨s₁, _, hrest⟩ := hrun.split
    cases hrest with
    | @cons _ s₂ _ _ _ hdeliver hrest =>
      obtain ⟨s₃, hafter, hlast⟩ := hrest.split
      have hquiet : Quiet watchDebounce s₂.now s₃ :=
        hafter.invariant (fun _ _ _ h hstep => h.next hstep)
          ⟨le_rfl, Or.inl ⟨ev, handling_of_deliver hdeliver hkeep⟩⟩
      cases hlast with
      | cons hexpire _ =>
        have htime := hquiet.expired hexpire
        rw [now_run hafter] at htime
        omega

def madeD : Event := ⟨ascii "/sync/d", true, false, false⟩

def foundD : Finding := ⟨true, some .nil, fun _ => true⟩

def emptyWatch : Watch := ⟨[ascii "/sync"], .selecting, false, none, false, .selecting, 0⟩

def armedWatch : Watch :=
  ⟨[ascii "/sync/d", ascii "/sync"], .selecting, true, some 5, false, .selecting, 3⟩

theorem delivered_events_reconciled_made :
    startFSWatch (ascii "/sync") false false (fun _ => true) (some .nil) 0 = some emptyWatch ∧
      Run (WatchStep (ascii "/sync") 5) emptyWatch [.deliver madeD, .handled foundD, .wait 3]
        armedWatch ∧
      ∃ time ≤ 5, Begins (ascii "/sync") 5 armedWatch time := by
  have hstart : startFSWatch (ascii "/sync") false false (fun _ => true) (some .nil) 0 =
      some emptyWatch := by decide +kernel
  have hkeep : watchIgnore (ascii "/sync") madeD.name = false := by decide +kernel
  have hhandled : handle (ascii "/sync") madeD foundD [ascii "/sync"] =
      [ascii "/sync/d", ascii "/sync"] := by decide +kernel
  have hrun : Run (WatchStep (ascii "/sync") 5) emptyWatch
      [.deliver madeD, .handled foundD, .wait 3] armedWatch := by
    have hlast : Run (WatchStep (ascii "/sync") 5)
        { emptyWatch with
          watched := handle (ascii "/sync") madeD foundD [ascii "/sync"], loop := .selecting,
          pending := true, debounce := some 5 } [.wait 3] armedWatch := by
      rw [hhandled]
      exact .single (.wait 3)
    exact .cons (.deliver rfl hkeep) (.cons (.handled foundD rfl) hlast)
  obtain ⟨_, hbegins⟩ := (delivered_events_reconciled _ (by decide) 5 false false _ .nil 0 _ _ _
    hstart hrun).2.1 [] madeD [.handled foundD, .wait 3] rfl hkeep
      (by simp [WatchAction.begins])
  exact ⟨hstart, hrun, hbegins (by decide)⟩

end TailSync.Watching

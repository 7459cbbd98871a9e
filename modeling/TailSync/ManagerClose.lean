import TailSync.Rosters

/-!
Manager.Close against everything that is under way. Close cancels the manager's context,
then CloseAll takes the map of the roster away and closes the sessions that were in it.
Goroutines that finished their handshake before or after go on installing sessions into
the new map. No session is lost between the two: each one is open only while it is
mapped or some goroutine has still to close it, and once CloseAll has run, a mapped
session belongs to a goroutine that will find the context cancelled and take it out.
-/
namespace TailSync.ManagerClose

open ByteStrings ThreadPools Rosters
open Runs (Run)

/-- The goroutines of a started manager, whether its context is cancelled, and whether
CloseAll has replaced the map. -/
structure Manager (σ : Type*) where
  goroutines : Goroutines σ
  cancelled : Bool
  emptied : Bool

inductive ManagerAction (σ : Type*) where
  | connect (k : ℕ) (s : σ)
  | shut (k : ℕ) (prog : List (Op σ))
  | run (k : ℕ)
  | cancel
  | closeAll (k : ℕ) (all : List σ)
  deriving DecidableEq

namespace Manager
variable {σ : Type*}

def roster (m : Manager σ) : Roster σ := m.goroutines.shared

def todo (m : Manager σ) : ℕ → List (Op σ) := m.goroutines.todo

def started : Manager σ := ⟨⟨⟨fun _ => none, fun _ => newSession⟩, fun _ => []⟩, false, false⟩

/-- CloseAll under the roster's lock: the sessions of the old map are left to be closed by
the goroutine that runs Close. -/
def closeAll (m : Manager σ) (k : ℕ) (all : List σ) : Manager σ :=
  ⟨⟨{ m.roster with sessions := fun _ => none },
    Function.update m.todo k (all.map Op.close)⟩, m.cancelled, true⟩

end Manager

section Machine
variable {σ : Type*} [DecidableEq σ] (info : σ → SessionConfig)

/-- What can happen next: a handshake ends and its session is to be installed; the accept
loop, the heartbeat or a stream of a session finds the connection dead; a goroutine takes its
turn; the context is cancelled; or Close, which has cancelled it, gets to CloseAll. -/
inductive ManagerStep (m : Manager σ) : ManagerAction σ → Manager σ → Prop
  | connect {k : ℕ} {s : σ} {g : Goroutines σ}
      (spawn : RosterStep info m.goroutines (.spawn k [.install s]) g) :
      ManagerStep m (.connect k s) { m with goroutines := g }
  | shut {k : ℕ} {s : σ} {prog : List (Op σ)} {g : Goroutines σ}
      (reaction : prog = [.close s] ∨ prog = invalidate s)
      (spawn : RosterStep info m.goroutines (.spawn k prog) g) :
      ManagerStep m (.shut k prog) { m with goroutines := g }
  | run {k : ℕ} {g : Goroutines σ}
      (turn : RosterStep info m.goroutines (.run k m.cancelled) g) :
      ManagerStep m (.run k) { m with goroutines := g }
  | cancel : ManagerStep m .cancel { m with cancelled := true }
  | closeAll {k : ℕ} {all : List σ} (done : m.cancelled = true) (idle : m.todo k = [])
      (listed : ∀ s, s ∈ all ↔ ∃ id, m.roster.sessions id = some s) :
      ManagerStep m (.closeAll k all) (m.closeAll k all)

variable {info}

/-- Nothing reopens a session. -/
theorem exec_closed {done : Bool} {r : Roster σ} {s : σ} (op : Op σ)
    (hclosed : (r.flags s).closed = true) :
    ((exec info done r op).1.flags s).closed = true := by
  by_cases hs : s = op.session
  · subst hs
    cases op with
    | install s =>
      have hinstalled := install_installed info r s
      simp only [exec, Op.session] at hclosed ⊢
      generalize install info r s = result at hinstalled
      cases hinstalled <;> exact hclosed
    | activate s stage =>
      simp only [Op.session] at hclosed
      cases stage <;> simp only [exec, activate] <;> split <;>
        simp [Op.session, hclosed]
    | clearOnClose s => simpa [exec, Roster.setFlags, Op.session] using hclosed
    | removeIfCurrent s =>
      simp only [exec, removeIfCurrent]
      split <;> exact hclosed
    | close s =>
      simp only [exec, close, Op.session] at hclosed ⊢
      rw [if_pos hclosed]
      exact hclosed
    | onSessionClose s =>
      simp only [exec, removeIfCurrent]
      split <;> exact hclosed
    | markUnhealthy s => simpa [exec, Roster.setFlags, Op.session] using hclosed
  · rw [exec_flags_of_ne done r op hs]
    exact hclosed

theorem close_closed (done : Bool) (r : Roster σ) (s : σ) :
    ((exec info done r (.close s)).1.flags s).closed = true := by
  simp only [exec, close]
  split
  · assumption
  · simp [Roster.setFlags]

/-- An Install maps its session and leaves it to be activated, or leaves it to be closed. -/
theorem install_keeps (done : Bool) (r : Roster σ) (s : σ) :
    (exec info done r (.install s)).1.sessions (info s).nodeID = some s ∧
        .activate s .current ∈ (exec info done r (.install s)).2 ∨
      (exec info done r (.install s)).1 = r ∧ .close s ∈ (exec info done r (.install s)).2 := by
  have hinstalled := install_installed info r s
  simp only [exec]
  generalize install info r s = result at hinstalled
  cases hinstalled <;> simp [Roster.setSession, afterInstall]

/-- An Install that takes the key of another session leaves that one to be closed. -/
theorem install_displaces {done : Bool} {r : Roster σ} {s old : σ} {id : Bytes}
    (hold : r.sessions id = some old)
    (hgone : (exec info done r (.install s)).1.sessions id ≠ some old) :
    .close old ∈ (exec info done r (.install s)).2 := by
  have hinstalled := install_installed info r s
  simp only [exec] at hgone ⊢
  generalize install info r s = result at hinstalled hgone
  by_cases hid : id = (info s).nodeID
  · subst hid
    cases hinstalled with
    | unnamed _ => exact absurd hold hgone
    | accepted free =>
      rw [free] at hold
      exact absurd hold (by simp)
    | replaced mapped _ =>
      rw [mapped] at hold
      cases hold
      simp [afterInstall]
    | rejected _ _ _ => exact absurd hold hgone
  · cases hinstalled with
    | unnamed _ => exact absurd hold hgone
    | accepted _ => exact absurd hold (by simpa [Roster.setSession, hid] using hgone)
    | replaced _ _ => exact absurd hold (by simpa [Roster.setSession, hid] using hgone)
    | rejected _ _ _ => exact absurd hold hgone

/-- Every removal is followed by the Close of the same session. -/
def Guarded : List (Op σ) → Prop
  | [] => True
  | .removeIfCurrent s :: rest => .close s ∈ rest ∧ Guarded rest
  | _ :: rest => Guarded rest

omit [DecidableEq σ] in
theorem Guarded.tail {op : Op σ} {rest : List (Op σ)} (h : Guarded (op :: rest)) :
    Guarded rest := by
  cases op <;> first | exact h | exact h.2

omit [DecidableEq σ] in
theorem Guarded.append {left rest : List (Op σ)} (hleft : Guarded left) (hrest : Guarded rest) :
    Guarded (left ++ rest) := by
  induction left with
  | nil => exact hrest
  | cons op left ih =>
    have htail := ih hleft.tail
    cases op with
    | removeIfCurrent s => exact ⟨List.mem_append_left rest hleft.1, htail⟩
    | _ => exact htail

omit [DecidableEq σ] in
theorem guarded_discardSession (s : σ) : Guarded (discardSession s) := by
  simp [discardSession, Guarded]

theorem exec_guarded (done : Bool) (r : Roster σ) (op : Op σ) :
    Guarded (exec info done r op).2 := by
  cases op with
  | install s =>
    simp only [exec]
    cases (install info r s).2 <;> simp [afterInstall, Guarded]
  | activate s stage =>
    cases stage <;> simp only [exec, activate] <;> split <;>
      first | exact guarded_discardSession s | simp [Guarded]
  | close s =>
    simp only [exec, close]
    split
    · trivial
    · dsimp only
      split <;> simp [Guarded]
  | clearOnClose s => trivial
  | removeIfCurrent s => trivial
  | onSessionClose s => trivial
  | markUnhealthy s => trivial

omit [DecidableEq σ] in
theorem guarded_closes (all : List σ) : Guarded (all.map Op.close) := by
  induction all with
  | nil => trivial
  | cons s all ih => exact ih

/-- The callback is called by the goroutine that has just closed the session. -/
theorem exec_calls_back {done : Bool} {r : Roster σ} {op : Op σ} {s : σ}
    (h : .onSessionClose s ∈ (exec info done r op).2) :
    ((exec info done r op).1.flags s).closed = true := by
  cases op with
  | install t =>
    simp only [exec] at h
    cases hresult : (install info r t).2 <;> rw [hresult] at h <;> simp [afterInstall] at h
  | activate t stage =>
    exfalso
    cases stage <;> simp only [exec, activate] at h <;> split at h <;>
      simp [discardSession] at h
  | close t =>
    have hst : s = t := close_about r t _ h
    rw [hst]
    exact close_closed done r t
  | clearOnClose t => exact absurd h (by simp [exec])
  | removeIfCurrent t => exact absurd h (by simp [exec])
  | onSessionClose t => exact absurd h (by simp [exec])
  | markUnhealthy t => exact absurd h (by simp [exec])

/-- A session is closed, or mapped, or some goroutine has still to install or to close it. -/
def Accounted (m : Manager σ) (s : σ) : Prop :=
  (m.roster.flags s).closed = true ∨ (∃ id, m.roster.sessions id = some s) ∨
    ∃ k, .install s ∈ m.todo k ∨ .close s ∈ m.todo k

/-- What takes the session out of the map, in a manager whose context is cancelled. -/
def Leaves (s : σ) (op : Op σ) : Prop :=
  op = .activate s .current ∨ op = .activate s .running ∨ op = .removeIfCurrent s ∨
    op = .onSessionClose s

structure Orderly (info : σ → SessionConfig) (m : Manager σ) : Prop where
  keyed : Keyed info m.roster
  guarded : ∀ k, Guarded (m.todo k)
  called : ∀ k s, .onSessionClose s ∈ m.todo k → (m.roster.flags s).closed = true
  cancelled : m.emptied = true → m.cancelled = true
  leaving : m.emptied = true → ∀ id s, m.roster.sessions id = some s →
    ∃ k, ∃ op ∈ m.todo k, Leaves s op

theorem removeIfCurrent_unmaps {r : Roster σ} (hkeyed : Keyed info r) (s : σ) (id : Bytes) :
    (removeIfCurrent info r s).sessions id ≠ some s := by
  intro h
  unfold removeIfCurrent at h
  split at h
  · rename_i hcur
    by_cases hid : id = (info s).nodeID
    · rw [hid] at h
      exact absurd h (by simp [Roster.setSession])
    · have hmapped : r.sessions id = some s := by
        simpa [Roster.setSession, Function.update_of_ne hid] using h
      exact hid (hkeyed id s hmapped).symm
  · rename_i hcur
    exact hcur (by rwa [hkeyed id s h])

/-- Under a cancelled context an operation that takes a session out does so, or leaves
another one that does. -/
theorem exec_leaving {r : Roster σ} (hkeyed : Keyed info r) {s : σ} {op : Op σ}
    (hop : Leaves s op) :
    (∃ op' ∈ (exec info true r op).2, Leaves s op') ∨
      ∀ id, (exec info true r op).1.sessions id ≠ some s := by
  rcases hop with rfl | rfl | rfl | rfl
  · refine Or.inl ?_
    simp only [exec, activate]
    split <;> simp [discardSession, Leaves]
  · refine Or.inl ?_
    simp only [exec, activate, Bool.true_or, if_true]
    simp [discardSession, Leaves]
  · exact Or.inr fun id => removeIfCurrent_unmaps hkeyed s id
  · exact Or.inr fun id => removeIfCurrent_unmaps hkeyed s id

/-- A session that an operation maps is left to be activated. -/
theorem exec_maps {done : Bool} {r : Roster σ} {op : Op σ} {id : Bytes} {s : σ}
    (hnew : (exec info done r op).1.sessions id = some s) (hold : r.sessions id ≠ some s) :
    .activate s .current ∈ (exec info done r op).2 := by
  have heffect := exec_keyEffect info done r op id
  generalize hexec : exec info done r op = after at heffect hnew ⊢
  cases heffect with
  | kept same => exact absurd (same.symm.trans hnew) hold
  | @displaced t key mapped _ =>
    obtain rfl : t = s := Option.some.inj (mapped.symm.trans hnew)
    rcases install_keeps done r t with ⟨_, hleft⟩ | ⟨hsame, _⟩
    · rwa [← hexec]
    · rw [hexec] at hsame
      rw [hsame] at hnew
      exact absurd hnew hold
  | removed _ _ gone => exact absurd (gone.symm.trans hnew) (by simp)

section Turn
variable {m : Manager σ} {k : ℕ} {op : Op σ} {rest : List (Op σ)}

def turned (info : σ → SessionConfig) (m : Manager σ) (k : ℕ) (op : Op σ)
    (rest : List (Op σ)) : Manager σ :=
  { m with
    goroutines := ⟨(exec info m.cancelled m.roster op).1,
      Function.update m.todo k ((exec info m.cancelled m.roster op).2 ++ rest)⟩ }

theorem mem_turned_left {op' : Op σ} (hmem : op' ∈ (exec info m.cancelled m.roster op).2) :
    op' ∈ (turned info m k op rest).todo k := by
  simp only [turned, Manager.todo, Function.update_self]
  exact List.mem_append_left _ hmem

theorem mem_turned_rest {op' : Op σ} (hmem : op' ∈ rest) :
    op' ∈ (turned info m k op rest).todo k := by
  simp only [turned, Manager.todo, Function.update_self]
  exact List.mem_append_right _ hmem

theorem Accounted.turned (hm : Orderly info m) (next : m.todo k = op :: rest) {s : σ}
    (h : Accounted m s) : Accounted (turned info m k op rest) s := by
  rcases h with hclosed | ⟨id, hmapped⟩ | ⟨j, hinstall | hclose⟩
  · exact Or.inl (exec_closed op hclosed)
  · -- the key is kept, or another session takes it, or this one is taken out
    have heffect := exec_keyEffect info m.cancelled m.roster op id
    by_cases hkept : (exec info m.cancelled m.roster op).1.sessions id = some s
    · exact Or.inr (Or.inl ⟨id, hkept⟩)
    · generalize hexec : exec info m.cancelled m.roster op = after at heffect hkept
      cases heffect with
      | kept same => exact absurd (same.trans hmapped) hkept
      | displaced _ _ _ =>
        rw [← hexec] at hkept
        exact Or.inr (Or.inr ⟨k, Or.inr (mem_turned_left (install_displaces hmapped hkept))⟩)
      | @removed _ t acts mapped _ =>
        obtain rfl : t = s := Option.some.inj (mapped.symm.trans hmapped)
        rcases acts with rfl | rfl
        · have hguard := hm.guarded k
          rw [next] at hguard
          exact Or.inr (Or.inr ⟨k, Or.inr (mem_turned_rest hguard.1)⟩)
        · exact Or.inl (exec_closed _ (hm.called k t (by simp [next])))
  · by_cases hop : op = .install s
    · subst hop
      rcases install_keeps m.cancelled m.roster s with ⟨hmapped, _⟩ | ⟨_, hclose⟩
      · exact Or.inr (Or.inl ⟨_, hmapped⟩)
      · exact Or.inr (Or.inr ⟨k, Or.inr (mem_turned_left hclose)⟩)
    · exact Or.inr (Or.inr ⟨j, Or.inl (Pool.mem_run next hinstall (Ne.symm hop))⟩)
  · by_cases hop : op = .close s
    · subst hop
      exact Or.inl (close_closed m.cancelled m.roster s)
    · exact Or.inr (Or.inr ⟨j, Or.inr (Pool.mem_run next hclose (Ne.symm hop))⟩)

theorem Orderly.turned (hm : Orderly info m) (next : m.todo k = op :: rest) :
    Orderly info (turned info m k op rest) where
  keyed := hm.keyed.exec m.cancelled op
  guarded := by
    intro j
    simp only [ManagerClose.turned, Manager.todo]
    by_cases hj : j = k
    · subst hj
      have hguard := hm.guarded j
      rw [next] at hguard
      rw [Function.update_self]
      exact (exec_guarded m.cancelled m.roster op).append hguard.tail
    · rw [Function.update_of_ne hj]
      exact hm.guarded j
  called := by
    intro j s hmem
    rcases Pool.mem_run_cases next hmem with hleft | hold
    · exact exec_calls_back hleft
    · exact exec_closed op (hm.called j s hold)
  cancelled := hm.cancelled
  leaving := by
    intro hemptied id s hmapped
    have hdone : m.cancelled = true := hm.cancelled hemptied
    by_cases hold : m.roster.sessions id = some s
    · obtain ⟨j, op', hmem, hleaves⟩ := hm.leaving hemptied id s hold
      by_cases hop : op' = op
      · subst hop
        rcases exec_leaving hm.keyed hleaves with ⟨op'', hleft, hleaves'⟩ | hgone
        · rw [← hdone] at hleft
          exact ⟨k, op'', mem_turned_left hleft, hleaves'⟩
        · rw [← hdone] at hgone
          exact absurd hmapped (hgone id)
      · exact ⟨j, op', Pool.mem_run next hmem hop, hleaves⟩
    · exact ⟨k, _, mem_turned_left (exec_maps hmapped hold), Or.inl rfl⟩

end Turn

section Spawn
variable {m : Manager σ} {k : ℕ} {prog : List (Op σ)}

def spawned (m : Manager σ) (k : ℕ) (prog : List (Op σ)) : Manager σ :=
  { m with goroutines := ⟨m.roster, Function.update m.todo k prog⟩ }

omit [DecidableEq σ] in
theorem Accounted.spawned (idle : m.todo k = []) {s : σ} (h : Accounted m s) :
    Accounted (spawned m k prog) s := by
  rcases h with hclosed | hmapped | ⟨j, hinstall | hclose⟩
  · exact Or.inl hclosed
  · exact Or.inr (Or.inl hmapped)
  · exact Or.inr (Or.inr ⟨j, Or.inl (Pool.mem_spawn idle hinstall)⟩)
  · exact Or.inr (Or.inr ⟨j, Or.inr (Pool.mem_spawn idle hclose)⟩)

omit [DecidableEq σ] in
theorem Orderly.spawned (hm : Orderly info m) (idle : m.todo k = []) (hguard : Guarded prog)
    (hcalls : ∀ s, .onSessionClose s ∉ prog) : Orderly info (spawned m k prog) where
  keyed := hm.keyed
  guarded := by
    intro j
    simp only [ManagerClose.spawned, Manager.todo]
    by_cases hj : j = k
    · subst hj
      rwa [Function.update_self]
    · rw [Function.update_of_ne hj]
      exact hm.guarded j
  called := by
    intro j s hmem
    rcases Pool.mem_spawn_cases hmem with hprog | hold
    · exact absurd hprog (hcalls s)
    · exact hm.called j s hold
  cancelled := hm.cancelled
  leaving := by
    intro hemptied id s hmapped
    obtain ⟨j, op, hmem, hleaves⟩ := hm.leaving hemptied id s hmapped
    exact ⟨j, op, Pool.mem_spawn idle hmem, hleaves⟩

end Spawn

omit [DecidableEq σ] in
/-- CloseAll takes the sessions out of the map and leaves them to be closed. -/
theorem Accounted.closeAll {m : Manager σ} {k : ℕ} {all : List σ} (idle : m.todo k = [])
    (listed : ∀ s, s ∈ all ↔ ∃ id, m.roster.sessions id = some s) {s : σ} (h : Accounted m s) :
    Accounted (m.closeAll k all) s := by
  rcases h with hclosed | hmapped | ⟨j, hinstall | hclose⟩
  · exact Or.inl hclosed
  · refine Or.inr (Or.inr ⟨k, Or.inr ?_⟩)
    simp only [Manager.closeAll, Manager.todo, Function.update_self]
    exact List.mem_map_of_mem ((listed s).mpr hmapped)
  · exact Or.inr (Or.inr ⟨j, Or.inl (Pool.mem_spawn idle hinstall)⟩)
  · exact Or.inr (Or.inr ⟨j, Or.inr (Pool.mem_spawn idle hclose)⟩)

omit [DecidableEq σ] in
theorem Orderly.closeAll {m : Manager σ} (hm : Orderly info m) {k : ℕ} {all : List σ}
    (done : m.cancelled = true) (idle : m.todo k = []) : Orderly info (m.closeAll k all) := by
  have hspawned := hm.spawned idle (guarded_closes all) (by simp)
  exact ⟨fun id s hs => absurd hs (by simp [Manager.closeAll, Manager.roster]), hspawned.guarded,
    hspawned.called, fun _ => done,
    fun _ id s hs => absurd hs (by simp [Manager.closeAll, Manager.roster])⟩

section Runs
variable {m m' : Manager σ} {a : ManagerAction σ}

/-- A step is a spawn of one of three programs, a turn, the cancellation or CloseAll. -/
theorem ManagerStep.cases (hstep : ManagerStep info m a m') :
    (∃ k prog, m.todo k = [] ∧ Guarded prog ∧ (∀ s, .onSessionClose s ∉ prog) ∧
      m' = spawned m k prog) ∨
    (∃ k op rest, m.todo k = op :: rest ∧ m' = turned info m k op rest) ∨
    m' = { m with cancelled := true } ∨
    ∃ k all, m.cancelled = true ∧ m.todo k = [] ∧
      (∀ s, s ∈ all ↔ ∃ id, m.roster.sessions id = some s) ∧ m' = m.closeAll k all := by
  cases hstep with
  | @connect k s g spawn =>
    cases spawn with
    | spawn idle => exact Or.inl ⟨k, _, idle, by simp [Guarded], by simp, rfl⟩
  | @shut k s prog g reaction spawn =>
    cases spawn with
    | spawn idle =>
      refine Or.inl ⟨k, prog, idle, ?_, ?_, rfl⟩
      · rcases reaction with rfl | rfl <;> simp [Guarded, invalidate]
      · rcases reaction with rfl | rfl <;> simp [invalidate]
  | @run k g turn =>
    cases turn with
    | run next => exact Or.inr (Or.inl ⟨k, _, _, next, rfl⟩)
  | cancel => exact Or.inr (Or.inr (Or.inl rfl))
  | closeAll done idle listed => exact Or.inr (Or.inr (Or.inr ⟨_, _, done, idle, listed, rfl⟩))

theorem Orderly.step (hm : Orderly info m) (hstep : ManagerStep info m a m') :
    Orderly info m' := by
  rcases hstep.cases with ⟨k, prog, idle, hguard, hcalls, rfl⟩ | ⟨k, op, rest, next, rfl⟩ | rfl |
    ⟨k, all, done, idle, _, rfl⟩
  · exact hm.spawned idle hguard hcalls
  · exact hm.turned next
  · exact ⟨hm.keyed, hm.guarded, hm.called, fun _ => rfl, hm.leaving⟩
  · exact hm.closeAll done idle

theorem Accounted.step (hm : Orderly info m) (hstep : ManagerStep info m a m') {s : σ}
    (h : Accounted m s) : Accounted m' s := by
  rcases hstep.cases with ⟨k, prog, idle, _, _, rfl⟩ | ⟨k, op, rest, next, rfl⟩ | rfl |
    ⟨k, all, _, idle, listed, rfl⟩
  · exact h.spawned idle
  · exact h.turned hm next
  · exact h
  · exact h.closeAll idle listed

omit [DecidableEq σ] in
theorem orderly_started : Orderly info (.started : Manager σ) where
  keyed id s hs := absurd hs (by simp [Manager.started, Manager.roster])
  guarded k := by simp [Manager.started, Manager.todo, Guarded]
  called k s hs := absurd hs (by simp [Manager.started, Manager.todo])
  cancelled h := absurd h (by simp [Manager.started])
  leaving h := absurd h (by simp [Manager.started])

/-- Every session whose handshake ended is accounted for from then on. -/
theorem run_accounted {as : List (ManagerAction σ)} (hrun : Run (ManagerStep info) m as m')
    (hm : Orderly info m) : Orderly info m' ∧ (∀ s, Accounted m s → Accounted m' s) ∧
      ∀ k s, .connect k s ∈ as → Accounted m' s := by
  induction hrun with
  | nil m => exact ⟨hm, fun _ h => h, by simp⟩
  | @cons m m₁ m' a rest hstep _ ih =>
    obtain ⟨hm', hkept, hnew⟩ := ih (hm.step hstep)
    refine ⟨hm', fun s hs => hkept s (hs.step hm hstep), ?_⟩
    intro k s hmem
    rcases List.mem_cons.mp hmem with heq | hrest
    · refine hkept s (Or.inr (Or.inr ⟨k, Or.inl ?_⟩))
      subst heq
      cases hstep with
      | connect spawn =>
        cases spawn with
        | spawn _ => simp [Manager.todo]
    · exact hnew k s hrest

end Runs

/-- How many turns an operation can take, with everything it leaves to be done. -/
def weight : Op σ → ℕ
  | .install _ => 13
  | .activate _ .current => 9
  | .activate _ .running => 8
  | .activate _ .start => 7
  | .activate _ .stillCurrent => 6
  | .activate _ .stillOpen => 5
  | .close _ => 2
  | .clearOnClose _ => 1
  | .removeIfCurrent _ => 1
  | .onSessionClose _ => 1
  | .markUnhealthy _ => 1

def workload (ops : List (Op σ)) : ℕ := (ops.map weight).sum

omit [DecidableEq σ] in
theorem workload_append (xs ys : List (Op σ)) :
    workload (xs ++ ys) = workload xs + workload ys := by
  simp [workload]

omit [DecidableEq σ] in
theorem workload_cons (op : Op σ) (ops : List (Op σ)) :
    workload (op :: ops) = weight op + workload ops := by
  simp [workload]

/-- An operation leaves less to be done than it was. -/
theorem exec_workload (info : σ → SessionConfig) (done : Bool) (r : Roster σ) (op : Op σ) :
    workload (exec info done r op).2 < weight op := by
  cases op with
  | install s =>
    simp only [exec]
    cases (install info r s).2 <;> simp [afterInstall, workload, weight]
  | activate s stage =>
    cases stage <;> simp only [exec, activate] <;> split <;>
      simp [discardSession, workload, weight]
  | close s =>
    simp only [exec, close]
    split
    · simp [workload, weight]
    · dsimp only
      split <;> simp [workload, weight]
  | clearOnClose s => simp [exec, workload, weight]
  | removeIfCurrent s => simp [exec, workload, weight]
  | onSessionClose s => simp [exec, workload, weight]
  | markUnhealthy s => simp [exec, workload, weight]

def ManagerAction.given (k : ℕ) : ManagerAction σ → ℕ
  | .connect j s => if j = k then workload [.install s] else 0
  | .shut j prog => if j = k then workload prog else 0
  | .closeAll j all => if j = k then workload (all.map Op.close) else 0
  | .run _ => 0
  | .cancel => 0

def ManagerAction.isTurn (k : ℕ) : ManagerAction σ → Bool
  | .run j => decide (j = k)
  | _ => false

omit [DecidableEq σ] in
theorem workload_spawned {m : Manager σ} {j : ℕ} (idle : m.todo j = []) (prog : List (Op σ))
    (k : ℕ) : workload (Function.update m.todo j prog k) =
      workload (m.todo k) + if j = k then workload prog else 0 := by
  by_cases hk : j = k
  · subst hk
    simp [idle, workload]
  · rw [Function.update_of_ne (Ne.symm hk), if_neg hk, Nat.add_zero]

/-- A turn uses work up, and nothing else does. -/
theorem step_workload {m m' : Manager σ} {a : ManagerAction σ}
    (hstep : ManagerStep info m a m') (k : ℕ) :
    (if a.isTurn k then 1 else 0) + workload (m'.todo k) ≤ a.given k + workload (m.todo k) := by
  cases hstep with
  | @connect j s g spawn =>
    cases spawn with
    | spawn idle =>
      have hwork := workload_spawned idle [.install s] k
      simp only [ManagerAction.isTurn, ManagerAction.given, Manager.todo] at hwork ⊢
      simp only [Bool.false_eq_true, if_false]
      omega
  | @shut j s prog g reaction spawn =>
    cases spawn with
    | spawn idle =>
      have hwork := workload_spawned idle prog k
      simp only [ManagerAction.isTurn, ManagerAction.given, Manager.todo] at hwork ⊢
      simp only [Bool.false_eq_true, if_false]
      omega
  | @run j g turn =>
    cases turn with
    | @run _ _ op rest next =>
      have hless := exec_workload info m.cancelled m.roster op
      simp only [ManagerAction.isTurn, ManagerAction.given, Manager.todo, Manager.roster]
        at hless ⊢
      by_cases hk : j = k
      · subst hk
        rw [Function.update_self, next, workload_append, workload_cons]
        simp only [decide_true, if_true]
        omega
      · rw [Function.update_of_ne (Ne.symm hk)]
        simp [hk]
  | cancel => simp [ManagerAction.isTurn, ManagerAction.given, Manager.todo]
  | @closeAll j all _ idle _ =>
    have hwork := workload_spawned idle (all.map Op.close) k
    simp only [ManagerAction.isTurn, ManagerAction.given, Manager.closeAll, Manager.todo]
      at hwork ⊢
    simp only [Bool.false_eq_true, if_false]
    omega

theorem run_workload {m m' : Manager σ} {as : List (ManagerAction σ)}
    (hrun : Run (ManagerStep info) m as m') (k : ℕ) :
    as.countP (·.isTurn k) + workload (m'.todo k) ≤
      (as.map (·.given k)).sum + workload (m.todo k) := by
  induction hrun with
  | nil m => simp
  | @cons m m₁ m' a rest hstep _ ih =>
    have hfirst := step_workload hstep k
    rw [List.countP_cons, List.map_cons, List.sum_cons]
    omega

/-- Closing the manager leaves nothing behind. In every interleaving of handshakes that end,
sessions that die, goroutines that take their turns and Close, a session is open only while
it is in the roster or some goroutine has still to install or to close it, and a goroutine
takes no more turns than it was given work for. Once CloseAll has run and the goroutines have
nothing left to do, the roster is empty and every session that was ever brought up is
closed. -/
theorem closed_manager_leaves_nothing {m : Manager σ} {as : List (ManagerAction σ)}
    (hrun : Run (ManagerStep info) .started as m) :
    (∀ k s, .connect k s ∈ as → Accounted m s) ∧
    (∀ k, as.countP (·.isTurn k) ≤ (as.map (·.given k)).sum) ∧
    (m.emptied = true → (∀ k, m.todo k = []) →
      (∀ id, m.roster.sessions id = none) ∧
      ∀ k s, .connect k s ∈ as → (m.roster.flags s).closed = true) := by
  obtain ⟨hm, _, hnew⟩ := run_accounted hrun orderly_started
  refine ⟨hnew, ?_, ?_⟩
  · intro k
    have hwork := run_workload hrun k
    simp only [Manager.started, Manager.todo, workload, List.map_nil, List.sum_nil] at hwork
    omega
  · intro hemptied hidle
    have hunmapped : ∀ id s, m.roster.sessions id ≠ some s := by
      intro id s hs
      obtain ⟨k, op, hmem, _⟩ := hm.leaving hemptied id s hs
      rw [hidle k] at hmem
      exact absurd hmem (by simp)
    refine ⟨fun id => Option.eq_none_iff_forall_ne_some.mpr (hunmapped id), ?_⟩
    intro k s hmem
    rcases hnew k s hmem with hclosed | ⟨id, hmapped⟩ | ⟨j, hpending⟩
    · exact hclosed
    · exact absurd hmapped (hunmapped id s)
    · rw [hidle j] at hpending
      exact absurd hpending (by simp)

end Machine

def lateTurns : List (ManagerAction Bool) :=
  [.connect 0 true, .run 0, .connect 1 false, .cancel, .closeAll 2 [true], .run 1, .run 2, .run 2,
    .run 0, .run 0, .run 0, .run 0, .run 1, .run 1, .run 1, .run 1, .run 1]

theorem closed_manager_late :
    ∃ m, Run (ManagerStep crossing) .started lateTurns m ∧
      (∀ id, m.roster.sessions id = none) ∧ (m.roster.flags true).closed = true ∧
      (m.roster.flags false).closed = true := by
  have hexists : ∃ m, Run (ManagerStep crossing) .started lateTurns m ∧ m.emptied = true ∧
      ∀ k, m.todo k = [] := by
    refine ⟨_, .cons (.connect (.spawn rfl)) (.cons (.run (.run rfl))
      (.cons (.connect (.spawn rfl)) (.cons .cancel (.cons (.closeAll rfl rfl ?_)
      (.cons (.run (.run rfl)) (.cons (.run (.run rfl)) (.cons (.run (.run rfl))
      (.cons (.run (.run rfl)) (.cons (.run (.run rfl)) (.cons (.run (.run rfl))
      (.cons (.run (.run rfl)) (.cons (.run (.run rfl)) (.cons (.run (.run rfl))
      (.cons (.run (.run rfl)) (.cons (.run (.run rfl))
      (.single (.run (.run rfl)))))))))))))))))), rfl, ?_⟩
    · intro s
      constructor
      · intro hs
        exact ⟨ascii "b", by rw [List.mem_singleton.mp hs]; rfl⟩
      · rintro ⟨id, hid⟩
        by_cases hb : id = ascii "b"
        · rw [hb] at hid
          cases hid
          simp
        · have hnone : Function.update (fun _ => none) (ascii "b") (some true) id = some s := hid
          rw [Function.update_of_ne hb] at hnone
          exact absurd hnone (by simp)
    · intro k
      match k with
      | 0 => rfl
      | 1 => rfl
      | 2 => rfl
      | _ + 3 => rfl
  obtain ⟨m, hrun, hemptied, hidle⟩ := hexists
  obtain ⟨hempty, hclosed⟩ := (closed_manager_leaves_nothing hrun).2.2 hemptied hidle
  exact ⟨m, hrun, hempty, hclosed 0 true (by simp [lateTurns]),
    hclosed 1 false (by simp [lateTurns])⟩

end TailSync.ManagerClose

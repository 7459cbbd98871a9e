import TailSync.ByteStrings
import TailSync.ThreadPools

/-!
The roster of internal/peer and the sessions in it. A session is known by its two node
IDs and by who dialed; healthy, closed and the close callback are its state. Install,
activation, discarding and closing are the procedures of roster.go, manager.go and
session.go, cut at their locks, and run by any number of goroutines. The flags of a
session only ever go down, so Closed and Healthy read one after the other are the same
as read at once.
-/
namespace TailSync.Rosters

open ByteStrings ThreadPools
open Runs (Run)

structure SessionConfig where
  nodeID : Bytes
  localID : Bytes
  dialer : Bool
  deriving DecidableEq, Repr

/-- The state of a session; serving says that its accept loop and heartbeat have started. -/
structure Flags where
  healthy : Bool
  closed : Bool
  onClose : Bool
  serving : Bool
  deriving DecidableEq, Repr

def newSession : Flags := ⟨true, false, true, false⟩

/-- The roster's map, and the state of every session, mapped or not. -/
structure Roster (σ : Type*) where
  sessions : Bytes → Option σ
  flags : σ → Flags

inductive InstallResult (σ : Type*) where
  | accepted
  | rejected
  | replaced (old : σ)
  deriving DecidableEq, Repr

inductive Stage where
  | current
  | running
  | start
  | stillCurrent
  | stillOpen
  deriving DecidableEq, Repr

inductive Op (σ : Type*) where
  | install (s : σ)
  | activate (s : σ) (stage : Stage)
  | clearOnClose (s : σ)
  | removeIfCurrent (s : σ)
  | close (s : σ)
  | onSessionClose (s : σ)
  | markUnhealthy (s : σ)
  deriving DecidableEq, Repr

def Op.session {σ : Type*} : Op σ → σ
  | .install s => s
  | .activate s _ => s
  | .clearOnClose s => s
  | .removeIfCurrent s => s
  | .close s => s
  | .onSessionClose s => s
  | .markUnhealthy s => s

def dialerNodeID (s : SessionConfig) : Bytes := if s.dialer then s.localID else s.nodeID

def preferredDialer (localID remoteID : Bytes) : Bytes := min localID remoteID

def preferNewSession (newS cur : SessionConfig) : Bool :=
  if newS.localID = [] ∨ newS.nodeID = [] then false
  else decide (dialerNodeID newS = preferredDialer newS.localID newS.nodeID ∧
    dialerNodeID cur ≠ preferredDialer newS.localID newS.nodeID)

section Machine
variable {σ : Type*} [DecidableEq σ]

namespace Roster

def healthy (r : Roster σ) (s : σ) : Bool := (r.flags s).healthy && !(r.flags s).closed

def get (r : Roster σ) (id : Bytes) : Option σ :=
  (r.sessions id).filter fun s => !(r.flags s).closed

def setSession (r : Roster σ) (id : Bytes) (s : Option σ) : Roster σ :=
  { r with sessions := Function.update r.sessions id s }

def setFlags (r : Roster σ) (s : σ) (f : Flags) : Roster σ :=
  { r with flags := Function.update r.flags s f }

end Roster

variable (info : σ → SessionConfig)

def install (r : Roster σ) (s : σ) : Roster σ × InstallResult σ :=
  let id := (info s).nodeID
  if id = [] then (r, .rejected)
  else match r.sessions id with
    | none => (r.setSession id (some s), .accepted)
    | some cur =>
        if (r.flags cur).closed then (r.setSession id (some s), .replaced cur)
        else if !r.healthy cur then (r.setSession id (some s), .replaced cur)
        else if preferNewSession (info s) (info cur) then
          (r.setSession id (some s), .replaced cur)
        else (r, .rejected)

def removeIfCurrent (r : Roster σ) (s : σ) : Roster σ :=
  if r.sessions (info s).nodeID = some s then r.setSession (info s).nodeID none else r

def stillCurrent (r : Roster σ) (s : σ) : Bool := decide (r.get (info s).nodeID = some s)

def discardSession (s : σ) : List (Op σ) := [.clearOnClose s, .removeIfCurrent s, .close s]

def invalidate (s : σ) : List (Op σ) := [.markUnhealthy s, .close s]

def afterInstall (s : σ) : InstallResult σ → List (Op σ)
  | .rejected => [.clearOnClose s, .close s]
  | .accepted => [.activate s .current]
  | .replaced old => [.clearOnClose old, .close old, .activate s .current]

/-- activateIfCurrent; done says that the context the manager runs in has ended. -/
def activate (done : Bool) (r : Roster σ) (s : σ) : Stage → Roster σ × List (Op σ)
  | .current =>
      if stillCurrent info r s then (r, [.activate s .running]) else (r, discardSession s)
  | .running =>
      if done || (r.flags s).closed then (r, discardSession s) else (r, [.activate s .start])
  | .start =>
      if (r.flags s).closed then (r, [.activate s .stillCurrent])
      else (r.setFlags s { r.flags s with serving := true }, [.activate s .stillCurrent])
  | .stillCurrent =>
      if stillCurrent info r s then (r, [.activate s .stillOpen]) else (r, discardSession s)
  | .stillOpen => if (r.flags s).closed then (r, discardSession s) else (r, [])

/-- Close, up to the callback; the second Close of a session does nothing. -/
def close (r : Roster σ) (s : σ) : Roster σ × List (Op σ) :=
  if (r.flags s).closed then (r, [])
  else
    (r.setFlags s { r.flags s with healthy := false, closed := true, onClose := false },
      if (r.flags s).onClose then [.onSessionClose s] else [])

def exec (done : Bool) (r : Roster σ) : Op σ → Roster σ × List (Op σ)
  | .install s => ((install info r s).1, afterInstall s (install info r s).2)
  | .activate s stage => activate info done r s stage
  | .clearOnClose s => (r.setFlags s { r.flags s with onClose := false }, [])
  | .removeIfCurrent s => (removeIfCurrent info r s, [])
  | .close s => close r s
  | .onSessionClose s => (removeIfCurrent info r s, [])
  | .markUnhealthy s => (r.setFlags s { r.flags s with healthy := false }, [])

abbrev Goroutines (σ : Type*) := Pool (Roster σ) (Op σ)

abbrev RosterStep (g : Goroutines σ) (a : Turn Bool (Op σ)) (g' : Goroutines σ) : Prop :=
  Step (exec info) g a g'

variable {info}

inductive Installed (info : σ → SessionConfig) (r : Roster σ) (s : σ) :
    Roster σ × InstallResult σ → Prop
  | unnamed (empty : (info s).nodeID = []) : Installed info r s (r, .rejected)
  | accepted (free : r.sessions (info s).nodeID = none) :
      Installed info r s (r.setSession (info s).nodeID (some s), .accepted)
  | replaced {cur : σ} (mapped : r.sessions (info s).nodeID = some cur)
      (beaten : r.healthy cur = true → preferNewSession (info s) (info cur) = true) :
      Installed info r s (r.setSession (info s).nodeID (some s), .replaced cur)
  | rejected {cur : σ} (mapped : r.sessions (info s).nodeID = some cur)
      (healthy : r.healthy cur = true) (kept : preferNewSession (info s) (info cur) = false) :
      Installed info r s (r, .rejected)

omit [DecidableEq σ] in
theorem install_installed (info : σ → SessionConfig) (r : Roster σ) (s : σ) :
    Installed info r s (install info r s) := by
  unfold install
  dsimp only
  split
  · exact .unnamed ‹_›
  · split
    · exact .accepted ‹_›
    · rename_i cur hcur
      split
      · rename_i hclosed
        exact .replaced hcur (by simp [Roster.healthy, hclosed])
      · split
        · rename_i hsick
          exact .replaced hcur (by simp_all)
        · rename_i hhealthy
          split
          · rename_i hprefer
            exact .replaced hcur fun _ => hprefer
          · rename_i hkept
            exact .rejected hcur (by simpa using hhealthy) (by simpa using hkept)

inductive KeyEffect (info : σ → SessionConfig) (r r' : Roster σ) (id : Bytes) : Op σ → Prop
  | kept {op : Op σ} (same : r'.sessions id = r.sessions id) : KeyEffect info r r' id op
  | displaced {s : σ} (key : (info s).nodeID = id) (mapped : r'.sessions id = some s)
      (beaten : ∀ cur, r.sessions id = some cur → r.healthy cur = true →
        preferNewSession (info s) (info cur) = true) : KeyEffect info r r' id (.install s)
  | removed {op : Op σ} {s : σ} (acts : op = .removeIfCurrent s ∨ op = .onSessionClose s)
      (mapped : r.sessions id = some s) (gone : r'.sessions id = none) : KeyEffect info r r' id op

theorem removeIfCurrent_keyEffect {r : Roster σ} {s : σ} {op : Op σ}
    (hop : op = .removeIfCurrent s ∨ op = .onSessionClose s) (id : Bytes) :
    KeyEffect info r (removeIfCurrent info r s) id op := by
  unfold removeIfCurrent
  split
  · rename_i hcur
    by_cases hid : id = (info s).nodeID
    · subst hid
      exact .removed hop hcur (by simp [Roster.setSession])
    · exact .kept (by simp [Roster.setSession, Function.update_of_ne hid])
  · exact .kept rfl

omit [DecidableEq σ] in
theorem install_keyEffect (r : Roster σ) (s : σ) (id : Bytes) :
    KeyEffect info r (install info r s).1 id (.install s) := by
  have hinstalled := install_installed info r s
  by_cases hid : id = (info s).nodeID
  · subst hid
    generalize install info r s = result at hinstalled
    cases hinstalled with
    | unnamed _ => exact .kept rfl
    | accepted free =>
      exact .displaced rfl (by simp [Roster.setSession]) (by simp [free])
    | replaced mapped beaten =>
      refine .displaced rfl (by simp [Roster.setSession]) ?_
      intro cur' hcur'
      rw [mapped] at hcur'
      cases hcur'
      exact beaten
    | rejected _ _ _ => exact .kept rfl
  · refine .kept ?_
    generalize install info r s = result at hinstalled
    cases hinstalled with
    | unnamed _ => rfl
    | accepted _ => simp [Roster.setSession, Function.update_of_ne hid]
    | replaced _ _ => simp [Roster.setSession, Function.update_of_ne hid]
    | rejected _ _ _ => rfl

/-- Activation only changes flags. -/
theorem activate_sessions (done : Bool) (r : Roster σ) (s : σ) (stage : Stage) :
    (activate info done r s stage).1.sessions = r.sessions := by
  cases stage <;> simp only [activate] <;> split <;> rfl

theorem close_sessions (r : Roster σ) (s : σ) : (close r s).1.sessions = r.sessions := by
  unfold close
  split <;> rfl

theorem exec_keyEffect (info : σ → SessionConfig) (done : Bool) (r : Roster σ) (op : Op σ)
    (id : Bytes) : KeyEffect info r (exec info done r op).1 id op := by
  cases op with
  | install s => exact install_keyEffect r s id
  | activate s stage => exact .kept (by rw [exec, activate_sessions])
  | clearOnClose s => exact .kept rfl
  | removeIfCurrent s => exact removeIfCurrent_keyEffect (Or.inl rfl) id
  | close s => exact .kept (by rw [exec, close_sessions])
  | onSessionClose s => exact removeIfCurrent_keyEffect (Or.inr rfl) id
  | markUnhealthy s => exact .kept rfl

/-- The state of the other sessions is left alone. -/
theorem exec_flags_of_ne (done : Bool) (r : Roster σ) (op : Op σ) {t : σ} (hne : t ≠ op.session) :
    (exec info done r op).1.flags t = r.flags t := by
  cases op with
  | install s =>
    have hinstalled := install_installed info r s
    simp only [exec]
    generalize install info r s = result at hinstalled
    cases hinstalled <;> rfl
  | activate s stage =>
    cases stage <;> simp only [exec, activate] <;> split <;>
      first | rfl | exact Function.update_of_ne hne _ _
  | clearOnClose s => exact Function.update_of_ne hne _ _
  | removeIfCurrent s =>
    simp only [exec, removeIfCurrent]
    split <;> rfl
  | close s =>
    simp only [exec, close]
    split
    · rfl
    · exact Function.update_of_ne hne _ _
  | onSessionClose s =>
    simp only [exec, removeIfCurrent]
    split <;> rfl
  | markUnhealthy s => exact Function.update_of_ne hne _ _

omit [DecidableEq σ] in
theorem discardSession_about {s : σ} : ∀ op ∈ discardSession s, op.session = s := by
  simp [discardSession, Op.session]

omit [DecidableEq σ] in
theorem rejected_about {s : σ} : ∀ op ∈ afterInstall s .rejected, op.session = s := by
  simp [afterInstall, Op.session]

theorem activate_about (done : Bool) (r : Roster σ) (s : σ) (stage : Stage) :
    ∀ op ∈ (activate info done r s stage).2, op.session = s := by
  cases stage <;> simp only [activate] <;> split <;>
    first | exact discardSession_about | simp [Op.session]

theorem close_about (r : Roster σ) (s : σ) : ∀ op ∈ (close r s).2, op.session = s := by
  unfold close
  split
  · simp
  · dsimp only
    split <;> simp [Op.session]

/-- What is left to be done is about the same session, or about the one that an Install has
displaced. -/
theorem exec_leaves {done : Bool} {r : Roster σ} {op op' : Op σ}
    (hop : op' ∈ (exec info done r op).2) : op'.session = op.session ∨
      ∃ s, op = .install s ∧ r.sessions (info s).nodeID = some op'.session ∧
        (r.healthy op'.session = true →
          preferNewSession (info s) (info op'.session) = true) := by
  cases op with
  | install s =>
    have hinstalled := install_installed info r s
    simp only [exec] at hop
    generalize install info r s = result at hinstalled hop
    cases hinstalled with
    | unnamed _ => exact Or.inl (rejected_about op' hop)
    | accepted _ => exact Or.inl (by rw [List.mem_singleton.mp hop]; rfl)
    | replaced mapped beaten =>
      simp only [afterInstall, List.mem_cons, List.not_mem_nil, or_false] at hop
      rcases hop with rfl | rfl | rfl
      · exact Or.inr ⟨s, rfl, mapped, beaten⟩
      · exact Or.inr ⟨s, rfl, mapped, beaten⟩
      · exact Or.inl rfl
    | rejected _ _ _ => exact Or.inl (rejected_about op' hop)
  | activate s stage => exact Or.inl (activate_about done r s stage op' hop)
  | close s => exact Or.inl (close_about r s op' hop)
  | clearOnClose s => exact absurd hop (by simp [exec])
  | removeIfCurrent s => exact absurd hop (by simp [exec])
  | onSessionClose s => exact absurd hop (by simp [exec])
  | markUnhealthy s => exact absurd hop (by simp [exec])

def Keyed (info : σ → SessionConfig) (r : Roster σ) : Prop :=
  ∀ id s, r.sessions id = some s → (info s).nodeID = id

theorem Keyed.exec {r : Roster σ} (hkeyed : Keyed info r) (done : Bool) (op : Op σ) :
    Keyed info (exec info done r op).1 := by
  intro id s hs
  cases exec_keyEffect info done r op id with
  | kept same =>
    rw [same] at hs
    exact hkeyed id s hs
  | displaced key mapped _ =>
    rw [mapped] at hs
    cases hs
    exact key
  | removed _ _ gone =>
    rw [gone] at hs
    exact absurd hs (by simp)

/-- A preferred session was dialed by the smaller of the two IDs, and the other one by the
larger. -/
theorem preferNewSession_dialers {newS cur : SessionConfig} {localID id : Bytes}
    (hlocal : newS.localID = localID) (hid : newS.nodeID = id) (hlocal' : cur.localID = localID)
    (hid' : cur.nodeID = id) (hne : id ≠ localID)
    (hprefer : preferNewSession newS cur = true) :
    dialerNodeID newS = min localID id ∧ dialerNodeID cur = max localID id ∧
      min localID id < max localID id := by
  unfold preferNewSession preferredDialer at hprefer
  rw [hlocal, hid] at hprefer
  split at hprefer
  · exact absurd hprefer (by simp)
  · obtain ⟨hnew, hcur⟩ := of_decide_eq_true hprefer
    refine ⟨hnew, ?_, by simpa using hne⟩
    unfold dialerNodeID at hcur ⊢
    rw [hlocal', hid'] at hcur ⊢
    rcases lt_or_gt_of_ne hne with hlt | hlt
    · rw [min_eq_right hlt.le] at hcur
      rw [max_eq_left hlt.le]
      split at hcur <;> simp_all
    · rw [min_eq_left hlt.le] at hcur
      rw [max_eq_right hlt.le]
      split at hcur <;> simp_all

/-- The roster of one node is stable. Whatever the goroutines of the node do, in any order: a
key maps to a session of that node ID, Get returns no closed session, and a mapped session
stays mapped except in two ways. An Install displaces it, and if it was healthy then the
larger ID had dialed it and the smaller one the new session. Or the closing or discarding of
this same session takes it out. -/
theorem roster_stable {localID : Bytes} (hlocal : ∀ s, (info s).localID = localID)
    (hne : ∀ s, (info s).nodeID ≠ localID) {g₀ g : Goroutines σ} {as : List (Turn Bool (Op σ))}
    (hempty : ∀ id, g₀.shared.sessions id = none) (hrun : Run (RosterStep info) g₀ as g) :
    (∀ id s, g.shared.sessions id = some s → (info s).nodeID = id) ∧
    (∀ id s, g.shared.get id = some s → (g.shared.flags s).closed = false) ∧
    ∀ a g', RosterStep info g a g' → ∀ id cur, g.shared.sessions id = some cur →
      g'.shared.sessions id = some cur ∨
      (∃ k done rest s, a = .run k done ∧ g.todo k = .install s :: rest ∧
        g'.shared.sessions id = some s ∧
        (g.shared.healthy cur = true → dialerNodeID (info s) = min localID id ∧
          dialerNodeID (info cur) = max localID id ∧ min localID id < max localID id)) ∨
      (∃ k done rest, a = .run k done ∧ g'.shared.sessions id = none ∧
        (g.todo k = .removeIfCurrent cur :: rest ∨
          g.todo k = .onSessionClose cur :: rest)) := by
  have hkeyed : Keyed info g.shared := by
    refine hrun.invariant (I := fun g => Keyed info g.shared) (fun _ _ _ hkeyed hstep => ?_) ?_
    · exact hstep.shared (fun done op h => h.exec done op) hkeyed
    · intro id s hs
      exact absurd hs (by simp [hempty])
  refine ⟨hkeyed, ?_, ?_⟩
  · intro id s hget
    have hopen := (Option.filter_eq_some_iff.mp hget).2
    simpa using hopen
  · intro a g' hstep id cur hcur
    cases hstep with
    | spawn _ => exact Or.inl hcur
    | @run k done op rest next =>
      have heffect := exec_keyEffect info done g.shared op id
      generalize exec info done g.shared op = after at heffect
      cases heffect with
      | kept same => exact Or.inl (same.trans hcur)
      | @displaced s key mapped beaten =>
        refine Or.inr (Or.inl ⟨k, done, rest, s, rfl, next, mapped, ?_⟩)
        intro hhealthy
        exact preferNewSession_dialers (hlocal s) key (hlocal cur) (hkeyed id cur hcur)
          (key ▸ hne s) (beaten cur hcur hhealthy)
      | removed acts mapped gone =>
        rw [hcur] at mapped
        cases mapped
        refine Or.inr (Or.inr ⟨k, done, rest, rfl, gone, ?_⟩)
        rcases acts with rfl | rfl
        · exact Or.inl next
        · exact Or.inr next

end Machine

def crossing (dialer : Bool) : SessionConfig := ⟨ascii "b", ascii "a", dialer⟩

def idleNode : Goroutines Bool := ⟨⟨fun _ => none, fun _ => newSession⟩, fun _ => []⟩

def crossingTurns : List (Turn Bool (Op Bool)) :=
  [.spawn 0 [.install false], .run 0 false, .spawn 1 [.install true]]

theorem roster_stable_crossing :
    ∃ g g', Run (RosterStep crossing) idleNode crossingTurns g ∧
      RosterStep crossing g (.run 1 false) g' ∧ g.shared.sessions (ascii "b") = some false ∧
      g'.shared.sessions (ascii "b") = some true ∧
      dialerNodeID (crossing true) = min (ascii "a") (ascii "b") ∧
      dialerNodeID (crossing false) = max (ascii "a") (ascii "b") := by
  have hexists : ∃ g g', Run (RosterStep crossing) idleNode crossingTurns g ∧
      RosterStep crossing g (.run 1 false) g' ∧ g.shared.sessions (ascii "b") = some false ∧
      g.shared.healthy false = true ∧ g'.shared.sessions (ascii "b") = some true :=
    ⟨_, _, .cons (.spawn rfl) (.cons (.run rfl) (.single (.spawn rfl))), .run rfl, rfl, rfl, rfl⟩
  obtain ⟨g, g', hrun, hstep, hcur, hhealthy, hnew⟩ := hexists
  refine ⟨g, g', hrun, hstep, hcur, hnew, ?_⟩
  have hlocal : ∀ s, (crossing s).localID = ascii "a" := fun _ => rfl
  have hne : ∀ s, (crossing s).nodeID ≠ ascii "a" := by decide
  rcases (roster_stable hlocal hne (fun _ => rfl) hrun).2.2 _ _ hstep _ _ hcur with
    hkept | ⟨_, _, _, s, _, _, hs, hdialers⟩ | ⟨_, _, _, _, hnone, _⟩
  · exact absurd (hnew.symm.trans hkept) (by simp)
  · cases hnew.symm.trans hs
    exact ⟨(hdialers hhealthy).1, (hdialers hhealthy).2.1⟩
  · exact absurd (hnew.symm.trans hnone) (by simp)

end TailSync.Rosters

import TailSync.Rosters
import Mathlib.Data.Fintype.Basic
import Mathlib.Data.Finset.Basic

/-!
Two nodes and the connections between them. Each end installs every connection in its
own roster, in its own order, and the close of one end reaches the other at some later
time. If one connection is preferred to all others, because the smaller ID dialed it
and no other, then both ends keep it in every interleaving. If none is, the ends can
each keep a different one and close the rest, until every connection is closed.
-/
namespace TailSync.CrossDials

open ByteStrings ThreadPools Rosters
open Runs (Run)

inductive Side where
  | left
  | right
  deriving DecidableEq, Repr

def Side.other : Side → Side
  | .left => .right
  | .right => .left

structure Pair where
  ids : Side → Bytes
  distinct : ids .left ≠ ids .right
  named : ∀ x, ids x ≠ []

def Pair.smaller (pair : Pair) : Bytes := preferredDialer (pair.ids .left) (pair.ids .right)

variable {κ : Type*}

def endInfo (pair : Pair) (dialedBy : κ → Side) (x : Side) (c : κ) : SessionConfig :=
  ⟨pair.ids x.other, pair.ids x, decide (dialedBy c = x)⟩

/-- Both nodes, and which connections each of them has begun to install. -/
structure Link (κ : Type*) where
  ends : Side → Goroutines κ
  started : Side → κ → Bool

def Link.start : Link κ :=
  ⟨fun _ => ⟨⟨fun _ => none, fun _ => newSession⟩, fun _ => []⟩, fun _ _ => false⟩

def Link.setEnd (l : Link κ) (x : Side) (g : Goroutines κ) : Link κ :=
  { l with ends := Function.update l.ends x g }

def Link.flags (l : Link κ) (x : Side) (c : κ) : Flags := (l.ends x).shared.flags c

def Link.Open (l : Link κ) (c : κ) : Prop := ∀ x, (l.flags x c).closed = false

inductive LinkAction (κ : Type*) where
  | connect (x : Side) (k : ℕ) (c : κ)
  | run (x : Side) (k : ℕ)
  | deliver (x : Side) (k : ℕ) (c : κ) (prog : List (Op κ))

/-- An end begins to install a connection, or a goroutine of it takes its turn, or it finds
that the other end has closed a connection which it serves or has mapped. -/
inductive LinkStep [DecidableEq κ] (pair : Pair) (dialedBy : κ → Side) (l : Link κ) :
    LinkAction κ → Link κ → Prop
  | connect {x : Side} {k : ℕ} {c : κ} {g : Goroutines κ} (fresh : l.started x c = false)
      (spawn : RosterStep (endInfo pair dialedBy x) (l.ends x) (.spawn k [.install c]) g) :
      LinkStep pair dialedBy l (.connect x k c)
        { l.setEnd x g with
          started := Function.update l.started x (Function.update (l.started x) c true) }
  | run {x : Side} {k : ℕ} {g : Goroutines κ}
      (turn : RosterStep (endInfo pair dialedBy x) (l.ends x) (.run k false) g) :
      LinkStep pair dialedBy l (.run x k) (l.setEnd x g)
  | deliver {x : Side} {k : ℕ} {c : κ} {prog : List (Op κ)} {g : Goroutines κ}
      (shut : (l.flags x.other c).closed = true)
      (held : (l.flags x c).serving = true ∨
        (l.ends x).shared.sessions (pair.ids x.other) = some c)
      (reaction : prog = [.close c] ∨ prog = invalidate c)
      (spawn : RosterStep (endInfo pair dialedBy x) (l.ends x) (.spawn k prog) g) :
      LinkStep pair dialedBy l (.deliver x k c prog) (l.setEnd x g)

/-- Every connection has been installed at both ends, no goroutine has anything left to do, and
every close has reached the other end. -/
structure Link.Settled (l : Link κ) : Prop where
  started : ∀ x c, l.started x c = true
  done : ∀ x k, (l.ends x).todo k = []
  delivered : ∀ x c, (l.flags x.other c).closed = true → (l.flags x c).closed = true

section OneEnd
variable {info : κ → SessionConfig} {p : κ} {g g' : Goroutines κ}

structure Dominant (info : κ → SessionConfig) (p : κ) : Prop where
  beats : ∀ q, q ≠ p → preferNewSession (info p) (info q) = true
  kept : ∀ q, q ≠ p → preferNewSession (info q) (info p) = false
  named : (info p).nodeID ≠ []

/-- Where the installing of a session stands: not begun, its Install due, or mapped with at
most its activation due. The index says whether it has begun. -/
inductive Hold (info : κ → SessionConfig) (p : κ) (g : Goroutines κ) : Bool → Prop
  | absent (unmapped : ∀ id, g.shared.sessions id ≠ some p)
      (quiet : g.All fun _ op => op.session ≠ p) : Hold info p g false
  | due {k : ℕ} (unmapped : ∀ id, g.shared.sessions id ≠ some p)
      (next : g.todo k = [.install p]) (quiet : g.All fun j op => j ≠ k → op.session ≠ p) :
      Hold info p g true
  | mapped (mapped : g.shared.sessions (info p).nodeID = some p)
      (activating : g.All fun _ op => op.session = p → ∃ stage, op = .activate p stage) :
      Hold info p g true

structure Kept (info : κ → SessionConfig) (p : κ) (g : Goroutines κ) (started : Bool) : Prop where
  healthy : g.shared.healthy p = true
  hold : Hold info p g started

theorem healthy_open {r : Roster κ} (h : r.healthy p = true) : (r.flags p).closed = false := by
  simp only [Roster.healthy, Bool.and_eq_true, Bool.not_eq_eq_eq_not, Bool.not_true] at h
  exact h.2

theorem healthy_of_flags {r r' : Roster κ} (hflags : r'.flags p = r.flags p)
    (h : r.healthy p = true) : r'.healthy p = true := by
  rw [Roster.healthy, hflags]
  exact h

/-- An Install of the preferred session maps it. -/
theorem install_dominant (hdom : Dominant info p) {r : Roster κ}
    (hunmapped : ∀ id, r.sessions id ≠ some p) :
    (install info r p).1.sessions (info p).nodeID = some p ∧
      (install info r p).1.flags = r.flags ∧
      ∀ op ∈ afterInstall p (install info r p).2, op.session = p →
        ∃ stage, op = .activate p stage := by
  have hinstalled := install_installed info r p
  generalize install info r p = result at hinstalled
  cases hinstalled with
  | unnamed empty => exact absurd empty hdom.named
  | accepted _ =>
    exact ⟨by simp [Roster.setSession], rfl, by simp [afterInstall]⟩
  | @replaced cur mapped _ =>
    have hcur : cur ≠ p := by
      rintro rfl
      exact hunmapped _ mapped
    exact ⟨by simp [Roster.setSession], rfl, by simp [afterInstall, Op.session, hcur]⟩
  | @rejected cur mapped _ kept =>
    have hcur : cur ≠ p := by
      rintro rfl
      exact hunmapped _ mapped
    exact absurd (hdom.beats cur hcur) (by simp [kept])

variable [DecidableEq κ]

/-- Operations about other sessions leave nothing to be done about the preferred one. -/
theorem exec_leaves_other (hdom : Dominant info p) {done : Bool} {r : Roster κ} {op op' : Op κ}
    (hhealthy : r.healthy p = true) (hop : op.session ≠ p)
    (hop' : op' ∈ (exec info done r op).2) : op'.session ≠ p := by
  rcases exec_leaves hop' with hsame | ⟨s, rfl, _, hbeaten⟩
  · exact hsame ▸ hop
  · intro heq
    rw [heq] at hbeaten
    exact absurd (hbeaten hhealthy) (by simp [hdom.kept s hop])

/-- Operations about other sessions neither map nor displace the preferred one. -/
theorem exec_sessions_other (hdom : Dominant info p) (done : Bool) {r : Roster κ} {op : Op κ}
    (hhealthy : r.healthy p = true) (hop : op.session ≠ p) (id : Bytes) :
    (exec info done r op).1.sessions id = some p ↔ r.sessions id = some p := by
  cases exec_keyEffect info done r op id with
  | kept same => rw [same]
  | @displaced s _ mapped beaten =>
    constructor
    · intro hp
      rw [mapped] at hp
      cases hp
      exact absurd rfl hop
    · intro hp
      exact absurd (beaten p hp hhealthy) (by simp [hdom.kept s hop])
  | removed acts mapped gone =>
    constructor
    · intro hp
      rw [gone] at hp
      exact absurd hp (by simp)
    · intro hp
      rw [mapped] at hp
      cases hp
      rcases acts with rfl | rfl
      · exact absurd rfl hop
      · exact absurd rfl hop

/-- While the session is mapped and open its activation goes through. -/
theorem activate_mapped {r : Roster κ} (hmapped : r.sessions (info p).nodeID = some p)
    (hhealthy : r.healthy p = true) (stage : Stage) :
    (activate info false r p stage).1.healthy p = true ∧
      ∀ op ∈ (activate info false r p stage).2, ∃ stage', op = .activate p stage' := by
  have hopen := healthy_open hhealthy
  have hcurrent : stillCurrent info r p = true := by
    simp [stillCurrent, Roster.get, hmapped, hopen]
  cases stage with
  | current => simp [activate, hcurrent, hhealthy]
  | running => simp [activate, hopen, hhealthy]
  | start =>
    refine ⟨?_, by simp [activate, hopen]⟩
    rw [activate, if_neg (by simp [hopen])]
    simpa [Roster.healthy, Roster.setFlags] using hhealthy
  | stillCurrent => simp [activate, hcurrent, hhealthy]
  | stillOpen => simp [activate, hopen, hhealthy]

/-- A turn about another session. -/
theorem Kept.turn_other {started : Bool} (hdom : Dominant info p) (hkept : Kept info p g started)
    {k : ℕ} {op : Op κ} {rest : List (Op κ)} (next : g.todo k = op :: rest)
    (hop : op.session ≠ p) :
    Kept info p ⟨(exec info false g.shared op).1,
      Function.update g.todo k ((exec info false g.shared op).2 ++ rest)⟩ started := by
  obtain ⟨hhealthy, hhold⟩ := hkept
  have hleft : ∀ op' ∈ (exec info false g.shared op).2, op'.session ≠ p := fun op' =>
    exec_leaves_other hdom hhealthy hop
  have hmapped := exec_sessions_other hdom false hhealthy hop
  refine ⟨healthy_of_flags (exec_flags_of_ne _ _ _ (Ne.symm hop)) hhealthy, ?_⟩
  cases hhold with
  | absent unmapped quiet =>
    exact .absent (fun id => (hmapped id).not.mpr (unmapped id)) (quiet.run next hleft)
  | @due j unmapped due quiet =>
    have hj : j ≠ k := by
      rintro rfl
      rw [next] at due
      cases due
      exact hop rfl
    refine .due (fun id => (hmapped id).not.mpr (unmapped id)) ?_
      (quiet.run next fun op' hop' _ => hleft op' hop')
    exact (Function.update_of_ne hj _ _).trans due
  | mapped mapped activating =>
    exact .mapped ((hmapped _).mpr mapped)
      (activating.run next fun op' hop' heq => absurd heq (hleft op' hop'))

/-- A turn of the installing goroutine of the preferred session. -/
theorem Kept.turn_own {started : Bool} (hdom : Dominant info p) (hkept : Kept info p g started)
    {k : ℕ} {op : Op κ} {rest : List (Op κ)} (next : g.todo k = op :: rest)
    (hop : op.session = p) :
    Kept info p ⟨(exec info false g.shared op).1,
      Function.update g.todo k ((exec info false g.shared op).2 ++ rest)⟩ started := by
  obtain ⟨hhealthy, hhold⟩ := hkept
  have hmem : op ∈ g.todo k := by simp [next]
  cases hhold with
  | absent _ quiet => exact absurd hop (quiet k op hmem)
  | @due j unmapped due quiet =>
    have hj : k = j := by
      by_contra hne
      exact quiet k op hmem hne hop
    subst hj
    rw [next] at due
    cases due
    obtain ⟨hmapped, hflags, hleft⟩ := install_dominant hdom unmapped
    refine ⟨healthy_of_flags (by rw [exec, hflags]) hhealthy, .mapped hmapped ?_⟩
    intro j op' hop' heq
    by_cases hj : j = k
    · subst hj
      exact hleft op' (by simpa [exec] using hop') heq
    · exact absurd heq (quiet j op' (by simpa [Function.update_of_ne hj] using hop') hj)
  | mapped mapped activating =>
    obtain ⟨stage, rfl⟩ := activating k op hmem hop
    obtain ⟨hhealthy', hleft⟩ := activate_mapped mapped hhealthy stage
    refine ⟨hhealthy', .mapped ?_ (activating.run next fun op' hop' _ => hleft op' hop')⟩
    rw [exec, activate_sessions]
    exact mapped

theorem Kept.turn {started : Bool} (hdom : Dominant info p) (hkept : Kept info p g started)
    {k : ℕ} (hstep : RosterStep info g (.run k false) g') : Kept info p g' started := by
  cases hstep with
  | @run _ _ op rest next =>
    by_cases hop : op.session = p
    · exact hkept.turn_own hdom next hop
    · exact hkept.turn_other hdom next hop

/-- A goroutine that is about another session starts. -/
theorem Kept.spawn {started : Bool} (hkept : Kept info p g started) {k : ℕ} {prog : List (Op κ)}
    (hprog : ∀ op ∈ prog, op.session ≠ p) (hstep : RosterStep info g (.spawn k prog) g') :
    Kept info p g' started := by
  obtain ⟨hhealthy, hhold⟩ := hkept
  cases hstep with
  | spawn idle =>
    refine ⟨hhealthy, ?_⟩
    cases hhold with
    | absent unmapped quiet => exact .absent unmapped (quiet.spawn hprog)
    | @due j unmapped due quiet =>
      have hj : j ≠ k := by
        rintro rfl
        rw [idle] at due
        exact absurd due (by simp)
      exact .due unmapped ((Function.update_of_ne hj _ _).trans due)
        (quiet.spawn fun op hop _ => hprog op hop)
    | mapped mapped activating =>
      exact .mapped mapped (activating.spawn fun op hop heq => absurd heq (hprog op hop))

/-- The preferred session is about to be installed. -/
theorem Kept.connect (hkept : Kept info p g false) {k : ℕ}
    (hstep : RosterStep info g (.spawn k [.install p]) g') : Kept info p g' true := by
  obtain ⟨hhealthy, hhold⟩ := hkept
  cases hstep with
  | spawn idle =>
    cases hhold with
    | absent unmapped quiet =>
      refine ⟨hhealthy, .due unmapped (Function.update_self _ _ _) ?_⟩
      intro j op hop hj
      exact quiet j op (by simpa [Function.update_of_ne hj] using hop)

end OneEnd

section BothEnds
variable {pair : Pair} {dialedBy : κ → Side} {l l' : Link κ}

theorem dialerNodeID_endInfo (x : Side) (c : κ) :
    dialerNodeID (endInfo pair dialedBy x c) = pair.ids (dialedBy c) := by
  unfold dialerNodeID endInfo
  by_cases hx : dialedBy c = x
  · simp [hx]
  · simp only [hx, decide_false, Bool.false_eq_true, if_false]
    congr 1
    revert hx
    cases dialedBy c <;> cases x <;> simp [Side.other]

/-- The rule is the same at both ends: it asks who dialed. -/
theorem preferNewSession_endInfo (x : Side) (c q : κ) :
    preferNewSession (endInfo pair dialedBy x c) (endInfo pair dialedBy x q) =
      decide (pair.ids (dialedBy c) = pair.smaller ∧ pair.ids (dialedBy q) ≠ pair.smaller) := by
  have hsmaller : preferredDialer (pair.ids x) (pair.ids x.other) = pair.smaller := by
    cases x
    · rfl
    · exact min_comm _ _
  unfold preferNewSession
  rw [dialerNodeID_endInfo, dialerNodeID_endInfo, if_neg]
  · simp only [endInfo, hsmaller]
  · simp [endInfo, pair.named]

/-- A connection that alone was dialed by the smaller ID, or that is the only one, is
preferred to every other at both ends. -/
theorem exists_dominant
    (hone : (∃! c, pair.ids (dialedBy c) = pair.smaller) ∨ ∃ c : κ, ∀ q, q = c) :
    ∃ p, ∀ x, Dominant (endInfo pair dialedBy x) p := by
  rcases hone with ⟨p, hp, hunique⟩ | ⟨p, honly⟩
  · refine ⟨p, fun x => ⟨fun q hq => ?_, fun q hq => ?_, pair.named _⟩⟩
    · rw [preferNewSession_endInfo, decide_eq_true_iff]
      exact ⟨hp, fun hsmall => hq (hunique q hsmall)⟩
    · rw [preferNewSession_endInfo, decide_eq_false_iff_not]
      exact fun h => h.2 hp
  · exact ⟨p, fun x => ⟨fun q hq => absurd (honly q) hq, fun q hq => absurd (honly q) hq,
      pair.named _⟩⟩

def BothKeep (pair : Pair) (dialedBy : κ → Side) (p : κ) (l : Link κ) : Prop :=
  ∀ x, Kept (endInfo pair dialedBy x) p (l.ends x) (l.started x p)

theorem BothKeep.start (p : κ) : BothKeep pair dialedBy p Link.start :=
  fun _ => ⟨rfl, .absent (by simp [Link.start]) (by simp [Link.start, Pool.All])⟩

theorem BothKeep.open {p : κ} (hkeep : BothKeep pair dialedBy p l) : l.Open p :=
  fun x => healthy_open (hkeep x).healthy

theorem BothKeep.setEnd {p : κ} (hkeep : BothKeep pair dialedBy p l) {x : Side}
    {g : Goroutines κ} (hg : Kept (endInfo pair dialedBy x) p g (l.started x p)) :
    BothKeep pair dialedBy p (l.setEnd x g) := by
  intro y
  by_cases hy : y = x
  · subst hy
    simpa [Link.setEnd] using hg
  · simpa [Link.setEnd, Function.update_of_ne hy] using hkeep y

theorem BothKeep.next [DecidableEq κ] {p : κ} (hdom : ∀ x, Dominant (endInfo pair dialedBy x) p)
    (hkeep : BothKeep pair dialedBy p l) {a : LinkAction κ}
    (hstep : LinkStep pair dialedBy l a l') : BothKeep pair dialedBy p l' := by
  cases hstep with
  | @connect x k c g fresh spawn =>
    intro y
    by_cases hy : y = x
    · subst hy
      by_cases hc : c = p
      · subst hc
        have hkept := hkeep y
        rw [fresh] at hkept
        simpa [Link.setEnd] using hkept.connect spawn
      · have hkept := (hkeep y).spawn (by simp [Op.session, hc]) spawn
        simpa [Link.setEnd, Function.update_of_ne (Ne.symm hc)] using hkept
    · simpa [Link.setEnd, Function.update_of_ne hy] using hkeep y
  | @run x k g turn => exact hkeep.setEnd ((hkeep x).turn (hdom x) turn)
  | @deliver x k c prog g shut held reaction spawn =>
    have hc : c ≠ p := by
      rintro rfl
      exact absurd shut (by simp [hkeep.open x.other])
    refine hkeep.setEnd ((hkeep x).spawn ?_ spawn)
    rcases reaction with rfl | rfl
    · simp [Op.session, hc]
    · simp [invalidate, Op.session, hc]

/-- Once everything has been installed the connection is mapped at both ends. -/
theorem BothKeep.settled {p : κ} (hkeep : BothKeep pair dialedBy p l) (hsettled : l.Settled)
    (x : Side) : (l.ends x).shared.get (pair.ids x.other) = some p := by
  have hkept := hkeep x
  rw [hsettled.started x p] at hkept
  cases hkept.hold with
  | due _ next _ =>
    rw [hsettled.done x] at next
    exact absurd next (by simp)
  | mapped mapped _ =>
    have hmapped : (l.ends x).shared.sessions (pair.ids x.other) = some p := mapped
    simp [Roster.get, hmapped, healthy_open hkept.healthy]

end BothEnds

section Contested
variable {info : κ → SessionConfig} {cur c : κ}

theorem install_rejected {r : Roster κ} (hmapped : r.sessions (info c).nodeID = some cur)
    (hhealthy : r.healthy cur = true) (hkept : preferNewSession (info c) (info cur) = false) :
    install info r c = (r, .rejected) := by
  have hinstalled := install_installed info r c
  generalize install info r c = result at hinstalled
  cases hinstalled with
  | unnamed _ => rfl
  | accepted free =>
    rw [hmapped] at free
    exact absurd free (by simp)
  | replaced mapped beaten =>
    rw [hmapped] at mapped
    cases mapped
    exact absurd (beaten hhealthy) (by simp [hkept])
  | rejected _ _ _ => rfl

variable [DecidableEq κ]

/-- A rejected session is closed by the goroutine that tried to install it. -/
theorem reject_turns (g : Goroutines κ) {k : ℕ}
    (hmapped : g.shared.sessions (info c).nodeID = some cur)
    (hhealthy : g.shared.healthy cur = true)
    (hkept : preferNewSession (info c) (info cur) = false) (hnext : g.todo k = [.install c]) :
    ∃ g', Run (RosterStep info) g [.run k false, .run k false, .run k false] g' ∧
      g'.shared.sessions = g.shared.sessions ∧ g'.todo k = [] ∧
      (g'.shared.flags c).closed = true ∧
      ∀ q, q ≠ c → g'.shared.flags q = g.shared.flags q := by
  have hinstall : RosterStep info g (.run k false)
      ⟨g.shared, Function.update g.todo k [.clearOnClose c, .close c]⟩ := by
    have hstep : RosterStep info g (.run k false) _ := .run hnext
    simpa [exec, install_rejected hmapped hhealthy hkept, afterInstall] using hstep
  have hclear : RosterStep info ⟨g.shared, Function.update g.todo k [.clearOnClose c, .close c]⟩
      (.run k false)
      ⟨g.shared.setFlags c { g.shared.flags c with onClose := false },
        Function.update g.todo k [.close c]⟩ := by
    have hstep : RosterStep info ⟨g.shared, Function.update g.todo k [.clearOnClose c, .close c]⟩
      (.run k false) _ := .run (Function.update_self _ _ _)
    simpa [exec] using hstep
  have hclose : RosterStep info
      ⟨g.shared.setFlags c { g.shared.flags c with onClose := false },
        Function.update g.todo k [.close c]⟩ (.run k false) _ := .run (Function.update_self _ _ _)
  refine ⟨_, .cons hinstall (.cons hclear (.single hclose)), ?_, ?_, ?_, ?_⟩
  · simp [exec, close_sessions, Roster.setFlags]
  · simp only [exec, close, Function.update_self, Roster.setFlags]
    split <;> rfl
  · simp only [exec, close]
    split
    · assumption
    · simp [Roster.setFlags]
  · intro q hq
    rw [exec_flags_of_ne _ _ _ hq]
    simp [Roster.setFlags, hq]

variable {pair : Pair} {dialedBy : κ → Side} {l l' : Link κ} {x : Side}

/-- Turns of one end as steps of the link. -/
theorem run_lift (ks : List ℕ) {g : Goroutines κ}
    (hrun : Run (RosterStep (endInfo pair dialedBy x)) (l.ends x)
      (ks.map fun k => .run k false) g) :
    Run (LinkStep pair dialedBy) l (ks.map (.run x)) (l.setEnd x g) := by
  induction ks generalizing l with
  | nil =>
    cases hrun
    simpa [Link.setEnd] using Run.nil l
  | cons k rest ih =>
    cases hrun with
    | @cons _ t _ _ _ hstep hrest =>
      refine .cons (.run hstep) ?_
      have hends : (l.setEnd x t).ends x = t := by simp [Link.setEnd]
      have hlift := ih (l := l.setEnd x t) (by rwa [hends])
      simpa [Link.setEnd] using hlift

/-- A connection is begun by an idle goroutine, and goroutines of that end take turns. -/
theorem connect_lift {k : ℕ} (ks : List ℕ) {g : Goroutines κ} (hfresh : l.started x c = false)
    (hidle : (l.ends x).todo k = [])
    (hrun : Run (RosterStep (endInfo pair dialedBy x))
      ⟨(l.ends x).shared, Function.update (l.ends x).todo k [.install c]⟩
      (ks.map fun k => .run k false) g) :
    Run (LinkStep pair dialedBy) l (.connect x k c :: ks.map (.run x))
      { l.setEnd x g with
        started := Function.update l.started x (Function.update (l.started x) c true) } := by
  refine .cons (.connect hfresh (.spawn hidle)) ?_
  have hlift := run_lift (x := x) (l := { l.setEnd x
      ⟨(l.ends x).shared, Function.update (l.ends x).todo k [.install c]⟩ with
      started := Function.update l.started x (Function.update (l.started x) c true) }) ks
    (by simpa [Link.setEnd] using hrun)
  simpa [Link.setEnd] using hlift

structure Guards (pair : Pair) (x : Side) (cur : κ) (l : Link κ) : Prop where
  mapped : (l.ends x).shared.sessions (pair.ids x.other) = some cur
  healthy : (l.ends x).shared.healthy cur = true
  idle : (l.ends x).todo 1 = []

structure OnlyAt (x : Side) (cs : List κ) (l l' : Link κ) : Prop where
  flags : ∀ q, q ∉ cs → l'.flags x q = l.flags x q
  started : ∀ q, q ∉ cs → l'.started x q = l.started x q
  ends : l'.ends x.other = l.ends x.other
  startedThere : l'.started x.other = l.started x.other

theorem other_ne (x : Side) : x.other ≠ x := by cases x <;> simp [Side.other]

theorem Guards.reject (hguards : Guards pair x cur l) (hfresh : l.started x c = false)
    (hc : c ≠ cur) (hkept : preferNewSession (endInfo pair dialedBy x c)
      (endInfo pair dialedBy x cur) = false) :
    ∃ as l', Run (LinkStep pair dialedBy) l as l' ∧ Guards pair x cur l' ∧
      (l'.flags x c).closed = true ∧ OnlyAt x [c] l l' := by
  obtain ⟨g', hrun, hsessions, hidle, hclosed, hflags⟩ :=
    reject_turns (k := 1) ⟨(l.ends x).shared, Function.update (l.ends x).todo 1 [.install c]⟩
      hguards.mapped hguards.healthy hkept (by simp)
  refine ⟨_, _, connect_lift [1, 1, 1] hfresh hguards.idle hrun, ⟨?_, ?_, ?_⟩, ?_, ⟨?_, ?_, ?_, ?_⟩⟩
  · simpa [Link.setEnd, hsessions] using hguards.mapped
  · have hcur := healthy_of_flags (hflags cur (Ne.symm hc)) hguards.healthy
    simpa [Link.setEnd] using hcur
  · simpa [Link.setEnd] using hidle
  · simpa [Link.flags, Link.setEnd] using hclosed
  · intro q hq
    simpa [Link.flags, Link.setEnd] using hflags q (by simpa using hq)
  · intro q hq
    simp [Function.update_of_ne (show q ≠ c by simpa using hq)]
  · simp [Link.setEnd, Function.update_of_ne (other_ne x)]
  · simp [Function.update_of_ne (other_ne x)]

/-- An end that keeps what it has closes all other connections as they come. -/
theorem Guards.reject_all (hguards : Guards pair x cur l) (cs : List κ) (hnodup : cs.Nodup)
    (hfresh : ∀ c ∈ cs, l.started x c = false) (hcur : cur ∉ cs)
    (hkept : ∀ c ∈ cs, preferNewSession (endInfo pair dialedBy x c)
      (endInfo pair dialedBy x cur) = false) :
    ∃ as l', Run (LinkStep pair dialedBy) l as l' ∧
      (∀ c ∈ cs, (l'.flags x c).closed = true) ∧ OnlyAt x cs l l' := by
  induction cs generalizing l with
  | nil => exact ⟨_, l, .nil l, by simp, ⟨fun _ _ => rfl, fun _ _ => rfl, rfl, rfl⟩⟩
  | cons c rest ih =>
    obtain ⟨hnotin, hnodup'⟩ := List.nodup_cons.mp hnodup
    obtain ⟨as₁, l₁, hrun₁, hguards₁, hclosed₁, honly₁⟩ := hguards.reject
      (hfresh c (by simp)) (by rintro rfl; simp at hcur) (hkept c (by simp))
    have hfresh₁ : ∀ q ∈ rest, l₁.started x q = false := by
      intro q hq
      rw [honly₁.started q (by rintro hmem; simp at hmem; exact hnotin (hmem ▸ hq))]
      exact hfresh q (by simp [hq])
    obtain ⟨as₂, l₂, hrun₂, hclosed₂, honly₂⟩ := ih hguards₁ hnodup' hfresh₁
      (fun hmem => hcur (by simp [hmem])) (fun q hq => hkept q (by simp [hq]))
    refine ⟨as₁ ++ as₂, l₂, hrun₁.append hrun₂, ?_, ⟨?_, ?_, ?_, ?_⟩⟩
    · intro q hq
      rcases List.mem_cons.mp hq with rfl | hq
      · rw [honly₂.flags q hnotin]
        exact hclosed₁
      · exact hclosed₂ q hq
    · intro q hq
      rw [List.mem_cons, not_or] at hq
      rw [honly₂.flags q hq.2, honly₁.flags q (by simpa using hq.1)]
    · intro q hq
      rw [List.mem_cons, not_or] at hq
      rw [honly₂.started q hq.2, honly₁.started q (by simpa using hq.1)]
    · rw [honly₂.ends, honly₁.ends]
    · rw [honly₂.startedThere, honly₁.startedThere]

structure Untouched (x : Side) (l : Link κ) : Prop where
  ends : l.ends x = (Link.start (κ := κ)).ends x
  started : l.started x = fun _ => false

/-- The first connection that an end installs is mapped. -/
theorem Untouched.guards (pair : Pair) (dialedBy : κ → Side) (huntouched : Untouched x l) (c : κ) :
    ∃ as l', Run (LinkStep pair dialedBy) l as l' ∧ Guards pair x c l' ∧ OnlyAt x [c] l l' := by
  have hinstall : install (endInfo pair dialedBy x) (l.ends x).shared c =
      ((l.ends x).shared.setSession (pair.ids x.other) (some c), .accepted) := by
    simp [install, endInfo, pair.named, huntouched.ends, Link.start]
  have hnext : Function.update (l.ends x).todo 0 [.install c] 0 = [.install c] :=
    Function.update_self _ _ _
  have hstep : RosterStep (endInfo pair dialedBy x)
      ⟨(l.ends x).shared, Function.update (l.ends x).todo 0 [.install c]⟩ (.run 0 false) _ :=
    .run hnext
  simp only [exec, hinstall, afterInstall, Function.update_idem] at hstep
  have hidle : ∀ k, (l.ends x).todo k = [] := by simp [huntouched.ends, Link.start]
  refine ⟨_, _, connect_lift [0] (by rw [huntouched.started]) (hidle 0) (.single hstep),
    ⟨?_, ?_, ?_⟩, ⟨?_, ?_, ?_, ?_⟩⟩
  · simp [Link.setEnd, Roster.setSession]
  · simp [Link.setEnd, Roster.setSession, Roster.healthy, huntouched.ends, Link.start, newSession]
  · simp [Link.setEnd, hidle]
  · simp [Link.flags, Link.setEnd, Roster.setSession]
  · intro q hq
    simp [Function.update_of_ne (show q ≠ c by simpa using hq)]
  · simp [Link.setEnd, Function.update_of_ne (other_ne x)]
  · simp [Function.update_of_ne (other_ne x)]

/-- An end can be brought to close every connection but one that no other beats. -/
theorem Untouched.keeps_one [Fintype κ] (huntouched : Untouched x l) (cur : κ)
    (hkept : ∀ c, preferNewSession (endInfo pair dialedBy x c)
      (endInfo pair dialedBy x cur) = false) :
    ∃ as l', Run (LinkStep pair dialedBy) l as l' ∧
      (∀ c, c ≠ cur → (l'.flags x c).closed = true) ∧ l'.ends x.other = l.ends x.other ∧
      l'.started x.other = l.started x.other := by
  obtain ⟨as₁, l₁, hrun₁, hguards, honly₁⟩ :=
    huntouched.guards pair dialedBy cur
  have hfresh : ∀ c ∈ (Finset.univ.erase cur).toList, l₁.started x c = false := by
    intro c hc
    rw [honly₁.started c (by simpa using hc), huntouched.started]
  obtain ⟨as₂, l₂, hrun₂, hclosed, honly₂⟩ := hguards.reject_all (Finset.univ.erase cur).toList
    (Finset.nodup_toList _) hfresh (by simp) (fun c _ => hkept c)
  refine ⟨as₁ ++ as₂, l₂, hrun₁.append hrun₂, ?_, ?_, ?_⟩
  · intro c hc
    exact hclosed c (by simpa using hc)
  · rw [honly₂.ends, honly₁.ends]
  · rw [honly₂.startedThere, honly₁.startedThere]

/-- Two connections that no other beats can each be kept by one end, and then no connection is
open at both. -/
theorem exists_all_closed [Fintype κ] {c₁ c₂ : κ} (hne : c₁ ≠ c₂)
    (hkept : ∀ x c, preferNewSession (endInfo pair dialedBy x c)
      (endInfo pair dialedBy x c₁) = false)
    (hkept' : ∀ x c, preferNewSession (endInfo pair dialedBy x c)
      (endInfo pair dialedBy x c₂) = false) :
    ∃ as l, Run (LinkStep pair dialedBy) Link.start as l ∧ ∀ c, ¬ l.Open c := by
  have hstart : ∀ x, Untouched x (Link.start (κ := κ)) := fun x => ⟨rfl, rfl⟩
  obtain ⟨as₁, l₁, hrun₁, hclosed₁, hends₁, hstarted₁⟩ :=
    (hstart .left).keeps_one c₁ (hkept .left)
  have hright : Untouched .right l₁ := ⟨hends₁, hstarted₁⟩
  obtain ⟨as₂, l₂, hrun₂, hclosed₂, hends₂, _⟩ := hright.keeps_one c₂ (hkept' .right)
  refine ⟨as₁ ++ as₂, l₂, hrun₁.append hrun₂, ?_⟩
  intro c hopen
  by_cases hc : c = c₁
  · subst hc
    exact absurd (hopen .right) (by simp [hclosed₂ c hne])
  · have hleft : l₂.flags .left c = l₁.flags .left c := by
      rw [Link.flags, Link.flags, show l₂.ends .left = l₁.ends .left from hends₂]
    exact absurd (hopen .left) (by simp [hleft, hclosed₁ c hc])

end Contested

/-- Unless the smaller ID dialed exactly one of the connections, or there is only one, two of
them are such that no connection beats either. -/
theorem exists_contested (c₀ : κ) {pair : Pair} {dialedBy : κ → Side}
    (hnone : ¬ ((∃! c, pair.ids (dialedBy c) = pair.smaller) ∨ ∃ c : κ, ∀ q, q = c)) :
    ∃ c₁ c₂ : κ, c₁ ≠ c₂ ∧
      (∀ x c, preferNewSession (endInfo pair dialedBy x c) (endInfo pair dialedBy x c₁) = false) ∧
      ∀ x c, preferNewSession (endInfo pair dialedBy x c) (endInfo pair dialedBy x c₂) = false := by
  obtain ⟨hmany, hseveral⟩ := not_or.mp hnone
  simp only [preferNewSession_endInfo, decide_eq_false_iff_not, not_and, not_not]
  by_cases hsmall : ∃ c, pair.ids (dialedBy c) = pair.smaller
  · obtain ⟨c₁, hc₁⟩ := hsmall
    obtain ⟨c₂, hc₂, hne⟩ : ∃ c₂, pair.ids (dialedBy c₂) = pair.smaller ∧ c₂ ≠ c₁ := by
      by_contra hall
      exact hmany ⟨c₁, hc₁, fun q hq => by_contra fun hne => hall ⟨q, hq, hne⟩⟩
    exact ⟨c₁, c₂, Ne.symm hne, fun _ _ _ => hc₁, fun _ _ _ => hc₂⟩
  · obtain ⟨c₂, hne⟩ : ∃ c₂, c₂ ≠ c₀ := by
      by_contra hall
      exact hseveral ⟨c₀, fun q => by_contra fun hne => hall ⟨q, hne⟩⟩
    exact ⟨c₀, c₂, Ne.symm hne, fun _ c hc => absurd ⟨c, hc⟩ hsmall,
      fun _ c hc => absurd ⟨c, hc⟩ hsmall⟩

/-- Both ends keep the same connection in every interleaving exactly when the smaller ID
dialed exactly one of them, or there is only one. -/
theorem same_connection_kept_iff [Fintype κ] [DecidableEq κ] (pair : Pair) (dialedBy : κ → Side) :
    (∀ as l, Run (LinkStep pair dialedBy) Link.start as l →
      (∃ c, l.Open c) ∧
      (l.Settled → ∃ c, l.Open c ∧
        ∀ x, (l.ends x).shared.get (pair.ids x.other) = some c)) ↔
    (∃! c, pair.ids (dialedBy c) = preferredDialer (pair.ids .left) (pair.ids .right)) ∨
      ∃ c : κ, ∀ q, q = c := by
  constructor
  · intro hall
    by_contra hnone
    obtain ⟨c₀, _⟩ := (hall [] Link.start (.nil _)).1
    obtain ⟨c₁, c₂, hne, hkept, hkept'⟩ := exists_contested c₀ hnone
    obtain ⟨as, l, hrun, hclosed⟩ := exists_all_closed hne hkept hkept'
    obtain ⟨c, hopen⟩ := (hall as l hrun).1
    exact hclosed c hopen
  · intro hone as l hrun
    obtain ⟨p, hdom⟩ := exists_dominant hone
    have hkeep : BothKeep pair dialedBy p l :=
      hrun.invariant (fun _ _ _ hk hst => hk.next hdom hst) (BothKeep.start p)
    exact ⟨⟨p, hkeep.open⟩, fun hsettled => ⟨p, hkeep.open, hkeep.settled hsettled⟩⟩

def twoNodes : Pair where
  ids
    | .left => ascii "a"
    | .right => ascii "b"
  distinct := by decide
  named := by intro x; cases x <;> decide

/-- An end installs one connection, then the other, which it closes, and then finds that the
first has been closed by the other end. -/
def installBoth (x : Side) (first second : Bool) : List (LinkAction Bool) :=
  [.connect x 0 first, .run x 0, .connect x 1 second, .run x 1, .run x 1, .run x 1, .run x 0,
    .run x 0, .run x 0, .run x 0, .run x 0]

def closeFirst (x : Side) (first : Bool) : List (LinkAction Bool) :=
  [.deliver x 2 first [.close first], .run x 2, .run x 2]

/-- The node a has dialed b twice. Its end keeps one connection and the other end the other
one, so both are closed, and in the end neither roster has a session. -/
theorem double_dial_closes_both :
    ∃ l, Run (LinkStep twoNodes fun _ : Bool => .left) Link.start
        (installBoth .left false true ++ installBoth .right true false ++
          closeFirst .left false ++ closeFirst .right true) l ∧
      l.Settled ∧ (∀ c, ¬ l.Open c) ∧
      ∀ x, (l.ends x).shared.get (twoNodes.ids x.other) = none := by
  refine ⟨?l, ?run, ⟨?_, ?_, ?_⟩, ?_, ?_⟩
  case run =>
    repeat
      first
      | exact .nil _
      | refine .cons (.run (.run rfl)) ?_
      | refine .cons (.connect rfl (.spawn rfl)) ?_
      | refine .cons (.deliver rfl (Or.inl rfl) (Or.inl rfl) (.spawn rfl)) ?_
  · rintro (_ | _) (_ | _) <;> rfl
  · rintro (_ | _) (_ | _ | _ | k) <;> rfl
  · rintro (_ | _) (_ | _) _ <;> rfl
  · rintro (_ | _) hopen <;> exact absurd (hopen .left) (by decide)
  · rintro (_ | _) <;> rfl

end TailSync.CrossDials
